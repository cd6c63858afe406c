import Efishell.Os.DnsName
import Efishell.Support.Components

/-!
# Shell — what the query says and what is read back

`osDnsName` comes to an end on every message, reads nothing outside it, writes no more than 254
bytes and leaves the position behind the name as it stands there (`osDnsName_sound`).  On the
query that `dnsQuery` makes it reads the labels of the host (`dnsLoop_labels`): this is the host
itself unless the user typed two full stops at the end (`name_reads_back_iff`).
-/

namespace Efishell

open Components

/-! ### Every message -/

/-- A length byte that is no pointer is below 64 or refused. -/
theorem pointer_or_label (len : UInt8) (h : ¬ len &&& 0xc0 ≠ 0) :
    len &&& 0xc0 = 0 ∧ len.toNat < 64 := by
  have hall : ∀ n < 256, ¬ UInt8.ofNat n &&& 0xc0 ≠ 0 → n < 64 := by
    decide +kernel
  have hlen := hall len.toNat len.toNat_lt
  rw [UInt8.ofNat_toNat] at hlen
  exact ⟨not_not.mp h, hlen h⟩

theorem putOut_ok {room : Nat} {c : UInt8} {out : List UInt8} (h : out.length < room) :
    putOut room c out = .ok (out ++ [c]) := if_pos h

/-- A dot before every label but the first. -/
theorem putDot_sound {room : Nat} {out : List UInt8} (h : out.length < room) :
    Sound (putDot room out) fun out' =>
      out'.length = out.length + if out.length ≠ 0 then 1 else 0 := by
  rw [putDot]
  split
  · rw [putOut_ok h]
    simp
  · rfl

/-- A label is read inside the packet and written inside the room. -/
theorem dnsLabel_sound {p : Buffer} {room : Nat} : ∀ {left at_ : Nat} {out : List UInt8},
    at_ + left ≤ p.size → out.length + left ≤ room →
    Sound (dnsLabel p room left at_ out) fun out' => out'.length = out.length + left := by
  intro left
  induction left with
  | zero => exact fun _ _ => rfl
  | succ left ih =>
      intro at_ out hat hout
      refine (Buffer.sound_byte (by omega)).bind fun c _ => Sound.guard fun _ => ?_
      rw [putOut_ok (by omega), ok_bind]
      refine (ih (by omega) ?_).mono fun out' h => ?_
      · rw [List.length_append, List.length_singleton]
        omega
      · rw [h, List.length_append, List.length_singleton]
        omega

/-- What is true of the scan of a name that begins at `start`. -/
structure DnsScan.Ok (p : Buffer) (start : Nat) (s : DnsScan) : Prop where
  jumps : s.jumps ≤ 32
  out : s.out.length ≤ 253
  ahead : s.jumped = false → ∀ e, NameEnds p s.at_ e → NameEnds p start e
  behind : s.jumped = true → NameEnds p start s.position

/-- The rounds that are left: fewer for every jump, and for every byte that is passed. -/
def DnsScan.measure (p : Buffer) (s : DnsScan) : Nat :=
  (32 - s.jumps) * (p.size + 1) + (p.size - s.at_)

/-- A pointer leads back, so the scan ends. -/
theorem DnsScan.Ok.pointer {p : Buffer} {start : Nat} {s : DnsScan} (h : s.Ok p start)
    (_ : s.at_ < p.size) (hlen : p.data s.at_ &&& 0xc0 = 0xc0) :
    Sound (dnsPointer p (p.data s.at_) s (s.at_ + 1)) fun s' =>
      s'.Ok p start ∧ s'.measure p < s.measure p := by
  refine Sound.guard fun hguard => ?_
  obtain ⟨hsize, hjumps⟩ := not_or.mp hguard
  refine (Buffer.sound_byte (by omega)).bind fun low _ => Sound.guard fun htarget => ?_
  have hend : NameEnds p s.at_ (s.at_ + 2) := .pointer (by omega) hlen
  refine ⟨⟨by dsimp only; omega, h.out, nofun, fun _ => ?_⟩, ?_⟩
  · dsimp only
    split
    · next hj => exact h.behind hj
    · next hj => exact h.ahead (by simpa using hj) _ hend
  · rw [measure, measure]
    dsimp only
    obtain ⟨k, hk⟩ : ∃ k, 32 - s.jumps = k + 1 := ⟨31 - s.jumps, by omega⟩
    rw [hk, show 32 - (s.jumps + 1) = k by omega, Nat.succ_mul k]
    omega

/-- **One round.**  It keeps what is true of the scan and lowers the measure, or it ends the scan
behind the name. -/
theorem DnsScan.Ok.round {p : Buffer} {room start : Nat} {s : DnsScan} (hroom : 254 ≤ room)
    (h : s.Ok p start) (hat : s.at_ < p.size) :
    Sound (dnsRound p room s) fun r =>
      match r with
      | .inl s' => s'.Ok p start ∧ s'.measure p < s.measure p
      | .inr (position, out) => NameEnds p start position ∧ out.length ≤ 253 := by
  have hout := h.out
  refine (Buffer.sound_byte hat).bind fun len hlen => ?_
  subst hlen
  refine Sound.ite (fun hzero => ?_) fun hzero => Sound.ite (fun hpointer => ?_) fun _ =>
    Sound.guard fun hguard => ?_
  · rw [if_pos (by omega)]
    refine ⟨?_, hout⟩
    split
    · next hj => exact h.behind hj
    · next hj => exact h.ahead (by simpa using hj) _ (.root hat hzero)
  · rw [map_eq_pure_bind]
    exact (h.pointer hat hpointer).bind fun s' hs' => hs'
  · obtain ⟨hlabel, hguard⟩ := not_or.mp hguard
    obtain ⟨hsize, hroom'⟩ := not_or.mp hguard
    obtain ⟨hbits, hshort⟩ := pointer_or_label _ hlabel
    refine (putDot_sound (by omega)).bind fun out hdot => ?_
    refine (dnsLabel_sound (by omega) (by omega)).bind fun out' hout' => ?_
    refine ⟨⟨h.jumps, ?_, fun hj e he => h.ahead hj e (.label ?_ hzero hbits he), h.behind⟩, ?_⟩
    · dsimp only
      omega
    · omega
    · rw [measure, measure]
      dsimp only
      omega

/-- A scan with more rounds than its measure comes to an end. -/
theorem dnsLoop_some {p : Buffer} {room start : Nat} (hroom : 254 ≤ room) :
    ∀ {rounds : Nat} {s : DnsScan}, s.Ok p start → s.measure p < rounds →
    ∃ r, dnsLoop p room rounds s = some r ∧
      Sound r fun r => NameEnds p start r.1 ∧ r.2.length ≤ 253 := by
  intro rounds
  induction rounds with
  | zero => exact fun _ h => absurd h (Nat.not_lt_zero _)
  | succ rounds ih =>
      intro s h hrounds
      rw [dnsLoop]
      by_cases hat : p.size ≤ s.at_
      · exact ⟨_, if_pos hat, sound_code⟩
      · rw [if_neg hat]
        have hround := h.round hroom (Nat.lt_of_not_le hat)
        cases hr : dnsRound p room s with
        | error e =>
            rw [hr] at hround
            exact ⟨_, rfl, hround⟩
        | ok r =>
            rw [hr] at hround
            cases r with
            | inl s' => exact ih hround.1 (by have := hround.2; omega)
            | inr r => exact ⟨_, rfl, hround⟩

/-- `os_dns_name` ends, and neither reads past the packet nor writes past the name. -/
theorem osDnsName_sound {p : Buffer} {room position : Nat} (hroom : 254 ≤ room) :
    ∃ r, osDnsName p room position = some r ∧
      Sound r fun r => NameEnds p position r.1 ∧ r.2.length ≤ 253 := by
  refine dnsLoop_some hroom ⟨by simp, by simp, fun _ _ he => he, fun h => by cases h⟩ ?_
  rw [DnsScan.measure]
  dsimp only
  omega

/-! ### What the query holds -/

theorem lower_fullStop {c : UInt8} : lower c = fullStop ↔ c = fullStop := by
  have hall : ∀ n < 256, lower (UInt8.ofNat n) = fullStop ↔ UInt8.ofNat n = fullStop := by
    decide +kernel
  have hc := hall c.toNat c.toNat_lt
  rwa [UInt8.ofNat_toNat] at hc

/-- Letters are lowered once. -/
theorem lower_lower (c : UInt8) : lower (lower c) = lower c := by
  have hall : ∀ n < 256, lower (lower (UInt8.ofNat n)) = lower (UInt8.ofNat n) := by
    decide +kernel
  have hc := hall c.toNat c.toNat_lt
  rwa [UInt8.ofNat_toNat] at hc

/-- The bytes of a label are put if they are printable. -/
theorem putLabelBytes_ok : ∀ {label query query' : List UInt8}, query.length + label.length ≤ 512 →
    (putLabelBytes label query = .ok query' ↔
      (∀ c ∈ label, ¬ (c < 33 ∨ 126 < c)) ∧ query' = query ++ label) := by
  intro label
  induction label with
  | nil =>
      intro query query' _
      simp [putLabelBytes, eq_comm]
  | cons c label ih =>
      intro query query' h
      rw [List.length_cons] at h
      rw [putLabelBytes, ok_guard, putOut_ok (by omega), ok_bind, ih (by simp; omega),
        List.forall_mem_cons, List.append_assoc, List.singleton_append, and_assoc]

/-- A label is put into the query when it is one and there is room. -/
theorem putLabel_ok {label query query' : List UInt8} (hdot : fullStop ∉ label) :
    putLabel label query = .ok query' ↔
      IsLabel label ∧ query.length + label.length + 6 ≤ 512 ∧
        query' = query ++ UInt8.ofNat label.length :: label := by
  rw [putLabel, ok_guard]
  constructor
  · rintro ⟨hguard, h⟩
    rw [putOut_ok (by omega), ok_bind, putLabelBytes_ok (by simp; omega)] at h
    refine ⟨⟨fun hnil => hguard (.inl (by rw [hnil]; rfl)), by omega, fun c hc => ?_⟩, by omega, ?_⟩
    · rintro (hlow | hhigh | rfl)
      · exact h.1 c hc (.inl hlow)
      · exact h.1 c hc (.inr hhigh)
      · exact hdot hc
    · rw [h.2, List.append_assoc, List.singleton_append]
  · rintro ⟨hlabel, hroom, rfl⟩
    have hpos := List.length_pos_iff.mpr hlabel.ne_nil
    have hshort := hlabel.short
    refine ⟨by omega, ?_⟩
    rw [putOut_ok (by omega), ok_bind, putLabelBytes_ok (by simp; omega), List.append_assoc,
      List.singleton_append]
    exact ⟨fun c hc h => hlabel.chars c hc (by tauto), rfl⟩

/-- **What the loop over the host puts into the query**: the labels of the host, which has a full
stop between two of them, and may have one more at its end. -/
theorem encodeLoop_labels : ∀ {rest label query query' : List UInt8}, fullStop ∉ label →
    query.length + 5 ≤ 512 → encodeLoop rest label query = .ok query' →
    ∃ labels, (∀ l ∈ labels, IsLabel l) ∧ query' = query ++ wire labels ∧ query'.length + 5 ≤ 512 ∧
      (label ++ rest = [fullStop].intercalate labels ∨
        (labels ≠ [] ∧ label ++ rest = [fullStop].intercalate labels ++ [fullStop])) := by
  intro rest
  induction rest with
  | nil =>
      intro label query query' hdot hroom h
      rw [encodeLoop] at h
      by_cases hnil : label = []
      · rw [if_pos hnil] at h
        cases h
        exact ⟨[], by simp, by simp [wire], hroom, .inl (by simp [hnil])⟩
      · rw [if_neg hnil, putLabel_ok hdot] at h
        obtain ⟨hlabel, hlen, rfl⟩ := h
        refine ⟨[label], by simpa using hlabel, by simp [wire], ?_, .inl (by simp)⟩
        simp only [List.length_append, List.length_cons]
        omega
  | cons c rest ih =>
      intro label query query' hdot hroom h
      rw [encodeLoop] at h
      by_cases hc : c = fullStop
      · subst hc
        rw [if_pos rfl] at h
        obtain ⟨query₁, hput, h⟩ := bind_eq_ok.mp h
        obtain ⟨hlabel, hlen, rfl⟩ := (putLabel_ok hdot).mp hput
        obtain ⟨labels, hlabels, rfl, hroom', hrest⟩ := ih (by simp)
          (by simp only [List.length_append, List.length_cons]; omega) h
        rw [List.nil_append] at hrest
        refine ⟨label :: labels, by simpa [hlabel] using hlabels, by simp [wire], hroom', ?_⟩
        -- nothing behind the full stop: it is the one at the end
        by_cases hnil : labels = []
        · subst hnil
          obtain rfl : rest = [] := by simpa using hrest
          exact .inr ⟨by simp, by simp⟩
        · rw [intercalate_cons hnil]
          rcases hrest with rfl | ⟨-, rfl⟩
          · exact .inl rfl
          · exact .inr ⟨by simp, by simp⟩
      · rw [if_neg hc] at h
        have hdot' : fullStop ∉ label ++ [c] := by
          simpa [hdot] using fun h => hc h.symm
        obtain ⟨labels, hlabels, hquery, hroom', hrest⟩ := ih hdot' hroom h
        rw [List.append_assoc, List.singleton_append] at hrest
        exact ⟨labels, hlabels, hquery, hroom', hrest⟩

/-! ### Reading it back -/

/-- The bytes `bs` stand at `i`. -/
def Buffer.Has (p : Buffer) (i : Nat) (bs : List UInt8) : Prop :=
  i + bs.length ≤ p.size ∧ ∀ k < bs.length, p.data (i + k) = bs.getD k 0

/-- The first byte of what the buffer has. -/
theorem Buffer.Has.head {p : Buffer} {i : Nat} {b : UInt8} {bs : List UInt8}
    (h : p.Has i (b :: bs)) : i < p.size ∧ p.data i = b ∧ p.Has (i + 1) bs := by
  obtain ⟨hsize, hdata⟩ := h
  rw [List.length_cons] at hsize
  refine ⟨by omega, hdata 0 (by simp), by omega, fun k hk => ?_⟩
  have := hdata (k + 1) (by simpa using hk)
  rwa [List.getD_cons_succ, ← Nat.add_assoc, Nat.add_right_comm] at this

/-- One part, and then the next. -/
theorem Buffer.Has.append {p : Buffer} {i : Nat} {as bs : List UInt8} (h : p.Has i (as ++ bs)) :
    p.Has i as ∧ p.Has (i + as.length) bs := by
  induction as generalizing i with
  | nil => exact ⟨⟨by have := h.1; simp at this ⊢; omega, by simp⟩, h⟩
  | cons a as ih =>
      obtain ⟨hi, ha, hrest⟩ := h.head
      obtain ⟨has, hbs⟩ := ih hrest
      refine ⟨⟨?_, fun k hk => ?_⟩, ?_⟩
      · have := has.1
        rw [List.length_cons]
        omega
      · cases k with
        | zero => exact ha
        | succ k =>
            have := has.2 k (by simpa using hk)
            rwa [List.getD_cons_succ, ← Nat.add_assoc, Nat.add_right_comm]
      · rwa [List.length_cons, Nat.add_comm as.length, ← Nat.add_assoc]

/-- A packet has each of its parts. -/
theorem packet_has (xs bs ys : List UInt8) : (packet (xs ++ bs ++ ys)).Has xs.length bs := by
  refine ⟨?_, fun k hk => ?_⟩
  · simp only [packet, List.length_append]
    omega
  · simp only [packet, List.getD_eq_getElem?_getD]
    rw [List.append_assoc, List.getElem?_append_right (Nat.le_add_right _ _),
      Nat.add_sub_cancel_left, List.getElem?_append_left hk]

/-- What `out` holds when the labels have been read. -/
def joined : List UInt8 → List (List UInt8) → List UInt8
  | out, [] => out
  | out, l :: labels => joined (out ++ (if out.length ≠ 0 then [fullStop] else []) ++ l) labels

/-- The labels joined, from nothing. -/
theorem joined_nil {labels : List (List UInt8)} (h : ∀ l ∈ labels, IsLabel l) :
    joined [] labels = [fullStop].intercalate labels := by
  have htail : ∀ (labels : List (List UInt8)) (out : List UInt8), out ≠ [] →
      joined out labels = out ++ labels.flatMap fun l => fullStop :: l := by
    intro labels
    induction labels with
    | nil => simp [joined]
    | cons l labels ih =>
        intro out hout
        rw [joined, ih _ (by simp [hout]), if_pos (by simpa using hout)]
        simp
  cases labels with
  | nil => rfl
  | cons l labels =>
      rw [joined, intercalate_flatMap, htail labels _ (by simpa using (h l (by simp)).ne_nil)]
      simp

/-- Joining only adds. -/
theorem length_le_joined (out : List UInt8) (labels : List (List UInt8)) :
    out.length ≤ (joined out labels).length := by
  induction labels generalizing out with
  | nil => exact le_refl _
  | cons l labels ih =>
      have h := ih (out ++ (if out.length ≠ 0 then [fullStop] else []) ++ l)
      simp only [List.length_append] at h
      rw [joined]
      omega

/-- A label in lower case is read as it is. -/
theorem dnsLabel_ok {p : Buffer} {room : Nat} : ∀ {l : List UInt8} {at_ : Nat} {out : List UInt8},
    p.Has at_ l → (∀ c ∈ l, ¬ (c < 33 ∨ 126 < c ∨ c = fullStop) ∧ lower c = c) →
    out.length + l.length ≤ room → dnsLabel p room l.length at_ out = .ok (out ++ l) := by
  intro l
  induction l with
  | nil =>
      intro at_ out _ _ _
      rw [List.length_nil, dnsLabel, List.append_nil]
  | cons c l ih =>
      intro at_ out hp hl hroom
      obtain ⟨hat, hc, hp⟩ := hp.head
      obtain ⟨hchar, hlow⟩ := hl c (by simp)
      rw [List.length_cons] at hroom
      rw [List.length_cons, dnsLabel, Buffer.byte, if_pos hat, ok_bind, hc, if_neg hchar, hlow,
        putOut_ok (by omega), ok_bind, ih hp (fun d hd => hl d (List.mem_cons_of_mem c hd))
        (by simp; omega), List.append_assoc, List.singleton_append]

/-- A label in lower case, and what its length byte looks like. -/
theorem IsLabel.length_byte {l : List UInt8} (h : IsLabel l) :
    (UInt8.ofNat l.length).toNat = l.length ∧ UInt8.ofNat l.length ≠ 0 ∧
      UInt8.ofNat l.length &&& 0xc0 = 0 := by
  have hall : ∀ n < 64, (UInt8.ofNat n).toNat = n ∧ (n ≠ 0 → UInt8.ofNat n ≠ 0) ∧
      UInt8.ofNat n &&& 0xc0 = 0 := by
    decide
  have hshort := h.short
  obtain ⟨hn, hz, hbits⟩ := hall l.length (by omega)
  exact ⟨hn, hz (fun h0 => h.ne_nil (List.length_eq_zero_iff.mp h0)), hbits⟩

/-- **The labels read back.**  Where labels in lower case stand in the message and the empty one
behind them, the scan joins them to what it has; by induction on the labels. -/
theorem dnsLoop_labels {p : Buffer} {room position : Nat} (hroom : 254 ≤ room) :
    ∀ {labels : List (List UInt8)} {at_ rounds : Nat} {out : List UInt8},
    p.Has at_ (wire labels ++ [0]) →
    (∀ l ∈ labels, IsLabel l ∧ ∀ c ∈ l, lower c = c) → (joined out labels).length ≤ 253 →
    labels.length < rounds →
    dnsLoop p room rounds ⟨at_, 0, false, position, out⟩ =
      some (.ok (at_ + (wire labels).length + 1, joined out labels)) := by
  intro labels
  induction labels with
  | nil =>
      intro at_ rounds out hp _ hout hrounds
      obtain ⟨rounds, rfl⟩ : ∃ n, rounds = n + 1 := ⟨rounds - 1, by simp at hrounds; omega⟩
      obtain ⟨hat, hzero, -⟩ := Buffer.Has.head hp
      rw [joined] at hout
      rw [dnsLoop, if_neg (by dsimp only; omega), dnsRound, Buffer.byte, if_pos hat, ok_bind, hzero]
      simp [joined, wire, show out.length < room by omega]
  | cons l labels ih =>
      intro at_ rounds out hp hlabels hout hrounds
      obtain ⟨rounds, rfl⟩ : ∃ n, rounds = n + 1 := ⟨rounds - 1, by simp at hrounds; omega⟩
      obtain ⟨hl, hlow⟩ := hlabels l (by simp)
      obtain ⟨hlen, hne, hbits⟩ := hl.length_byte
      have hwire : wire (l :: labels) ++ [0] =
          UInt8.ofNat l.length :: (l ++ (wire labels ++ [0])) := by
        simp [wire]
      rw [hwire] at hp
      obtain ⟨hat, hbyte, hp⟩ := hp.head
      obtain ⟨hchars, hp⟩ := hp.append
      have hsize := hchars.1
      have hjoin :=
        length_le_joined (out ++ (if out.length ≠ 0 then [fullStop] else []) ++ l) labels
      rw [joined] at hout
      have hsum : (out ++ (if out.length ≠ 0 then [fullStop] else []) ++ l).length =
          out.length + (if out.length ≠ 0 then 1 else 0) + l.length := by
        rw [List.length_append, List.length_append]
        split <;> rfl
      have hle : out.length + (if out.length ≠ 0 then 1 else 0) + l.length ≤ 253 :=
        hsum ▸ hjoin.trans hout
      have hdot : putDot room out = .ok (out ++ if out.length ≠ 0 then [fullStop] else []) := by
        rw [putDot]
        split
        · exact putOut_ok (by omega)
        · rw [List.append_nil]
      have hbits' : ¬ UInt8.ofNat l.length &&& 0xc0 = 0xc0 := by
        rw [hbits]
        decide
      -- one round copies the label behind what is there, with a full stop between them
      have hround : dnsRound p room ⟨at_, 0, false, position, out⟩ =
          .ok (.inl ⟨at_ + 1 + l.length, 0, false, position,
            out ++ (if out.length ≠ 0 then [fullStop] else []) ++ l⟩) := by
        rw [dnsRound, Buffer.byte, if_pos hat, ok_bind, hbyte, if_neg hne, if_neg hbits', hlen,
          if_neg (by simp only [hbits, ne_eq, not_true_eq_false, false_or] at hle ⊢; omega),
          hdot, ok_bind, dnsLabel_ok hchars (fun c hc => ⟨hl.chars c hc, hlow c hc⟩)
            (by rw [← List.length_append, hsum]; exact hle.trans (by omega))]
        rfl
      rw [dnsLoop, if_neg (by dsimp only; omega), hround]
      rw [List.length_cons] at hrounds
      dsimp only
      rw [ih hp (fun l' h' => hlabels l' (List.mem_cons_of_mem l h')) hout (by omega), joined]
      simp only [wire, List.flatMap_cons, List.length_append, List.length_cons, Option.some.injEq,
        Except.ok.injEq, Prod.mk.injEq, and_true]
      omega

/-! ### The host -/

/-- The name has no full stop at its end. -/
theorem intercalate_getLast {labels : List (List UInt8)} (h : ∀ l ∈ labels, IsLabel l) :
    ([fullStop].intercalate labels).getLast? ≠ some fullStop := by
  induction labels with
  | nil => simp
  | cons l labels ih =>
      have hl := h l (by simp)
      cases labels with
      | nil =>
          rw [List.intercalate_singleton]
          intro hlast
          exact hl.chars fullStop (List.mem_of_getLast? hlast) (.inr (.inr rfl))
      | cons l' labels =>
          have hrest : ∀ m ∈ l' :: labels, IsLabel m := fun m hm => h m (List.mem_cons_of_mem l hm)
          have hne : [fullStop].intercalate (l' :: labels) ≠ [] := by
            rw [intercalate_flatMap]
            simpa using fun h' => absurd h' (hrest l' (by simp)).ne_nil
          rw [intercalate_cons (by simp), List.getLast?_append, List.getLast?_cons,
            List.getLast?_eq_some_getLast hne]
          have := ih hrest
          rw [List.getLast?_eq_some_getLast hne] at this
          simpa using this

/-- The host ends in a full stop when two were typed. -/
theorem dnsHost_getLast {hostname host : List UInt8} (h : dnsHost hostname = .ok host) :
    host.getLast? = some fullStop ↔ [fullStop, fullStop] <:+ hostname := by
  rw [dnsHost, ok_guard] at h
  obtain ⟨hlen, h⟩ := h
  cases h
  rcases List.eq_nil_or_concat hostname with rfl | ⟨front, c, rfl⟩
  · exact absurd (.inl rfl) hlen
  · rw [List.concat_eq_append, dnsLength, List.getLast?_concat]
    have hsuffix : [fullStop, fullStop] <:+ front ++ [c] ↔
        c = fullStop ∧ front.getLast? = some fullStop := by
      rw [List.getLast?_eq_some_iff]
      constructor
      · rintro ⟨pre, hpre⟩
        rw [show [fullStop, fullStop] = [fullStop] ++ [fullStop] from rfl,
          ← List.append_assoc] at hpre
        obtain ⟨hfront, hc⟩ := List.append_inj' hpre rfl
        exact ⟨(List.singleton_inj.mp hc).symm, pre, hfront.symm⟩
      · rintro ⟨rfl, pre, rfl⟩
        exact ⟨pre, by simp⟩
    rw [hsuffix]
    by_cases hc : c = fullStop
    · subst hc
      rw [if_pos rfl, List.length_append, List.length_singleton, Nat.add_sub_cancel, List.take_left,
        List.getLast?_map]
      cases front.getLast? with
      | none => simp
      | some d => simp [lower_fullStop]
    · rw [if_neg (by simpa using hc), List.take_length, List.getLast?_map, List.getLast?_concat]
      simp [lower_fullStop, hc]

theorem putOut16_ok {x : Nat} {query : List UInt8} (h : query.length + 2 ≤ 512) :
    putOut16 x query = .ok (query ++ [UInt8.ofNat (x / 256), UInt8.ofNat x]) := by
  rw [putOut16, putOut_ok (by omega), ok_bind, putOut_ok (by simp; omega), List.append_assoc]
  rfl

/-- The bytes of a label are bytes of the name. -/
theorem mem_intercalate {labels : List (List UInt8)} {l : List UInt8} {c : UInt8} (hl : l ∈ labels)
    (hc : c ∈ l) : c ∈ [fullStop].intercalate labels := by
  cases labels with
  | nil => simp at hl
  | cons m labels =>
      rw [intercalate_flatMap, List.mem_append, List.mem_flatMap]
      rcases List.mem_cons.mp hl with rfl | hl
      · exact .inl hc
      · exact .inr ⟨l, hl, List.mem_cons_of_mem _ hc⟩

/-- Every label takes a byte or more. -/
theorem length_le_wire (labels : List (List UInt8)) : labels.length ≤ (wire labels).length := by
  induction labels with
  | nil => simp
  | cons l labels ih =>
      simp only [wire, List.flatMap_cons, List.length_append, List.length_cons] at ih ⊢
      omega

/-- **The query says the host**, unless two full stops were typed at its end: then it says the host
without the last one of them. -/
theorem name_reads_back {hostname host query : List UInt8} {family xid : Nat}
    (h : dnsQuery hostname family xid = .ok (host, query)) :
    query.length ≤ 512 ∧
      (osDnsName (packet query) 256 12 = some (.ok (query.length - 4, host)) ↔
        ¬ [fullStop, fullStop] <:+ hostname) := by
  obtain ⟨host', hhost, h⟩ := bind_eq_ok.mp h
  obtain ⟨query₁, hencode, h⟩ := bind_eq_ok.mp h
  have hheader : (dnsHeader xid).length = 12 := rfl
  obtain ⟨labels, hlabels, hquery, hroom, htext⟩ :=
    encodeLoop_labels (by simp) (by rw [hheader]; decide) hencode
  rw [List.nil_append] at htext
  rw [putOut_ok (by omega), ok_bind, putOut16_ok (by simp; omega), ok_bind,
    putOut16_ok (by simp; omega), ok_bind, hquery] at h
  obtain ⟨rfl, rfl⟩ := Prod.mk.inj (Except.ok.inj h)
  rw [hquery, List.length_append, hheader] at hroom
  -- the host is in lower case, and so are its labels
  have hlow : ∀ c ∈ host', lower c = c := by
    rw [dnsHost, ok_guard] at hhost
    obtain ⟨-, hhost⟩ := hhost
    cases hhost
    intro c hc
    obtain ⟨d, -, rfl⟩ := List.mem_map.mp hc
    exact lower_lower d
  have hmem : ∀ l ∈ labels, ∀ c ∈ l, c ∈ host' := by
    intro l hl c hc
    rcases htext with htext | ⟨-, htext⟩
    · rw [htext]
      exact mem_intercalate hl hc
    · rw [htext]
      exact List.mem_append_left _ (mem_intercalate hl hc)
  have hlen : ([fullStop].intercalate labels).length ≤ 253 := by
    have hle : ([fullStop].intercalate labels).length ≤ host'.length := by
      rcases htext with htext | ⟨-, htext⟩
      · rw [htext]
      · rw [htext, List.length_append]
        exact Nat.le_add_right _ _
    rw [dnsHost, ok_guard] at hhost
    obtain ⟨hguard, hhost⟩ := hhost
    cases hhost
    rw [List.length_map, List.length_take] at hle
    omega
  have hread : osDnsName (packet (dnsHeader xid ++ wire labels ++ [0] ++
      [UInt8.ofNat ((if family = 4 then 1 else 28) / 256),
        UInt8.ofNat (if family = 4 then 1 else 28)] ++ [UInt8.ofNat (1 / 256), UInt8.ofNat 1]))
      256 12 = some (.ok (12 + (wire labels).length + 1, [fullStop].intercalate labels)) := by
    rw [← joined_nil hlabels]
    refine dnsLoop_labels (by decide) ?_ (fun l hl => ⟨hlabels l hl, fun c hc =>
      hlow c (hmem l hl c hc)⟩) (by rwa [joined_nil hlabels]) ?_
    · have hhas := packet_has (dnsHeader xid) (wire labels ++ [0])
        ([UInt8.ofNat ((if family = 4 then 1 else 28) / 256),
          UInt8.ofNat (if family = 4 then 1 else 28)] ++ [UInt8.ofNat (1 / 256), UInt8.ofNat 1])
      rwa [hheader, ← List.append_assoc, ← List.append_assoc] at hhas
    · have := length_le_wire labels
      simp only [packet, List.length_append, hheader]
      omega
  rw [hread]
  simp only [List.length_append, List.length_cons, List.length_nil, hheader, Option.some.injEq,
    Except.ok.injEq, Prod.mk.injEq]
  refine ⟨by omega, ?_⟩
  rw [← dnsHost_getLast hhost]
  rcases htext with htext | ⟨-, htext⟩
  · rw [htext]
    exact iff_of_true ⟨by omega, rfl⟩ (intercalate_getLast hlabels)
  · refine iff_of_false (fun h => ?_) (not_not.mpr (by rw [htext, List.getLast?_concat]))
    have := congrArg List.length (h.2.trans htext)
    simp at this

/-- **Names in DNS messages.**  For a name that is accepted, that the query fits and says the host,
and that every message is read to an end, within its bounds, to 254 bytes at most and up to the end
of the name as it stands there, is to say that the user did not type two full stops at the end. -/
theorem name_reads_back_iff {hostname host query : List UInt8} {family xid : Nat}
    (h : dnsQuery hostname family xid = .ok (host, query)) :
    (query.length ≤ 512 ∧
      osDnsName (packet query) 256 12 = some (.ok (query.length - 4, host)) ∧
      ∀ (p : Buffer) (room position : Nat), 254 ≤ room →
        ∃ r, osDnsName p room position = some r ∧
          Sound r fun r => NameEnds p position r.1 ∧ r.2.length ≤ 253) ↔
      ¬ [fullStop, fullStop] <:+ hostname := by
  obtain ⟨hlen, hback⟩ := name_reads_back h
  refine ⟨fun h => hback.mp h.2.1, fun h => ⟨hlen, hback.mpr h, fun p room position hroom => ?_⟩⟩
  exact osDnsName_sound hroom

/-- The name `Ab.C.`, which asks for `ab.c`. -/
theorem name_reads_back_short :
    dnsQuery [65, 98, 46, 67, 46] 4 7 =
        .ok ([97, 98, 46, 99], dnsHeader 7 ++ [2, 97, 98, 1, 99, 0, 0, 1, 0, 1]) ∧
      osDnsName (packet (dnsHeader 7 ++ [2, 97, 98, 1, 99, 0, 0, 1, 0, 1])) 256 12 =
        some (.ok (18, [97, 98, 46, 99])) := by
  have hquery : dnsQuery [65, 98, 46, 67, 46] 4 7 =
      .ok ([97, 98, 46, 99], dnsHeader 7 ++ [2, 97, 98, 1, 99, 0, 0, 1, 0, 1]) := rfl
  exact ⟨hquery, ((name_reads_back_iff hquery).mpr (by decide)).2.1⟩

/-- The name `a..` is accepted; the query says `a`, and the answers are compared with `a.`. -/
theorem two_full_stops_are_lost :
    ¬ ∀ (hostname host query : List UInt8) (family xid : Nat),
      dnsQuery hostname family xid = .ok (host, query) →
      osDnsName (packet query) 256 12 = some (.ok (query.length - 4, host)) := by
  intro h
  have hquery : dnsQuery [97, 46, 46] 4 7 =
      .ok ([97, 46], dnsHeader 7 ++ [1, 97, 0, 0, 1, 0, 1]) := rfl
  exact (name_reads_back hquery).2.mp (h _ _ _ _ _ hquery) (by decide)

end Efishell
