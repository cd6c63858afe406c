import Mathlib.Data.List.Induction
import Efishell.Net.Reassembly

/-!
# Networking — what a context holds

`netReassemble_step` says once what a fragment can do to the table.  A context in use holds a list
of fragments (`Holds`): its bit map has the bytes that they cover, which no two of them share, and
its bytes are theirs.  Over a run these are the fragments of its key that arrived since it was
opened (`Since`), and a datagram is delivered when they tile it (`delivered_tiles`).

* `netReassemble_step`: one fragment, in terms of what its slot holds.
* `delivered_tiles`: what is delivered is tiled by the fragments of its key.
-/

namespace Efishell.Reassembly

/-! ### The bit map -/

/-- The bit set, and the others. -/
theorem seenBit_setSeen {seen : Bytes} {i j : Nat} :
    seenBit (setSeen seen i) j = true ↔ j = i ∨ seenBit seen j = true := by
  rw [seenBit, setSeen, seenBit, Function.update_apply]
  by_cases hb : j / 8 = i / 8
  · rw [if_pos hb, testBit_setBit, hb, Bool.or_eq_true, decide_eq_true_eq]
    refine or_congr_left ⟨fun h => ?_, fun h => by rw [h]⟩
    omega
  · rw [if_neg hb]
    refine ⟨.inr, fun h => h.resolve_left ?_⟩
    rintro rfl
    exact hb rfl

/-- The bits of a range set. -/
theorem seenBit_markSeen : ∀ {n i j : Nat} {seen : Bytes},
    seenBit (markSeen seen i n) j = true ↔ (i ≤ j ∧ j < i + n) ∨ seenBit seen j = true := by
  intro n
  induction n with
  | zero =>
      intro i j seen
      rw [markSeen]
      exact ⟨.inr, fun h => h.resolve_left (by omega)⟩
  | succ n ih =>
      intro i j seen
      rw [markSeen, ih, seenBit_setSeen, ← or_assoc]
      refine or_congr_left ?_
      omega

/-- Some bit of the range is set. -/
theorem anySeen_iff : ∀ {n i : Nat} {seen : Bytes},
    anySeen seen i n = true ↔ ∃ j, i ≤ j ∧ j < i + n ∧ seenBit seen j = true := by
  intro n
  induction n with
  | zero =>
      intro i seen
      refine iff_of_false (by simp [anySeen]) ?_
      rintro ⟨j, h, h', -⟩
      omega
  | succ n ih =>
      intro i seen
      rw [anySeen, Bool.or_eq_true, ih]
      constructor
      · rintro (h | ⟨j, h, h', hj⟩)
        · exact ⟨i, le_refl i, by omega, h⟩
        · exact ⟨j, by omega, by omega, hj⟩
      · rintro ⟨j, h, h', hj⟩
        by_cases hij : j = i
        · exact .inl (hij ▸ hj)
        · exact .inr ⟨j, by omega, by omega, hj⟩

/-- Every bit of the range is set. -/
theorem allSeen_iff : ∀ {n i : Nat} {seen : Bytes},
    allSeen seen i n = true ↔ ∀ j, i ≤ j → j < i + n → seenBit seen j = true := by
  intro n
  induction n with
  | zero =>
      intro i seen
      exact iff_of_true rfl fun j h h' => by omega
  | succ n ih =>
      intro i seen
      rw [allSeen]
      by_cases hi : seenBit seen i = true
      · rw [if_neg (by simp [hi]), ih]
        constructor
        · intro h j hj hj'
          by_cases hij : j = i
          · exact hij ▸ hi
          · exact h j (by omega) (by omega)
        · exact fun h j hj hj' => h j (by omega) (by omega)
      · rw [if_pos (by simpa using hi)]
        exact iff_of_false (by simp) fun h => hi (h i (le_refl i) (by omega))

/-! ### Keys -/

/-- The fields two keys agree in. -/
theorem FragKey.same_iff {x k : FragKey} : x.same k = true ↔
    x.interface = k.interface ∧ x.family = k.family ∧ x.id = k.id ∧ x.protocol = k.protocol ∧
      (∀ i < netAddrBytes k.family, x.src i = k.src i) ∧
      ∀ i < netAddrBytes k.family, x.dst i = k.dst i := by
  simp only [same, Bool.and_eq_true, beq_iff_eq, netEqual_iff, and_assoc]

@[simp] theorem FragKey.same_refl (k : FragKey) : k.same k = true :=
  same_iff.mpr ⟨rfl, rfl, rfl, rfl, fun _ _ => rfl, fun _ _ => rfl⟩

theorem FragKey.same_symm {x k : FragKey} (h : x.same k = true) : k.same x = true := by
  obtain ⟨h₁, h₂, h₃, h₄, h₅, h₆⟩ := same_iff.mp h
  exact same_iff.mpr ⟨h₁.symm, h₂.symm, h₃.symm, h₄.symm, fun i hi => (h₅ i (h₂ ▸ hi)).symm,
    fun i hi => (h₆ i (h₂ ▸ hi)).symm⟩

theorem FragKey.same_trans {x k l : FragKey} (h : x.same k = true) (h' : k.same l = true) :
    x.same l = true := by
  obtain ⟨h₁, h₂, h₃, h₄, h₅, h₆⟩ := same_iff.mp h
  obtain ⟨g₁, g₂, g₃, g₄, g₅, g₆⟩ := same_iff.mp h'
  exact same_iff.mpr ⟨h₁.trans g₁, h₂.trans g₂, h₃.trans g₃, h₄.trans g₄,
    fun i hi => (h₅ i (g₂ ▸ hi)).trans (g₅ i hi), fun i hi => (h₆ i (g₂ ▸ hi)).trans (g₆ i hi)⟩

/-- Keys that are the same agree with the same keys. -/
theorem FragKey.same_congr {x k l : FragKey} (h : k.same l = true) : x.same k = x.same l := by
  rw [Bool.eq_iff_iff]
  exact ⟨fun h' => same_trans h' h, fun h' => same_trans h' (same_symm h)⟩

/-! ### The scan -/

/-- The table after the scan at the time `now`. -/
def expireAll (now : Nat) (slots : FragTable) : FragTable := fun i =>
  if i < netFrags then (slots i).expire now else slots i

/-- A slot still in use has not expired. -/
theorem expire_used {now : Nat} {x : NetFragment} (h : (x.expire now).used = true) :
    x.expire now = x ∧ x.used = true ∧ now < x.expires := by
  rw [NetFragment.expire] at h ⊢
  split at h
  · cases h
  · next hguard =>
      rw [if_neg hguard]
      refine ⟨rfl, h, ?_⟩
      simpa [h] using hguard

/-- What is known after `n` slots. -/
structure FragScan.Ok (now : Nat) (k : FragKey) (slots : FragTable) (n : Nat) (s : FragScan) :
    Prop where
  slots : ∀ i, s.slots i = if i < n then (slots i).expire now else slots i
  found : ∀ i, s.found = some i → i < n ∧ (s.slots i).used = true ∧ (s.slots i).key.same k = true
  missing : s.found = none → ∀ i < n, (s.slots i).used = true → (s.slots i).key.same k = false
  free : ∀ i, s.free = some i → i < n ∧ (s.slots i).used = false
  full : s.free = none → ∀ i < n, (s.slots i).used = true

section Step

variable {now n : Nat} {k : FragKey} {s : FragScan}

/-- The scan expires the slot. -/
theorem scanStep_slots :
    (scanStep now k s n).slots = Function.update s.slots n ((s.slots n).expire now) := by
  rw [scanStep]
  split
  · rfl
  · split <;> rfl

theorem scanStep_found : (scanStep now k s n).found =
    if ((s.slots n).expire now).used = true ∧ ((s.slots n).expire now).key.same k = true then some n
    else s.found := by
  rw [scanStep]
  by_cases hu : ((s.slots n).expire now).used = true
  · by_cases hk : ((s.slots n).expire now).key.same k = true
    · simp [hu, hk]
    · simp [hu, hk]
  · simp [hu]

theorem scanStep_free : (scanStep now k s n).free =
    if ((s.slots n).expire now).used = true then s.free else some n := by
  rw [scanStep]
  by_cases hu : ((s.slots n).expire now).used = true
  · by_cases hk : ((s.slots n).expire now).key.same k = true
    · simp [hu, hk]
    · simp [hu, hk]
  · simp [hu]

end Step

/-- One slot more. -/
theorem FragScan.Ok.step {now n : Nat} {k : FragKey} {slots : FragTable} {s : FragScan}
    (h : s.Ok now k slots n) : (scanStep now k s n).Ok now k slots (n + 1) := by
  -- the scan has not been at slot `n` yet
  have hn : s.slots n = slots n := by rw [h.slots, if_neg (Nat.lt_irrefl n)]
  have hbelow : ∀ i < n, (scanStep now k s n).slots i = s.slots i := fun i hi => by
    rw [scanStep_slots, Function.update_of_ne (Nat.ne_of_lt hi)]
  have hat : (scanStep now k s n).slots n = (slots n).expire now := by
    rw [scanStep_slots, Function.update_self, hn]
  have hfound := @scanStep_found now n k s
  have hfree := @scanStep_free now n k s
  rw [hn] at hfound hfree
  constructor
  · intro i
    rw [scanStep_slots, hn, Function.update_apply, h.slots]
    by_cases hin : i = n
    · subst hin
      rw [if_pos rfl, if_pos (Nat.lt_succ_self i)]
    · rw [if_neg hin]
      exact if_congr (by omega) rfl rfl
  · intro i hi
    rw [hfound] at hi
    split at hi
    · next hx =>
        cases hi
        rw [hat]
        exact ⟨Nat.lt_succ_self n, hx⟩
    · obtain ⟨hlt, hrest⟩ := h.found i hi
      rw [hbelow i hlt]
      exact ⟨Nat.lt_succ_of_lt hlt, hrest⟩
  · intro hi
    rw [hfound] at hi
    split at hi
    · cases hi
    · next hx =>
        intro i hlt hu
        rcases Nat.lt_succ_iff_lt_or_eq.mp hlt with hlt | rfl
        · rw [hbelow i hlt] at hu ⊢
          exact h.missing hi i hlt hu
        · rw [hat] at hu ⊢
          exact Bool.eq_false_iff.mpr fun hk => hx ⟨hu, hk⟩
  · intro i hi
    rw [hfree] at hi
    split at hi
    · obtain ⟨hlt, hrest⟩ := h.free i hi
      rw [hbelow i hlt]
      exact ⟨Nat.lt_succ_of_lt hlt, hrest⟩
    · next hx =>
        cases hi
        rw [hat]
        exact ⟨Nat.lt_succ_self n, Bool.eq_false_iff.mpr hx⟩
  · intro hi i hlt
    rw [hfree] at hi
    split at hi
    · next hx =>
        rcases Nat.lt_succ_iff_lt_or_eq.mp hlt with hlt | rfl
        · rw [hbelow i hlt]
          exact h.full hi i hlt
        · rw [hat]
          exact hx
    · cases hi

/-- The scan of all the slots. -/
theorem scanSlots_ok {now : Nat} {k : FragKey} {slots : FragTable} :
    (scanSlots now k slots).Ok now k slots netFrags := by
  rw [scanSlots]
  generalize netFrags = n
  induction n with
  | zero =>
      refine ⟨fun i => rfl, fun i hi => ?_, fun _ i hi => ?_, fun i hi => ?_, fun _ i hi => ?_⟩
      · cases hi
      · exact absurd hi (Nat.not_lt_zero i)
      · cases hi
      · exact absurd hi (Nat.not_lt_zero i)
  | succ n ih =>
      rw [List.range_succ, List.foldl_append]
      exact ih.step

theorem scanSlots_slots {now : Nat} {k : FragKey} {slots : FragTable} :
    (scanSlots now k slots).slots = expireAll now slots :=
  funext fun i => scanSlots_ok.slots i

/-! ### What a fragment can do -/

/-- Slot `i` holds the context of the key `k`. -/
def InUse (slots : FragTable) (k : FragKey) (i : Nat) : Prop :=
  i < netFrags ∧ (slots i).used = true ∧ (slots i).key.same k = true

/-- What the scan leaves in use was not changed, and has not expired. -/
theorem InUse.of_expireAll {now i : Nat} {slots : FragTable} {k : FragKey}
    (h : InUse (expireAll now slots) k i) :
    expireAll now slots i = slots i ∧ InUse slots k i ∧ now < (slots i).expires := by
  obtain ⟨hi, hu, hk⟩ := h
  have hat : expireAll now slots i = (slots i).expire now := if_pos hi
  rw [hat] at hu hk ⊢
  obtain ⟨heq, hused, hexp⟩ := expire_used hu
  rw [heq] at hk
  exact ⟨heq, ⟨hi, hused, hk⟩, hexp⟩

/-- A slot in use that has not expired stays. -/
theorem InUse.expireAll {now i : Nat} {slots : FragTable} {k : FragKey} (h : InUse slots k i)
    (hnow : now < (slots i).expires) : expireAll now slots i = slots i := by
  have hat : Reassembly.expireAll now slots i = (slots i).expire now := if_pos h.1
  rw [hat, NetFragment.expire, if_neg]
  simpa using fun _ => hnow

/-- The context that a fragment goes to, in the table after the scan. -/
inductive Target (now : Nat) (k : FragKey) (slots : FragTable) (i : Nat) : NetFragment → Prop where
  | found (h : InUse slots k i) : Target now k slots i (slots i)
  | opened (hi : i < netFrags) (hfree : (slots i).used = false) (hnone : ∀ j, ¬ InUse slots k j) :
      Target now k slots i (freshContext now k)

/-- The slot a fragment goes to is one of the table. -/
theorem Target.lt {now i : Nat} {k : FragKey} {slots : FragTable} {f : NetFragment}
    (h : Target now k slots i f) : i < netFrags := by
  cases h with
  | found h => exact h.1
  | opened hi _ _ => exact hi

theorem Target.same {now i : Nat} {k : FragKey} {slots : FragTable} {f : NetFragment}
    (h : Target now k slots i f) : f.key.same k = true := by
  cases h with
  | found h => exact h.2.2
  | opened _ _ _ => exact FragKey.same_refl k

/-- What becomes of the context `f`. -/
inductive Accepts (m : Fragment) (f : NetFragment) : NetFragment → Verdict → Prop where
  | discarded (h : f.clashes m = true) : Accepts m f { f with used := false } .discarded
  | kept (h : f.clashes m = false)
      (hopen : ¬ ((f.put m).finalSize ≠ 0 ∧ allSeen (f.put m).seen 0 (f.put m).finalSize = true)) :
      Accepts m f (f.put m) .kept
  | delivered (h : f.clashes m = false) (hsize : (f.put m).finalSize ≠ 0)
      (hall : allSeen (f.put m).seen 0 (f.put m).finalSize = true) :
      Accepts m f { f.put m with used := false }
        (.delivered ⟨m.key, (f.put m).bytes, (f.put m).finalSize⟩)

/-- What is done with a fragment in its slot. -/
theorem accept_accepts {m : Fragment} {i : Nat} {slots : FragTable} {f : NetFragment} :
    ∃ f' v, accept m i (Function.update slots i f) = (Function.update slots i f', v) ∧
      Accepts m f f' v := by
  rw [accept, Function.update_self]
  by_cases hc : f.clashes m = true
  · simp only [hc, if_true, Function.update_idem]
    exact ⟨_, _, rfl, .discarded hc⟩
  · simp only [hc, Bool.false_eq_true, if_false, Function.update_idem]
    rw [Bool.not_eq_true] at hc
    split
    · next hdone =>
        simp only [Bool.and_eq_true, bne_iff_ne] at hdone
        exact ⟨_, _, rfl, .delivered hc hdone.1 hdone.2⟩
    · next hdone =>
        simp only [Bool.and_eq_true, bne_iff_ne] at hdone
        exact ⟨_, _, rfl, .kept hc hdone⟩

/-- What a fragment can do to the table. -/
inductive Step (now : Nat) (m : Fragment) (slots : FragTable) : FragTable × Verdict → Prop where
  | invalid (h : m.invalid = true) : Step now m slots (slots, .invalid)
  | dropped (h : m.invalid = false) (hnone : ∀ j, ¬ InUse (expireAll now slots) m.key j)
      (hfull : ∀ j < netFrags, (expireAll now slots j).used = true) :
      Step now m slots (expireAll now slots, .dropped)
  | accepted {i : Nat} {f f' : NetFragment} {v : Verdict} (h : m.invalid = false)
      (htarget : Target now m.key (expireAll now slots) i f) (haccepts : Accepts m f f' v) :
      Step now m slots (Function.update (expireAll now slots) i f', v)

/-- `net_reassemble` is a step of the table. -/
theorem netReassemble_step {now : Nat} {m : Fragment} {slots : FragTable} :
    Step now m slots (netReassemble now m slots) := by
  rw [netReassemble]
  by_cases hv : m.invalid = true
  · rw [if_pos hv]
    exact .invalid hv
  · rw [if_neg hv]
    rw [Bool.not_eq_true] at hv
    obtain ⟨-, hfound, hmissing, hfree, hfull⟩ := @scanSlots_ok now m.key slots
    dsimp only
    rw [scanSlots_slots] at hfound hmissing hfree hfull ⊢
    split
    · next i hi =>
        obtain ⟨f', v, heq, hacc⟩ :=
          @accept_accepts m i (expireAll now slots) (expireAll now slots i)
        rw [Function.update_eq_self] at heq
        rw [heq]
        exact .accepted hv (.found (hfound i hi)) hacc
    · next hnone =>
        have hno : ∀ j, ¬ InUse (expireAll now slots) m.key j := fun j hj => by
          have := hmissing hnone j hj.1 hj.2.1
          rw [hj.2.2] at this
          cases this
        split
        · next hnofree => exact .dropped hv hno (hfull hnofree)
        · next i hi =>
            obtain ⟨f', v, heq, hacc⟩ :=
              @accept_accepts m i (expireAll now slots) (freshContext now m.key)
            rw [heq]
            exact .accepted hv (.opened (hfree i hi).1 (hfree i hi).2 hno) hacc

/-! ### What a context holds -/

/-- Byte `j` of the datagram is one of the fragment's. -/
def Fragment.Covers (m : Fragment) (j : Nat) : Prop := m.offset ≤ j ∧ j < m.offset + m.n

/-- The two fragments share no byte. -/
def Fragment.Apart (a b : Fragment) : Prop := a.offset + a.n ≤ b.offset ∨ b.offset + b.n ≤ a.offset

/-- One fragment alone has `more` false, and ends at `n`. -/
def OneLast (ms : List Fragment) (n : Nat) : Prop :=
  ∃ l₁ q l₂, ms = l₁ ++ q :: l₂ ∧ q.more = false ∧ q.offset + q.n = n ∧
    ∀ m ∈ l₁ ++ l₂, m.more = true

/-- The context holds the fragments `ms`. -/
structure Holds (f : NetFragment) (ms : List Fragment) : Prop where
  valid : ∀ m ∈ ms, m.invalid = false
  seen : ∀ j, seenBit f.seen j = true ↔ ∃ m ∈ ms, m.Covers j
  bytes : ∀ m ∈ ms, ∀ j < m.n, f.bytes (m.offset + j) = m.p j
  apart : ms.Pairwise Fragment.Apart
  final : (f.finalSize = 0 ∧ ∀ m ∈ ms, m.more = true) ∨
    (f.finalSize ≠ 0 ∧ (∀ m ∈ ms, m.offset + m.n ≤ f.finalSize) ∧ OneLast ms f.finalSize)

/-- A fragment that is not refused. -/
theorem Fragment.valid_iff {m : Fragment} : m.invalid = false ↔
    0 < m.n ∧ m.offset + m.n ≤ netFragBytes ∧ (m.more = true → m.n % 8 = 0) := by
  rw [← Bool.not_eq_true, invalid]
  by_cases hm : m.more = true
  · simp only [hm, Bool.or_eq_true, Bool.true_and, beq_iff_eq, bne_iff_ne, decide_eq_true_eq,
      not_or, true_implies]
    omega
  · simp only [hm, Bool.or_eq_true, Bool.false_and, beq_iff_eq, decide_eq_true_eq, not_or]
    simp
    omega

/-- Two fragments are apart if no byte is in both. -/
theorem Fragment.apart_iff {a b : Fragment} (ha : 0 < a.n) (hb : 0 < b.n) :
    a.Apart b ↔ ∀ j, ¬ (a.Covers j ∧ b.Covers j) := by
  simp only [Apart, Covers]
  constructor
  · intro h j hj
    omega
  · intro h
    have ha' := h a.offset
    have hb' := h b.offset
    omega

@[simp] theorem NetFragment.put_bytes {f : NetFragment} {m : Fragment} :
    (f.put m).bytes = memCopy f.bytes m.offset m.p 0 m.n := rfl

@[simp] theorem NetFragment.put_seen {f : NetFragment} {m : Fragment} :
    (f.put m).seen = markSeen f.seen m.offset m.n := rfl

/-- A fresh slot holds nothing. -/
theorem holds_fresh {now : Nat} {k : FragKey} : Holds (freshContext now k) [] where
  valid := fun m hm => absurd hm List.not_mem_nil
  seen := fun j => by simp [seenBit, freshContext]
  bytes := fun m hm => absurd hm List.not_mem_nil
  apart := .nil
  final := .inl ⟨rfl, fun m hm => absurd hm List.not_mem_nil⟩

/-- When a fragment does not clash with what is there. -/
theorem clashes_eq_false {f : NetFragment} {m : Fragment} : f.clashes m = false ↔
    (f.finalSize ≠ 0 → m.offset + m.n ≤ f.finalSize) ∧
    (m.more = false → f.finalSize ≠ 0 → f.finalSize = m.offset + m.n) ∧
    (∀ j, m.Covers j → seenBit f.seen j = false) ∧
    (m.more = false → ∀ j, m.offset + m.n ≤ j → j < netFragBytes → seenBit f.seen j = false) := by
  have hany : ∀ {i n : Nat}, anySeen f.seen i n = false ↔
      ∀ j, i ≤ j ∧ j < i + n → seenBit f.seen j = false := by
    intro i n
    rw [← Bool.not_eq_true, anySeen_iff]
    simp only [not_exists, not_and, Bool.not_eq_true, and_imp]
  have hrest : anySeen f.seen (m.offset + m.n) (netFragBytes - (m.offset + m.n)) = false ↔
      ∀ j, m.offset + m.n ≤ j → j < netFragBytes → seenBit f.seen j = false := by
    rw [hany]
    exact ⟨fun h j hj hj' => h j ⟨hj, by omega⟩, fun h j hj => h j hj.1 (by omega)⟩
  rw [NetFragment.clashes, Bool.or_eq_false_iff, Bool.or_eq_false_iff, Bool.or_eq_false_iff, hany]
  simp only [Bool.and_eq_false_iff, hrest, and_assoc, Fragment.Covers]
  cases m.more <;> simp <;> tauto

/-- **A fragment that does not clash is one more that the context holds.** -/
theorem Holds.put {f : NetFragment} {ms : List Fragment} {m : Fragment} (h : Holds f ms)
    (hm : m.invalid = false) (hc : f.clashes m = false) : Holds (f.put m) (ms ++ [m]) := by
  obtain ⟨hbound, hsame, hnew, habove⟩ := clashes_eq_false.mp hc
  obtain ⟨hn, hin, -⟩ := Fragment.valid_iff.mp hm
  have hapart : ∀ a ∈ ms, a.Apart m := by
    intro a ha
    refine (Fragment.apart_iff (Fragment.valid_iff.mp (h.valid a ha)).1 hn).mpr fun j hj => ?_
    have := hnew j hj.2
    rw [(h.seen j).mpr ⟨a, ha, hj.1⟩] at this
    cases this
  constructor
  · intro a ha
    rcases List.mem_append.mp ha with ha | ha
    · exact h.valid a ha
    · rw [List.mem_singleton.mp ha]
      exact hm
  · intro j
    rw [NetFragment.put_seen, seenBit_markSeen, h.seen]
    simp only [List.mem_append, List.mem_singleton, or_and_right, exists_or, exists_eq_left]
    exact or_comm
  · intro a ha j hj
    rw [NetFragment.put_bytes]
    rcases List.mem_append.mp ha with ha | ha
    · have := hapart a ha
      rw [Fragment.Apart] at this
      rw [memCopy_ne (by omega)]
      exact h.bytes a ha j hj
    · rw [List.mem_singleton.mp ha] at hj ⊢
      rw [memCopy_eq (by omega) (by omega)]
      simp
  · rw [List.pairwise_append]
    refine ⟨h.apart, List.pairwise_singleton _ _, fun a ha b hb => ?_⟩
    rw [List.mem_singleton.mp hb]
    exact hapart a ha
  · cases hmore : m.more with
    | true =>
        have hsize : (f.put m).finalSize = f.finalSize := by simp [NetFragment.put, hmore]
        rw [hsize]
        rcases h.final with ⟨h₀, hall⟩ | ⟨h₀, hends, l₁, q, l₂, hms, hq, hqe, hrest⟩
        · refine .inl ⟨h₀, fun a ha => ?_⟩
          rcases List.mem_append.mp ha with ha | ha
          · exact hall a ha
          · rw [List.mem_singleton.mp ha, hmore]
        · refine .inr ⟨h₀, fun a ha => ?_, l₁, q, l₂ ++ [m], by simp [hms], hq, hqe, fun a ha => ?_⟩
          · rcases List.mem_append.mp ha with ha | ha
            · exact hends a ha
            · rw [List.mem_singleton.mp ha]
              exact hbound h₀
          · rw [← List.append_assoc] at ha
            rcases List.mem_append.mp ha with ha | ha
            · exact hrest a ha
            · rw [List.mem_singleton.mp ha, hmore]
    | false =>
        have hsize : (f.put m).finalSize = m.offset + m.n := by simp [NetFragment.put, hmore]
        rw [hsize]
        rcases h.final with ⟨-, hall⟩ | ⟨h₀, -, l₁, q, l₂, hms, -, hqe, -⟩
        · refine .inr ⟨by omega, fun a ha => ?_, ms, m, [], rfl, hmore, rfl, by simpa using hall⟩
          rcases List.mem_append.mp ha with ha | ha
          · by_contra hover
            obtain ⟨han, hain, -⟩ := Fragment.valid_iff.mp (h.valid a ha)
            have hlast := habove hmore (a.offset + a.n - 1) (by omega) (by omega)
            rw [(h.seen _).mpr ⟨a, ha, by omega, by omega⟩] at hlast
            cases hlast
          · rw [List.mem_singleton.mp ha]
        · exfalso
          -- the last fragment is there already, and ends where this one does
          have hq : q ∈ ms := by simp [hms]
          have hqn := (Fragment.valid_iff.mp (h.valid q hq)).1
          have hqm := hapart q hq
          have := hsame hmore h₀
          rw [Fragment.Apart] at hqm
          omega

/-! ### Whole datagrams -/

/-- The fragments `ms` tile the datagram that is delivered. -/
structure Tiles (ms : List Fragment) (d : Delivery) : Prop where
  size : d.size ≤ netFragBytes
  apart : ms.Pairwise Fragment.Apart
  inside : ∀ m ∈ ms, 0 < m.n ∧ m.offset + m.n ≤ d.size
  covered : ∀ j < d.size, ∃ m ∈ ms, m.Covers j
  last : OneLast ms d.size
  bytes : ∀ m ∈ ms, ∀ j < m.n, d.bytes (m.offset + j) = m.p j

/-- A slot with every byte seen holds fragments that tile the datagram. -/
theorem Holds.tiles {f : NetFragment} {ms : List Fragment} {k : FragKey} (h : Holds f ms)
    (hsize : f.finalSize ≠ 0) (hall : allSeen f.seen 0 f.finalSize = true) :
    Tiles ms ⟨k, f.bytes, f.finalSize⟩ := by
  obtain ⟨hzero, -⟩ | ⟨-, hends, hlast⟩ := h.final
  · exact absurd hzero hsize
  · refine ⟨?_, h.apart, fun m hm => ⟨(Fragment.valid_iff.mp (h.valid m hm)).1, hends m hm⟩,
      fun j hj => ?_, hlast, h.bytes⟩
    · obtain ⟨l₁, q, l₂, hms, -, hq, -⟩ := hlast
      have := (Fragment.valid_iff.mp (h.valid q (by simp [hms]))).2.1
      exact hq ▸ this
    · exact (h.seen j).mp (allSeen_iff.mp hall j (Nat.zero_le j) (by simpa using hj))

/-! ### One step -/

/-- No two contexts have the same key. -/
def Unique (slots : FragTable) : Prop := ∀ k i j, InUse slots k i → InUse slots k j → i = j

/-- A slot holds a key if it is in use after the expiry. -/
theorem holdsKey_iff {slots : FragTable} {now i : Nat} {k : FragKey} :
    HoldsKey slots now k i ↔ InUse (expireAll now slots) k i := by
  constructor
  · rintro ⟨hi, hu, hnow, hk⟩
    have h : InUse slots k i := ⟨hi, hu, hk⟩
    rw [InUse, h.expireAll hnow]
    exact h
  · intro h
    obtain ⟨-, ⟨hi, hu, hk⟩, hnow⟩ := h.of_expireAll
    exact ⟨hi, hu, hnow, hk⟩

/-- A context of another key than the fragment's. -/
theorem InUse.other {slots : FragTable} {k l : FragKey} {i : Nat} (h : InUse slots k i)
    (hnone : ¬ InUse slots l i) : l.same k = false := by
  refine Bool.eq_false_iff.mpr fun hsame => hnone ⟨h.1, h.2.1, ?_⟩
  rw [FragKey.same_congr hsame]
  exact h.2.2

/-- A context in use after a step was left alone, or was given the fragment. -/
theorem Step.inUse {now j : Nat} {m : Fragment} {slots : FragTable} {r : FragTable × Verdict}
    {k : FragKey} (h : Step now m slots r) (hu : Unique slots) (hj : InUse r.1 k j) :
    (r.1 j = slots j ∧ InUse slots k j ∧ (m.invalid = true ∨ m.key.same k = false)) ∨
    (m.invalid = false ∧ m.key.same k = true ∧ r.2 = .kept ∧
      ∃ f, Target now m.key (expireAll now slots) j f ∧ f.clashes m = false ∧
        r.1 = Function.update (expireAll now slots) j (f.put m)) := by
  cases h with
  | invalid hv => exact .inl ⟨rfl, hj, .inl hv⟩
  | dropped hv hnone hfull =>
      obtain ⟨heq, hold, -⟩ := hj.of_expireAll
      exact .inl ⟨heq, hold, .inr (hj.other (hnone j))⟩
  | @accepted i f f' v hv htarget hacc =>
      by_cases hji : j = i
      · subst hji
        have hf' : Function.update (expireAll now slots) j f' j = f' := Function.update_self ..
        simp only [InUse, hf'] at hj
        obtain ⟨-, hused, hkey⟩ := hj
        cases hacc with
        | discarded _ => cases hused
        | delivered _ _ _ => cases hused
        | kept hc hopen =>
            refine .inr ⟨hv, ?_, rfl, f, htarget, hc, rfl⟩
            exact FragKey.same_trans (FragKey.same_symm htarget.same) hkey
      · have hother : Function.update (expireAll now slots) i f' j = expireAll now slots j :=
          Function.update_of_ne hji ..
        simp only [InUse, hother] at hj
        obtain ⟨heq, hold, -⟩ := InUse.of_expireAll hj
        refine .inl ⟨hother.trans heq, hold, .inr (InUse.other hj fun hsame => ?_)⟩
        cases htarget with
        | found h => exact hji (hu m.key j i hsame.of_expireAll.2.1 h.of_expireAll.2.1)
        | opened _ _ hnone => exact hnone j hsame

/-- A fragment is given to one context only. -/
theorem Step.unique {now : Nat} {m : Fragment} {slots : FragTable} {r : FragTable × Verdict}
    (h : Step now m slots r) (hu : Unique slots) : Unique r.1 := by
  -- a context beside the one that was given the fragment has another key
  have hgiven : ∀ {k : FragKey} {i j : Nat} {f : NetFragment}, m.key.same k = true →
      Target now m.key (expireAll now slots) i f →
      r.1 = Function.update (expireAll now slots) i (f.put m) → InUse r.1 k j → i = j := by
    intro k i j f hk htarget hr hj
    by_contra hij
    rw [hr, InUse, Function.update_of_ne (Ne.symm hij)] at hj
    have hj' : InUse (expireAll now slots) m.key j := by
      refine ⟨hj.1, hj.2.1, ?_⟩
      rw [FragKey.same_congr hk]
      exact hj.2.2
    cases htarget with
    | found hi => exact hij (hu m.key i j hi.of_expireAll.2.1 hj'.of_expireAll.2.1)
    | opened _ _ hnone => exact hnone j hj'
  intro k i j hi hj
  rcases h.inUse hu hi with ⟨-, hi', -⟩ | ⟨-, hk, -, f, hf, -, hr⟩
  · rcases h.inUse hu hj with ⟨-, hj', -⟩ | ⟨-, hk, -, f, hf, -, hr⟩
    · exact hu k i j hi' hj'
    · exact (hgiven hk hf hr hi).symm
  · exact hgiven hk hf hr hj

/-! ### Runs -/

/-- The fragments of the key `k`, in the order of their arrival. -/
def fragsOf (k : FragKey) (as : List Arrival) : List Fragment :=
  (as.map Arrival.frag).filter fun m => !m.invalid && m.key.same k

/-- The fragments of a key, arrival after arrival. -/
theorem fragsOf_append {k : FragKey} {as bs : List Arrival} :
    fragsOf k (as ++ bs) = fragsOf k as ++ fragsOf k bs := by
  rw [fragsOf, List.map_append, List.filter_append, fragsOf, fragsOf]

theorem fragsOf_own {k : FragKey} {x : Arrival} (hv : x.frag.invalid = false)
    (hk : x.frag.key.same k = true) : fragsOf k [x] = [x.frag] := by
  simp [fragsOf, hv, hk]

theorem fragsOf_other {k : FragKey} {x : Arrival}
    (h : x.frag.invalid = true ∨ x.frag.key.same k = false) : fragsOf k [x] = [] := by
  rcases h with h | h <;> simp [fragsOf, h]

/-- The table after one more arrival. -/
theorem tableAfter_append {slots : FragTable} {as : List Arrival} {x : Arrival} :
    tableAfter slots (as ++ [x]) =
      (netReassemble x.now x.frag (tableAfter slots as)).1 := by
  simp [tableAfter]

/-- Slot `i` holds the context of the key `k` that `first` opened: no other context of the key was
alive then, and this one is in use when any of `rest` arrives. -/
structure Since (as before : List Arrival) (first : Arrival) (rest : List Arrival) (k : FragKey)
    (i : Nat) : Prop where
  split : as = before ++ first :: rest
  opened : ∀ j, ¬ HoldsKey (tableAfter emptyTable before) first.now k j
  stays : ∀ mid y post, rest = mid ++ y :: post →
    InUse (tableAfter emptyTable (before ++ first :: mid)) k i

/-- What the table holds after the arrivals `as`. -/
structure TableOk (as : List Arrival) (slots : FragTable) : Prop where
  unique : Unique slots
  holds : ∀ k i, InUse slots k i → ∃ before first rest,
    Since as before first rest k i ∧ Holds (slots i) (fragsOf k (first :: rest))

/-- One more arrival while the slot stays in use. -/
theorem Since.extend {as before rest : List Arrival} {first x : Arrival} {k : FragKey} {i : Nat}
    (h : Since as before first rest k i) (hin : InUse (tableAfter emptyTable as) k i) :
    Since (as ++ [x]) before first (rest ++ [x]) k i := by
  refine ⟨by rw [h.split]; simp, h.opened, fun mid y post hsplit => ?_⟩
  rcases List.eq_nil_or_concat post with rfl | ⟨post, z, rfl⟩
  · obtain ⟨rfl, -⟩ := List.append_inj' hsplit rfl
    rw [← h.split]
    exact hin
  · refine h.stays mid y post ?_
    rw [List.concat_eq_append, ← List.cons_append, ← List.append_assoc] at hsplit
    exact (List.append_inj' hsplit rfl).1

/-- The fragments that a context holds when it is given one more. -/
theorem TableOk.target {as : List Arrival} {x : Arrival} {k : FragKey} {i : Nat} {f : NetFragment}
    (h : TableOk as (tableAfter emptyTable as)) (hv : x.frag.invalid = false)
    (hk : x.frag.key.same k = true)
    (htarget : Target x.now x.frag.key (expireAll x.now (tableAfter emptyTable as)) i f) :
    ∃ before first rest ms, Since (as ++ [x]) before first rest k i ∧ Holds f ms ∧
      fragsOf k (first :: rest) = ms ++ [x.frag] := by
  cases htarget with
  | found hi =>
      obtain ⟨heq, hin, -⟩ := hi.of_expireAll
      have hin' : InUse (tableAfter emptyTable as) k i := by
        refine ⟨hin.1, hin.2.1, ?_⟩
        rw [← FragKey.same_congr hk]
        exact hin.2.2
      obtain ⟨before, first, rest, hsince, hholds⟩ := h.holds k i hin'
      refine ⟨before, first, rest ++ [x], fragsOf k (first :: rest), hsince.extend hin', ?_, ?_⟩
      · rw [heq]
        exact hholds
      · rw [← List.cons_append, fragsOf_append, fragsOf_own hv hk]
  | opened hi hfree hnone =>
      refine ⟨as, x, [], [], ⟨rfl, fun j hj => ?_, fun mid y post hsplit => ?_⟩, holds_fresh,
        fragsOf_own hv hk⟩
      · refine hnone j ?_
        rw [← holdsKey_iff, HoldsKey, FragKey.same_congr hk]
        exact hj
      · cases mid <;> cases hsplit

/-- One more arrival keeps the invariant of the table. -/
theorem TableOk.step {as : List Arrival} {x : Arrival} (h : TableOk as (tableAfter emptyTable as)) :
    TableOk (as ++ [x]) (tableAfter emptyTable (as ++ [x])) := by
  rw [tableAfter_append]
  have hstep := @netReassemble_step x.now x.frag (tableAfter emptyTable as)
  refine ⟨hstep.unique h.unique, fun k i hi => ?_⟩
  rcases hstep.inUse h.unique hi with ⟨heq, hold, hother⟩ | ⟨hv, hk, -, f, hf, hc, hr⟩
  · obtain ⟨before, first, rest, hsince, hholds⟩ := h.holds k i hold
    refine ⟨before, first, rest ++ [x], hsince.extend hold, ?_⟩
    rw [heq, ← List.cons_append, fragsOf_append, fragsOf_other hother, List.append_nil]
    exact hholds
  · obtain ⟨before, first, rest, ms, hsince, hholds, hms⟩ := h.target hv hk hf
    refine ⟨before, first, rest, hsince, ?_⟩
    rw [hr, Function.update_self, hms]
    exact hholds.put hv hc

/-- It holds after any arrivals, by induction on them. -/
theorem tableOk : ∀ as : List Arrival, TableOk as (tableAfter emptyTable as) := by
  intro as
  induction as using List.reverseRecOn with
  | nil =>
      have hnone : ∀ k i, ¬ InUse emptyTable k i := by
        rintro k i ⟨-, hu, -⟩
        cases hu
      exact ⟨fun k i _ hi => absurd hi (hnone k i), fun k i hi => absurd hi (hnone k i)⟩
  | append_singleton as x ih => exact ih.step

/-- What is delivered, and from which context. -/
theorem Step.delivered {now : Nat} {m : Fragment} {slots : FragTable} {r : FragTable × Verdict}
    {d : Delivery} (h : Step now m slots r) (hd : r.2 = .delivered d) :
    m.invalid = false ∧ ∃ i f, Target now m.key (expireAll now slots) i f ∧ f.clashes m = false ∧
      (f.put m).finalSize ≠ 0 ∧ allSeen (f.put m).seen 0 (f.put m).finalSize = true ∧
      d = ⟨m.key, (f.put m).bytes, (f.put m).finalSize⟩ := by
  cases h with
  | invalid hv => cases hd
  | dropped hv hnone hfull => cases hd
  | @accepted i f f' v hv htarget hacc =>
      cases hacc with
      | discarded _ => cases hd
      | kept _ _ => cases hd
      | delivered hc hsize hall =>
          cases hd
          exact ⟨hv, i, f, htarget, hc, hsize, hall, rfl⟩

/-- **What is delivered.**  The fragments of the key that arrived since its context was opened tile
the datagram. -/
theorem delivered_tiles {as : List Arrival} {x : Arrival} {d : Delivery}
    (hd : (netReassemble x.now x.frag (tableAfter emptyTable as)).2 = .delivered d) :
    d.key = x.frag.key ∧ ∃ i before first rest, Since (as ++ [x]) before first rest d.key i ∧
      Tiles (fragsOf d.key (first :: rest)) d := by
  obtain ⟨hv, i, f, htarget, hc, hsize, hall, rfl⟩ := netReassemble_step.delivered hd
  obtain ⟨before, first, rest, ms, hsince, hholds, hms⟩ :=
    (tableOk as).target hv (FragKey.same_refl _) htarget
  refine ⟨rfl, i, before, first, rest, hsince, ?_⟩
  rw [hms]
  exact (hholds.put hv hc).tiles hsize hall

end Efishell.Reassembly
