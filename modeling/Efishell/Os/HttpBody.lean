import Mathlib.Data.List.TakeWhile
import Efishell.Net.AddressCodec
import Efishell.Os.HttpSplit

/-!
# Shell — HTTP message bodies

The framing of a response in its own terms: lines that end in CR LF, blocks of them that end in an
empty one (`Block`), interim responses before the final one (`Headed`), what the header fields say
of the body (`Frames`), and the body that follows (`BodyOf`).  A response that is read has the body
of its framing (`responseOf_sound`).

* `httpHead_returns`, `httpBody_returns`: the head and the body that are read.
* `responseOf_sound`: together, a response in its framing.
-/

namespace Efishell.Http

/-! ### Lines and heads -/

/-- A line holds no control character but the tab. -/
def IsLine (l : List UInt8) : Prop := ∀ c ∈ l, 32 ≤ c ∨ c = 9

/-- A line with its end. -/
def crlf (l : List UInt8) : List UInt8 := l ++ [13, 10]

/-- A line, and then the rest. -/
theorem crlf_append (l s : List UInt8) : crlf l ++ s = l ++ 13 :: 10 :: s := by
  rw [crlf, List.append_assoc, List.cons_append, List.singleton_append]

/-- A start line and the header lines after it. -/
structure Block where
  start : List UInt8
  fields : List (List UInt8)

/-- The bytes of a block of headers. -/
def Block.text (b : Block) : List UInt8 := crlf b.start ++ (b.fields.flatMap crlf ++ crlf [])

/-- The lines of a block are lines. -/
structure Block.Wf (b : Block) : Prop where
  start : IsLine b.start
  fields : ∀ l ∈ b.fields, IsLine l ∧ l ≠ []

/-- The stream starts with interim heads and the head `f`, and `rest` follows. -/
inductive Headed : List UInt8 → Block → List UInt8 → Prop where
  | final {f : Block} {status : Nat} {rest : List UInt8} (hwf : f.Wf)
      (hstatus : httpStatus f.start = .ok status) (hfinal : ¬ (100 ≤ status ∧ status < 200)) :
      Headed (f.text ++ rest) f rest
  | interim {b f : Block} {status : Nat} {s rest : List UInt8} (hwf : b.Wf)
      (hstatus : httpStatus b.start = .ok status) (hinterim : 100 ≤ status ∧ status < 200)
      (h : Headed s f rest) : Headed (b.text ++ s) f rest

/-! ### What the fields say -/

/-- The same text, in capitals or not. -/
def SameText (a b : List UInt8) : Prop := a.map lower = b.map lower

/-- The field gives a length. -/
def IsLength (l : List UInt8) : Prop := SameText (fieldName l) contentLength

/-- The field gives a transfer coding. -/
def IsCoding (l : List UInt8) : Prop := SameText (fieldName l) transferEncoding

/-- The text is the number in decimal. -/
structure IsDecimal (v : List UInt8) (n : Nat) : Prop where
  ne_nil : v ≠ []
  digits : ∀ c ∈ v, 48 ≤ c ∧ c ≤ 57
  value : textValue 10 v = n

/-- How a body ends. -/
inductive Framing where
  | chunked
  | length (n : Nat)
  | close

/-- What the fields say of the body. -/
def Frames (fields : List (List UInt8)) : Framing → Prop
  | .chunked => (∃ l ∈ fields, IsCoding l) ∧
      (∀ l ∈ fields, IsCoding l → SameText (fieldValue l) chunkedText) ∧ ∀ l ∈ fields, ¬ IsLength l
  | .length n => (∃ l ∈ fields, IsLength l) ∧
      (∀ l ∈ fields, IsLength l → IsDecimal (fieldValue l) n) ∧ ∀ l ∈ fields, ¬ IsCoding l
  | .close => ∀ l ∈ fields, ¬ IsLength l ∧ ¬ IsCoding l

/-! ### Bodies -/

/-- A chunk line: a hexadecimal size and, after a semicolon, extensions that nobody looks at. -/
structure ChunkLine (line : List UInt8) (n : Nat) : Prop where
  isLine : IsLine line
  size : ∃ ds ext, line = ds ++ ext ∧ ds ≠ [] ∧ (∀ c ∈ ds, hexDigit c < 16) ∧
    textValue 16 ds = n ∧ (ext = [] ∨ ext.head? = some 59)

/-- A chunked body, and whatever follows it. -/
inductive Chunks : List UInt8 → List UInt8 → Prop where
  | last {line rest : List UInt8} {trailers : List (List UInt8)} (hline : ChunkLine line 0)
      (htrailers : ∀ l ∈ trailers, IsLine l ∧ l ≠ []) :
      Chunks (crlf line ++ (trailers.flatMap crlf ++ crlf [] ++ rest)) []
  | chunk {line data s body : List UInt8} (hline : ChunkLine line data.length) (hdata : data ≠ [])
      (h : Chunks s body) : Chunks (crlf line ++ (crlf data ++ s)) (data ++ body)

/-- The body after the head; `eof` says that the peer has ended the stream. -/
def BodyOf (eof : Prop) (rest body : List UInt8) : Framing → Prop
  | .chunked => Chunks rest body
  | .length n => ∃ tail, rest = body ++ tail ∧ body.length = n
  | .close => rest = body ∧ eof

/-- The body of a response with this status; a response 204 has none. -/
def ResponseBody (eof : Prop) (status : Nat) (rest body : List UInt8) (framing : Framing) : Prop :=
  if status = 204 then body = [] ∧ (framing = .close ∨ framing = .length 0)
  else BodyOf eof rest body framing

/-- The body of a response with the head `f`. -/
def Message (eof : Prop) (f : Block) (rest : List UInt8) (status : Nat) (body : List UInt8) :
    Prop :=
  httpStatus f.start = .ok status ∧ 200 ≤ status ∧ status < 300 ∧
    ∃ framing, Frames f.fields framing ∧ ResponseBody eof status rest body framing

/-! ### Reading lines -/

section Stream

variable {e : Errno}

/-- A byte of a stream is its first. -/
theorem returns_streamByte {s s' : List UInt8} {b : UInt8} :
    Io.Returns (streamByte e) s b s' ↔ s = b :: s' := by
  cases s with
  | nil => simp [Io.Returns, streamByte]
  | cons c s =>
      simp only [Io.Returns, streamByte, Prod.mk.injEq, Except.ok.injEq, List.cons.injEq]

/-- A read at the end of a stream fails. -/
theorem fails_streamByte {s s' : List UInt8} {f : Fault Errno} :
    Io.Fails (streamByte e) s f s' ↔ s = [] ∧ s' = [] ∧ f = .code e := by
  cases s with
  | nil =>
      simp only [Io.Fails, streamByte, Prod.mk.injEq, Except.error.injEq, true_and]
      exact ⟨fun h => ⟨h.2.symm, h.1.symm⟩, fun h => ⟨h.2.symm, h.1.symm⟩⟩
  | cons c s => simp [Io.Fails, streamByte]

/-- A byte is put where there is room. -/
theorem returns_putOut {σ : Type} {room : Nat} {c : UInt8} {out out' : List UInt8} {s s' : σ} :
    Io.Returns (Io.lift (putOut room c out)) s out' s' ↔
      out.length < room ∧ out' = out ++ [c] ∧ s' = s := by
  rw [Io.returns_lift, putOut]
  by_cases h : out.length < room
  · simp only [h, if_true, Except.ok.injEq, true_and]
    exact and_congr_left fun _ => eq_comm
  · simp [h]

theorem isLine_nil : IsLine [] := fun _ hc => absurd hc List.not_mem_nil

theorem isLine_cons {c : UInt8} {l : List UInt8} : IsLine (c :: l) ↔
    (32 ≤ c ∨ c = 9) ∧ IsLine l := by
  simp only [IsLine, List.mem_cons, forall_eq_or_imp]

/-- **A line that is read** is one of the stream. -/
theorem osHttpLine_returns {capacity : Nat} :
    ∀ {budget : Nat} {line : List UInt8} {s s' l : List UInt8}
    {left : Nat}, Io.Returns (osHttpLine (streamByte e) capacity budget line) s (l, left) s' →
    ∃ l', l = line ++ l' ∧ s = crlf l' ++ s' ∧ IsLine l' := by
  intro budget
  induction budget with
  | zero =>
      intro line s s' l left h
      rw [osHttpLine, Io.returns_bind] at h
      obtain ⟨c, s₁, -, h⟩ := h
      exact absurd h Io.not_returns_fail
  | succ budget ih =>
      intro line s s' l left h
      rw [osHttpLine, Io.returns_bind] at h
      obtain ⟨c, s₁, hc, h⟩ := h
      obtain rfl := returns_streamByte.mp hc
      rcases Io.returns_ite.mp h with ⟨hcr, hend⟩ | ⟨-, hmore⟩
      · obtain ⟨lf, s₂, hlf, hend⟩ := Io.returns_bind.mp hend
        obtain rfl := returns_streamByte.mp hlf
        obtain ⟨-, hend⟩ := Io.returns_guard.mp hend
        obtain ⟨hten, hend⟩ := Io.returns_guard.mp hend
        obtain ⟨heq, rfl⟩ := Io.returns_pure.mp hend
        cases heq
        rw [hcr, not_not.mp hten]
        exact ⟨[], (List.append_nil _).symm, rfl, isLine_nil⟩
      · obtain ⟨hchar, hmore⟩ := Io.returns_guard.mp hmore
        obtain ⟨-, hmore⟩ := Io.returns_guard.mp hmore
        obtain ⟨line', s₂, hput, hline⟩ := Io.returns_bind.mp hmore
        obtain ⟨-, rfl, rfl⟩ := returns_putOut.mp hput
        obtain ⟨l', rfl, rfl, hl'⟩ := ih hline
        refine ⟨c :: l', by simp, by simp [crlf], isLine_cons.mpr ⟨?_, hl'⟩⟩
        simp only [not_or, not_and, not_not] at hchar
        by_cases h32 : 32 ≤ c
        · exact .inl h32
        · exact .inr (hchar.2.2 (UInt8.not_le.mp h32))

/-- A line is read up to its end. -/
theorem osHttpLine_nil {capacity budget left : Nat} {s s' l : List UInt8}
    (h : Io.Returns (osHttpLine (streamByte e) capacity budget []) s (l, left) s') :
    s = crlf l ++ s' ∧ IsLine l := by
  obtain ⟨l', rfl, hs, hl⟩ := osHttpLine_returns h
  exact ⟨hs, hl⟩

end Stream

/-! ### Reading heads -/

/-- `os_http_equal` compares without regard to case. -/
theorem lower_eq_of_equal : ∀ {a b : List UInt8}, osHttpEqual a b = true ↔ SameText a b := by
  intro a
  induction a with
  | nil =>
      intro b
      cases b <;> simp [osHttpEqual, SameText]
  | cons x a ih =>
      intro b
      cases b with
      | nil => simp [osHttpEqual, SameText]
      | cons y b =>
          rw [osHttpEqual]
          by_cases hxy : lower x = lower y
          · rw [if_neg (not_not.mpr hxy), ih]
            simp [SameText, hxy]
          · rw [if_pos hxy]
            simp [SameText, hxy]

/-- The digits at the start and their value. -/
theorem decimalLoop_ok : ∀ {s s' : List UInt8} {v n : Nat}, decimalLoop v s = .ok (n, s') →
    ∃ ds, s = ds ++ s' ∧ (∀ c ∈ ds, 48 ≤ c ∧ c ≤ 57) ∧ n = valueFrom 10 v ds := by
  intro s
  induction s with
  | nil =>
      intro s' v n h
      cases h
      exact ⟨[], rfl, fun c hc => absurd hc List.not_mem_nil, rfl⟩
  | cons c s ih =>
      intro s' v n h
      rw [decimalLoop] at h
      split at h
      · next hdigit =>
          obtain ⟨-, h⟩ := ok_guard.mp h
          obtain ⟨v₁, hv₁, h⟩ := bind_eq_ok.mp h
          obtain ⟨v₂, hv₂, h⟩ := bind_eq_ok.mp h
          obtain ⟨ds, rfl, hds, rfl⟩ := ih h
          rw [mulU] at hv₁
          split at hv₁
          · cases hv₁
            rw [addU] at hv₂
            split at hv₂
            · cases hv₂
              refine ⟨c :: ds, rfl, fun c' hc' => ?_, ?_⟩
              · rcases List.mem_cons.mp hc' with rfl | hc'
                · exact hdigit
                · exact hds c' hc'
              · obtain ⟨hlo, hhi⟩ := hdigit
                have hval : hexDigit c = c.toNat - 48 := by
                  rw [hexDigit, if_pos ⟨UInt8.le_iff_toNat_le.mp hlo, UInt8.le_iff_toNat_le.mp hhi⟩]
                rw [valueFrom_cons, hval, Nat.mul_comm]
            · cases hv₂
          · cases hv₁
      · cases h
        exact ⟨[], rfl, fun c hc => absurd hc List.not_mem_nil, rfl⟩

/-- The value of a field does not end in a blank. -/
theorem fieldValue_last {line : List UInt8} (h : fieldValue line ≠ []) :
    blank ((fieldValue line).getLast h) = false := by
  have hne :
      ((line.drop ((fieldName line).length + 1)).dropWhile blank).reverse.dropWhile blank ≠ [] :=
    fun hnil => h (by rw [fieldValue, hnil]; rfl)
  have hhead := List.head_dropWhile_not blank hne
  rw [← hhead]
  simp only [fieldValue, List.getLast_reverse]

/-- `os_http_decimal` accepts decimal numbers only. -/
theorem osHttpDecimal_ok {line : List UInt8} {n : Nat}
    (h : osHttpDecimal (fieldValue line) = .ok n) :
    IsDecimal (fieldValue line) n := by
  rw [osHttpDecimal] at h
  obtain ⟨hfirst, h⟩ := ok_guard.mp h
  obtain ⟨⟨v, s⟩, hloop, h⟩ := bind_eq_ok.mp h
  obtain ⟨hblank, h⟩ := ok_guard.mp h
  cases h
  obtain ⟨ds, hsplit, hds, hv⟩ := decimalLoop_ok hloop
  have hall := List.dropWhile_eq_nil_iff.mp (not_not.mp hblank)
  have hs : s = [] := by
    by_contra hne
    have hvne : fieldValue line ≠ [] := by
      rw [hsplit]
      exact List.append_ne_nil_of_right_ne_nil ds hne
    have hlast := fieldValue_last hvne
    have heq : (fieldValue line).getLast hvne = s.getLast hne := by
      simp only [hsplit]
      exact List.getLast_append_of_ne_nil _ hne
    rw [heq, hall _ (List.getLast_mem hne)] at hlast
    cases hlast
  rw [hs, List.append_nil] at hsplit
  refine ⟨fun hnil => ?_, hsplit ▸ hds, ?_⟩
  · rw [hnil] at hfirst
    exact hfirst (by decide)
  · rw [hsplit, hv]
    rfl

/-- The head `hd` sums up the header lines. -/
structure Sums (lines : List (List UInt8)) (hd : Head) : Prop where
  length : (hd.hasLength = true ∧ (∃ l ∈ lines, IsLength l) ∧
      ∀ l ∈ lines, IsLength l → IsDecimal (fieldValue l) hd.length) ∨
    (hd.hasLength = false ∧ ∀ l ∈ lines, ¬ IsLength l)
  coding : (hd.chunked = true ∧ (∃ l ∈ lines, IsCoding l) ∧
      ∀ l ∈ lines, IsCoding l → SameText (fieldValue l) chunkedText) ∨
    (hd.chunked = false ∧ ∀ l ∈ lines, ¬ IsCoding l)

/-- No field says the length and the coding. -/
theorem not_length_and_coding {l : List UInt8} (h : IsLength l) : ¬ IsCoding l := fun h' =>
  absurd (h.symm.trans h') (by decide)

section Fields

variable {lines : List (List UInt8)} {line : List UInt8} {hd hd' : Head}

/-- One more line with the property. -/
theorem forall_snoc {P : List UInt8 → Prop} (h : ∀ l ∈ lines, P l) (hline : P line) :
    ∀ l ∈ lines ++ [line], P l := by
  intro l hl
  rcases List.mem_append.mp hl with hl | hl
  · exact h l hl
  · rw [List.mem_singleton.mp hl]
    exact hline

/-- A line that says nothing of the length. -/
theorem Sums.length_snoc (h : Sums lines hd) (hline : ¬ IsLength line)
    (hflag : hd'.hasLength = hd.hasLength) (hsize : hd'.length = hd.length) :
    (hd'.hasLength = true ∧ (∃ l ∈ lines ++ [line], IsLength l) ∧
      ∀ l ∈ lines ++ [line], IsLength l → IsDecimal (fieldValue l) hd'.length) ∨
    (hd'.hasLength = false ∧ ∀ l ∈ lines ++ [line], ¬ IsLength l) := by
  rw [hflag, hsize]
  rcases h.length with ⟨hl, ⟨l, hmem, his⟩, hall⟩ | ⟨hl, hnone⟩
  · exact .inl ⟨hl, ⟨l, List.mem_append_left _ hmem, his⟩,
      forall_snoc hall fun h => absurd h hline⟩
  · exact .inr ⟨hl, forall_snoc hnone hline⟩

/-- A line that says nothing of the coding. -/
theorem Sums.coding_snoc (h : Sums lines hd) (hline : ¬ IsCoding line)
    (hflag : hd'.chunked = hd.chunked) :
    (hd'.chunked = true ∧ (∃ l ∈ lines ++ [line], IsCoding l) ∧
      ∀ l ∈ lines ++ [line], IsCoding l → SameText (fieldValue l) chunkedText) ∨
    (hd'.chunked = false ∧ ∀ l ∈ lines ++ [line], ¬ IsCoding l) := by
  rw [hflag]
  rcases h.coding with ⟨hl, ⟨l, hmem, his⟩, hall⟩ | ⟨hl, hnone⟩
  · exact .inl ⟨hl, ⟨l, List.mem_append_left _ hmem, his⟩,
      forall_snoc hall fun h => absurd h hline⟩
  · exact .inr ⟨hl, forall_snoc hnone hline⟩

/-- One more header field, and what is known of the head. -/
theorem Sums.snoc (h : Sums lines hd) (hrun : httpField hd line = .ok hd') :
    Sums (lines ++ [line]) hd' ∧ hd'.status = hd.status := by
  have hmem : line ∈ lines ++ [line] := List.mem_append_right _ (List.mem_singleton_self line)
  rw [httpField] at hrun
  obtain ⟨-, hrun⟩ := ok_guard.mp hrun
  split at hrun
  · next hlen =>
      have his : IsLength line := lower_eq_of_equal.mp hlen
      obtain ⟨v, hv, hrun⟩ := bind_eq_ok.mp hrun
      obtain ⟨hsame, hrun⟩ := ok_guard.mp hrun
      cases hrun
      have hdec := osHttpDecimal_ok hv
      refine ⟨⟨.inl ⟨rfl, ⟨line, hmem, his⟩, forall_snoc (fun l hl hll => ?_) fun _ => hdec⟩,
        h.coding_snoc (not_length_and_coding his) rfl⟩, rfl⟩
      -- a second length has to be the first one again
      rcases h.length with ⟨hflag, -, hall⟩ | ⟨-, hnone⟩
      · have heq : v = hd.length := by
          by_contra hne
          exact hsame ⟨hflag, hne⟩
        rw [heq]
        exact hall l hl hll
      · exact absurd hll (hnone l hl)
  · next hlen =>
      have hnot : ¬ IsLength line := fun his => hlen (lower_eq_of_equal.mpr his)
      split at hrun
      · next hcod =>
          have his : IsCoding line := lower_eq_of_equal.mp hcod
          obtain ⟨hguard, hrun⟩ := ok_guard.mp hrun
          rw [not_or, not_not] at hguard
          cases hrun
          refine ⟨⟨h.length_snoc hnot rfl rfl, .inl ⟨rfl, ⟨line, hmem, his⟩,
            forall_snoc (fun l hl hll => ?_) fun _ => lower_eq_of_equal.mp hguard.2⟩⟩, rfl⟩
          rcases h.coding with ⟨hflag, -⟩ | ⟨-, hnone⟩
          · exact absurd hflag hguard.1
          · exact absurd hll (hnone l hl)
      · next hcod =>
          have hnot' : ¬ IsCoding line := fun his => hcod (lower_eq_of_equal.mpr his)
          split at hrun
          · obtain ⟨-, hrun⟩ := ok_guard.mp hrun
            cases hrun
            exact ⟨⟨h.length_snoc hnot rfl rfl, h.coding_snoc hnot' rfl⟩, rfl⟩
          · split at hrun
            · obtain ⟨-, hrun⟩ := ok_guard.mp hrun
              cases hrun
              exact ⟨⟨h.length_snoc hnot rfl rfl, h.coding_snoc hnot' rfl⟩, rfl⟩
            · cases hrun
              exact ⟨⟨h.length_snoc hnot rfl rfl, h.coding_snoc hnot' rfl⟩, rfl⟩

end Fields

/-- The framing that a head stands for. -/
def Head.framing (hd : Head) : Framing :=
  if hd.chunked then .chunked else if hd.hasLength then .length hd.length else .close

/-- The head knows the framing of its fields. -/
theorem Sums.frames {lines : List (List UInt8)} {hd : Head} (h : Sums lines hd)
    (hboth : ¬ (hd.hasLength = true ∧ hd.chunked = true)) : Frames lines hd.framing := by
  rw [Head.framing]
  rcases h.coding with ⟨hc, hcod⟩ | ⟨hc, hnocod⟩
  · rw [if_pos hc]
    rcases h.length with ⟨hl, -⟩ | ⟨-, hnone⟩
    · exact absurd ⟨hl, hc⟩ hboth
    · exact ⟨hcod.1, hcod.2, hnone⟩
  · rw [if_neg (by simp [hc])]
    rcases h.length with ⟨hl, hlen⟩ | ⟨hl, hnone⟩
    · rw [if_pos hl]
      exact ⟨hlen.1, hlen.2, hnocod⟩
    · rw [if_neg (by simp [hl])]
      exact fun l hmem => ⟨hnone l hmem, hnocod l hmem⟩

section Stream

variable {e : Errno}

/-- The fields read are those of the stream, by induction on the rounds. -/
theorem httpFields_returns : ∀ {rounds budget left : Nat} {hd hd' : Head} {s s' : List UInt8}
    {done : List (List UInt8)}, Sums done hd →
    Io.Returns (httpFields (streamByte e) rounds budget hd) s (hd', left) s' →
    ∃ lines, s = lines.flatMap crlf ++ crlf [] ++ s' ∧ (∀ l ∈ lines, IsLine l ∧ l ≠ []) ∧
      Sums (done ++ lines) hd' ∧ hd'.status = hd.status := by
  intro rounds
  induction rounds with
  | zero => exact fun _ h => absurd h Io.not_returns_fail
  | succ rounds ih =>
      intro budget left hd hd' s s' done hdone h
      rw [httpFields] at h
      obtain ⟨⟨line, left₁⟩, s₁, hline, hrest⟩ := Io.returns_bind.mp h
      obtain ⟨rfl, hl⟩ := osHttpLine_nil hline
      dsimp only at hrest
      rcases Io.returns_ite.mp hrest with ⟨rfl, hend⟩ | ⟨hne, hmore⟩
      · obtain ⟨heq, rfl⟩ := Io.returns_pure.mp hend
        cases heq
        refine ⟨[], rfl, fun l hl => absurd hl List.not_mem_nil, ?_, rfl⟩
        rw [List.append_nil]
        exact hdone
      · obtain ⟨hd₁, s₂, hlift, hnext⟩ := Io.returns_bind.mp hmore
        obtain ⟨hfield, rfl⟩ := Io.returns_lift.mp hlift
        obtain ⟨hsums, hst⟩ := hdone.snoc hfield
        obtain ⟨lines, rfl, hlines, hsums', hst'⟩ := ih hsums hnext
        refine ⟨line :: lines, ?_, fun l hmem => ?_, ?_, hst'.trans hst⟩
        · simp only [List.flatMap_cons, List.append_assoc]
        · rcases List.mem_cons.mp hmem with rfl | hmem
          · exact ⟨hl, hne⟩
          · exact hlines l hmem
        · rw [List.append_assoc, List.singleton_append] at hsums'
          exact hsums'

/-- A block of headers is read up to its empty line. -/
theorem httpBlock_returns {budget left : Nat} {hd : Head} {s s' : List UInt8}
    (h : Io.Returns (httpBlock (streamByte e) budget) s (hd, left) s') :
    ∃ b : Block, s = b.text ++ s' ∧ b.Wf ∧ httpStatus b.start = .ok hd.status ∧
      Frames b.fields hd.framing := by
  rw [httpBlock] at h
  obtain ⟨⟨line, left₁⟩, s₁, hline, hafter⟩ := Io.returns_bind.mp h
  obtain ⟨rfl, hl⟩ := osHttpLine_nil hline
  obtain ⟨status, s₂, hlift, hheaders⟩ := Io.returns_bind.mp hafter
  obtain ⟨hstatus, rfl⟩ := Io.returns_lift.mp hlift
  obtain ⟨⟨hd', left'⟩, s₃, hfields, hguard⟩ := Io.returns_bind.mp hheaders
  have hnil : Sums [] ⟨status, false, 0, false, false, []⟩ :=
    ⟨.inr ⟨rfl, fun l hl => absurd hl List.not_mem_nil⟩,
      .inr ⟨rfl, fun l hl => absurd hl List.not_mem_nil⟩⟩
  obtain ⟨lines, rfl, hlines, hsums, hst⟩ := httpFields_returns hnil hfields
  obtain ⟨hboth, hend⟩ := Io.returns_guard.mp hguard
  obtain ⟨heq, rfl⟩ := Io.returns_pure.mp hend
  cases heq
  refine ⟨⟨line, lines⟩, ?_, ⟨hl, hlines⟩, ?_, hsums.frames hboth⟩
  · simp only [Block.text, List.append_assoc]
  · rw [hst]
    exact hstatus

/-- Interim responses are skipped. -/
theorem httpHead_returns : ∀ {left budget : Nat} {hd : Head} {s s' : List UInt8},
    Io.Returns (httpHead (streamByte e) left budget) s hd s' →
    ∃ f, Headed s f s' ∧ httpStatus f.start = .ok hd.status ∧ Frames f.fields hd.framing := by
  intro left
  induction left with
  | zero =>
      intro budget hd s s' h
      rw [httpHead] at h
      obtain ⟨⟨hd', left'⟩, s₁, hblock, hguard⟩ := Io.returns_bind.mp h
      obtain ⟨b, rfl, hwf, hstatus, hframes⟩ := httpBlock_returns hblock
      obtain ⟨hfinal, hend⟩ := Io.returns_guard.mp hguard
      obtain ⟨heq, rfl⟩ := Io.returns_pure.mp hend
      cases heq
      exact ⟨b, .final hwf hstatus hfinal, hstatus, hframes⟩
  | succ left ih =>
      intro budget hd s s' h
      rw [httpHead] at h
      obtain ⟨⟨hd', left'⟩, s₁, hblock, hafter⟩ := Io.returns_bind.mp h
      obtain ⟨b, rfl, hwf, hstatus, hframes⟩ := httpBlock_returns hblock
      rcases Io.returns_ite.mp hafter with ⟨hinterim, hswitch⟩ | ⟨hfinal, hend⟩
      · obtain ⟨-, hnext⟩ := Io.returns_guard.mp hswitch
        obtain ⟨f, hheaded, hrest⟩ := ih hnext
        exact ⟨f, .interim hwf hstatus hinterim hheaded, hrest⟩
      · obtain ⟨heq, rfl⟩ := Io.returns_pure.mp hend
        cases heq
        exact ⟨b, .final hwf hstatus hfinal, hstatus, hframes⟩

end Stream

/-! ### Reading bodies -/

/-- The hexadecimal digits of a chunk's size and their value. -/
theorem chunkSize_ok {capacity : Nat} : ∀ {s : List UInt8} {v n : Nat},
    chunkSize capacity v s = .ok n →
    ∃ ds ext, s = ds ++ ext ∧ (∀ c ∈ ds, hexDigit c < 16) ∧ valueFrom 16 v ds = n ∧
      (ext = [] ∨ ext.head? = some 59) := by
  intro s
  induction s with
  | nil =>
      intro v n h
      cases h
      exact ⟨[], [], rfl, fun c hc => absurd hc List.not_mem_nil, rfl, .inl rfl⟩
  | cons c s ih =>
      intro v n h
      rw [chunkSize] at h
      split at h
      · next hsemi =>
          cases h
          exact ⟨[], c :: s, rfl, fun c hc => absurd hc List.not_mem_nil, rfl,
            .inr (by rw [hsemi]; rfl)⟩
      · obtain ⟨hdigit, h⟩ := ok_guard.mp h
        obtain ⟨-, h⟩ := ok_guard.mp h
        obtain ⟨v₁, hv₁, h⟩ := bind_eq_ok.mp h
        obtain ⟨v₂, hv₂, h⟩ := bind_eq_ok.mp h
        rw [mulU] at hv₁
        split at hv₁
        · cases hv₁
          rw [addU] at hv₂
          split at hv₂
          · cases hv₂
            obtain ⟨ds, ext, rfl, hds, hval, hext⟩ := ih h
            refine ⟨c :: ds, ext, rfl, fun c' hc' => ?_, ?_, hext⟩
            · rcases List.mem_cons.mp hc' with rfl | hc'
              · exact Nat.lt_of_not_le hdigit
              · exact hds c' hc'
            · rw [valueFrom_cons, Nat.mul_comm]
              exact hval
          · cases hv₂
        · cases hv₁

/-- A line with a size is a chunk's first line. -/
theorem chunkLine_of_size {capacity n : Nat} {line : List UInt8} (hline : IsLine line)
    (hsize : chunkSize capacity 0 line = .ok n) (hfirst : ¬ (line = [] ∨ line.headD 0 = 59)) :
    ChunkLine line n := by
  obtain ⟨ds, ext, rfl, hds, hval, hext⟩ := chunkSize_ok hsize
  refine ⟨hline, ds, ext, rfl, ?_, hds, hval, hext⟩
  rintro rfl
  rw [List.nil_append] at hfirst
  rcases hext with rfl | hext
  · exact hfirst (.inl rfl)
  · refine hfirst (.inr ?_)
    rw [List.headD_eq_head?_getD, hext]
    rfl

section Stream

variable {e : Errno} {capacity : Nat}

/-- The trailers are read up to the empty line. -/
theorem httpTrailers_returns : ∀ {rounds budget : Nat} {s s' : List UInt8} {u : Unit},
    Io.Returns (httpTrailers (streamByte e) rounds budget) s u s' →
    ∃ lines : List (List UInt8), s = lines.flatMap crlf ++ crlf [] ++ s' ∧
      ∀ l ∈ lines, IsLine l ∧ l ≠ [] := by
  intro rounds
  induction rounds with
  | zero => exact fun h => absurd h Io.not_returns_fail
  | succ rounds ih =>
      intro budget s s' u h
      rw [httpTrailers] at h
      obtain ⟨⟨line, left⟩, s₁, hline, hafter⟩ := Io.returns_bind.mp h
      obtain ⟨rfl, hl⟩ := osHttpLine_nil hline
      rcases Io.returns_ite.mp hafter with ⟨rfl, hend⟩ | ⟨hne, hmore⟩
      · obtain ⟨-, rfl⟩ := Io.returns_pure.mp hend
        exact ⟨[], rfl, fun l hl => absurd hl List.not_mem_nil⟩
      · obtain ⟨lines, rfl, hlines⟩ := ih hmore
        refine ⟨line :: lines, by
          simp only [List.flatMap_cons, List.append_assoc], fun l hmem => ?_⟩
        rcases List.mem_cons.mp hmem with rfl | hmem
        · exact ⟨hl, hne⟩
        · exact hlines l hmem

/-- The data of a chunk is the next bytes of the stream. -/
theorem httpData_returns : ∀ {n : Nat} {body body' s s' : List UInt8},
    Io.Returns (httpData (streamByte e) capacity n body) s body' s' →
    ∃ data, data.length = n ∧ s = data ++ s' ∧ body' = body ++ data := by
  intro n
  induction n with
  | zero =>
      intro body body' s s' h
      obtain ⟨rfl, rfl⟩ := Io.returns_pure.mp h
      exact ⟨[], rfl, rfl, (List.append_nil _).symm⟩
  | succ n ih =>
      intro body body' s s' h
      rw [httpData] at h
      obtain ⟨c, s₁, hc, hafter⟩ := Io.returns_bind.mp h
      obtain rfl := returns_streamByte.mp hc
      obtain ⟨body₁, s₂, hput, hmore⟩ := Io.returns_bind.mp hafter
      obtain ⟨-, rfl, rfl⟩ := returns_putOut.mp hput
      obtain ⟨data, rfl, rfl, rfl⟩ := ih hmore
      exact ⟨c :: data, rfl, rfl, by simp⟩

/-- The end of a chunk. -/
theorem httpCrlf_returns {s s' : List UInt8} {u : Unit}
    (h : Io.Returns (httpCrlf (streamByte e)) s u s') : s = 13 :: 10 :: s' := by
  rw [httpCrlf] at h
  obtain ⟨cr, s₁, hcr, hafter⟩ := Io.returns_bind.mp h
  obtain ⟨lf, s₂, hlf, hguard⟩ := Io.returns_bind.mp hafter
  obtain rfl := returns_streamByte.mp (Io.returns_recode.mp hcr)
  obtain rfl := returns_streamByte.mp (Io.returns_recode.mp hlf)
  obtain ⟨hboth, hend⟩ := Io.returns_guard.mp hguard
  obtain ⟨-, rfl⟩ := Io.returns_pure.mp hend
  rw [not_or, not_not, not_not] at hboth
  rw [hboth.1, hboth.2]

/-- The body is the data of the chunks, by induction on the rounds. -/
theorem httpChunks_returns : ∀ {rounds : Nat} {body body' s s' : List UInt8},
    Io.Returns (httpChunks (streamByte e) capacity rounds body) s body' s' →
    ∃ more, body' = body ++ more ∧ Chunks s more := by
  intro rounds
  induction rounds with
  | zero => exact fun h => absurd h Io.not_returns_fail
  | succ rounds ih =>
      intro body body' s s' h
      rw [httpChunks] at h
      obtain ⟨⟨line, left⟩, s₁, hline, hafter⟩ := Io.returns_bind.mp h
      obtain ⟨rfl, hl⟩ := osHttpLine_nil hline
      obtain ⟨n, s₂, hlift, hguard⟩ := Io.returns_bind.mp hafter
      obtain ⟨hsize, rfl⟩ := Io.returns_lift.mp hlift
      obtain ⟨hfirst, hroom⟩ := Io.returns_guard.mp hguard
      obtain ⟨-, hzero⟩ := Io.returns_guard.mp hroom
      have hchunk := chunkLine_of_size hl hsize hfirst
      rcases Io.returns_ite.mp hzero with ⟨rfl, hlast⟩ | ⟨hne, hmore⟩
      · obtain ⟨u, s₃, htrailers, hend⟩ := Io.returns_bind.mp hlast
        obtain ⟨lines, rfl, hlines⟩ := httpTrailers_returns htrailers
        obtain ⟨rfl, rfl⟩ := Io.returns_pure.mp hend
        exact ⟨[], (List.append_nil _).symm, .last hchunk hlines⟩
      · obtain ⟨body₁, s₃, hdata, hnext⟩ := Io.returns_bind.mp hmore
        obtain ⟨u, s₄, hcrlf, hrest⟩ := Io.returns_bind.mp hnext
        obtain ⟨data, rfl, rfl, rfl⟩ := httpData_returns hdata
        obtain rfl := httpCrlf_returns hcrlf
        obtain ⟨more, rfl, hchunks⟩ := ih hrest
        have hne' : data ≠ [] := by
          rintro rfl
          exact hne rfl
        refine ⟨data ++ more, by rw [List.append_assoc], ?_⟩
        rw [← crlf_append data]
        exact .chunk hchunk hne' hchunks

/-- A body without chunks ends at its length, or at the end of the stream. -/
theorem httpPlain_returns {hd : Head} : ∀ {rounds : Nat} {body body' s s' : List UInt8},
    (hd.hasLength = true → body.length ≤ hd.length) →
    Io.Returns (httpPlain (streamByte e) capacity hd rounds body) s body' s' →
    ∃ more, body' = body ++ more ∧ s = more ++ s' ∧
      (hd.hasLength = true → body'.length = hd.length) ∧
      (hd.hasLength = false → s' = [] ∧ e = .enoent) := by
  intro rounds
  induction rounds with
  | zero => exact fun _ h => absurd h Io.not_returns_fail
  | succ rounds ih =>
      intro body body' s s' hle h
      rw [httpPlain] at h
      rcases Io.returns_ite.mp h with ⟨⟨hflag, hfull⟩, hend⟩ | ⟨hopen, hmore⟩
      · obtain ⟨rfl, rfl⟩ := Io.returns_pure.mp hend
        refine ⟨[], (List.append_nil _).symm, rfl, fun _ => Nat.le_antisymm (hle hflag) hfull,
          fun hno => ?_⟩
        rw [hflag] at hno
        cases hno
      · obtain ⟨c, s₁, hc, hafter⟩ := Io.returns_bind.mp hmore
        cases c with
        | none =>
            obtain ⟨rfl, rfl, hcode⟩ := fails_streamByte.mp (Io.returns_caught_none.mp hc)
            obtain ⟨hflag, hend⟩ := Io.returns_guard.mp hafter
            obtain ⟨rfl, rfl⟩ := Io.returns_pure.mp hend
            cases hcode
            exact ⟨[], (List.append_nil _).symm, rfl, fun hyes => absurd hyes hflag,
              fun _ => ⟨rfl, rfl⟩⟩
        | some c =>
            obtain rfl := returns_streamByte.mp (Io.returns_caught_some.mp hc)
            obtain ⟨-, hput⟩ := Io.returns_guard.mp hafter
            obtain ⟨body₁, s₂, hlift, hnext⟩ := Io.returns_bind.mp hput
            obtain ⟨-, rfl, rfl⟩ := returns_putOut.mp hlift
            have hle' : hd.hasLength = true → (body ++ [c]).length ≤ hd.length := fun hflag => by
              rw [List.length_append, List.length_singleton]
              exact Nat.lt_of_not_le fun hfull => hopen ⟨hflag, hfull⟩
            obtain ⟨more, rfl, rfl, hrest⟩ := ih hle' hnext
            exact ⟨c :: more, by simp, rfl, hrest⟩

/-- The body is the one its framing allows. -/
theorem httpBody_returns {hd : Head} {body s s' : List UInt8}
    (h : Io.Returns (httpBody (streamByte e) capacity hd) s body s') :
    200 ≤ hd.status ∧ hd.status < 300 ∧ ResponseBody (e = .enoent) hd.status s body hd.framing := by
  rw [httpBody] at h
  obtain ⟨-, h₁⟩ := Io.returns_guard.mp h
  obtain ⟨hstatus, h₂⟩ := Io.returns_guard.mp h₁
  refine ⟨by omega, by omega, ?_⟩
  rw [ResponseBody]
  rcases Io.returns_ite.mp h₂ with ⟨hempty, h₃⟩ | ⟨hempty, h₃⟩
  · rw [if_pos hempty]
    obtain ⟨hnone, hend⟩ := Io.returns_guard.mp h₃
    obtain ⟨rfl, -⟩ := Io.returns_pure.mp hend
    refine ⟨rfl, ?_⟩
    rw [not_or, not_and, not_not] at hnone
    rw [Head.framing, if_neg hnone.1]
    by_cases hflag : hd.hasLength = true
    · rw [if_pos hflag, hnone.2 hflag]
      exact .inr rfl
    · rw [if_neg hflag]
      exact .inl rfl
  · rw [if_neg hempty, Head.framing]
    obtain ⟨-, h₄⟩ := Io.returns_guard.mp h₃
    rcases Io.returns_ite.mp h₄ with ⟨hchunked, hrun⟩ | ⟨hchunked, hrun⟩
    · rw [if_pos hchunked]
      obtain ⟨more, rfl, hchunks⟩ := httpChunks_returns hrun
      exact hchunks
    · rw [if_neg hchunked]
      obtain ⟨more, rfl, rfl, hlen, heof⟩ := httpPlain_returns (fun _ => Nat.zero_le _) hrun
      by_cases hflag : hd.hasLength = true
      · rw [if_pos hflag]
        exact ⟨s', rfl, hlen hflag⟩
      · rw [if_neg hflag]
        obtain ⟨rfl, he⟩ := heof (by simpa using hflag)
        exact ⟨List.append_nil body, he⟩

/-- **A response that is read** has the body that its framing says. -/
theorem responseOf_sound {s body : List UInt8} {status : Nat}
    (h : (responseOf capacity e s).1 = .ok (status, body)) :
    ∃ f rest, Headed s f rest ∧ Message (e = .enoent) f rest status body := by
  obtain ⟨s', hrun⟩ := Io.exists_returns h
  rw [responseOf, httpResponse] at hrun
  obtain ⟨hd, s₁, hhead, hafter⟩ := Io.returns_bind.mp hrun
  obtain ⟨body', s₂, hbody, hend⟩ := Io.returns_bind.mp hafter
  obtain ⟨heq, rfl⟩ := Io.returns_pure.mp hend
  cases heq
  obtain ⟨f, hheaded, hstatus, hframes⟩ := httpHead_returns hhead
  obtain ⟨hlo, hhi, hresponse⟩ := httpBody_returns hbody
  exact ⟨f, s₁, hheaded, hstatus, hlo, hhi, hd.framing, hframes, hresponse⟩

end Stream

end Efishell.Http
