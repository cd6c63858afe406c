import Efishell.Os.Hid

/-!
# Shell — what a HID descriptor leaves

Every item keeps `Parse.Ok`: the fields found so far lie inside their reports, and no report is
longer than `K_INPUT_REPORT_MAX` bytes.  An array of keys starts with the first element of its item,
for all of the elements have the page of the first (`Parse.usage_page`).

* `parseItem_ok`: one item keeps the invariant of the parser.
* `osHidParse_ok`: the layout of a descriptor that is accepted.
-/

namespace Efishell.Hid

/-- The limits of an item's value, signed or not. -/
def InLimits (v : Int) : Prop := -2 ^ 31 ≤ v ∧ v < 2 ^ 32

/-- The bounds the global items keep. -/
structure Globals.Ok (g : Globals) : Prop where
  id : g.id ≤ 255
  minimum : InLimits g.minimum
  maximum : InLimits g.maximum

/-- A field that lies inside its report, of `bits` bits. -/
structure Field.Ok (bits : Nat → Nat) (f : Field) : Prop where
  width_pos : 1 ≤ f.width
  width_le : f.width ≤ 32
  count_pos : 1 ≤ f.count
  inside : f.offset + f.width * f.count ≤ bits f.report
  minimum : InLimits f.minimum
  maximum : InLimits f.maximum
  usage : f.usage < 65536
  usageEnd : f.usageEnd < 65536
  button : f.kind = .button → 1 ≤ f.usage ∧ f.usage ≤ 32

/-- The bounds a layout keeps. -/
structure Layout.Ok (out : Layout) : Prop where
  fields : ∀ f ∈ out.fields, f.Ok out.reportBits
  count : out.fields.length ≤ osHidFields
  bits : ∀ id, out.reportBits id ≤ inputReportMax * 8

/-- The invariant of the parser. -/
structure Parse.Ok (s : Parse) : Prop where
  g : s.g.Ok
  saved : ∀ g ∈ s.saved, g.Ok
  out : s.out.Ok

/-! ### Values -/

/-- The value of an item of `n` bytes. -/
theorem itemValue_lt {bytes : Bytes} : ∀ {n pos : Nat}, itemValue bytes pos n < 256 ^ n := by
  intro n
  induction n with
  | zero => exact fun {pos} => Nat.one_pos
  | succ n ih =>
      intro pos
      have h := @ih (pos + 1)
      have hb := (bytes pos).toNat_lt
      rw [itemValue, Nat.pow_succ]
      omega

/-- A value of `bits` bits, at most 32, read with its sign. -/
theorem hidSigned_limits {value bits : Nat} (hv : value < 2 ^ bits) (hb : bits ≤ 32) :
    -2 ^ 31 ≤ hidSigned value bits ∧ hidSigned value bits < 2 ^ 31 := by
  rw [hidSigned]
  by_cases h₀ : bits = 0
  · rw [if_pos h₀]
    decide
  · rw [if_neg h₀]
    obtain ⟨k, rfl⟩ := Nat.exists_eq_succ_of_ne_zero h₀
    have hk : 2 ^ k ≤ 2 ^ 31 := Nat.pow_le_pow_right (by decide) (by omega)
    rw [Nat.succ_sub_one]
    by_cases ht : value.testBit k = true
    · have hge := Nat.ge_two_pow_of_testBit ht
      rw [if_pos ht]
      have hpow : (2 : Int) ^ k.succ = 2 * ((2 ^ k : Nat) : Int) := by
        push_cast
        rw [pow_succ, mul_comm]
      rw [Nat.pow_succ] at hv
      rw [hpow]
      omega
    · have hlt : value < 2 ^ k := by
        rw [Nat.testBit_eq_decide_div_mod_eq, decide_eq_true_eq] at ht
        rw [Nat.pow_succ] at hv
        have hdiv : value / 2 ^ k < 2 := Nat.div_lt_of_lt_mul hv
        rw [Nat.mod_eq_of_lt hdiv] at ht
        refine (Nat.div_eq_zero_iff_lt (Nat.two_pow_pos k)).mp (Nat.lt_one_iff.mp ?_)
        exact Nat.lt_of_le_of_ne (Nat.le_of_lt_succ hdiv) ht
      rw [if_neg ht]
      omega

/-- A signed item is an `INT32`. -/
theorem hidSigned_inLimits {bytes : Bytes} {pos n : Nat} (hn : n ≤ 4) :
    InLimits (hidSigned (itemValue bytes pos n) (n * 8)) := by
  have hpow : 256 ^ n = 2 ^ (n * 8) := by
    rw [Nat.mul_comm, Nat.pow_mul]
  obtain ⟨h, h'⟩ := hidSigned_limits (hpow ▸ @itemValue_lt bytes n pos) (by omega)
  exact ⟨h, by omega⟩

theorem natCast_inLimits {bytes : Bytes} {pos n : Nat} (hn : n ≤ 4) :
    InLimits (itemValue bytes pos n : Int) := by
  have hlt := @itemValue_lt bytes n pos
  have hpow : 256 ^ n ≤ 256 ^ 4 := Nat.pow_le_pow_right (by decide) hn
  exact ⟨by omega, by omega⟩

/-! ### Input items -/

/-- All of the elements of a range of usages have one page. -/
theorem Parse.usage_page {s : Parse} (hmin : s.haveMin = true) (hnone : s.usages.length = 0)
    (hle : s.usageMin ≤ s.usageMax) (hpage : s.usageMax / 65536 = s.usageMin / 65536) (i : Nat) :
    s.usage i / 65536 = s.usageMin / 65536 := by
  rw [Parse.usage, if_neg (by omega), if_pos hmin]
  split <;> omega

/-- When an element is an array of keys. -/
theorem elementKind_eq_keys {app value usage : Nat} :
    elementKind app value usage = .keys ↔
      app = 2 ∧ usage / 65536 = 7 ∧ value.testBit 1 = false := by
  rw [elementKind]
  grind

/-- The buttons are the first 32. -/
theorem elementKind_eq_button {app value usage : Nat} (h : elementKind app value usage = .button) :
    1 ≤ usage % 65536 ∧ usage % 65536 ≤ 32 := by
  rw [elementKind] at h
  grind

/-- What `inputItem` has checked when it comes to the elements. -/
structure Parse.Input (s : Parse) (offset : Nat) (bits : Nat → Nat) : Prop where
  g : s.g.Ok
  width_pos : 1 ≤ s.g.width
  width_le : s.g.width ≤ 32
  both : s.haveMin = s.haveMax
  range : s.haveMin = true →
    s.usageMin ≤ s.usageMax ∧ s.usageMax / 65536 = s.usageMin / 65536
  inside : offset + s.g.width * s.g.count ≤ bits s.g.id

/-- One more field where there is room. -/
theorem Layout.Ok.add {out : Layout} {f : Field} (h : out.Ok) (hf : f.Ok out.reportBits)
    (hroom : out.fields.length ≠ osHidFields) : (out.add f).Ok where
  fields := fun g hg => by
    rcases List.mem_append.mp hg with hg | hg
    · exact h.fields g hg
    · rw [List.mem_singleton.mp hg]
      exact hf
  count := by
    have := h.count
    rw [Layout.add, List.length_append, List.length_singleton]
    omega
  bits := h.bits

/-- The field of an element. -/
theorem Parse.Input.field {s : Parse} {value offset i : Nat} {bits : Nat → Nat}
    (h : s.Input offset bits) (hi : i < s.g.count)
    (hfirst : elementKind s.app value (s.usage i) = .keys → i = 0) :
    (s.field value offset i (elementKind s.app value (s.usage i))).Ok bits := by
  have hid : s.g.id % 256 = s.g.id := Nat.mod_eq_of_lt (Nat.lt_succ_of_le h.g.id)
  have hmod : ∀ n, n % 65536 < 65536 := fun n => Nat.mod_lt n (by decide)
  have hinside := h.inside
  refine ⟨h.width_pos, h.width_le, ?_, ?_, h.g.minimum, h.g.maximum, ?_, ?_, fun hb => ?_⟩
  · simp only [Parse.field]
    split <;> omega
  · simp only [Parse.field, hid]
    split
    · next hk =>
        rw [hfirst hk, Nat.zero_mul]
        omega
    · have hmul : (i + 1) * s.g.width ≤ s.g.count * s.g.width := Nat.mul_le_mul_right _ hi
      rw [Nat.succ_mul i, Nat.mul_comm s.g.count] at hmul
      omega
  · simp only [Parse.field]
    split <;> exact hmod _
  · simp only [Parse.field]
    split <;> exact hmod _
  · simp only [Parse.field] at hb ⊢
    rw [hb]
    exact elementKind_eq_button hb

/-- The loop over the elements of an input item. -/
theorem inputLoop_ok {s : Parse} {value offset : Nat} : ∀ {left i : Nat} {out out' : Layout},
    s.Input offset out.reportBits → i + left = s.g.count → out.Ok →
    (∀ j < i, elementKind s.app value (s.usage j) ≠ .keys) →
    inputLoop s value offset left i out = .ok out' → out'.Ok := by
  intro left
  induction left with
  | zero =>
      intro i out out' _ _ hout _ hrun
      cases hrun
      exact hout
  | succ left ih =>
      intro i out out' hin hcount hout hbefore hrun
      rw [inputLoop] at hrun
      by_cases hnone : elementKind s.app value (s.usage i) = .none
      · rw [if_pos hnone] at hrun
        refine ih hin (by omega) hout (fun j hj => ?_) hrun
        rcases Nat.lt_succ_iff_lt_or_eq.mp hj with hj | rfl
        · exact hbefore j hj
        · rw [hnone]
          decide
      · rw [if_neg hnone] at hrun
        obtain ⟨hroom, hrun⟩ := ok_guard.mp hrun
        by_cases hkeys : elementKind s.app value (s.usage i) = .keys
        · rw [if_pos hkeys] at hrun
          obtain ⟨hrange, hrun⟩ := ok_guard.mp hrun
          simp only [Bool.or_eq_true, Bool.not_eq_true', bne_iff_ne, not_or, Bool.not_eq_false,
            not_not] at hrange
          cases hrun
          refine hout.add (hin.field (by omega) fun _ => ?_) hroom
          -- the first element is of the same page, so the loop ended there
          by_contra hpos
          obtain ⟨hle, hpage⟩ := hin.range hrange.1
          refine hbefore 0 (Nat.pos_of_ne_zero hpos) ?_
          rw [elementKind_eq_keys, Parse.usage_page hrange.1 hrange.2 hle hpage] at hkeys ⊢
          exact hkeys
        · rw [if_neg hkeys] at hrun
          have hadd := hout.add (hin.field (by omega) fun h => absurd h hkeys) hroom
          have hin' : s.Input offset (out.add
              (s.field value offset i (elementKind s.app value (s.usage i)))).reportBits := hin
          refine ih hin' (by omega) hadd (fun j hj => ?_) hrun
          rcases Nat.lt_succ_iff_lt_or_eq.mp hj with hj | rfl
          · exact hbefore j hj
          · exact hkeys

/-- A longer report still holds the field. -/
theorem Field.Ok.mono {bits bits' : Nat → Nat} {f : Field} (h : f.Ok bits)
    (hle : bits f.report ≤ bits' f.report) : f.Ok bits' :=
  { h with inside := h.inside.trans hle }

/-- A report that is made longer. -/
theorem Layout.Ok.lengthen {out : Layout} {id n : Nat} (h : out.Ok) (hle : out.reportBits id ≤ n)
    (hmax : n ≤ inputReportMax * 8) :
    ({ out with reportBits := Function.update out.reportBits id n } : Layout).Ok where
  fields := fun f hf => by
    refine (h.fields f hf).mono ?_
    dsimp only
    rw [Function.update_apply]
    split
    · next heq =>
        rw [heq]
        exact hle
    · exact le_refl _
  count := h.count
  bits := fun j => by
    dsimp only
    rw [Function.update_apply]
    split
    · exact hmax
    · exact h.bits j

/-- An input item keeps the layout in order. -/
theorem inputItem_ok {s : Parse} {value : Nat} {out : Layout} (h : s.Ok)
    (hrun : inputItem value s = .ok out) : out.Ok := by
  rw [inputItem] at hrun
  obtain ⟨hroom, hrun⟩ := ok_guard.mp hrun
  obtain ⟨hrange, hrun⟩ := ok_guard.mp hrun
  dsimp only at hrun
  have hlong := h.out.lengthen (Nat.le_add_right (s.out.reportBits s.g.id) (s.g.width * s.g.count))
    (by omega)
  split at hrun
  · obtain ⟨hsize, hrun⟩ := ok_guard.mp hrun
    obtain ⟨-, hrun⟩ := ok_guard.mp hrun
    refine inputLoop_ok ⟨h.g, by omega, by omega, ?_, fun hmin => ?_, ?_⟩ (by omega) hlong
      (fun j hj => absurd hj (Nat.not_lt_zero j)) hrun
    · by_contra hne
      exact hrange (.inl hne)
    · by_contra hbad
      refine hrange (.inr ⟨hmin, ?_⟩)
      omega
    · dsimp only
      rw [Function.update_self]
  · cases hrun
    exact hlong

/-! ### The other items -/

/-- A global item keeps the parser's invariant. -/
theorem globalItem_ok {s s' : Parse} {bytes : Bytes} {tag pos n : Nat} (h : s.Ok) (hn : n ≤ 4)
    (hrun : globalItem tag (itemValue bytes pos n) n s = .ok s') : s'.Ok := by
  obtain ⟨⟨hid, hmin, hmax⟩, hsaved, hout⟩ := h
  rw [globalItem.eq_def] at hrun
  split at hrun
  · cases hrun
    exact ⟨⟨hid, hmin, hmax⟩, hsaved, hout⟩
  · cases hrun
    exact ⟨⟨hid, hidSigned_inLimits hn, hmax⟩, hsaved, hout⟩
  · cases hrun
    refine ⟨⟨hid, hmin, ?_⟩, hsaved, hout⟩
    dsimp only
    split
    · exact hidSigned_inLimits hn
    · exact natCast_inLimits hn
  · cases hrun
    exact ⟨⟨hid, hmin, hmax⟩, hsaved, hout⟩
  · obtain ⟨hvalue, hrun⟩ := ok_guard.mp hrun
    cases hrun
    refine ⟨⟨?_, hmin, hmax⟩, hsaved, hout.fields, hout.count, hout.bits⟩
    change itemValue bytes pos n ≤ 255
    omega
  · cases hrun
    exact ⟨⟨hid, hmin, hmax⟩, hsaved, hout⟩
  · obtain ⟨-, hrun⟩ := ok_guard.mp hrun
    cases hrun
    refine ⟨⟨hid, hmin, hmax⟩, fun g hg => ?_, hout⟩
    rcases List.mem_cons.mp hg with rfl | hg
    · exact ⟨hid, hmin, hmax⟩
    · exact hsaved g hg
  · split at hrun
    · cases hrun
    · next g saved heq =>
        cases hrun
        refine ⟨hsaved g ?_, fun g' hg' => hsaved g' ?_, hout⟩
        · rw [heq]
          exact List.mem_cons_self
        · rw [heq]
          exact List.mem_cons_of_mem g hg'
  · cases hrun
    exact ⟨⟨hid, hmin, hmax⟩, hsaved, hout⟩

theorem localItem_ok {s s' : Parse} {tag value n : Nat} (h : s.Ok)
    (hrun : localItem tag value n s = .ok s') : s'.Ok := by
  rw [localItem.eq_def] at hrun
  split at hrun
  · obtain ⟨-, hrun⟩ := ok_guard.mp hrun
    cases hrun
    exact ⟨h.g, h.saved, h.out⟩
  · cases hrun
    exact ⟨h.g, h.saved, h.out⟩
  · cases hrun
    exact ⟨h.g, h.saved, h.out⟩
  · cases hrun
  · cases hrun
    exact h

theorem mainItem_ok {s s' : Parse} {tag value : Nat} (h : s.Ok)
    (hrun : mainItem tag value s = .ok s') : s'.Ok := by
  rw [mainItem.eq_def] at hrun
  dsimp only at hrun
  split at hrun
  · obtain ⟨-, hrun⟩ := ok_guard.mp hrun
    cases hrun
    exact ⟨h.g, h.saved, h.out⟩
  · split at hrun
    · cases hrun
    · cases hrun
      exact ⟨h.g, h.saved, h.out⟩
  · cases hin : inputItem value s with
    | error e =>
        rw [hin] at hrun
        cases hrun
    | ok out =>
        rw [hin] at hrun
        cases hrun
        exact ⟨h.g, h.saved, inputItem_ok h hin⟩
  · cases hrun
    exact ⟨h.g, h.saved, h.out⟩

theorem Parse.Ok.move {s : Parse} {pos : Nat} (h : s.Ok) : Parse.Ok { s with pos := pos } :=
  ⟨h.g, h.saved, h.out⟩

theorem parseItem_ok {s s' : Parse} {bytes : Bytes} {size : Nat} (h : s.Ok)
    (hrun : parseItem bytes size s = .ok s') : s'.Ok := by
  rw [parseItem] at hrun
  dsimp only at hrun
  split at hrun
  · obtain ⟨-, hrun⟩ := ok_guard.mp hrun
    cases hrun
    exact h.move
  · obtain ⟨-, hrun⟩ := ok_guard.mp hrun
    have hn : (if (bytes s.pos).toNat % 4 = 3 then 4 else (bytes s.pos).toNat % 4) ≤ 4 := by
      split <;> omega
    split at hrun
    · exact mainItem_ok h.move hrun
    · exact globalItem_ok h.move hn hrun
    · exact localItem_ok h.move hrun
    · cases hrun
      exact h.move

theorem parseLoop_ok {bytes : Bytes} {size : Nat} : ∀ {rounds : Nat} {s s' : Parse}, s.Ok →
    parseLoop bytes size rounds s = .ok s' → s'.Ok := by
  intro rounds
  induction rounds with
  | zero =>
      intro s s' h hrun
      cases hrun
      exact h
  | succ rounds ih =>
      intro s s' h hrun
      rw [parseLoop] at hrun
      split at hrun
      · split at hrun
        · cases hrun
        · next s₁ hitem => exact ih (parseItem_ok h hitem) hrun
      · cases hrun
        exact h

/-- **The layout of a descriptor that is accepted.** -/
theorem osHidParse_ok {bytes : Bytes} {size : Nat} {layout : Layout}
    (h : osHidParse bytes size = .ok layout) : layout.Ok := by
  rw [osHidParse] at h
  split at h
  · cases h
  · next s hrun =>
      obtain ⟨-, h⟩ := ok_guard.mp h
      obtain ⟨-, h⟩ := ok_guard.mp h
      cases h
      refine (parseLoop_ok ⟨⟨by decide, ?_, ?_⟩, ?_, ?_, by decide, ?_⟩ hrun).out
      · exact ⟨by decide, by decide⟩
      · exact ⟨by decide, by decide⟩
      · exact fun g hg => absurd hg List.not_mem_nil
      · exact fun f hf => absurd hf List.not_mem_nil
      · exact fun id => Nat.zero_le _

/-! ### The rounds -/

/-- A global item does not move the parser. -/
theorem globalItem_pos {s s' : Parse} {tag value n : Nat}
    (hrun : globalItem tag value n s = .ok s') : s'.pos = s.pos := by
  rw [globalItem.eq_def] at hrun
  grind

theorem localItem_pos {s s' : Parse} {tag value n : Nat}
    (hrun : localItem tag value n s = .ok s') : s'.pos = s.pos := by
  rw [localItem.eq_def] at hrun
  grind

theorem mainItem_pos {s s' : Parse} {tag value : Nat} (hrun : mainItem tag value s = .ok s') :
    s'.pos = s.pos := by
  rw [mainItem.eq_def] at hrun
  dsimp only at hrun
  split at hrun
  · obtain ⟨-, hrun⟩ := ok_guard.mp hrun
    cases hrun
    rfl
  · split at hrun
    · cases hrun
    · cases hrun
      rfl
  · cases hin : inputItem value s with
    | error e =>
        rw [hin] at hrun
        cases hrun
    | ok out =>
        rw [hin] at hrun
        cases hrun
        rfl
  · cases hrun
    rfl

/-- An item lies inside the descriptor. -/
theorem parseItem_pos {s s' : Parse} {bytes : Bytes} {size : Nat} (hpos : s.pos < size)
    (hrun : parseItem bytes size s = .ok s') : s.pos < s'.pos ∧ s'.pos ≤ size := by
  rw [parseItem] at hrun
  dsimp only at hrun
  split at hrun
  · obtain ⟨hfit, hrun⟩ := ok_guard.mp hrun
    cases hrun
    dsimp only
    omega
  · obtain ⟨hfit, hrun⟩ := ok_guard.mp hrun
    have hat : s'.pos = s.pos + 1 +
        (if (bytes s.pos).toNat % 4 = 3 then 4 else (bytes s.pos).toNat % 4) := by
      split at hrun
      · exact mainItem_pos hrun
      · exact globalItem_pos hrun
      · exact localItem_pos hrun
      · cases hrun
        rfl
    rw [hat]
    omega

/-- The loop ends where the descriptor does. -/
theorem parseLoop_pos {bytes : Bytes} {size : Nat} : ∀ {rounds : Nat} {s s' : Parse},
    s.pos ≤ size → size ≤ s.pos + rounds → parseLoop bytes size rounds s = .ok s' →
    s'.pos = size := by
  intro rounds
  induction rounds with
  | zero =>
      intro s s' hle hge hrun
      cases hrun
      exact Nat.le_antisymm hle hge
  | succ rounds ih =>
      intro s s' hle hge hrun
      rw [parseLoop] at hrun
      split at hrun
      · next hlt =>
          split at hrun
          · cases hrun
          · next s₁ hitem =>
              obtain ⟨hmove, hin⟩ := parseItem_pos hlt hitem
              exact ih hin (by omega) hrun
      · next hend =>
          cases hrun
          exact Nat.le_antisymm hle (Nat.le_of_not_lt hend)

end Efishell.Hid
