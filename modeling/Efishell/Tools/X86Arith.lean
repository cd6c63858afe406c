import Efishell.Tools.X86
import Mathlib.Data.BitVec

/-!
# Tools — comparisons and divisions of the x86-64

What the flags of a comparison say of the two operands, and what a division leaves: the conditions
without a sign are the order of the numbers, those with a sign the order of the integers, and the
two divisions are the ones of `BitVec`, where they are defined.

* `idiv_eq`, `div_eq`: the two divisions.
* `Cond.holds_l`: the conditions with a sign.
-/

namespace X86

/-! ### Comparisons -/

section Compare

variable (x y : Word)

theorem Cond.holds_b : Cond.b.holds (.cmp x y) = x.ult y := rfl

theorem Cond.holds_ae : Cond.ae.holds (.cmp x y) = y.ule x := by
  rw [Cond.holds, Flags.cmp, BitVec.ule, ← decide_not]
  exact decide_eq_decide.mpr Nat.not_lt

theorem Cond.holds_be : Cond.be.holds (.cmp x y) = x.ule y := by
  rw [Bool.eq_iff_iff]
  simp only [Cond.holds, Flags.cmp, BitVec.ule, Bool.or_eq_true, decide_eq_true_eq, beq_iff_eq,
    ← BitVec.toNat_inj]
  omega

theorem Cond.holds_a : Cond.a.holds (.cmp x y) = y.ult x := by
  have : Cond.a.holds (.cmp x y) = !Cond.be.holds (.cmp x y) := rfl
  rw [this, holds_be, BitVec.ule, BitVec.ult, ← decide_not]
  exact decide_eq_decide.mpr Nat.not_le

/-- Sign and overflow differ when the first is the smaller integer. -/
theorem Cond.holds_l : Cond.l.holds (.cmp x y) = x.slt y := by
  have hx := x.isLt
  have hy := y.isLt
  have hsub : (x - y).toNat = (2 ^ 64 - y.toNat + x.toNat) % 2 ^ 64 := BitVec.toNat_sub x y
  have hmsb : ∀ v : Word, v.msb = decide (2 ^ 63 ≤ v.toNat) := fun v => v.msb_eq_decide
  have hslt : x.slt y = decide (x.toInt < y.toInt) := rfl
  rw [Cond.holds, Flags.cmp, hmsb, hmsb, hmsb, hslt, BitVec.toInt_eq_toNat_cond,
    BitVec.toInt_eq_toNat_cond]
  by_cases h₁ : 2 ^ 63 ≤ x.toNat
  all_goals
    by_cases h₂ : 2 ^ 63 ≤ y.toNat
    all_goals
      by_cases h₃ : 2 ^ 63 ≤ (x - y).toNat
      all_goals
        simp only [h₁, h₂, h₃, decide_true, decide_false]
        symm
        first
        | exact decide_eq_true (by omega)
        | exact decide_eq_false (by omega)

theorem Cond.holds_ge : Cond.ge.holds (.cmp x y) = y.sle x := by
  have : Cond.ge.holds (.cmp x y) = !Cond.l.holds (.cmp x y) :=
    (Bool.not_not _).symm
  rw [this, holds_l, BitVec.sle, BitVec.slt, ← decide_not]
  exact decide_eq_decide.mpr Int.not_lt

theorem Cond.holds_le : Cond.le.holds (.cmp x y) = x.sle y := by
  have : Cond.le.holds (.cmp x y) = (x == y || Cond.l.holds (.cmp x y)) := rfl
  rw [this, holds_l, Bool.eq_iff_iff]
  simp only [BitVec.sle, BitVec.slt, Bool.or_eq_true, decide_eq_true_eq, beq_iff_eq,
    ← BitVec.toInt_inj]
  omega

theorem Cond.holds_g : Cond.g.holds (.cmp x y) = y.slt x := by
  have : Cond.g.holds (.cmp x y) = !Cond.le.holds (.cmp x y) := rfl
  rw [this, holds_le, BitVec.sle, BitVec.slt, ← decide_not]
  exact decide_eq_decide.mpr Int.not_le

/-- A byte that was set to a condition, widened. -/
theorem setWidth_setcc (v : Word) (b : Bool) :
    ((v &&& ~~~0xff ||| (if b then 1 else 0)).setWidth 8).setWidth 64 = if b then 1 else 0 := by
  have hff : (v &&& ~~~0xff).setWidth 8 = 0#8 := by
    rw [BitVec.setWidth_and, show (~~~(0xff : Word)).setWidth 8 = 0#8 by decide, BitVec.and_zero]
  rw [BitVec.setWidth_or, hff, BitVec.zero_or]
  cases b <;> rfl

end Compare

/-! ### Divisions and jumps -/

namespace Machine

variable {m : Machine} {d : Word}

/-- The dividend after the sign of `rax` was copied to `rdx`. -/
theorem dividend_eq (v : Word) :
    (if v.msb then -1 else 0 : Word).toInt * 2 ^ 64 + v.toNat = v.toInt := by
  rw [v.toInt_eq_msb_cond]
  cases v.msb with
  | true =>
      have hone : (-1 : Word).toInt = -1 := by decide
      rw [if_pos rfl, if_pos rfl, hone]
      omega
  | false =>
      have hzero : (0 : Word).toInt = 0 := by decide
      rw [if_neg Bool.false_ne_true, if_neg Bool.false_ne_true, hzero]
      omega

/-- Signed division of a sign-extended word. -/
theorem idiv_eq (h : m.reg .rdx = if (m.reg .rax).msb then -1 else 0) (hd : d ≠ 0)
    (ho : m.reg .rax ≠ BitVec.intMin 64 ∨ d ≠ -1) :
    m.idiv d = some ((m.result ((m.reg .rax).sdiv d)).set .rdx ((m.reg .rax).srem d)) := by
  have hq := BitVec.toInt_sdiv_of_ne_or_ne (m.reg .rax) d ho
  have hlo := ((m.reg .rax).sdiv d).le_toInt
  have hhi := ((m.reg .rax).sdiv d).toInt_lt
  rw [idiv, h, dividend_eq, ← hq, ← BitVec.toInt_srem, BitVec.ofInt_toInt, BitVec.ofInt_toInt]
  exact if_neg (by rintro (h | h | h) <;> [exact hd h; omega; omega])

/-- Unsigned division of a zero-extended word. -/
theorem div_eq (h : m.reg .rdx = 0) (hd : d ≠ 0) :
    m.div d = some ((m.result (m.reg .rax / d)).set .rdx (m.reg .rax % d)) := by
  have hlt := (m.reg .rax / d).isLt
  have hn : (0 : Word).toNat * 2 ^ 64 + (m.reg .rax).toNat = (m.reg .rax).toNat := Nat.zero_add _
  rw [BitVec.toNat_udiv] at hlt
  rw [div, h, hn, ← BitVec.toNat_udiv,
    ← BitVec.toNat_umod, BitVec.ofNat_toNat, BitVec.ofNat_toNat, BitVec.setWidth_eq,
      BitVec.setWidth_eq]
  rw [BitVec.toNat_udiv]
  exact if_neg (by rintro (h | h) <;> [exact hd h; omega])

/-- A jump over `n` bytes. -/
theorem jump_ofNat {n : Nat} (h : n < 2 ^ 31) : m.jump n = { m with pc := m.pc + n } := by
  have : ((m.pc : Int) + (BitVec.ofNat 32 n).toInt).toNat = m.pc + n := by
    rw [BitVec.toInt_eq_toNat_cond, BitVec.toNat_ofNat]
    split <;> omega
  rw [jump, this]

/-- A jump back over `n` bytes. -/
theorem jump_back {n : Nat} (h₀ : 0 < n) (h : n ≤ 2 ^ 31) :
    m.jump (2 ^ 32 - n) = { m with pc := m.pc - n } := by
  have : ((m.pc : Int) + (BitVec.ofNat 32 (2 ^ 32 - n)).toInt).toNat = m.pc - n := by
    rw [BitVec.toInt_eq_toNat_cond, BitVec.toNat_ofNat]
    split <;> omega
  rw [jump, this]

end Machine

end X86
