import Mathlib.Algebra.BigOperators.Group.Finset.Basic
import Mathlib.Algebra.Order.BigOperators.Group.Finset
import Mathlib.Tactic.Ring

/-!
# Support — one's complement sums

The checksum of `w` bits over a sum of words: `fold` adds what is above the low `w` bits to them,
which keeps the sum modulo `2 ^ w - 1`, and `finish` is the complement of the sum folded twice.

* `finish_eq_zero`: the complement is zero for the positive multiples of `2 ^ w - 1` only.
* `dvd_add_finish`: added to its sum the complement makes it such a multiple.
* `not_dvd_bit`: a sum that differs from one by a single bit is none.

`weighted c b n` is the sum of `n` octets, each with its weight in the word that it belongs to.
-/

namespace Efishell.OnesComplement

/-! ### Folding -/

variable {w : Nat}

/-- The part above `w` bits added to the low `w` bits. -/
def fold (w s : Nat) : Nat := s % 2 ^ w + s / 2 ^ w

/-- The complement of a sum of `2 * w` bits. -/
def finish (w s : Nat) : Nat := 2 ^ w - 1 - fold w (fold w s)

/-- Folding takes a multiple of `2 ^ w - 1` away. -/
theorem add_fold (w s : Nat) : s = fold w s + (2 ^ w - 1) * (s / 2 ^ w) := by
  have hpos : 1 ≤ 2 ^ w := Nat.one_le_two_pow
  have hdiv := Nat.mod_add_div s (2 ^ w)
  have hle : s / 2 ^ w ≤ 2 ^ w * (s / 2 ^ w) := Nat.le_mul_of_pos_left _ hpos
  rw [fold, Nat.sub_mul, Nat.one_mul]
  omega

/-- So it keeps the remainder. -/
theorem dvd_fold {m : Nat} (h : m = 2 ^ w - 1) (s : Nat) : m ∣ fold w s ↔ m ∣ s := by
  subst h
  conv_rhs => rw [add_fold w s]
  exact (Nat.dvd_add_left (Dvd.intro _ rfl)).symm

/-- A sum that is not zero stays so. -/
theorem fold_pos {s : Nat} (h : 0 < s) : 0 < fold w s := by
  have hs := add_fold w s
  by_contra h0
  rw [Nat.eq_zero_of_not_pos h0, Nat.zero_add] at hs
  have hzero : fold w s = 0 := Nat.eq_zero_of_not_pos h0
  rw [fold, Nat.add_eq_zero_iff] at hzero
  rw [hzero.2, Nat.mul_zero] at hs
  omega

@[simp] theorem fold_zero (w : Nat) : fold w 0 = 0 := by simp [fold]

/-- Two rounds are enough for twice the bits. -/
theorem fold_fold_lt (hw : 0 < w) {s : Nat} (h : s < 2 ^ (2 * w)) : fold w (fold w s) < 2 ^ w := by
  have htwo : 2 ≤ 2 ^ w := Nat.le_self_pow (by omega) 2
  have hlow := Nat.mod_lt s (Nat.two_pow_pos w)
  have hhigh : s / 2 ^ w < 2 ^ w := by
    rw [Nat.div_lt_iff_lt_mul (Nat.two_pow_pos w), ← pow_add, ← Nat.two_mul]
    exact h
  have hone : fold w s ≤ 2 ^ w - 1 + (2 ^ w - 1) := by
    rw [fold]
    omega
  rw [fold]
  by_cases hsmall : fold w s < 2 ^ w
  · rw [Nat.div_eq_of_lt hsmall, Nat.mod_eq_of_lt hsmall, Nat.add_zero]
    exact hsmall
  · have hdiv : fold w s / 2 ^ w = 1 := by
      rw [Nat.div_eq_iff (Nat.two_pow_pos w)]
      omega
    rw [hdiv, Nat.mod_eq_sub_mod (by omega), Nat.mod_eq_of_lt (by omega)]
    omega

/-- **The test.**  The complement is zero when the sum is a positive multiple of `2 ^ w - 1`. -/
theorem finish_eq_zero (hw : 0 < w) {s : Nat} (h : s < 2 ^ (2 * w)) :
    finish w s = 0 ↔ 0 < s ∧ 2 ^ w - 1 ∣ s := by
  have hlt := fold_fold_lt hw h
  rw [finish, ← dvd_fold rfl s, ← dvd_fold rfl (fold w s)]
  constructor
  · intro h0
    have heq : fold w (fold w s) = 2 ^ w - 1 := by omega
    refine ⟨Nat.pos_of_ne_zero ?_, by rw [heq]⟩
    rintro rfl
    rw [fold_zero, fold_zero] at heq
    have : 2 ≤ 2 ^ w := Nat.le_self_pow (by omega) 2
    omega
  · rintro ⟨hpos, hdvd⟩
    have := Nat.le_of_dvd (fold_pos (fold_pos hpos)) hdvd
    omega

/-- **The checksum.**  A sum and its complement are together a positive multiple of `2 ^ w - 1`. -/
theorem dvd_add_finish (hw : 0 < w) {s : Nat} (h : s < 2 ^ (2 * w)) :
    0 < s + finish w s ∧ 2 ^ w - 1 ∣ s + finish w s := by
  have hlt := fold_fold_lt hw h
  have htwo : 2 ≤ 2 ^ w := Nat.le_self_pow (by omega) 2
  constructor
  · by_cases h0 : s = 0
    · subst h0
      rw [finish, fold_zero, fold_zero]
      omega
    · omega
  · have hs := add_fold w s
    have hs' := add_fold w (fold w s)
    refine ⟨1 + fold w s / 2 ^ w + s / 2 ^ w, ?_⟩
    rw [Nat.mul_add, Nat.mul_add, Nat.mul_one, finish]
    omega

/-- The checksum fits its field. -/
theorem finish_lt (w s : Nat) : finish w s < 2 ^ w := by
  have := Nat.two_pow_pos w
  rw [finish]
  omega

/-- A single bit is no multiple of `2 ^ w - 1`. -/
theorem not_dvd_bit {j : Nat} (hw : 2 ≤ w) (hj : j < w) : ¬ 2 ^ w - 1 ∣ 2 ^ j := by
  intro h
  have hle := Nat.le_of_dvd (Nat.two_pow_pos j) h
  have hhalf : 2 ^ j ≤ 2 ^ (w - 1) := Nat.pow_le_pow_right (by decide) (by omega)
  have htwo : 2 ^ w = 2 ^ (w - 1) + 2 ^ (w - 1) := by
    rw [← Nat.two_mul, ← Nat.pow_succ', Nat.succ_eq_add_one, Nat.sub_add_cancel (by omega)]
  have hbig : 2 ≤ 2 ^ (w - 1) := Nat.le_self_pow (by omega) 2
  omega

/-! ### Sums of octets -/

/-- `n` octets with their weights. -/
def weighted (c b : Nat → Nat) (n : Nat) : Nat := ∑ i ∈ Finset.range n, c i * b i

variable {c b b' : Nat → Nat} {n : Nat}

/-- The sum depends on its own terms only. -/
theorem weighted_congr (h : ∀ i < n, b i = b' i) : weighted c b n = weighted c b' n :=
  Finset.sum_congr rfl fun i hi => by rw [h i (Finset.mem_range.mp hi)]

/-- One octet that changes. -/
theorem weighted_change {i : Nat} (hi : i < n) (h : ∀ j < n, j ≠ i → b j = b' j) :
    weighted c b n + c i * b' i = weighted c b' n + c i * b i := by
  have hmem := Finset.mem_range.mpr hi
  have hrest : ∑ j ∈ (Finset.range n).erase i, c j * b j =
      ∑ j ∈ (Finset.range n).erase i, c j * b' j := by
    refine Finset.sum_congr rfl fun j hj => ?_
    obtain ⟨hne, hj⟩ := Finset.mem_erase.mp hj
    rw [h j (Finset.mem_range.mp hj) hne]
  rw [weighted, weighted, ← Finset.add_sum_erase _ _ hmem, ← Finset.add_sum_erase _ _ hmem, hrest]
  ring

/-- More terms, a larger sum. -/
theorem weighted_mono {m : Nat} (h : m ≤ n) : weighted c b m ≤ weighted c b n :=
  Finset.sum_le_sum_of_subset (Finset.range_mono h)

/-- A bound on the sum. -/
theorem weighted_le {most : Nat} (h : ∀ i < n, c i * b i ≤ most) : weighted c b n ≤ n * most := by
  calc weighted c b n ≤ ∑ _i ∈ Finset.range n, most :=
        Finset.sum_le_sum fun i hi => h i (Finset.mem_range.mp hi)
    _ = n * most := by simp

end Efishell.OnesComplement
