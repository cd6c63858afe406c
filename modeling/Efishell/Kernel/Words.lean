import Mathlib.Tactic.Ring
import Efishell.Kernel.Bytes

/-!
# Kernel — words in a buffer

`leNat` is what a little-endian word of any width reads as; `rd16`, `rd32` and `rd64` are three of
them. The rules for a stored word come as a pair: it is read back, and a word away from it reads as
before.

* `leNat_wrBytes`, `leNat_byteOf`: a number that is written is read back.
-/

namespace Efishell

/-- `n` bytes at `at_`, the low one first. -/
def leNat (b : Bytes) : (n at_ : Nat) → Nat
  | 0, _ => 0
  | n + 1, at_ => (b at_).toNat + 2 ^ 8 * leNat b n (at_ + 1)

/-- A number depends on its own bytes only. -/
theorem leNat_congr {b c : Bytes} {n : Nat} : ∀ {at_ at' : Nat},
    (∀ i < n, b (at_ + i) = c (at' + i)) → leNat b n at_ = leNat c n at' := by
  induction n with
  | zero => exact fun _ => rfl
  | succ n ih =>
      intro at_ at' h
      have h0 := h 0 (by omega)
      rw [Nat.add_zero, Nat.add_zero] at h0
      rw [leNat, leNat, h0, ih fun i hi => ?_]
      have := h (i + 1) (by omega)
      rwa [show at_ + (i + 1) = at_ + 1 + i by omega, show at' + (i + 1) = at' + 1 + i by
        omega] at this

/-- The bytes of `v` are read back, as many as are there. -/
theorem leNat_byteOf {b : Bytes} {n : Nat} : ∀ {v at_ : Nat}, (∀ i < n, b (at_ + i) = byteOf v i) →
    leNat b n at_ = v % 2 ^ (8 * n) := by
  induction n with
  | zero =>
      intro v at_ _
      rw [leNat, Nat.mul_zero, Nat.pow_zero, Nat.mod_one]
  | succ n ih =>
      intro v at_ h
      have h0 := h 0 (by omega)
      have hrest : leNat b n (at_ + 1) = v / 2 ^ 8 % 2 ^ (8 * n) := by
        refine ih fun i hi => ?_
        have := h (i + 1) (by omega)
        rw [show at_ + (i + 1) = at_ + 1 + i by omega] at this
        rw [this, byteOf, byteOf, Nat.div_div_eq_div_mul, ← Nat.pow_add,
          show 8 + 8 * i = 8 * (i + 1) by ring]
      rw [Nat.add_zero] at h0
      rw [leNat, h0, hrest, byteOf_toNat, show 8 * (n + 1) = 8 + 8 * n by ring, Nat.pow_add,
        Nat.mod_mul]
      simp

/-- A number written reads back. -/
theorem leNat_wrBytes {b : Bytes} {n off v : Nat} (hv : v < 2 ^ (8 * n)) :
    leNat (wrBytes n b off v) n off = v := by
  rw [leNat_byteOf fun i hi => ?_, Nat.mod_eq_of_lt hv]
  rw [wrBytes, if_pos (by omega), Nat.add_sub_cancel_left]

theorem leNat_wrBytes_ne {b : Bytes} {m n off at_ v : Nat} (h : at_ + m ≤ off ∨ off + n ≤ at_) :
    leNat (wrBytes n b off v) m at_ = leNat b m at_ := by
  refine leNat_congr fun i hi => ?_
  rw [wrBytes, if_neg (by omega)]

/-- The accessors of a buffer are numbers of two, four and eight bytes. -/
theorem rd16_eq_leNat (b : Bytes) (off : Nat) : rd16 b off = leNat b 2 off := by
  simp [rd16, leNat]

theorem rd32_eq_leNat (b : Bytes) (off : Nat) : rd32 b off = leNat b 4 off := by
  simp only [rd32, rd16, leNat, Nat.add_assoc, Nat.reduceAdd]
  omega

theorem rd64_eq_leNat (b : Bytes) (off : Nat) : rd64 b off = leNat b 8 off := by
  simp only [rd64, rd32, rd16, leNat, Nat.add_assoc, Nat.reduceAdd]
  omega

theorem leNat_zero (n at_ : Nat) : leNat (fun _ => 0) n at_ = 0 := by
  induction n generalizing at_ with
  | zero => rfl
  | succ n ih => simp [leNat, ih]

theorem leNat_one {b : Bytes} {at_ x : Nat} (hx : x < 256) (h : leNat b 1 at_ = x) :
    b at_ = UInt8.ofNat x := by
  refine UInt8.toNat_inj.mp ?_
  rw [UInt8.toNat_ofNat', Nat.mod_eq_of_lt hx, ← h]
  simp [leNat]

end Efishell
