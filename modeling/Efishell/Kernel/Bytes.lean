import Mathlib.Data.Nat.Bitwise
import Efishell.Support.Io

/-!
# Kernel — error codes, byte buffers and range checks

The helpers of `kernel.c` and `kernel.h` that every other module uses: the error codes, the
little-endian accessors `rd16`, `rd32`, `rd64` and their writers, `mem_copy`, and the range
predicates `power2`, `span_ok` and `overlap`.

A buffer is a function from byte positions to bytes; a C pointer into one is the buffer with an
offset.  Machine integers are natural numbers below `2 ^ w`, with the reduction modulo `2 ^ w`
written out wherever the C expression can leave the range.

* `rd64_wr64`, `rd64_wr64_ne`: a stored word is read back, and no other changes.
* `alignUp_spec`: where the sum does not leave `w` bits, `ALIGN_UP` is the next multiple.
-/

namespace Efishell

/-- The error codes of `kernel.h`. -/
inductive Errno where
  | einval | enomem | enoent | ebusy | efault | enotsup | eio | etimedout | erofs | eagain
  | eperm | e2big | enoexec | edeadlk | eexist | enospc | enetdown | enetunreach | econnrefused
  | econnreset | eaddrinuse | emsgsize | einprogress | ecanceled
  deriving DecidableEq, Repr

/-- A byte buffer. -/
abbrev Bytes := Nat → UInt8

/-- A 16-bit little-endian field. -/
def rd16 (b : Bytes) (off : Nat) : Nat := (b off).toNat + 2 ^ 8 * (b (off + 1)).toNat

/-- A 32-bit little-endian field. -/
def rd32 (b : Bytes) (off : Nat) : Nat := rd16 b off + 2 ^ 16 * rd16 b (off + 2)

/-- A 64-bit little-endian field. -/
def rd64 (b : Bytes) (off : Nat) : Nat := rd32 b off + 2 ^ 32 * rd32 b (off + 4)

/-- The `i`-th little-endian byte of `v`. -/
def byteOf (v i : Nat) : UInt8 := UInt8.ofNat (v / 2 ^ (8 * i))

/-- Store the `n` low bytes of `v` at `off`. -/
def wrBytes (n : Nat) (b : Bytes) (off v : Nat) : Bytes := fun i =>
  if off ≤ i ∧ i < off + n then byteOf v (i - off) else b i

/-- A 16-bit little-endian field, written. -/
def wr16 (b : Bytes) (off v : Nat) : Bytes := wrBytes 2 b off v

/-- A 32-bit little-endian field, written. -/
def wr32 (b : Bytes) (off v : Nat) : Bytes := wrBytes 4 b off v

/-- A 64-bit little-endian field, written. -/
def wr64 (b : Bytes) (off v : Nat) : Bytes := wrBytes 8 b off v

/-- `mem_copy(d + dst, s + src, n)`. -/
def memCopy (d : Bytes) (dst : Nat) (s : Bytes) (src n : Nat) : Bytes := fun i =>
  if dst ≤ i ∧ i < dst + n then s (src + (i - dst)) else d i

/-- `mem_zero(d + dst, n)`. -/
def memZero (d : Bytes) (dst n : Nat) : Bytes := fun i =>
  if dst ≤ i ∧ i < dst + n then 0 else d i

/-- `memcmp(b + off, s, |s|) == 0`. -/
def memEq (b : Bytes) (off : Nat) (s : List UInt8) : Bool :=
  (List.range s.length).all fun i => b (off + i) == s.getD i 0

/-- `n && !(n & (n - 1))`. -/
def power2 (n : Nat) : Bool := n != 0 && n &&& (n - 1) == 0

/-- `off <= size && n <= size - off`. -/
def spanOk (off n size : Nat) : Bool := decide (off ≤ size) && decide (n ≤ size - off)

/-- `n && m && a < b + m && b < a + n`, with sums of 64 bits. -/
def overlap (a n b m : Nat) : Bool :=
  n != 0 && m != 0 && decide (a < (b + m) % 2 ^ 64) && decide (b < (a + n) % 2 ^ 64)

/-- `ALIGN_UP(x, a)`, that is `(x + a - 1) & ~(a - 1)`, for `x` of 64 bits and `a` of `w` bits: the
complement is taken in `w` bits. -/
def alignUp (w x a : Nat) : Nat := (x + a - 1) % 2 ^ 64 &&& (2 ^ w - (a - 1 + 1))

/-! ### The accessors -/

theorem rd16_lt (b : Bytes) (off : Nat) : rd16 b off < 2 ^ 16 := by
  have h₀ := (b off).toNat_lt
  have h₁ := (b (off + 1)).toNat_lt
  simp only [rd16]
  omega

theorem rd32_lt (b : Bytes) (off : Nat) : rd32 b off < 2 ^ 32 := by
  have h₀ := rd16_lt b off
  have h₁ := rd16_lt b (off + 2)
  simp only [rd32]
  omega

theorem rd64_lt (b : Bytes) (off : Nat) : rd64 b off < 2 ^ 64 := by
  have h₀ := rd32_lt b off
  have h₁ := rd32_lt b (off + 4)
  simp only [rd64]
  omega

/-- The accessors read only the bytes they name. -/
theorem rd64_congr {b c : Bytes} {off off' : Nat} (h : ∀ i < 8, b (off + i) = c (off' + i)) :
    rd64 b off = rd64 c off' := by
  have h₀ := h 0 (by omega)
  have h₁ := h 1 (by omega)
  have h₂ := h 2 (by omega)
  have h₃ := h 3 (by omega)
  have h₄ := h 4 (by omega)
  have h₅ := h 5 (by omega)
  have h₆ := h 6 (by omega)
  have h₇ := h 7 (by omega)
  simp only [Nat.add_zero] at h₀
  simp only [rd64, rd32, rd16, Nat.add_assoc, Nat.reduceAdd, h₀, h₁, h₂, h₃, h₄, h₅, h₆, h₇]

/-- The `i`th byte of a number. -/
theorem byteOf_toNat (v i : Nat) : (byteOf v i).toNat = v / 2 ^ (8 * i) % 256 := by
  rw [byteOf, UInt8.toNat_ofNat']

/-- A 32-bit field inside what was written. -/
theorem rd32_wrBytes {n : Nat} {b : Bytes} {off v i : Nat} (hi : i + 4 ≤ n) :
    rd32 (wrBytes n b off v) (off + i) = v / 2 ^ (8 * i) % 2 ^ 32 := by
  have hat : ∀ j < 4, wrBytes n b off v (off + i + j) = byteOf v (i + j) := by
    intro j hj
    rw [wrBytes, if_pos (by omega)]
    congr 1
    omega
  have h₀ := hat 0 (by omega)
  rw [Nat.add_zero] at h₀
  simp only [rd32, rd16, Nat.add_assoc (off + i), Nat.reduceAdd, h₀, hat 1 (by omega),
    hat 2 (by omega), hat 3 (by omega), byteOf_toNat, Nat.add_zero, Nat.mul_add, Nat.pow_add]
  simp only [← Nat.div_div_eq_div_mul]
  generalize v / 2 ^ (8 * i) = w
  omega

/-- A stored word is read back. -/
theorem rd64_wr64 {b : Bytes} {off v : Nat} (hv : v < 2 ^ 64) : rd64 (wr64 b off v) off = v := by
  have h₀ : rd32 (wrBytes 8 b off v) (off + 0) = v / 2 ^ (8 * 0) % 2 ^ 32 := rd32_wrBytes (by omega)
  have h₁ : rd32 (wrBytes 8 b off v) (off + 4) = v / 2 ^ (8 * 4) % 2 ^ 32 := rd32_wrBytes (by omega)
  rw [Nat.add_zero] at h₀
  rw [rd64, wr64, h₀, h₁]
  omega

/-- A field beside the one written stays. -/
theorem rd64_wr64_ne {b : Bytes} {off off' v : Nat} (h : off + 8 ≤ off' ∨ off' + 8 ≤ off) :
    rd64 (wr64 b off v) off' = rd64 b off' := by
  refine rd64_congr fun i hi => ?_
  rw [wr64, wrBytes, if_neg (by omega)]

/-! ### Copies -/

/-- The bytes copied. -/
theorem memCopy_eq {d s : Bytes} {dst src n i : Nat} (h₁ : dst ≤ i) (h₂ : i < dst + n) :
    memCopy d dst s src n i = s (src + (i - dst)) := if_pos ⟨h₁, h₂⟩

theorem memCopy_ne {d s : Bytes} {dst src n i : Nat} (h : i < dst ∨ dst + n ≤ i) :
    memCopy d dst s src n i = d i := if_neg (by omega)

theorem memZero_eq {b : Bytes} {d n i : Nat} (h₁ : d ≤ i) (h₂ : i < d + n) :
    memZero b d n i = 0 := if_pos ⟨h₁, h₂⟩

theorem memZero_ne {b : Bytes} {d n i : Nat} (h : i < d ∨ d + n ≤ i) : memZero b d n i = b i :=
  if_neg (by omega)

/-! ### The bits of a byte -/

theorem toNat_bit (i : Nat) : (UInt8.ofNat (2 ^ (i % 8))).toNat = 2 ^ (i % 8) := by
  have hlt : i % 8 < 8 := Nat.mod_lt _ (by decide)
  have := Nat.pow_lt_pow_right (by decide : 1 < 2) hlt
  rw [UInt8.toNat_ofNat', Nat.mod_eq_of_lt this]

/-- A bit set in its byte. -/
theorem testBit_setBit (x : UInt8) (i j : Nat) :
    (x ||| UInt8.ofNat (2 ^ (i % 8))).toNat.testBit (j % 8) =
      (decide (j % 8 = i % 8) || x.toNat.testBit (j % 8)) := by
  rw [UInt8.toNat_or, Nat.testBit_or, toNat_bit, Nat.testBit_two_pow, Bool.or_comm]
  simp only [eq_comm]

/-- A bit cleared in its byte. -/
theorem testBit_clearBit (x : UInt8) (i j : Nat) :
    (x &&& ~~~UInt8.ofNat (2 ^ (i % 8))).toNat.testBit (j % 8) =
      (!decide (j % 8 = i % 8) && x.toNat.testBit (j % 8)) := by
  have hlt : 2 ^ (i % 8) < 2 ^ 8 :=
    Nat.pow_lt_pow_right (by decide) (Nat.mod_lt _ (by decide))
  have hmask : UInt8.size - 1 - 2 ^ (i % 8) = 2 ^ 8 - (2 ^ (i % 8) + 1) := by
    rw [UInt8.size]
    omega
  have hj : j % 8 < 8 := Nat.mod_lt _ (by decide)
  rw [UInt8.toNat_and, Nat.testBit_and, UInt8.toNat_not, toNat_bit, hmask,
    Nat.testBit_two_pow_sub_succ hlt, Nat.testBit_two_pow, Bool.and_comm]
  simp only [hj, decide_true, Bool.true_and, eq_comm]

/-! ### Range checks -/

/-- `span_ok` does not wrap. -/
theorem spanOk_iff {off n size : Nat} : spanOk off n size = true ↔ off + n ≤ size := by
  simp only [spanOk, Bool.and_eq_true, decide_eq_true_eq]
  omega

/-- Where neither sum leaves 64 bits, `overlap` is the overlap of two integer ranges. -/
theorem overlap_eq_false_iff {a n b m : Nat} (hn : 0 < n) (hm : 0 < m)
    (ha : a + n < 2 ^ 64) (hb : b + m < 2 ^ 64) :
    overlap a n b m = false ↔ a + n ≤ b ∨ b + m ≤ a := by
  have hn' : (n != 0) = true := by simp; omega
  have hm' : (m != 0) = true := by simp; omega
  rw [overlap, hn', hm', Nat.mod_eq_of_lt ha, Nat.mod_eq_of_lt hb]
  simp only [Bool.true_and, Bool.and_eq_false_iff, decide_eq_false_iff_not]
  omega

/-! ### Alignment -/

/-- `power2` accepts the powers of two. -/
theorem power2_iff {n : Nat} : power2 n = true ↔ ∃ k, n = 2 ^ k := by
  rw [← Nat.isPowerOfTwo, ← Nat.ne_zero_and_sub_one_eq_zero_iff_isPowerOfTwo]
  simp only [power2, Bool.and_eq_true, bne_iff_ne, beq_iff_eq]

/-- The mask of a power of two is the remainder. -/
theorem and_sub_one_eq_mod {a : Nat} (ha : power2 a = true) (x : Nat) : x &&& (a - 1) = x % a := by
  obtain ⟨k, rfl⟩ := power2_iff.mp ha
  exact Nat.and_two_pow_sub_one_eq_mod x k

/-- The smaller of two powers of two divides the larger. -/
theorem power2_dvd {a b : Nat} (ha : power2 a = true) (hb : power2 b = true) (h : a ≤ b) :
    a ∣ b := by
  obtain ⟨j, rfl⟩ := power2_iff.mp ha
  obtain ⟨k, rfl⟩ := power2_iff.mp hb
  exact Nat.pow_dvd_pow 2 ((Nat.pow_le_pow_iff_right (by omega)).mp h)

/-- The bits of `x` from `k` to `w`. -/
theorem and_mask_eq {x k w : Nat} (hk : k ≤ w) :
    x &&& (2 ^ w - (2 ^ k - 1 + 1)) = x % 2 ^ w / 2 ^ k * 2 ^ k := by
  have hlt : 2 ^ k - 1 < 2 ^ w := by
    have h₁ := Nat.two_pow_pos k
    have h₂ := Nat.pow_le_pow_right (n := 2) (by omega) hk
    omega
  refine Nat.eq_of_testBit_eq fun i => ?_
  rw [Nat.testBit_and, Nat.testBit_two_pow_sub_succ hlt, Nat.testBit_two_pow_sub_one,
    Nat.testBit_mul_two_pow, Nat.testBit_div_two_pow, Nat.testBit_mod_two_pow]
  by_cases hik : k ≤ i
  · have : i - k + k = i := by omega
    rw [this]
    by_cases hiw : i < w <;> simp [hik, hiw]
  · simp [hik, Nat.lt_of_not_le hik]

/-- `ALIGN_UP` drops the bits from `w` on of the rounded value. -/
theorem alignUp_eq {w x a : Nat} (ha : power2 a = true) (haw : a ≤ 2 ^ w)
    (hx : x + a - 1 < 2 ^ 64) : alignUp w x a = (x + a - 1) % 2 ^ w / a * a := by
  obtain ⟨k, rfl⟩ := power2_iff.mp ha
  have hk : k ≤ w := (Nat.pow_le_pow_iff_right (by omega)).mp haw
  rw [alignUp, Nat.mod_eq_of_lt hx, and_mask_eq hk]

/-- Where the sum stays in `w` bits, `ALIGN_UP` is the next multiple. -/
theorem alignUp_spec {w x a : Nat} (ha : power2 a = true) (haw : a ≤ 2 ^ w) (hw : w ≤ 64)
    (hx : x + a ≤ 2 ^ w) :
    a ∣ alignUp w x a ∧ x ≤ alignUp w x a ∧ alignUp w x a < x + a := by
  have hpos : 0 < a := by
    obtain ⟨k, rfl⟩ := power2_iff.mp ha
    exact Nat.two_pow_pos k
  have hle : (2 : Nat) ^ w ≤ 2 ^ 64 := Nat.pow_le_pow_right (by omega) hw
  rw [alignUp_eq ha haw (by omega), Nat.mod_eq_of_lt (by omega)]
  have h := Nat.div_add_mod (x + a - 1) a
  have h' := Nat.mod_lt (x + a - 1) hpos
  rw [Nat.mul_comm] at h
  exact ⟨Nat.dvd_mul_left _ _, by omega, by omega⟩

end Efishell
