import Efishell.Fs.NtfsAlloc

/-!
# File systems — update sequences

`ntfs_fixup` of `fs.c`, and the three places that pack a record again: `ntfs_store_record`,
`nt_tx_record` and the end of `nt_index_change`.  A record is divided into units of 512 bytes.  On
the disk the last word of each is a sequence number, and the word itself is in an array inside the
record: the number first, then a slot for each unit.

The position of the array comes from the record, and nothing keeps the array away from the words
that it stands for.  A record survives packing and unpacking exactly when it is away from them, but
for a few overlaps that do no harm (`ArrayClear`).

* `survives_packing_iff`: exactly which records come back from packing and unpacking.
-/

namespace Efishell

/-- The two kinds of records. -/
inductive NtfsRecord where
  | file | indx
  deriving DecidableEq, Repr

/-- `"FILE"` and `"INDX"`. -/
def NtfsRecord.magic : NtfsRecord → List UInt8
  | .file => [0x46, 0x49, 0x4c, 0x45]
  | .indx => [0x49, 0x4e, 0x44, 0x58]

/-- `record_size` and `index_size`. -/
def NtfsRecord.size (v : NativeVolume) : NtfsRecord → Nat
  | .file => v.recordSize
  | .indx => v.indexSize

/-- The place of the last word of unit `i`, for `i` from 1 on. -/
def unitEnd (i : Nat) : Nat := i * 512 - 2

/-- The loop of `ntfs_fixup` from unit `i` on. -/
def usaFix (off sequence : Nat) : (left i : Nat) → Bytes → Except Errno Bytes
  | 0, _, record => .ok record
  | left + 1, i, record =>
      if rd16 record (unitEnd i) ≠ sequence then .error .eio
      else usaFix off sequence left (i + 1) (wr16 record (unitEnd i) (rd16 record (off + i * 2)))

/-- The record that `ntfs_fixup` leaves when it returns 0. -/
def ntfsFixup (record : Bytes) (size : Nat) (magic : List UInt8) : Except Errno Bytes :=
  if size < 48 ∨ memEq record 0 magic = false then .error .eio
  else
    let off := rd16 record 4
    let count := rd16 record 6
    if size % 512 ≠ 0 ∨ count ≠ size / 512 + 1 ∨ off < 8 ∨ size < off ∨ size - off < count * 2 then
      .error .eio
    else usaFix off (rd16 record off) (count - 1) 1 record

/-- The next sequence number; 0 and `0xffff` are left out. -/
def nextSequence (n : Nat) : Nat :=
  let sequence := (n + 1) % 2 ^ 16
  if sequence = 0 ∨ sequence = 0xffff then 1 else sequence

/-- The loop of all three packers from unit `i` on. -/
def usaPut (usa sequence : Nat) : (left i : Nat) → Bytes → Bytes
  | 0, _, raw => raw
  | left + 1, i, raw =>
      usaPut usa sequence left (i + 1)
        (wr16 (wr16 raw (usa + i * 2) (rd16 raw (unitEnd i))) (unitEnd i) sequence)

/-- The image of a record of `size` bytes, by a packer that wants the array at `least` or later and,
if `counts` is set, looks at the number of units. -/
def usaPack (least : Nat) (counts : Bool) (size : Nat) (raw : Bytes) : Except Errno Bytes :=
  let usa := rd16 raw 4
  let count := rd16 raw 6
  if counts = true ∧ count ≠ size / 512 + 1 ∨ usa < least ∨ size < usa + count * 2 then .error .eio
  else
    let sequence := nextSequence (rd16 raw usa)
    .ok (usaPut usa sequence (count - 1) 1 (wr16 raw usa sequence))

/-- What `ntfs_store_record` writes. -/
def ntfsStoreRecord (v : NativeVolume) (unpacked : Bytes) : Except Errno Bytes :=
  usaPack 8 true v.recordSize unpacked

/-- What `nt_tx_record` writes. -/
def ntTxRecord (v : NativeVolume) (raw : Bytes) : Except Errno Bytes :=
  usaPack 48 true v.recordSize raw

/-- What `nt_index_change` writes from `store_index` on. -/
def storeIndex (v : NativeVolume) (block : Bytes) : Except Errno Bytes :=
  usaPack 40 false v.indexSize block

/-- The three places of the source that pack a record. -/
inductive UsaPacker where
  | storeRecord | txRecord | storeIndex
  deriving DecidableEq, Repr

namespace UsaPacker

/-- The records that it packs. -/
def kind : UsaPacker → NtfsRecord
  | .storeRecord | .txRecord => .file
  | .storeIndex => .indx

/-- The first place where it takes the array. -/
def least : UsaPacker → Nat
  | .storeRecord => 8
  | .txRecord => 48
  | .storeIndex => 40

/-- The bytes each of them writes. -/
def image (v : NativeVolume) : UsaPacker → Bytes → Except Errno Bytes
  | .storeRecord => ntfsStoreRecord v
  | .txRecord => ntTxRecord v
  | .storeIndex => Efishell.storeIndex v

/-- Each of the three packs by the same function. -/
theorem image_eq (p : UsaPacker) (v : NativeVolume) (raw : Bytes) :
    ∃ counts, p.image v raw = usaPack p.least counts (p.kind.size v) raw := by
  cases p with
  | storeRecord => exact ⟨true, rfl⟩
  | txRecord => exact ⟨true, rfl⟩
  | storeIndex => exact ⟨false, rfl⟩

end UsaPacker

/-! ### The round trip -/

/-- Two words have a byte in common. -/
def WordsMeet (a b : Nat) : Prop := a < b + 2 ∧ b < a + 2

/-- The array at `off` and the words it stands for do each other no harm.  The last word of a unit
meets no slot of another one; where it meets its own slot, it is in the array; and where it meets
the sequence number, it is that word or both bytes of the next number are the same. -/
structure ArrayClear (off units sequence : Nat) : Prop where
  slots : ∀ i j, 1 ≤ i → i ≤ units → 1 ≤ j → j ≤ units → i ≠ j →
    ¬ WordsMeet (unitEnd i) (off + j * 2)
  own : ∀ i, 1 ≤ i → i ≤ units → WordsMeet (unitEnd i) (off + i * 2) →
    off ≤ unitEnd i ∧ unitEnd i ≤ off + units * 2
  first : ∀ i, 1 ≤ i → i ≤ units → WordsMeet (unitEnd i) off →
    unitEnd i = off ∨ byteOf sequence 0 = byteOf sequence 1

/-- Byte `a` belongs to the array of a record. -/
def InArray (record : Bytes) (a : Nat) : Prop :=
  rd16 record 4 ≤ a ∧ a < rd16 record 4 + rd16 record 6 * 2

/-- `b` comes from `r` by a change outside of the array and of the header. -/
structure Modified (r b : Bytes) : Prop where
  header : ∀ a < 8, b a = r a
  array : ∀ a, InArray r a → b a = r a

/-- Packed, and unpacked again, the record is accepted and is the same outside of the array. -/
def SurvivesPacking (v : NativeVolume) (p : UsaPacker) (r b : Bytes) : Prop :=
  ∀ y, p.image v b = .ok y → ∃ z, ntfsFixup y (p.kind.size v) p.kind.magic = .ok z ∧
    ∀ a < p.kind.size v, ¬ InArray r a → z a = b a

/-! ### Words -/

section Words

variable {b : Bytes} {a d v t : Nat}

theorem wr16_at (ht : t < 2) : wr16 b d v (d + t) = byteOf v t := by
  rw [wr16, wrBytes, if_pos (by omega), Nat.add_sub_cancel_left]

/-- The bytes beside the field stay. -/
theorem wr16_ne (h : a < d ∨ d + 2 ≤ a) : wr16 b d v a = b a := by
  rw [wr16, wrBytes, if_neg (by omega)]

/-- The field, byte by byte. -/
theorem byteOf_rd16 (b : Bytes) (a : Nat) (ht : t < 2) : byteOf (rd16 b a) t = b (a + t) := by
  have h₀ := (b a).toNat_lt
  have h₁ := (b (a + 1)).toNat_lt
  refine UInt8.toNat.inj ?_
  rw [byteOf_toNat, rd16]
  rcases Nat.lt_succ_iff_lt_or_eq.mp ht with ht | rfl
  · obtain rfl := Nat.lt_one_iff.mp ht
    rw [Nat.mul_zero, Nat.pow_zero, Nat.div_one, Nat.add_zero a]
    omega
  · omega

/-- The field has a value if its two bytes do. -/
theorem rd16_eq_iff (hv : v < 2 ^ 16) : rd16 b a = v ↔ ∀ t < 2, b (a + t) = byteOf v t := by
  constructor
  · rintro rfl t ht
    exact (byteOf_rd16 b a ht).symm
  · intro h
    have h₀ := congrArg UInt8.toNat (h 0 (by omega))
    have h₁ := congrArg UInt8.toNat (h 1 (by omega))
    rw [byteOf_toNat] at h₀ h₁
    rw [Nat.add_zero] at h₀
    rw [rd16]
    omega

theorem rd16_congr {c : Bytes} (h : ∀ t < 2, b (a + t) = c (a + t)) : rd16 b a = rd16 c a :=
  (rd16_eq_iff (rd16_lt c a)).mpr fun t ht => (h t ht).trans (byteOf_rd16 c a ht).symm

end Words

/-- The next sequence number is a 16-bit one. -/
theorem nextSequence_lt (n : Nat) : nextSequence n < 2 ^ 16 := by
  rw [nextSequence]
  split
  · exact by decide
  · exact Nat.mod_lt _ (Nat.two_pow_pos 16)

/-! ### The loops -/

section Loops

variable {off s t a j n : Nat}

/-- Bytes away from the slots and from the ends of the units stay. -/
theorem usaPut_frame : ∀ {left i : Nat} {b : Bytes}, (∀ k, i ≤ k → k < i + left →
      (a < off + k * 2 ∨ off + k * 2 + 2 ≤ a) ∧ (a < unitEnd k ∨ unitEnd k + 2 ≤ a)) →
    usaPut off s left i b a = b a := by
  intro left
  induction left with
  | zero => exact fun _ => rfl
  | succ left ih =>
      intro i b h
      obtain ⟨h₁, h₂⟩ := h i (Nat.le_refl i) (by omega)
      rw [usaPut, ih fun k hk hlt => h k (by omega) (by omega), wr16_ne h₂, wr16_ne h₁]

/-- A mark that no later slot covers is there at the end. -/
theorem usaPut_mark (ht : t < 2) : ∀ {left i : Nat} {b : Bytes}, 1 ≤ i → i ≤ j → j < i + left →
    (∀ k, j < k → k < i + left → unitEnd j + t < off + k * 2 ∨ off + k * 2 + 2 ≤ unitEnd j + t) →
    usaPut off s left i b (unitEnd j + t) = byteOf s t := by
  intro left
  induction left with
  | zero => exact fun _ _ _ => by omega
  | succ left ih =>
      intro i b hi hij hj h
      rw [usaPut]
      obtain rfl | hne := eq_or_ne i j
      · rw [usaPut_frame
          fun k hk hlt => ⟨h k (by omega) (by omega), by rw [unitEnd, unitEnd]; omega⟩, wr16_at ht]
      · exact ih (by omega) (by omega) (by omega) fun k hk hlt => h k hk (by omega)

/-- A slot has what was at the end of its unit, unless a mark covers the slot from then on or an
earlier slot covers the end. -/
theorem usaPut_slot (ht : t < 2) : ∀ {left i : Nat} {b : Bytes}, 1 ≤ i → i ≤ j → j < i + left →
    (∀ k, j ≤ k → k < i + left → off + j * 2 + t < unitEnd k ∨ unitEnd k + 2 ≤ off + j * 2 + t) →
    (∀ k, i ≤ k → k < j → unitEnd j + t < off + k * 2 ∨ off + k * 2 + 2 ≤ unitEnd j + t) →
    usaPut off s left i b (off + j * 2 + t) = b (unitEnd j + t) := by
  intro left
  induction left with
  | zero => exact fun _ _ _ => by omega
  | succ left ih =>
      intro i b hi hij hj h h'
      rw [usaPut]
      obtain rfl | hne := eq_or_ne i j
      · rw [usaPut_frame fun k hk hlt => ⟨by omega, h k (by omega) (by omega)⟩,
          wr16_ne (h i (Nat.le_refl i) hj), wr16_at ht, byteOf_rd16 b _ ht]
      · rw [ih (by omega) (by omega) (by omega) (fun k hk hlt => h k hk (by omega))
          fun k hk hlt => h' k (by omega) hlt]
        rw [wr16_ne (by rw [unitEnd, unitEnd]; omega), wr16_ne (h' i (Nat.le_refl i) (by omega))]

/-- `ntfs_fixup` only writes the ends of the units. -/
theorem usaFix_frame : ∀ {left i : Nat} {b z : Bytes}, usaFix off s left i b = .ok z →
    (∀ k, i ≤ k → k < i + left → a < unitEnd k ∨ unitEnd k + 2 ≤ a) → z a = b a := by
  intro left
  induction left with
  | zero =>
      intro i b z hz _
      cases hz
      rfl
  | succ left ih =>
      intro i b z hz h
      rw [usaFix] at hz
      split at hz
      · cases hz
      · rw [ih hz fun k hk hlt => h k (by omega) (by omega),
          wr16_ne (h i (Nat.le_refl i) (by omega))]

/-- It returns 0 when every unit has the mark. -/
theorem usaFix_ok : ∀ {left i : Nat} {b : Bytes}, 1 ≤ i →
    ((∃ z, usaFix off s left i b = .ok z) ↔
      ∀ k, i ≤ k → k < i + left → rd16 b (unitEnd k) = s) := by
  intro left
  induction left with
  | zero => exact fun _ => ⟨fun _ k _ _ => by omega, fun _ => ⟨_, rfl⟩⟩
  | succ left ih =>
      intro i b hi
      have hlater : ∀ v k, i < k → rd16 (wr16 b (unitEnd i) v) (unitEnd k) = rd16 b (unitEnd k) :=
        fun v k hk => rd16_congr fun t ht => wr16_ne (by rw [unitEnd, unitEnd]; omega)
      rw [usaFix]
      by_cases heq : rd16 b (unitEnd i) = s
      · rw [if_neg (not_not.mpr heq), ih (by omega)]
        refine ⟨fun h k hk hlt => ?_, fun h k hk hlt => ?_⟩
        · obtain rfl | hne := eq_or_ne k i
          · exact heq
          · rw [← hlater (rd16 b (off + i * 2)) k (by omega)]
            exact h k (by omega) (by omega)
        · rw [hlater _ k (by omega)]
          exact h k (by omega) (by omega)
      · rw [if_pos heq]
        exact ⟨fun ⟨z, hz⟩ => (by cases hz), fun h => absurd (h i (Nat.le_refl i) (by omega)) heq⟩

/-- The end of a unit gets back what is in its slot, unless an earlier end covers the slot. -/
theorem usaFix_end (ht : t < 2) : ∀ {left i : Nat} {b z : Bytes},
    usaFix off s left i b = .ok z → 1 ≤ i →
    i ≤ j → j < i + left →
    (∀ k, i ≤ k → k < j → off + j * 2 + t < unitEnd k ∨ unitEnd k + 2 ≤ off + j * 2 + t) →
    z (unitEnd j + t) = b (off + j * 2 + t) := by
  intro left
  induction left with
  | zero => exact fun _ _ _ => by omega
  | succ left ih =>
      intro i b z hz hi hij hj h
      rw [usaFix] at hz
      split at hz
      · cases hz
      · obtain rfl | hne := eq_or_ne i j
        · rw [usaFix_frame hz fun k hk hlt => by rw [unitEnd, unitEnd]; omega, wr16_at ht,
            byteOf_rd16 b _ ht]
        · rw [ih hz (by omega) (by omega) (by omega) fun k hk hlt => h k (by omega) hlt,
            wr16_ne (h i (Nat.le_refl i) (by omega))]

end Loops

/-! ### Where the array may be -/

section Clear

variable {off m s : Nat} {b : Bytes}

/-- A record whose array is clear is unpacked to what it was. -/
theorem ArrayClear.survives (hc : ArrayClear off m s) (hs : s < 2 ^ 16) {y : Bytes}
    (hy : usaPut off s m 1 (wr16 b off s) = y) :
    ∃ z, usaFix off (rd16 y off) m 1 y = .ok z ∧ ∀ a, a < off ∨ off + m * 2 + 2 ≤ a →
      z a = b a := by
  have haway : ∀ {i j t}, 1 ≤ i → i ≤ m → 1 ≤ j → j ≤ m → i ≠ j → t < 2 →
      unitEnd i + t < off + j * 2 ∨ off + j * 2 + 2 ≤ unitEnd i + t := by
    intro i j t hi him hj hjm hij ht
    have := hc.slots i j hi him hj hjm hij
    rw [WordsMeet] at this
    omega
  have haway' : ∀ {i j t}, 1 ≤ i → i ≤ m → 1 ≤ j → j ≤ m → i ≠ j → t < 2 →
      off + j * 2 + t < unitEnd i ∨ unitEnd i + 2 ≤ off + j * 2 + t := by
    intro i j t hi him hj hjm hij ht
    have := hc.slots i j hi him hj hjm hij
    rw [WordsMeet] at this
    omega
  have hmark : ∀ k, 1 ≤ k → k < 1 + m → ∀ t < 2, y (unitEnd k + t) = byteOf s t := by
    intro k hk hkm t ht
    rw [← hy]
    exact usaPut_mark ht (Nat.le_refl 1) hk hkm fun l hl hlm =>
      haway hk (by omega) (by omega) (by omega) (by omega) ht
  -- an end that meets the number has the same bytes there
  have hnumber : rd16 y off = s := by
    refine (rd16_eq_iff hs).mpr fun t ht => ?_
    by_cases hin : ∃ k, 1 ≤ k ∧ k < 1 + m ∧ unitEnd k ≤ off + t ∧ off + t < unitEnd k + 2
    · obtain ⟨k, hk, hkm, h₁, h₂⟩ := hin
      rcases hc.first k hk (by omega) (by rw [WordsMeet]; omega) with heq | heq
      · rw [← heq]
        exact hmark k hk hkm t ht
      · obtain ⟨u, hu, hut⟩ : ∃ u < 2, off + t = unitEnd k + u :=
          ⟨off + t - unitEnd k, by omega, by omega⟩
        have hbyte : ∀ w < 2, byteOf s w = byteOf s 0 := by
          intro w hw
          obtain rfl | rfl : w = 0 ∨ w = 1 := by omega
          · rfl
          · exact heq.symm
        rw [hut, hmark k hk hkm u hu, hbyte u hu, hbyte t ht]
    · rw [← hy, usaPut_frame fun k hk hkm => ⟨by omega, ?_⟩, wr16_at ht]
      by_contra hno
      exact hin ⟨k, hk, hkm, by omega, by omega⟩
  obtain ⟨z, hz⟩ : ∃ z, usaFix off s m 1 y = .ok z :=
    (usaFix_ok (Nat.le_refl 1)).mpr fun k hk hkm => (rd16_eq_iff hs).mpr (hmark k hk hkm)
  refine ⟨z, by rw [hnumber]; exact hz, fun a ha => ?_⟩
  by_cases hin : ∃ k t, 1 ≤ k ∧ k < 1 + m ∧ t < 2 ∧ a = unitEnd k + t
  · obtain ⟨k, t, hk, hkm, ht, rfl⟩ := hin
    rw [usaFix_end ht hz (Nat.le_refl 1) hk hkm fun l hl hlk =>
      haway' hl (by omega) hk (by omega) (by omega) ht, ← hy]
    have hown : off + k * 2 + t < unitEnd k ∨ unitEnd k + 2 ≤ off + k * 2 + t := by
      by_contra hno
      have := hc.own k hk (by omega) (by rw [WordsMeet]; omega)
      omega
    rw [usaPut_slot ht (Nat.le_refl 1) hk hkm ?_ fun l hl hlk =>
      haway hk (by omega) hl (by omega) (by omega) ht, wr16_ne (by omega)]
    intro l hl hlm
    obtain rfl | hne := eq_or_ne l k
    · exact hown
    · exact haway' (by omega) (by omega) hk (by omega) hne ht
  · have hends : ∀ k, 1 ≤ k → k < 1 + m → a < unitEnd k ∨ unitEnd k + 2 ≤ a := by
      intro k hk hkm
      by_contra hno
      exact hin ⟨k, a - unitEnd k, hk, hkm, by omega, by omega⟩
    rw [usaFix_frame hz hends, ← hy, usaPut_frame fun k hk hkm => ⟨by omega, hends k hk hkm⟩,
      wr16_ne (by omega)]

/-- Where the array is not clear, some record is lost. -/
theorem ArrayClear.of_survives (hs : s < 2 ^ 16) (hm : m ≤ 8) (hoff : 8 ≤ off)
    (hfit : off + m * 2 + 2 ≤ m * 512)
    (h : ∀ b' y : Bytes, (∀ a, a < 8 ∨ off ≤ a ∧ a < off + m * 2 + 2 → b' a = b a) →
      usaPut off s m 1 (wr16 b' off s) = y → ∃ z, usaFix off (rd16 y off) m 1 y = .ok z ∧
        ∀ a < m * 512, a < off ∨ off + m * 2 + 2 ≤ a → z a = b' a) : ArrayClear off m s := by
  -- a record that differs in the byte that is overwritten cannot come back
  have hchange : ∀ u, ∃ x, x ≠ byteOf s u := by
    intro u
    by_cases h₀ : byteOf s u = 0
    · exact ⟨1, by rw [h₀]; decide⟩
    · exact ⟨0, Ne.symm h₀⟩
  refine ⟨fun i j hi him hj hjm hij hmeet => ?_, fun i hi him hmeet => ?_, fun i hi him hmeet => ?_⟩
  · -- the last word of unit `i` covers the slot of unit `j`
    obtain ⟨u, t, hu, ht, hp⟩ : ∃ u t, u < 2 ∧ t < 2 ∧ unitEnd i + u = off + j * 2 + t := by
      obtain ⟨h₁, h₂⟩ := hmeet
      by_cases hle : unitEnd i ≤ off + j * 2
      · exact ⟨off + j * 2 - unitEnd i, 0, by omega, by omega, by omega⟩
      · exact ⟨0, unitEnd i - (off + j * 2), by omega, by omega, by omega⟩
    have hothers : ∀ k, 1 ≤ k → k < 1 + m → k ≠ i →
        unitEnd k + 2 ≤ off ∨ off + m * 2 + 2 ≤ unitEnd k := by
      intro k hk hkm hki
      simp only [unitEnd] at hp ⊢
      omega
    have hj' := hothers j hj (by omega) hij.symm
    obtain ⟨x, hx⟩ := hchange u
    obtain ⟨z, hz, heq⟩ := h (Function.update b (unitEnd j + t) x) _
      (fun a ha => Function.update_of_ne (by simp only [unitEnd] at hj' ⊢; omega) _ _) rfl
    have hbyte : Function.update b (unitEnd j + t) x (unitEnd j + t) = x :=
      Function.update_self _ _ _
    generalize Function.update b (unitEnd j + t) x = b' at hz heq hbyte
    generalize hy : usaPut off s m 1 (wr16 b' off s) = y at hz
    rcases Nat.lt_or_gt_of_ne hij with hlt | hlt
    · -- the slot is written over the mark
      have hslot : y (off + j * 2 + t) = x := by
        rw [← hy, usaPut_slot ht (Nat.le_refl 1) hj (by omega) ?_ fun k hk hkj => by omega,
          wr16_ne (by omega), hbyte]
        intro k hk hkm
        have := hothers k (by omega) (by omega) (by omega)
        omega
      have hnumber : rd16 y off = s := by
        refine (rd16_eq_iff hs).mpr fun w hw => ?_
        rw [← hy, usaPut_frame fun k hk hkm => ⟨by omega, ?_⟩, wr16_at hw]
        obtain rfl | hne := eq_or_ne k i
        · omega
        · have := hothers k hk hkm hne
          omega
      have hmark := usaFix_ok (Nat.le_refl 1) |>.mp ⟨z, hz⟩ i hi (by omega)
      rw [hnumber, rd16_eq_iff hs] at hmark
      exact hx (hslot.symm.trans (hp ▸ hmark u hu))
    · -- the mark is written over the slot
      have hmark : y (unitEnd i + u) = byteOf s u := by
        rw [← hy]
        exact usaPut_mark hu (Nat.le_refl 1) hi (by omega) fun k hk hkm => by omega
      have hend := usaFix_end ht hz (Nat.le_refl 1) hj (by omega) fun k hk hkj => by
        have := hothers k hk (by omega) (by omega)
        omega
      rw [← hp, hmark, heq _ (by simp only [unitEnd]; omega) (by omega), hbyte] at hend
      exact hx hend
  · -- the last word of the last unit begins in its slot and ends after the array
    obtain ⟨h₁, h₂⟩ := hmeet
    by_contra hno
    obtain rfl : i = m := by omega
    have hp : unitEnd i = off + i * 2 + 1 := by omega
    obtain ⟨x, hx⟩ := hchange 0
    obtain ⟨z, hz, heq⟩ := h (Function.update b (unitEnd i + 1) x) _
      (fun a ha => Function.update_of_ne (by omega) _ _) rfl
    have hbyte : Function.update b (unitEnd i + 1) x (unitEnd i + 1) = x :=
      Function.update_self _ _ _
    generalize Function.update b (unitEnd i + 1) x = b' at hz heq hbyte
    generalize hy : usaPut off s i 1 (wr16 b' off s) = y at hz
    have hmark : y (unitEnd i + 0) = byteOf s 0 := by
      rw [← hy]
      exact usaPut_mark (Nat.zero_lt_succ 1) (Nat.le_refl 1) hi (by omega) fun k hk hkm => by omega
    have hend := usaFix_end (Nat.lt_succ_self 1) hz (Nat.le_refl 1) hi (by omega) fun k hk hkj => by
      simp only [unitEnd] at hp ⊢
      omega
    rw [heq _ (by simp only [unitEnd]; omega) (by omega), hbyte, ← hp] at hend
    exact hx (hend.trans hmark)
  · -- one byte of the last word of unit `i` is one of the sequence number
    obtain ⟨h₁, h₂⟩ := hmeet
    by_contra hno
    rw [not_or] at hno
    obtain ⟨z, hz, -⟩ := h b _ (fun _ _ => rfl) rfl
    generalize hy : usaPut off s m 1 (wr16 b off s) = y at hz
    have hothers : ∀ k, 1 ≤ k → k < 1 + m → k ≠ i →
        unitEnd k + 2 ≤ off ∨ off + m * 2 + 2 ≤ unitEnd k := by
      intro k hk hkm hki
      simp only [unitEnd] at h₁ h₂ ⊢
      omega
    have hmark : ∀ t < 2, y (unitEnd i + t) = byteOf s t := by
      intro t ht
      rw [← hy]
      exact usaPut_mark ht (Nat.le_refl 1) hi (by omega) fun k hk hkm => by omega
    have hcheck := usaFix_ok (Nat.le_refl 1) |>.mp ⟨z, hz⟩ i hi (by omega)
    have hsame : ∀ t < 2, y (unitEnd i + t) = y (off + t) := by
      intro t ht
      rw [← byteOf_rd16 y _ ht, ← byteOf_rd16 y _ ht, hcheck]
    have hkept : ∀ t < 2, (off + t < unitEnd i ∨ unitEnd i + 2 ≤ off + t) →
        y (off + t) = byteOf s t := by
      intro t ht haway
      rw [← hy, usaPut_frame fun k hk hkm => ⟨by omega, ?_⟩, wr16_at ht]
      obtain rfl | hne := eq_or_ne k i
      · exact haway
      · have := hothers k hk hkm hne
        omega
    rcases Nat.lt_or_gt_of_ne hno.1 with hlt | hlt
    · have hoff' : unitEnd i + 1 = off := by omega
      have h₀ := hsame 0 (by omega)
      rw [hmark 0 (by omega), Nat.add_zero, ← hoff', hmark 1 (by omega)] at h₀
      exact hno.2 h₀
    · have hoff' : unitEnd i = off + 1 := by omega
      have h₀ := hsame 1 (by omega)
      rw [hmark 1 (by omega), ← hoff', ← Nat.add_zero (unitEnd i), hmark 0 (by omega)] at h₀
      exact hno.2 h₀.symm

end Clear

/-! ### Records -/

theorem memEq_congr {b c : Bytes} {l : List UInt8} (h : ∀ i < l.length, b i = c i) :
    memEq b 0 l = memEq c 0 l := by
  rw [Bool.eq_iff_iff, memEq, memEq, List.all_eq_true, List.all_eq_true]
  refine forall₂_congr fun i hi => ?_
  rw [Nat.zero_add, h i (List.mem_range.mp hi)]

theorem NtfsRecord.magic_length (k : NtfsRecord) : k.magic.length = 4 := by
  cases k with
  | file => rfl
  | indx => rfl

/-- When `ntfs_fixup` accepts a record of `m` units. -/
theorem ntfsFixup_iff {x z : Bytes} {size : Nat} {k : NtfsRecord} :
    ntfsFixup x size k.magic = .ok z ↔ ∃ m, size = m * 512 ∧ 1 ≤ m ∧ memEq x 0 k.magic = true ∧
      rd16 x 6 = m + 1 ∧ 8 ≤ rd16 x 4 ∧ rd16 x 4 + m * 2 + 2 ≤ size ∧
      usaFix (rd16 x 4) (rd16 x (rd16 x 4)) m 1 x = .ok z := by
  rw [ntfsFixup]
  constructor
  · intro h
    split at h
    · cases h
    · next h₁ =>
        dsimp only at h
        split at h
        · cases h
        · next h₂ =>
            simp only [not_or, not_lt, Bool.not_eq_false, not_not] at h₁ h₂
            obtain ⟨hsize, hmagic⟩ := h₁
            obtain ⟨hmod, hcount, hoff, hin, hfit⟩ := h₂
            rw [hcount, Nat.add_sub_cancel] at h
            exact ⟨size / 512, by omega, by omega, hmagic, hcount, hoff, by omega, h⟩
  · rintro ⟨m, rfl, hm, hmagic, hcount, hoff, hfit, h⟩
    rw [if_neg (by simp only [hmagic, not_or]; exact ⟨by omega, by decide⟩)]
    dsimp only
    rw [if_neg (by omega), hcount, Nat.add_sub_cancel, h]

/-- What both packing and unpacking leave: the header before the first unit ends. -/
theorem usaFix_header {off s m : Nat} {x z : Bytes} (h : usaFix off s m 1 x = .ok z) {a : Nat}
    (ha : a < 8) :
    z a = x a :=
  usaFix_frame h fun k hk _ => by rw [unitEnd]; omega

/-- Packing leaves the first eight bytes. -/
theorem usaPut_header {off s m : Nat} {b : Bytes} (hoff : 8 ≤ off) {a : Nat} (ha : a < 8) :
    usaPut off s m 1 (wr16 b off s) a = b a := by
  rw [usaPut_frame fun k hk _ => ⟨by omega, by rw [unitEnd]; omega⟩, wr16_ne (by omega)]

/-- So the header's two fields read the same. -/
theorem rd16_header {b c : Bytes} (h : ∀ a < 8, b a = c a) : rd16 b 4 = rd16 c 4 ∧
    rd16 b 6 = rd16 c 6 :=
  ⟨rd16_congr fun t ht => h _ (by omega), rd16_congr fun t ht => h _ (by omega)⟩

/-- Records of an accepted volume have at most 4096 bytes. -/
theorem ntfsGeometry_sizes {disk sector start length : Nat} {ro : Bool} {boot : Bytes}
    {v : NativeVolume}
    (hv : ntfsGeometry disk sector start length ro boot = .ok v) (k : NtfsRecord) :
    k.size v ≤ 4096 := by
  simp only [ntfsGeometry, ok_guard, not_or, not_lt] at hv
  obtain ⟨-, -, ⟨-, -, hr, -, -, hi, -, -⟩, hv⟩ := hv
  cases hv
  cases k with
  | file => exact hr
  | indx => exact hi

/-- A packer that takes the place of the array packs. -/
theorem UsaPacker.image_ok {v : NativeVolume} {p : UsaPacker} {b y : Bytes} {m : Nat}
    (hsize : p.kind.size v = m * 512) (hcount : rd16 b 6 = m + 1)
    (hfit : rd16 b 4 + m * 2 + 2 ≤ m * 512) :
    p.image v b = .ok y ↔ p.least ≤ rd16 b 4 ∧
      usaPut (rd16 b 4) (nextSequence (rd16 b (rd16 b 4))) m 1
        (wr16 b (rd16 b 4) (nextSequence (rd16 b (rd16 b 4)))) = y := by
  obtain ⟨counts, he⟩ := p.image_eq v b
  rw [he, usaPack, hsize, hcount, Nat.mul_div_cancel m (by decide), Nat.add_sub_cancel]
  by_cases hlt : rd16 b 4 < p.least
  · rw [if_pos (.inr (.inl hlt))]
    exact ⟨fun h => (by cases h), fun h => absurd h.1 (by omega)⟩
  · rw [if_neg (by omega)]
    exact ⟨fun h => ⟨not_lt.mp hlt, Except.ok.inj h⟩, fun h => congrArg Except.ok h.2⟩

/-- **Packing and unpacking.**  A record that `ntfs_fixup` accepted survives every change, packed by
`p` and unpacked again, exactly when `p` does not take its array or the array is clear. -/
theorem survives_packing_iff {disk sector start length : Nat} {ro : Bool} {boot : Bytes}
    {v : NativeVolume} (hv : ntfsGeometry disk sector start length ro boot = .ok v) (p : UsaPacker)
    {x r : Bytes} (hx : ntfsFixup x (p.kind.size v) p.kind.magic = .ok r) :
    (∀ b, Modified r b → SurvivesPacking v p r b) ↔ rd16 r 4 < p.least ∨
      ArrayClear (rd16 r 4) (p.kind.size v / 512) (nextSequence (rd16 r (rd16 r 4))) := by
  obtain ⟨m, hsize, hm, hmagic, hcount, hoff, hfit, hfix⟩ := ntfsFixup_iff.mp hx
  have hmax := ntfsGeometry_sizes hv p.kind
  have hr : ∀ a < 8, r a = x a := fun a ha => usaFix_header hfix ha
  obtain ⟨hr4, hr6⟩ := rd16_header hr
  rw [← hr4] at hoff hfit
  rw [← hr6] at hcount
  rw [hsize] at hmax hfit
  rw [hsize, Nat.mul_div_cancel m (by decide)]
  generalize hoff' : rd16 r 4 = off at hoff hfit ⊢
  -- what is packed, of a change `b`
  have hb : ∀ {b}, Modified r b → rd16 b 4 = off ∧ rd16 b 6 = m + 1 ∧ rd16 b off = rd16 r off := by
    intro b hb
    obtain ⟨h4, h6⟩ := rd16_header hb.header
    refine ⟨h4.trans hoff', h6.trans hcount, rd16_congr fun t ht => hb.array _ ?_⟩
    rw [InArray, hoff', hcount]
    omega
  have harray : ∀ a, InArray r a ↔ off ≤ a ∧ a < off + m * 2 + 2 := by
    intro a
    rw [InArray, hoff', hcount]
    omega
  have himage : ∀ {b}, Modified r b → ∀ y, p.image v b = .ok y ↔ p.least ≤ off ∧
      usaPut off (nextSequence (rd16 r off)) m 1 (wr16 b off (nextSequence (rd16 r off))) = y := by
    intro b hmod y
    obtain ⟨h4, h6, hnumber⟩ := hb hmod
    rw [UsaPacker.image_ok hsize h6 (h4.symm ▸ hfit), h4, hnumber]
  have hlt := nextSequence_lt (rd16 r off)
  generalize nextSequence (rd16 r off) = s at himage hlt ⊢
  have hfixup : ∀ {b y z}, Modified r b → usaPut off s m 1 (wr16 b off s) = y →
      (ntfsFixup y (p.kind.size v) p.kind.magic = .ok z ↔
        usaFix off (rd16 y off) m 1 y = .ok z) := by
    intro b y z hmod hy
    obtain ⟨h4, h6, -⟩ := hb hmod
    have hhead : ∀ a < 8, y a = b a := fun a ha => hy ▸ usaPut_header hoff ha
    obtain ⟨hy4, hy6⟩ := rd16_header hhead
    rw [ntfsFixup_iff, hy4, hy6, h4, h6]
    refine ⟨fun ⟨n, _, _, _, hn, _, _, h⟩ => ?_, fun h => ⟨m, hsize, hm, ?_, rfl, hoff, ?_, h⟩⟩
    · obtain rfl := Nat.succ.inj hn
      exact h
    · rw [← hmagic]
      refine memEq_congr fun i hi => ?_
      rw [NtfsRecord.magic_length] at hi
      rw [hhead i (by omega), hmod.header i (by omega), hr i (by omega)]
    · rwa [hsize]
  constructor
  · intro h
    by_cases hl : off < p.least
    · exact .inl hl
    · refine .inr (ArrayClear.of_survives (b := r) hlt (by omega) hoff hfit fun b' y hkeep hy => ?_)
      have hmod : Modified r b' :=
        ⟨fun a ha => hkeep a (.inl ha), fun a ha => hkeep a (.inr ((harray a).mp ha))⟩
      obtain ⟨z, hz, heq⟩ := h b' hmod y ((himage hmod y).mpr ⟨not_lt.mp hl, hy⟩)
      refine ⟨z, (hfixup hmod hy).mp hz, fun a ha hout => heq a (hsize ▸ ha) fun hin => ?_⟩
      have := (harray a).mp hin
      omega
  · rintro (hl | hc) b hmod y hy
    · have := ((himage hmod y).mp hy).1
      omega
    · have hy := ((himage hmod y).mp hy).2
      obtain ⟨z, hz, heq⟩ := hc.survives hlt hy
      refine ⟨z, (hfixup hmod hy).mpr hz, fun a _ hout => heq a ?_⟩
      rw [harray] at hout
      omega

/-- A record of two units with its array at `off`. -/
def smallRecord (off : Nat) : Bytes := fun i =>
  if i < 4 then NtfsRecord.file.magic.getD i 0
  else if i = 4 ∨ i = 5 then byteOf off (i - 4)
  else if i = 6 then 3
  else if i = off ∨ i = 510 ∨ i = 1022 then 1
  else 0

theorem ntfsGeometry_wider : ntfsGeometry 0 512 1 299 false widerNtfs = .ok widerVolume := by rfl

/-- An array right after the header survives. -/
theorem survives_packing_small :
    ∃ r, ntfsFixup (smallRecord 48) 1024 NtfsRecord.file.magic = .ok r ∧
    ∀ b, Modified r b → SurvivesPacking widerVolume .txRecord r b := by
  obtain ⟨r, hr⟩ : ∃ r, ntfsFixup (smallRecord 48) 1024 NtfsRecord.file.magic = .ok r := ⟨_, rfl⟩
  have h4 : rd16 r 4 = 48 := by
    obtain ⟨m, -, -, -, -, -, -, h⟩ := ntfsFixup_iff.mp hr
    exact (rd16_header fun a ha => usaFix_header h ha).1
  have hunits : UsaPacker.txRecord.kind.size widerVolume / 512 = 2 := rfl
  refine ⟨r, hr, (survives_packing_iff ntfsGeometry_wider .txRecord hr).mpr (.inr ?_)⟩
  rw [h4, hunits]
  refine ⟨fun i j hi hin hj hjn hij h => ?_, fun i hi hin h => ?_, fun i hi hin h => ?_⟩
  · simp only [WordsMeet, unitEnd] at h
    omega
  · simp only [WordsMeet, unitEnd] at h
    omega
  · simp only [WordsMeet, unitEnd] at h
    omega

/-- An array whose second slot is the last word of the first unit does not: `ntfs_fixup` takes the
record from the disk, and does not take what either packer makes of it. -/
theorem not_survives_packing_straddling :
    ∃ r, ntfsFixup (smallRecord 506) 1024 NtfsRecord.file.magic = .ok r ∧
    (∃ y, ntfsStoreRecord widerVolume r = .ok y ∧
      ntfsFixup y 1024 NtfsRecord.file.magic = .error .eio) ∧
    ∃ y, ntTxRecord widerVolume r = .ok y ∧
      ntfsFixup y 1024 NtfsRecord.file.magic = .error .eio := by
  refine ⟨_, rfl, ⟨_, rfl, ?_⟩, ⟨_, rfl, ?_⟩⟩
  · rfl
  · rfl

end Efishell
