import Mathlib.Data.List.Pairwise
import Mathlib.Tactic.Ring
import Efishell.Fs.Native
import Efishell.Storage.Flat

/-!
# File systems — the bytes of a native volume

`native_bytes`, `native_write_bytes` and `run_io`.  A volume is a part of a drive, and the bytes of
a file are those of its runs; `view` is the volume as one array of bytes, `runPlace` the byte of the
volume that a byte of a file is.  The calls read and write these arrays, and nothing else on the
drive.

* `nativeBytes_ends`, `nativeWriteBytes_ends`: a slice of the volume is read and written.
* `runIoLoop_read_ends`, `runIoLoop_write_ends`: so are the bytes of a file.
-/

namespace Efishell

/-- A drive with a volume in use: what `native_volume` remembers of its writes. -/
structure NativeState where
  drive : Drive
  failed : Bool
  wrote : Bool

/-- A command of the drive. -/
def inDrive {α : Type} (x : Io Errno Drive α) : Io Errno NativeState α := fun s =>
  match x s.drive with
  | (r, drive) => (r, { s with drive })

/-- `disk_bytes` of the drive. -/
def driveBytes (_disk offset n : Nat) : Io Errno NativeState Bytes :=
  inDrive (onDisk (diskBytes offset n))

/-- The buffer `sector` before a round of `native_write_bytes` copies to it: a sector that is
written as a whole is not read first. -/
def sectorBefore (v : NativeVolume) (lba at_ n : Nat) : Io Errno NativeState Bytes :=
  if at_ ≠ 0 ∨ n < v.sector then nativeBytes driveBytes v (lba * v.sector) v.sector
  else return fun _ => 0

/-- The loop of `native_write_bytes`; a round writes at least one byte, so `bytes` rounds are
enough. -/
def nativeWriteLoop (v : NativeVolume) (p : Bytes) : Nat → Nat → Nat → Nat →
    Io Errno NativeState Unit
  | 0, _, _, _ => return ()
  | fuel + 1, offset, bytes, pos =>
      if bytes = 0 then return ()
      else do
        let lba := offset / v.sector
        let at_ := offset % v.sector
        let n := min bytes (v.sector - at_)
        let sector ← sectorBefore v lba at_ n
        inDrive (diskWriteFs (v.start + lba) 1 (memCopy sector at_ p pos n) v.sector)
        nativeWriteLoop v p fuel (offset + n) (bytes - n) (pos + n)

/-- What the volume remembers of a write. -/
def settleWrite : Except Errno Unit → Io Errno NativeState Unit
  | .ok () => Io.modify fun s => { s with wrote := true }
  | .error e => do
      Io.modify fun s => { s with failed := true }
      Io.fail e

/-- The `bytes` bytes of `p` from `pos` on go to `offset`. -/
def nativeWriteBytes (v : NativeVolume) (offset : Nat) (p : Bytes) (pos bytes : Nat) :
    Io Errno NativeState Unit := do
  let s ← Io.get
  if v.readOnly = true ∨ s.failed = true then Io.fail .erofs
  else if spanOk offset bytes (v.length * v.sector % 2 ^ 64) = false then Io.fail .eio
  else do
    let r ← Io.attempt (do
      nativeWriteLoop v p bytes offset bytes pos
      inDrive diskFlush)
    settleWrite r

/-! ### Files -/

/-- The run of block `logical` of a file, `none` for a hole. -/
def backing (runs : List NativeRun) (logical : Nat) : Option NativeRun :=
  (runs.find? fun r => decide (r.logical ≤ logical ∧ logical - r.logical < r.length)).filter
    fun r => !r.hole

/-- Byte `at_` of block `logical`, which is in the run. -/
def NativeRun.address (v : NativeVolume) (r : NativeRun) (logical at_ : Nat) : Nat :=
  ((r.physical + logical - r.logical) % 2 ^ 64 * v.block % 2 ^ 64 + at_) % 2 ^ 64

/-- What `run_io` does with `n` bytes of one block. -/
def runPiece (v : NativeVolume) (write : Bool) (run : Option NativeRun) (logical at_ n pos : Nat)
    (data : Bytes) : Io Errno NativeState Bytes :=
  match run with
  | none => if write then Io.fail .enotsup else return memZero data pos n
  | some r =>
      if write then do
        nativeWriteBytes v (r.address v logical at_) data pos n
        return data
      else do
        let b ← nativeBytes driveBytes v (r.address v logical at_) n
        return memCopy data pos b 0 n

/-- The loop of `run_io`, on the bytes of `data` from `pos` on; a round gets at least one byte
done. -/
def runIoLoop (v : NativeVolume) (runs : List NativeRun) (write : Bool) :
    Nat → Nat → Nat → Nat → Bytes → Io Errno NativeState Bytes
  | 0, _, _, _, data => return data
  | fuel + 1, offset, bytes, pos, data =>
      if bytes = 0 then return data
      else do
        let logical := offset / v.block
        let at_ := offset % v.block
        let n := min bytes (v.block - at_)
        let data ← runPiece v write (backing runs logical) logical at_ n pos data
        runIoLoop v runs write fuel ((offset + n) % 2 ^ 64) (bytes - n) (pos + n) data

/-- `run_io`: `data` afterwards. -/
def runIo (v : NativeVolume) (runs : List NativeRun) (offset : Nat) (data : Bytes) (bytes : Nat)
    (write : Bool) : Io Errno NativeState Bytes :=
  runIoLoop v runs write bytes offset bytes 0 data

/-! ### Volumes on a drive -/

/-- The volume is a part of a drive with this geometry. -/
structure NativeVolume.On (v : NativeVolume) (g : Geometry) : Prop where
  ok : v.Ok
  sector : v.sector = g.sectorSize
  inside : v.start + v.length ≤ g.sectors
  block : power2 v.block = true
  block_le : v.block ≤ 2 ^ 64

namespace NativeVolume

variable {v : NativeVolume} {g : Geometry}

/-- The size of the volume in bytes. -/
def bytes (v : NativeVolume) : Nat := v.length * v.sector

/-- Its first byte on the drive. -/
def base (v : NativeVolume) : Nat := v.start * v.sector

/-- The product of two powers of two is one. -/
theorem power2_mul {a b : Nat} (ha : power2 a = true) (hb : power2 b = true) :
    power2 (a * b) = true := by
  obtain ⟨k, rfl⟩ := power2_iff.mp ha
  obtain ⟨l, rfl⟩ := power2_iff.mp hb
  exact power2_iff.mpr ⟨k + l, (pow_add 2 k l).symm⟩

/-- The clusters of an accepted NTFS volume. -/
theorem ntfsGeometry_block {disk sector start length : Nat} {ro : Bool} {boot : Bytes}
    (hs : power2 sector = true) (h : ntfsGeometry disk sector start length ro boot = .ok v) :
    v.sector = sector ∧ v.start = start ∧ v.length = length ∧ power2 v.block = true ∧
      v.block ≤ 128 * sector := by
  simp only [ntfsGeometry, ok_guard, not_or, not_not, not_lt, Bool.not_eq_false] at h
  obtain ⟨⟨hbps, hspc, h128, -⟩, -, -, h⟩ := h
  cases h
  refine ⟨rfl, rfl, rfl, power2_mul (hbps ▸ hs) hspc, ?_⟩
  rw [Nat.mul_comm 128, hbps]
  exact Nat.mul_le_mul_left _ h128

/-- The blocks of an accepted ext4 volume. -/
theorem extGeometry_block {disk sector start length : Nat} {ro : Bool} {s : Bytes}
    (h : extGeometry disk sector start length ro s = .ok v) :
    v.sector = sector ∧ v.start = start ∧ v.length = length ∧ power2 v.block = true ∧
      v.block ≤ 4096 := by
  simp only [extGeometry, ok_guard, not_or, not_lt] at h
  obtain ⟨-, ⟨hlog, -⟩, -, -, -, h⟩ := h
  cases h
  refine ⟨rfl, rfl, rfl, power2_mul (power2_iff.mpr ⟨10, rfl⟩) (power2_iff.mpr ⟨_, rfl⟩), ?_⟩
  have hpow : 2 ^ rd32 s 24 ≤ 2 ^ 2 := Nat.pow_le_pow_right Nat.zero_lt_two hlog
  dsimp only
  omega

/-- A volume `native_probe` accepts lies on its disk. -/
theorem nativeGeometry_on {disk start length : Nat} {ro : Bool} {boot super : Bytes}
    (h : nativeGeometry g disk start length ro boot super = .ok v) : v.On g := by
  have hok := nativeGeometry_ok h
  have hmax := g.sectorSize_max
  rw [nativeGeometry] at h
  split at h
  · cases h
  · rename_i hin
    simp only [not_or, not_le, not_lt] at hin
    split at h
    · obtain ⟨h₁, h₂, h₃, h₄, h₅⟩ := ntfsGeometry_block g.sectorSize_pow h
      exact ⟨hok, h₁, by omega, h₄, by omega⟩
    · obtain ⟨h₁, h₂, h₃, h₄, h₅⟩ := extGeometry_block h
      exact ⟨hok, h₁, by omega, h₄, by omega⟩

namespace On

/-- The bytes of the volume do not wrap. -/
theorem bytes_mod (h : v.On g) : v.length * v.sector % 2 ^ 64 = v.bytes :=
  Nat.mod_eq_of_lt h.ok.length_lt

theorem end_eq (v : NativeVolume) : v.base + v.bytes = (v.start + v.length) * v.sector :=
  (Nat.add_mul _ _ _).symm

/-- The volume ends on the disk. -/
theorem end_le (h : v.On g) : v.base + v.bytes ≤ g.sectors * g.sectorSize := by
  rw [end_eq, h.sector]
  exact Nat.mul_le_mul_right _ h.inside

/-- It starts at a sector. -/
theorem dvd_base (h : v.On g) : g.sectorSize ∣ v.base := by
  rw [base, h.sector]
  exact Nat.dvd_mul_left _ _

theorem dvd_end (h : v.On g) : g.sectorSize ∣ v.base + v.bytes := by
  rw [end_eq, h.sector]
  exact Nat.dvd_mul_left _ _

/-- The sector of a byte of the volume. -/
theorem lba_lt (h : v.On g) {i : Nat} (hi : i < v.bytes) : i / v.sector < v.length :=
  (Nat.div_lt_iff_lt_mul h.ok.sector_pos).mpr hi

end On

end NativeVolume

/-- The volume as one array. -/
def NativeState.view (v : NativeVolume) (s : NativeState) : Bytes := fun i =>
  s.drive.disk.image (v.base + i)

/-- Other contents outside of the volume. -/
def NativeState.graft (v : NativeVolume) (m : Bytes) (s : NativeState) : NativeState :=
  { s with drive := s.drive.graft v.base (v.base + v.bytes) m }

namespace NativeState

variable {s s₁ s' : NativeState}

/-- Nothing was written. -/
structure Stays (s s' : NativeState) : Prop where
  geo : s'.drive.disk.geo = s.drive.disk.geo
  image : s'.drive.disk.image = s.drive.disk.image
  failed : s'.failed = s.failed
  wrote : s'.wrote = s.wrote
  reliable : s.drive.Reliable → s'.drive.Reliable

/-- All writes succeeded. -/
structure Writes (s s' : NativeState) : Prop where
  geo : s'.drive.disk.geo = s.drive.disk.geo
  failed : s'.failed = s.failed
  reliable : s.drive.Reliable → s'.drive.Reliable

theorem Stays.refl (s : NativeState) : s.Stays s := ⟨rfl, rfl, rfl, rfl, id⟩

theorem Stays.trans (h : s.Stays s₁) (h' : s₁.Stays s') : s.Stays s' :=
  ⟨h'.geo.trans h.geo, h'.image.trans h.image, h'.failed.trans h.failed, h'.wrote.trans h.wrote,
    h'.reliable ∘ h.reliable⟩

/-- What stays has been written nowhere. -/
theorem Stays.writes (h : s.Stays s') : s.Writes s' := ⟨h.geo, h.failed, h.reliable⟩

/-- The volume's bytes stay. -/
theorem Stays.view {v : NativeVolume} (h : s.Stays s') : s'.view v = s.view v := by
  funext i
  rw [NativeState.view, NativeState.view, h.image]

theorem Writes.trans (h : s.Writes s₁) (h' : s₁.Writes s') : s.Writes s' :=
  ⟨h'.geo.trans h.geo, h'.failed.trans h.failed, h'.reliable ∘ h.reliable⟩

end NativeState

section Access

variable {v : NativeVolume} {s : NativeState}

/-! ### What the calls do -/

/-- What ends so on the drive ends so within the native state. -/
theorem inDrive_ends {α : Type} {x : Io Errno Drive α} {Q : α → Drive → Prop}
    {E : Errno → Drive → Prop} (h : Io.Ends x s.drive Q E) :
    Io.Ends (inDrive x) s (fun a s' => Q a s'.drive ∧ s' = { s with drive := s'.drive })
      fun e s' => E e s'.drive ∧ s' = { s with drive := s'.drive } := by
  rw [Io.Ends] at h ⊢
  rw [inDrive]
  cases hx : x s.drive with
  | mk r drive =>
      rw [hx] at h
      cases r with
      | ok a => exact ⟨h, rfl⟩
      | error e => exact ⟨h, rfl⟩

/-- A drive with the same image stays. -/
theorem stays_of_like {s s' : NativeState} (h : s.drive.Like s'.drive)
    (hi : s'.drive.disk.image = s.drive.disk.image) (hs : s' = { s with drive := s'.drive }) :
    s.Stays s' := by
  rw [hs]
  exact ⟨h.geo, hi, rfl, rfl, h.reliable⟩

theorem stays_of_breaks {s s' : NativeState} (h : s.drive.Breaks (fun _ => False) s'.drive)
    (hs : s' = { s with drive := s'.drive }) : s.Stays s' := by
  rw [hs]
  exact ⟨h.geo, funext fun b => h.image b id, rfl, rfl, fun hr => absurd hr h.unreliable⟩

/-- **`native_bytes`**: the slice of the volume. -/
theorem nativeBytes_ends (hv : v.On s.drive.disk.geo) {offset n : Nat} :
    Io.Ends (nativeBytes driveBytes v offset n) s
      (fun b s' => offset + n ≤ v.bytes ∧ (∀ i < n, b i = s.view v (offset + i)) ∧ s.Stays s')
      (fun e s' => s.Stays s' ∧ (v.bytes < offset + n ∧ e = .eio ∨
        offset + n ≤ v.bytes ∧ ¬ s.drive.Reliable)) := by
  rw [nativeBytes, hv.bytes_mod]
  refine .ite (fun hs => ?_) fun hs => ?_
  · rw [spanOk_iff] at hs
    have hend := hv.end_le
    have hd : Io.Ends (diskBytes (v.base + offset) n) s.drive.disk
        (fun b d' => (∀ i < n, b i = s.drive.disk.image (v.base + offset + i)) ∧
          s.drive.disk.Passes d')
        (fun _ => s.drive.disk.Breaks) := diskBytes_ends (by omega)
    refine (inDrive_ends (onDisk_ends (fun _ => False) hd)).mono ?_ ?_
    · rintro b s' ⟨⟨hb, hl, hi⟩, hs'⟩
      refine ⟨hs, fun i hlt => ?_, stays_of_like hl hi hs'⟩
      rw [hb i hlt, NativeState.view, Nat.add_assoc]
    · rintro e s' ⟨hbr, hs'⟩
      exact ⟨stays_of_breaks hbr hs', .inr ⟨hs, hbr.unreliable⟩⟩
  · rw [spanOk_iff] at hs
    exact ⟨.refl s, .inl ⟨by omega, rfl⟩⟩

/-- One sector of the volume is written. -/
theorem writeSector_ends (hv : v.On s.drive.disk.geo) {lba : Nat} {p : Bytes}
    (hlba : lba < v.length) :
    Io.Ends (inDrive (diskWriteFs (v.start + lba) 1 p v.sector)) s
      (fun _ s' => s.Writes s' ∧
        s'.drive.disk.image = memCopy s.drive.disk.image (v.base + lba * v.sector) p 0 v.sector)
      (fun _ s' => s'.drive.disk.geo = s.drive.disk.geo ∧ ¬ s.drive.Reliable) := by
  have hin := hv.inside
  have hw := @diskWriteFs_ends s.drive (v.start + lba) p (by omega)
  rw [← hv.sector, Nat.add_mul] at hw
  refine (inDrive_ends hw).mono ?_ ?_
  · rintro _ s' ⟨⟨hl, hi⟩, hs'⟩
    refine ⟨⟨hl.geo, ?_, hl.reliable⟩, hi⟩
    rw [hs']
  · rintro _ s' ⟨hb, -⟩
    exact ⟨hb.geo, hb.unreliable⟩

/-- The sector to be written part of is read first, unless all of it is. -/
theorem sectorBefore_ends (hv : v.On s.drive.disk.geo) {lba at_ n : Nat} (hlba : lba < v.length)
    (hn : at_ + n ≤ v.sector) :
    Io.Ends (sectorBefore v lba at_ n) s
      (fun b s' => s.Stays s' ∧ ∀ i < v.sector,
        i < at_ ∨ at_ + n ≤ i → b i = s.view v (lba * v.sector + i))
      (fun _ s' => s.Stays s' ∧ ¬ s.drive.Reliable) := by
  rw [sectorBefore]
  refine .ite (fun _ => ?_) fun hc => ?_
  · have hl := Nat.mul_le_mul_right v.sector (Nat.succ_le_of_lt hlba)
    rw [Nat.succ_mul] at hl
    refine (nativeBytes_ends hv).mono ?_ ?_
    · rintro b s' ⟨-, hb, hst⟩
      exact ⟨hst, fun i hi _ => hb i hi⟩
    · rintro e s' ⟨hst, ⟨hout, -⟩ | ⟨-, hr⟩⟩
      · rw [NativeVolume.bytes] at hout
        omega
      · exact ⟨hst, hr⟩
  · refine Io.ends_pure.mpr ⟨.refl s, fun i hi hor => ?_⟩
    omega

/-- A piece of `k` bytes, and the `n` bytes behind it. -/
theorem memCopy_append {b p : Bytes} {off pos k n : Nat} :
    memCopy (memCopy b off p pos k) (off + k) p (pos + k) n = memCopy b off p pos (k + n) := by
  funext i
  by_cases h₁ : i < off
  · rw [memCopy_ne (.inl (by omega)), memCopy_ne (.inl h₁), memCopy_ne (.inl h₁)]
  · by_cases h₂ : i < off + k
    · rw [memCopy_ne (.inl h₂), memCopy_eq (by omega) h₂, memCopy_eq (by omega) (by omega)]
    · by_cases h₃ : i < off + (k + n)
      · rw [memCopy_eq (by omega) (by omega), memCopy_eq (by omega) h₃]
        congr 1
        omega
      · rw [memCopy_ne (.inr (by omega)), memCopy_ne (.inr (by omega)),
          memCopy_ne (.inr (by omega))]

/-- A whole sector is written for the sake of the bytes from `at_` on. -/
theorem memCopy_sector {b sector p : Bytes} {off at_ pos n size : Nat} (hn : at_ + n ≤ size)
    (hsec : ∀ i < size, i < at_ ∨ at_ + n ≤ i → sector i = b (off + i)) :
    memCopy b off (memCopy sector at_ p pos n) 0 size = memCopy b (off + at_) p pos n := by
  funext i
  by_cases h₁ : off ≤ i ∧ i < off + size
  · rw [memCopy_eq h₁.1 h₁.2]
    by_cases h₂ : off + at_ ≤ i ∧ i < off + at_ + n
    · rw [memCopy_eq (by omega) (by omega), memCopy_eq h₂.1 h₂.2]
      congr 1
      omega
    · rw [memCopy_ne (by omega), memCopy_ne (by omega), hsec _ (by omega) (by omega)]
      congr 1
      omega
  · rw [memCopy_ne (by omega), memCopy_ne (by omega)]

/-- The loop of `native_write_bytes` writes what is left, sector by sector. -/
theorem nativeWriteLoop_ends {p : Bytes} {fuel : Nat} : ∀ {s : NativeState} {offset n pos : Nat},
    n ≤ fuel → v.On s.drive.disk.geo → offset + n ≤ v.bytes →
    Io.Ends (nativeWriteLoop v p fuel offset n pos) s
      (fun _ s' => s.Writes s' ∧
        s'.drive.disk.image = memCopy s.drive.disk.image (v.base + offset) p pos n)
      (fun _ s' => s'.drive.disk.geo = s.drive.disk.geo ∧ ¬ s.drive.Reliable) := by
  have hnone : ∀ {b : Bytes} {off pos : Nat}, memCopy b off p pos 0 = b :=
    fun {b off pos} => funext fun i => memCopy_ne (by omega)
  induction fuel with
  | zero =>
      intro s offset n pos hn _ _
      obtain rfl := Nat.le_zero.mp hn
      exact ⟨(NativeState.Stays.refl s).writes, hnone.symm⟩
  | succ fuel ih =>
      intro s offset n pos hn hv hin
      rw [nativeWriteLoop]
      refine .ite (fun h0 => ?_) fun h0 => ?_
      · subst h0
        exact ⟨(NativeState.Stays.refl s).writes, hnone.symm⟩
      · have hmod := Nat.mod_lt offset hv.ok.sector_pos
        have hdiv := Nat.div_add_mod' offset v.sector
        have hlba := hv.lba_lt (i := offset) (by omega)
        generalize hk : min n (v.sector - offset % v.sector) = k
        have hkn : offset % v.sector + k ≤ v.sector := by omega
        dsimp only
        rw [hk]
        refine Io.ends_bind.mpr ((sectorBefore_ends hv hlba hkn).mono ?_ fun e s₁ h =>
          ⟨h.1.geo, h.2⟩)
        rintro b s₁ ⟨hst, hb⟩
        -- the bytes around the piece are those of the drive
        have hbytes : ∀ i < v.sector, i < offset % v.sector ∨ offset % v.sector + k ≤ i →
            b i = s₁.drive.disk.image (v.base + offset / v.sector * v.sector + i) := by
          intro i hi hor
          rw [hst.image, Nat.add_assoc]
          exact hb i hi hor
        have hv₁ : v.On s₁.drive.disk.geo := hst.geo ▸ hv
        refine Io.ends_bind.mpr ((writeSector_ends hv₁ hlba).mono ?_ ?_)
        · rintro _ s₂ ⟨hw, hi⟩
          have hoff :
              v.base + offset / v.sector * v.sector + offset % v.sector = v.base + offset := by
                omega
          rw [memCopy_sector hkn hbytes, hst.image, hoff] at hi
          refine (ih (by omega) (hw.geo ▸ hv₁) (by omega)).mono ?_ ?_
          · rintro _ s₃ ⟨hw', hi'⟩
            refine ⟨(hst.writes.trans hw).trans hw', ?_⟩
            rw [hi', hi, ← Nat.add_assoc, memCopy_append]
            congr 1
            omega
          · rintro _ s₃ ⟨hg, hr⟩
            exact ⟨(hg.trans hw.geo).trans hst.geo, fun h => hr (hw.reliable (hst.reliable h))⟩
        · rintro _ s₂ ⟨hg, hr⟩
          exact ⟨hg.trans hst.geo, fun h => hr (hst.reliable h)⟩

/-- **`native_write_bytes`** writes the bytes that it is given, and no others. -/
theorem nativeWriteBytes_ends (hv : v.On s.drive.disk.geo) {offset n pos : Nat} {p : Bytes} :
    Io.Ends (nativeWriteBytes v offset p pos n) s
      (fun _ s' => v.readOnly = false ∧ s.failed = false ∧ offset + n ≤ v.bytes ∧ s.Writes s' ∧
        s'.wrote = true ∧
          s'.drive.disk.image = memCopy s.drive.disk.image (v.base + offset) p pos n)
      (fun e s' => s'.drive.disk.geo = s.drive.disk.geo ∧
        ((v.readOnly = true ∨ s.failed = true) ∧ e = .erofs ∧ s' = s ∨
          v.bytes < offset + n ∧ e = .eio ∧ s' = s ∨ ¬ s.drive.Reliable ∧ s'.failed = true)) := by
  rw [nativeWriteBytes]
  refine Io.ends_bind.mpr
    (Io.ends_get.mpr (.ite (fun hro => ⟨rfl, .inl ⟨hro, rfl, rfl⟩⟩) fun hro => ?_))
  simp only [not_or, Bool.not_eq_true] at hro
  rw [hv.bytes_mod]
  refine .ite (fun hs => ?_) fun hs => ?_
  · rw [Bool.eq_false_iff, ne_eq, spanOk_iff] at hs
    exact ⟨rfl, .inr (.inl ⟨by omega, rfl, rfl⟩)⟩
  · rw [Bool.not_eq_false, spanOk_iff] at hs
    refine Io.ends_bind.mpr (Io.ends_attempt.mpr (Io.ends_bind.mpr
      ((nativeWriteLoop_ends (Nat.le_refl n) hv hs).mono ?_ ?_)))
    · rintro _ s₁ ⟨hw, hi⟩
      refine (inDrive_ends (diskFlush_ends (fun _ => False) s₁.drive)).mono ?_ ?_
      · rintro _ s₂ ⟨⟨hl, hi'⟩, hs₂⟩
        have hst := stays_of_like hl hi' hs₂
        have hw' := hw.trans hst.writes
        exact ⟨hro.1, hro.2, hs, ⟨hw'.geo, hw'.failed, hw'.reliable⟩, rfl, hi'.trans hi⟩
      · rintro e s₂ ⟨hb, -⟩
        exact ⟨hb.geo.trans hw.geo, .inr (.inr ⟨fun h => hb.unreliable (hw.reliable h), rfl⟩)⟩
    · rintro e s₁ ⟨hg, hr⟩
      exact ⟨hg, .inr (.inr ⟨hr, rfl⟩)⟩

/-! ### Nothing outside of the volume -/

section Graft

variable {m : Bytes}

/-- What does not depend on the bytes outside the volume does not within the native state. -/
theorem inDrive_commutes {α : Type} {x : Io Errno Drive α}
    (h : Io.Commutes x (Drive.graft v.base (v.base + v.bytes) m) s.drive) :
    Io.Commutes (inDrive x) (NativeState.graft v m) s := by
  have hd : (s.graft v m).drive = s.drive.graft v.base (v.base + v.bytes) m := rfl
  rw [Io.Commutes, inDrive, inDrive, hd, h]
  rfl

/-- A read does not depend on the bytes outside. -/
theorem nativeBytes_commutes (hv : v.On s.drive.disk.geo) {offset n : Nat} :
    Io.Commutes (nativeBytes driveBytes v offset n) (NativeState.graft v m) s := by
  rw [nativeBytes, hv.bytes_mod]
  refine .ite (fun hs => ?_) fun _ => .fail _
  rw [spanOk_iff] at hs
  have hlo : v.base ≤ v.base + offset := Nat.le_add_right _ _
  have hhi : v.base + offset + n ≤ v.base + v.bytes := by omega
  exact inDrive_commutes
    (onDisk_commutes (diskBytes_commutes hv.dvd_base hv.dvd_end hlo hhi hv.end_le))

theorem writeSector_commutes (hv : v.On s.drive.disk.geo) {lba : Nat} {p : Bytes}
    (hlba : lba < v.length) :
    Io.Commutes (inDrive (diskWriteFs (v.start + lba) 1 p v.sector)) (NativeState.graft v m) s := by
  refine inDrive_commutes (diskWriteFs_commutes ?_ ?_)
  · rw [← hv.sector]
    exact Nat.mul_le_mul_right _ (Nat.le_add_right _ _)
  · rw [← hv.sector, NativeVolume.On.end_eq]
    exact Nat.mul_le_mul_right _ (by omega)

theorem sectorBefore_commutes (hv : v.On s.drive.disk.geo) {lba at_ n : Nat} :
    Io.Commutes (sectorBefore v lba at_ n) (NativeState.graft v m) s :=
  .ite (fun _ => nativeBytes_commutes hv) fun _ => .pure _

theorem nativeWriteLoop_commutes {p : Bytes} {fuel : Nat} :
    ∀ {s : NativeState} {offset n pos : Nat},
    v.On s.drive.disk.geo → offset + n ≤ v.bytes →
    Io.Commutes (nativeWriteLoop v p fuel offset n pos) (NativeState.graft v m) s := by
  induction fuel with
  | zero =>
      intro s offset n pos _ _
      exact .pure ()
  | succ fuel ih =>
      intro s offset n pos hv hin
      rw [nativeWriteLoop]
      refine .ite (fun _ => .pure ()) fun h0 => ?_
      have hmod := Nat.mod_lt offset hv.ok.sector_pos
      have hlba := hv.lba_lt (i := offset) (by omega)
      refine .bind (sectorBefore_commutes hv) (sectorBefore_ends hv hlba (by omega))
        fun b s₁ h₁ => ?_
      have hv₁ : v.On s₁.drive.disk.geo := h₁.1.geo ▸ hv
      refine .bind (writeSector_commutes hv₁ hlba) (writeSector_ends hv₁ hlba) fun _ s₂ h₂ => ?_
      exact ih (h₂.1.geo ▸ hv₁) (by omega)

theorem settleWrite_commutes (r : Except Errno Unit) :
    Io.Commutes (settleWrite r) (NativeState.graft v m) s := by
  cases r <;> rfl

theorem nativeWriteBytes_commutes (hv : v.On s.drive.disk.geo) {offset n pos : Nat} {p : Bytes} :
    Io.Commutes (nativeWriteBytes v offset p pos n) (NativeState.graft v m) s := by
  refine Io.Commutes.get_bind rfl (.ite (fun _ => .fail _) fun _ => ?_)
  rw [hv.bytes_mod]
  refine .ite (fun _ => .fail _) fun hs => ?_
  rw [Bool.not_eq_false, spanOk_iff] at hs
  refine .bind (Q := fun _ _ => True) (E := fun _ _ => True) (.attempt ?_) ?_ fun r _ _ =>
    settleWrite_commutes r
  · exact .bind (nativeWriteLoop_commutes hv hs) (nativeWriteLoop_ends (Nat.le_refl n) hv hs)
      fun _ s₁ _ => inDrive_commutes (diskFlush_commutes s₁.drive)
  · exact Io.ends_attempt.mpr (Io.ends_trivial _ s)

end Graft

end Access

/-! ### Where a file stands -/

/-- The byte of the volume that byte `pos` of the file is, `none` in a hole. -/
def runPlace (v : NativeVolume) (runs : List NativeRun) (pos : Nat) : Option Nat :=
  (backing runs (pos / v.block)).map fun r =>
    (r.physical + (pos / v.block - r.logical)) * v.block + pos % v.block

/-- The bytes of a file on a volume with the bytes `m`; a hole reads as zeroes. -/
def fileBytes (v : NativeVolume) (runs : List NativeRun) (m : Bytes) : Bytes := fun pos =>
  match runPlace v runs pos with
  | some q => m q
  | none => 0

/-- The first `n` bytes of `p` were stored at their places, and nothing else. -/
structure Stored (place : Nat → Option Nat) (p : Bytes) (n : Nat) (m m' : Bytes) : Prop where
  each : ∀ i < n, ∃ q, place i = some q ∧ m' q = p i
  other : ∀ q, (∀ i < n, place i ≠ some q) → m' q = m q

namespace Stored

variable {place : Nat → Option Nat} {p : Bytes} {k n : Nat} {m m₁ m' : Bytes}

/-- Nothing stored yet. -/
theorem zero (place : Nat → Option Nat) (p m : Bytes) : Stored place p 0 m m :=
  ⟨fun _ h => absurd h (Nat.not_lt_zero _), fun _ _ => rfl⟩

/-- A piece, and what comes behind it. -/
theorem append (hinj : ∀ i j q, i < j → j < k + n → place i = some q → place j ≠ some q)
    (h : Stored place p k m m₁)
    (h' : Stored (fun i => place (k + i)) (fun i => p (k + i)) n m₁ m') :
    Stored place p (k + n) m m' := by
  refine ⟨fun i hi => ?_, fun q hq => ?_⟩
  · by_cases hik : i < k
    · obtain ⟨q, hpl, hval⟩ := h.each i hik
      refine ⟨q, hpl, (h'.other q fun j hj => ?_).trans hval⟩
      exact hinj i (k + j) q (by omega) (by omega) hpl
    · obtain ⟨q, hpl, hval⟩ := h'.each (i - k) (by omega)
      rw [Nat.add_sub_cancel' (Nat.le_of_not_lt hik)] at hpl hval
      exact ⟨q, hpl, hval⟩
  · rw [h'.other q fun j hj => hq (k + j) (by omega), h.other q fun i hi => hq i (by omega)]

/-- A piece that is stored in one go. -/
theorem memCopy {off pos : Nat} (hpl : ∀ i < n, place i = some (off + i)) :
    Stored place (fun i => p (pos + i)) n m (Efishell.memCopy m off p pos n) := by
  refine ⟨fun i hi => ⟨off + i, hpl i hi, ?_⟩, fun q hq => ?_⟩
  · rw [memCopy_eq (by omega) (by omega), Nat.add_sub_cancel_left]
  · refine memCopy_ne ?_
    by_contra hne
    refine hq (q - off) (by omega) ?_
    rw [hpl (q - off) (by omega)]
    congr 1
    omega

end Stored

section Runs

variable {v : NativeVolume} {runs : List NativeRun}

/-- The run found holds the logical block. -/
theorem backing_some {logical : Nat} {r : NativeRun} (h : backing runs logical = some r) :
    r ∈ runs ∧ r.hole = false ∧ r.logical ≤ logical ∧ logical < r.logical + r.length := by
  rw [backing, Option.filter_eq_some_iff] at h
  obtain ⟨hf, hh⟩ := h
  have hm := List.find?_some hf
  rw [decide_eq_true_eq] at hm
  exact ⟨List.mem_of_find?_eq_some hf, by simpa using hh, hm.1, by omega⟩

/-- The block of the volume that a block of the file is. -/
theorem block_inside (hr : RunList v runs) {logical : Nat} {r : NativeRun}
    (h : backing runs logical = some r) : r.physical + (logical - r.logical) < v.blocks := by
  obtain ⟨hm, hh, hlo, hhi⟩ := backing_some h
  have hin := (hr.each r hm).inside hh
  omega

/-- No two blocks of a file are one block of the volume. -/
theorem block_inj (hr : RunList v runs) {a b : Nat} {r t : NativeRun} (ha : backing runs a = some r)
    (hb : backing runs b = some t)
    (h : r.physical + (a - r.logical) = t.physical + (b - t.logical)) :
    a = b := by
  obtain ⟨hm, hh, hlo, hhi⟩ := backing_some ha
  obtain ⟨hm', hh', hlo', hhi'⟩ := backing_some hb
  have hsymm : Std.Symm fun a b : NativeRun => a.hole = false → b.hole = false →
      a.physical + a.length ≤ b.physical ∨ b.physical + b.length ≤ a.physical :=
    ⟨fun a b hab hbh hah => (hab hah hbh).symm⟩
  by_cases hrt : r = t
  · subst hrt
    omega
  · have hap := hr.apart.forall hm hm' hrt hh hh'
    omega

/-- Where a byte of the run is on the volume. -/
theorem address_eq (hv : v.Ok) (hr : RunList v runs) {pos : Nat} {r : NativeRun}
    (h : backing runs (pos / v.block) = some r) :
    r.address v (pos / v.block) (pos % v.block) =
      (r.physical + (pos / v.block - r.logical)) * v.block + pos % v.block := by
  have hin := block_inside hr h
  have hlo := (backing_some h).2.2.1
  have hsub :
      r.physical + pos / v.block - r.logical = r.physical + (pos / v.block - r.logical) := by omega
  have hb := hv.blocks_lt
  have hend := hv.block_bytes (b := r.physical + (pos / v.block - r.logical) + 1) hin
  rw [Nat.succ_mul] at hend
  have hmod := Nat.mod_lt pos hv.block_pos
  rw [NativeRun.address, hsub]
  generalize r.physical + (pos / v.block - r.logical) = block at hin hend ⊢
  rw [Nat.mod_eq_of_lt (show block < 2 ^ 64 by omega),
    Nat.mod_eq_of_lt (show block * v.block < 2 ^ 64 by omega), Nat.mod_eq_of_lt (by omega)]

/-- A piece inside a block lies on the volume. -/
theorem address_le (hv : v.Ok) (hr : RunList v runs) {pos n : Nat} {r : NativeRun}
    (h : backing runs (pos / v.block) = some r) (hn : pos % v.block + n ≤ v.block) :
    r.address v (pos / v.block) (pos % v.block) + n ≤ v.bytes := by
  have hin := Nat.mul_le_mul_right v.block (Nat.succ_le_of_lt (block_inside hr h))
  have hfit := hv.fits
  rw [Nat.succ_mul] at hin
  rw [address_eq hv hr h, NativeVolume.bytes]
  omega

/-- The places of the bytes of one block. -/
theorem runPlace_block (hv : v.Ok) {pos i : Nat} (hi : pos % v.block + i < v.block) :
    runPlace v runs (pos + i) = (runPlace v runs pos).map (· + i) := by
  have hpos := Nat.div_add_mod pos v.block
  have hdiv : (pos + i) / v.block = pos / v.block := by
    conv_lhs => rw [← hpos, Nat.add_assoc, Nat.mul_add_div hv.block_pos,
      Nat.div_eq_of_lt hi, Nat.add_zero]
  have hmod : (pos + i) % v.block = pos % v.block + i := by
    conv_lhs => rw [← hpos, Nat.add_assoc, Nat.mul_add_mod, Nat.mod_eq_of_lt hi]
  rw [runPlace, runPlace, hdiv, hmod, Option.map_map]
  simp only [Function.comp_def, Nat.add_assoc]

/-- No two bytes of the file lie in one place. -/
theorem runPlace_inj (hv : v.Ok) (hr : RunList v runs) {a b q : Nat}
    (ha : runPlace v runs a = some q) (hb : runPlace v runs b = some q) : a = b := by
  obtain ⟨r, hra, rfl⟩ := Option.map_eq_some_iff.mp ha
  obtain ⟨t, htb, h⟩ := Option.map_eq_some_iff.mp hb
  have hma := Nat.mod_lt a hv.block_pos
  have hmb := Nat.mod_lt b hv.block_pos
  have hq := congrArg (· / v.block) h
  have hm := congrArg (· % v.block) h
  simp only [Nat.mul_comm _ v.block, Nat.mul_add_div hv.block_pos, Nat.div_eq_of_lt hma,
    Nat.div_eq_of_lt hmb, Nat.mul_add_mod, Nat.mod_eq_of_lt hma, Nat.mod_eq_of_lt hmb,
      Nat.add_zero] at hq hm
  rw [← Nat.div_add_mod a v.block, ← Nat.div_add_mod b v.block, block_inj hr hra htb hq.symm, hm]

/-! ### `run_io` -/

/-- The places of the bytes from `offset` on, whose numbers may pass the largest one. -/
def placesFrom (v : NativeVolume) (runs : List NativeRun) (offset : Nat) :
    Nat → Option Nat := fun i =>
  runPlace v runs ((offset + i) % 2 ^ 64)

theorem mod_offset {a b i : Nat} (h : a % 2 ^ 64 = b % 2 ^ 64) :
    (a + i) % 2 ^ 64 = (b + i) % 2 ^ 64 := by
  omega

/-- The places from further on. -/
theorem placesFrom_add {offset k i : Nat} :
    placesFrom v runs ((offset + k) % 2 ^ 64) i = placesFrom v runs offset (k + i) := by
  rw [placesFrom, placesFrom, ← Nat.add_assoc, mod_offset (Nat.mod_mod _ _)]

/-- No two bytes of an access lie in one place. -/
theorem placesFrom_inj (hv : v.Ok) (hr : RunList v runs) {offset n : Nat}
    (hn : n < 2 ^ 64) (i j q : Nat)
    (hij : i < j) (hj : j < n) (hi : placesFrom v runs offset i = some q) :
    placesFrom v runs offset j ≠ some q := by
  intro hq
  have := runPlace_inj hv hr hi hq
  omega

/-- A piece of a file, and what comes behind it. -/
theorem Stored.append_from (hv : v.Ok) (hr : RunList v runs) {offset k n pos : Nat}
    {data m m₁ m' : Bytes}
    (hn : k + n < 2 ^ 64) (h : Stored (placesFrom v runs offset) (fun i => data (pos + i)) k m m₁)
    (h' : Stored (placesFrom v runs ((offset + k) % 2 ^ 64))
      (fun i => data (pos + k + i)) n m₁ m') :
    Stored (placesFrom v runs offset) (fun i => data (pos + i)) (k + n) m m' := by
  refine h.append (placesFrom_inj hv hr hn) ?_
  simp only [Nat.add_assoc] at h'
  exact ⟨fun i hi => placesFrom_add ▸ h'.each i hi,
    fun q hq => h'.other q fun i hi => placesFrom_add ▸ hq i hi⟩

/-- No block stands across the largest number. -/
theorem placesFrom_block {g : Geometry} (hv : v.On g) {offset i : Nat} (ho : offset < 2 ^ 64)
    (hi : offset % v.block + i < v.block) :
    placesFrom v runs offset i = (runPlace v runs offset).map (· + i) := by
  have hdvd : v.block ∣ 2 ^ 64 := power2_dvd hv.block (power2_iff.mpr ⟨64, rfl⟩) hv.block_le
  have hlt : offset + i < 2 ^ 64 := by
    obtain ⟨c, hc⟩ := hdvd
    have hpos := Nat.div_add_mod offset v.block
    have hq : offset / v.block < c :=
      (Nat.div_lt_iff_lt_mul hv.ok.block_pos).mpr (by rw [Nat.mul_comm]; omega)
    have hle := Nat.mul_le_mul_left v.block (Nat.succ_le_of_lt hq)
    rw [Nat.mul_succ] at hle
    omega
  rw [placesFrom, Nat.mod_eq_of_lt hlt, runPlace_block hv.ok hi]

/-- The bytes of the file from `offset` on. -/
def fileFrom (v : NativeVolume) (runs : List NativeRun) (m : Bytes) (offset : Nat) :
    Bytes := fun i =>
  fileBytes v runs m ((offset + i) % 2 ^ 64)

/-- A byte of the file that has a place is the one there. -/
theorem fileFrom_of_place {m : Bytes} {offset i q : Nat} (h : placesFrom v runs offset i = some q) :
    fileFrom v runs m offset i = m q := by
  rw [fileFrom, fileBytes]
  rw [placesFrom] at h
  rw [h]

theorem fileFrom_of_hole {m : Bytes} {offset i : Nat} (h : placesFrom v runs offset i = none) :
    fileFrom v runs m offset i = 0 := by
  rw [fileFrom, fileBytes]
  rw [placesFrom] at h
  rw [h]

/-- Two pieces that were read. -/
theorem memCopy_pieces {b p q : Bytes} {pos at_ k n : Nat} (h : ∀ i < n, q i = p (at_ + k + i)) :
    memCopy (memCopy b pos p at_ k) (pos + k) q 0 n = memCopy b pos p at_ (k + n) := by
  rw [← memCopy_append]
  funext i
  by_cases hi : pos + k ≤ i ∧ i < pos + k + n
  · rw [memCopy_eq hi.1 hi.2, memCopy_eq hi.1 hi.2, Nat.zero_add, h _ (by omega)]
  · exact (memCopy_ne (by omega)).trans (memCopy_ne (by omega)).symm

/-- A copy depends on the bytes copied only. -/
theorem memCopy_congr {b p q : Bytes} {pos at_ at₁ n : Nat}
    (h : ∀ i < n, p (at_ + i) = q (at₁ + i)) :
    memCopy b pos p at_ n = memCopy b pos q at₁ n := by
  funext i
  by_cases hi : pos ≤ i ∧ i < pos + n
  · rw [memCopy_eq hi.1 hi.2, memCopy_eq hi.1 hi.2, h _ (by omega)]
  · rw [memCopy_ne (by omega), memCopy_ne (by omega)]

/-- A piece that is read. -/
theorem runPiece_read_ends {s : NativeState} (hv : v.On s.drive.disk.geo) (hr : RunList v runs)
    {offset n pos : Nat} {data : Bytes} (ho : offset < 2 ^ 64)
    (hn : offset % v.block + n ≤ v.block) :
    Io.Ends (runPiece v false (backing runs (offset / v.block)) (offset / v.block)
      (offset % v.block) n pos
        data) s
      (fun b s' => s.Stays s' ∧ b = memCopy data pos (fileFrom v runs (s.view v) offset) 0 n)
      (fun _ s' => s.Stays s' ∧ ¬ s.drive.Reliable) := by
  have hplace : ∀ i < n, placesFrom v runs offset i = (runPlace v runs offset).map (· + i) :=
    fun i hi => placesFrom_block hv ho (by omega)
  cases hb : backing runs (offset / v.block) with
  | none =>
      have hp : runPlace v runs offset = none := by rw [runPlace, hb]; rfl
      refine Io.ends_pure.mpr ⟨.refl s, funext fun i => ?_⟩
      by_cases hi : pos ≤ i ∧ i < pos + n
      · rw [memZero, if_pos hi, memCopy_eq hi.1 hi.2, fileFrom_of_hole]
        rw [hplace _ (by omega), hp]
        rfl
      · rw [memZero, if_neg hi, memCopy_ne (by omega)]
  | some r =>
      have hadd := address_eq hv.ok hr hb
      have hp :
          runPlace v runs offset = some (r.address v (offset / v.block) (offset % v.block)) := by
        rw [runPlace, hb, hadd]
        rfl
      refine Io.ends_bind.mpr ((nativeBytes_ends hv).mono ?_ ?_)
      · rintro b s' ⟨-, hbytes, hst⟩
        refine Io.ends_pure.mpr ⟨hst, memCopy_congr fun i hi => ?_⟩
        rw [Nat.zero_add, hbytes i hi, fileFrom_of_place (by rw [hplace i hi, hp]; rfl)]
      · rintro e s' ⟨hst, ⟨hout, -⟩ | ⟨-, hrel⟩⟩
        · have := address_le hv.ok hr hb hn
          omega
        · exact ⟨hst, hrel⟩

/-- The bytes of the file from further on. -/
theorem fileFrom_add {m : Bytes} {offset k i : Nat} :
    fileFrom v runs m ((offset + k) % 2 ^ 64) i = fileFrom v runs m offset (k + i) := by
  rw [fileFrom, fileFrom, ← Nat.add_assoc, mod_offset (Nat.mod_mod _ _)]

/-- **`run_io` reads** the bytes of the file. -/
theorem runIoLoop_read_ends (hr : RunList v runs) {fuel : Nat} :
    ∀ {s : NativeState} {offset n pos : Nat} {data : Bytes}, n ≤ fuel → v.On s.drive.disk.geo →
      offset < 2 ^ 64 →
      Io.Ends (runIoLoop v runs false fuel offset n pos data) s
        (fun b s' => s.Stays s' ∧ b = memCopy data pos (fileFrom v runs (s.view v) offset) 0 n)
        (fun _ s' => s.Stays s' ∧ ¬ s.drive.Reliable) := by
  have hnone : ∀ {b p : Bytes} {off : Nat}, b = memCopy b off p 0 0 :=
    fun {b p off} => funext fun i => (memCopy_ne (by omega)).symm
  induction fuel with
  | zero =>
      intro s offset n pos data hn _ _
      obtain rfl := Nat.le_zero.mp hn
      exact ⟨.refl s, hnone⟩
  | succ fuel ih =>
      intro s offset n pos data hn hv ho
      rw [runIoLoop]
      refine .ite (fun h0 => ?_) fun h0 => ?_
      · subst h0
        exact ⟨.refl s, hnone⟩
      · have hmod := Nat.mod_lt offset hv.ok.block_pos
        dsimp only
        generalize hk : min n (v.block - offset % v.block) = k
        refine Io.ends_bind.mpr ((runPiece_read_ends hv hr ho (by omega)).mono ?_ fun e s₁ h => h)
        rintro b s₁ ⟨hst, rfl⟩
        refine (ih (by omega) (hst.geo ▸ hv) (Nat.mod_lt _ (by norm_num))).mono ?_ ?_
        · rintro b s' ⟨hst', rfl⟩
          refine ⟨hst.trans hst', ?_⟩
          rw [hst.view, memCopy_pieces (fun i _ => by rw [fileFrom_add, Nat.zero_add])]
          congr 1
          omega
        · rintro e s' ⟨hst', hrel⟩
          exact ⟨hst.trans hst', fun h => hrel (hst.reliable h)⟩

/-- The volume after a write to it. -/
theorem view_memCopy {s s' : NativeState} {offset pos n : Nat} {p : Bytes}
    (h : s'.drive.disk.image = memCopy s.drive.disk.image (v.base + offset) p pos n) :
    s'.view v = memCopy (s.view v) offset p pos n := by
  funext i
  rw [NativeState.view, h]
  by_cases hi : offset ≤ i ∧ i < offset + n
  · rw [memCopy_eq (by omega) (by omega), memCopy_eq hi.1 hi.2, Nat.add_sub_add_left]
  · rw [memCopy_ne (by omega), memCopy_ne (by omega)]
    rfl

/-- Why a write of `n` bytes of a file stopped. -/
def WriteStops (v : NativeVolume) (place : Nat → Option Nat) (n : Nat) (s : NativeState)
    (e : Errno) : Prop :=
  (∃ i < n, place i = none) ∧ e = .enotsup ∨ (v.readOnly = true ∨ s.failed = true) ∧ e = .erofs

/-- A piece that is written. -/
theorem runPiece_write_ends {s : NativeState} (hv : v.On s.drive.disk.geo) (hr : RunList v runs)
    {offset n pos : Nat} {data : Bytes} (ho : offset < 2 ^ 64) (hn0 : 0 < n)
    (hn : offset % v.block + n ≤ v.block) :
    Io.Ends
      (runPiece v true (backing runs (offset / v.block)) (offset / v.block) (offset % v.block) n pos
        data) s
      (fun b s' => b = data ∧ s.Writes s' ∧ v.readOnly = false ∧ s.failed = false ∧
        Stored (placesFrom v runs offset) (fun i => data (pos + i)) n (s.view v) (s'.view v))
      (fun e s' => s'.drive.disk.geo = s.drive.disk.geo ∧
        (WriteStops v (placesFrom v runs offset) n s e ∧ s' = s ∨ ¬ s.drive.Reliable)) := by
  have hplace : ∀ i < n, placesFrom v runs offset i = (runPlace v runs offset).map (· + i) :=
    fun i hi => placesFrom_block hv ho (by omega)
  cases hb : backing runs (offset / v.block) with
  | none =>
      have hp : runPlace v runs offset = none := by rw [runPlace, hb]; rfl
      refine Io.ends_fail.mpr ⟨rfl, .inl ⟨.inl ⟨⟨0, hn0, ?_⟩, rfl⟩, rfl⟩⟩
      rw [hplace 0 hn0, hp]
      rfl
  | some r =>
      have hadd := address_eq hv.ok hr hb
      have hle := address_le hv.ok hr hb hn
      have hp :
          runPlace v runs offset = some (r.address v (offset / v.block) (offset % v.block)) := by
        rw [runPlace, hb, hadd]
        rfl
      refine Io.ends_bind.mpr ((nativeWriteBytes_ends hv).mono ?_ ?_)
      · rintro _ s' ⟨hro, hf, -, hw, -, hi⟩
        refine Io.ends_pure.mpr ⟨rfl, hw, hro, hf, ?_⟩
        rw [view_memCopy hi]
        refine Stored.memCopy fun i hi => ?_
        rw [hplace i hi, hp]
        rfl
      · rintro e s' ⟨hg, ⟨hro, he, hs⟩ | ⟨hout, -⟩ | ⟨hrel, -⟩⟩
        · exact ⟨hg, .inl ⟨.inr ⟨hro, he⟩, hs⟩⟩
        · omega
        · exact ⟨hg, .inr hrel⟩

/-- **`run_io` writes** the bytes of the file: all of them, or those before the one it stops at. -/
theorem runIoLoop_write_ends (hr : RunList v runs) {fuel : Nat} :
    ∀ {s : NativeState} {offset n pos : Nat} {data : Bytes}, n ≤ fuel → n < 2 ^ 64 →
      v.On s.drive.disk.geo → offset < 2 ^ 64 →
      Io.Ends (runIoLoop v runs true fuel offset n pos data) s
        (fun b s' => b = data ∧ s.Writes s' ∧
          Stored (placesFrom v runs offset) (fun i => data (pos + i)) n (s.view v) (s'.view v))
        (fun e s' => s'.drive.disk.geo = s.drive.disk.geo ∧
          ((∃ k ≤ n, Stored (placesFrom v runs offset) (fun i => data (pos + i)) k (s.view v)
            (s'.view v)) ∧
            WriteStops v (placesFrom v runs offset) n s e ∨ ¬ s.drive.Reliable)) := by
  induction fuel with
  | zero =>
      intro s offset n pos data hn _ _ _
      obtain rfl := Nat.le_zero.mp hn
      exact ⟨rfl, (NativeState.Stays.refl s).writes, .zero _ _ _⟩
  | succ fuel ih =>
      intro s offset n pos data hn hn64 hv ho
      rw [runIoLoop]
      refine .ite (fun h0 => ?_) fun h0 => ?_
      · subst h0
        exact ⟨rfl, (NativeState.Stays.refl s).writes, .zero _ _ _⟩
      · have hmod := Nat.mod_lt offset hv.ok.block_pos
        dsimp only
        -- the piece that lies in one block, and the rest by induction
        generalize hk : min n (v.block - offset % v.block) = k
        have hk0 : 0 < k := by omega
        have hkn : k ≤ n := by omega
        refine Io.ends_bind.mpr ((runPiece_write_ends hv hr ho hk0 (by omega)).mono ?_ ?_)
        · rintro b s₁ ⟨rfl, hw, hro, hf, hst⟩
          refine (ih (by omega) (by omega) (hw.geo ▸ hv) (Nat.mod_lt _ (by norm_num))).mono ?_ ?_
          · rintro b s' ⟨rfl, hw', hst'⟩
            refine ⟨rfl, hw.trans hw', ?_⟩
            have h := hst.append_from hv.ok hr (n := n - k) (by omega) hst'
            rwa [Nat.add_sub_cancel' hkn] at h
          · rintro e s' ⟨hg, ⟨⟨l, hl, hst'⟩, hstop⟩ | hrel⟩
            · refine ⟨hg.trans hw.geo,
                .inl ⟨⟨k + l, by omega, hst.append_from hv.ok hr (by omega) hst'⟩, ?_⟩⟩
              rcases hstop with ⟨⟨i, hi, hnone⟩, he⟩ | ⟨hro', he⟩
              · exact .inl ⟨⟨k + i, by omega, placesFrom_add ▸ hnone⟩, he⟩
              · exact .inr ⟨by rwa [hw.failed] at hro', he⟩
            · exact ⟨hg.trans hw.geo, .inr fun h => hrel (hw.reliable h)⟩
        · rintro e s₁ ⟨hg, ⟨hstop, rfl⟩ | hrel⟩
          · refine ⟨hg, .inl ⟨⟨0, Nat.zero_le n, .zero _ _ _⟩, ?_⟩⟩
            rcases hstop with ⟨⟨i, hi, hnone⟩, he⟩ | hro
            · exact .inl ⟨⟨i, by omega, hnone⟩, he⟩
            · exact .inr hro
          · exact ⟨hg, .inr hrel⟩

/-! ### `run_io` within the volume -/

/-- A piece of `run_io` does not depend on the bytes outside the volume. -/
theorem runPiece_commutes {s : NativeState} {m : Bytes} (hv : v.On s.drive.disk.geo) {write : Bool}
    {run : Option NativeRun} {logical at_ n pos : Nat} {data : Bytes} :
    Io.Commutes (runPiece v write run logical at_ n pos data) (NativeState.graft v m) s := by
  cases run with
  | none => exact .ite (fun _ => .fail _) fun _ => .pure _
  | some r =>
      refine .ite (fun _ => ?_) fun _ => ?_
      · exact .bind (nativeWriteBytes_commutes hv) (nativeWriteBytes_ends hv) fun _ _ _ => .pure _
      · exact .bind (nativeBytes_commutes hv) (nativeBytes_ends hv) fun _ _ _ => .pure _

theorem runPiece_geo {s : NativeState} (hv : v.On s.drive.disk.geo) {write : Bool}
    {run : Option NativeRun} {logical at_ n pos : Nat} {data : Bytes} :
    Io.Ends (runPiece v write run logical at_ n pos data) s
      (fun _ s' => s'.drive.disk.geo = s.drive.disk.geo) fun _ _ => True := by
  cases run with
  | none => exact .ite (fun _ => trivial) fun _ => rfl
  | some r =>
      refine .ite (fun _ => ?_) fun _ => ?_
      · exact Io.ends_bind.mpr
          ((nativeWriteBytes_ends hv).mono (fun _ _ h => h.2.2.2.1.geo) fun _ _ _ => trivial)
      · exact Io.ends_bind.mpr
          ((nativeBytes_ends hv).mono (fun _ _ h => h.2.2.geo) fun _ _ _ => trivial)

theorem runIoLoop_commutes {m : Bytes} {write : Bool} {fuel : Nat} :
    ∀ {s : NativeState} {offset n pos : Nat} {data : Bytes}, v.On s.drive.disk.geo →
      Io.Commutes (runIoLoop v runs write fuel offset n pos data) (NativeState.graft v m) s := by
  induction fuel with
  | zero =>
      intro s offset n pos data _
      exact .pure data
  | succ fuel ih =>
      intro s offset n pos data hv
      rw [runIoLoop]
      exact .ite (fun _ => .pure data) fun _ =>
        .bind (runPiece_commutes hv) (runPiece_geo hv) fun _ s₁ hg => ih (hg ▸ hv)

end Runs

end Efishell
