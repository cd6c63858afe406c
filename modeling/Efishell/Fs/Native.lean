import Mathlib.Tactic.Ring
import Efishell.Storage.Disk
import Efishell.Support.Checked

/-!
# File systems — native volumes

What the ext4 and the NTFS code share: the geometry of a volume as `native_probe` takes it from the
boot sector or the superblock, the bytes of the volume, and the list of runs of blocks that a file
is made of.

The contents of a disk are not to be trusted.  So the functions that decode them are written over
checked arithmetic and over buffers that know their size (`Fault`).

* `nativeGeometry_ok`: a volume that is accepted is in order.
* `sound_runAdd`: adding a run keeps the list in order, and nothing wraps.
-/

namespace Efishell

/-! ### Buffers -/

/-- A C array, with the number of bytes that may be read. -/
structure Buffer where
  data : Bytes
  size : Nat

namespace Buffer

variable {ε : Type}

/-- One byte of the buffer. -/
def byte (b : Buffer) (i : Nat) : Checked ε UInt8 :=
  if i < b.size then .ok (b.data i) else .error .stray

/-- A 16-bit little-endian field of the buffer. -/
def rd16 (b : Buffer) (i : Nat) : Checked ε Nat :=
  if i + 2 ≤ b.size then .ok (Efishell.rd16 b.data i) else .error .stray

/-- A 32-bit little-endian field of the buffer. -/
def rd32 (b : Buffer) (i : Nat) : Checked ε Nat :=
  if i + 4 ≤ b.size then .ok (Efishell.rd32 b.data i) else .error .stray

/-- A 64-bit little-endian field of the buffer. -/
def rd64 (b : Buffer) (i : Nat) : Checked ε Nat :=
  if i + 8 ≤ b.size then .ok (Efishell.rd64 b.data i) else .error .stray

/-- `n` bytes from `off` on. -/
def sub (b : Buffer) (off n : Nat) : Checked ε Buffer :=
  if off + n ≤ b.size then .ok ⟨fun i => b.data (off + i), n⟩ else .error .stray

variable {b : Buffer} {i n : Nat}

/-- A byte inside the buffer can be read. -/
theorem sound_byte (h : i < b.size) : Sound (b.byte i : Checked ε UInt8) (· = b.data i) := by
  rw [byte, if_pos h]
  rfl

theorem sound_rd16 (h : i + 2 ≤ b.size) :
    Sound (b.rd16 i : Checked ε Nat) (· = Efishell.rd16 b.data i) := by
  rw [rd16, if_pos h]
  rfl

theorem sound_rd32 (h : i + 4 ≤ b.size) :
    Sound (b.rd32 i : Checked ε Nat) (· = Efishell.rd32 b.data i) := by
  rw [rd32, if_pos h]
  rfl

theorem sound_rd64 (h : i + 8 ≤ b.size) :
    Sound (b.rd64 i : Checked ε Nat) (· = Efishell.rd64 b.data i) := by
  rw [rd64, if_pos h]
  rfl

theorem sound_sub (h : i + n ≤ b.size) :
    Sound (b.sub i n : Checked ε Buffer) (· = ⟨fun j => b.data (i + j), n⟩) := by
  rw [sub, if_pos h]
  rfl

end Buffer

/-! ### Checksums -/

/-- One bit of the CRC-32C. -/
def crc32cBit (crc : UInt32) : UInt32 := (crc >>> 1) ^^^ (0x82f63b78 &&& (0 - (crc &&& 1)))

/-- One byte of it. -/
def crc32cByte (crc : UInt32) (x : UInt8) : UInt32 :=
  crc32cBit (crc32cBit (crc32cBit (crc32cBit (crc32cBit (crc32cBit (crc32cBit (crc32cBit
    (crc ^^^ x.toUInt32))))))))

/-- `crc32c_step(crc, p + off, n)`. -/
def crc32cStep (crc : UInt32) (p : Bytes) (off : Nat) : Nat → UInt32
  | 0 => crc
  | n + 1 => crc32cStep (crc32cByte crc (p off)) p (off + 1) n

/-- `crc32c` of a part of the buffer. -/
def Buffer.crc32c {ε : Type} (b : Buffer) (crc : UInt32) (off n : Nat) : Checked ε UInt32 :=
  if off + n ≤ b.size then .ok (crc32cStep crc b.data off n) else .error .stray

/-- The checksum of a part of the buffer. -/
theorem Buffer.sound_crc32c {ε : Type} {b : Buffer} {crc : UInt32} {off n : Nat}
    (h : off + n ≤ b.size) :
    Sound (b.crc32c crc off n : Checked ε UInt32) (· = crc32cStep crc b.data off n) := by
  rw [Buffer.crc32c, if_pos h]
  rfl

/-! ### Volumes -/

/-- The two file systems of the native driver. -/
inductive NativeKind where
  | ext4 | ntfs
  deriving DecidableEq, Repr

/-- `native_volume`, as far as mounting settles it. -/
structure NativeVolume where
  kind : NativeKind
  disk : Nat
  sector : Nat
  start : Nat
  length : Nat
  block : Nat
  blocks : Nat
  readOnly : Bool
  super : Bytes
  inodeSize : Nat
  inodes : Nat
  inodesPerGroup : Nat
  blocksPerGroup : Nat
  groups : Nat
  descSize : Nat
  csumSeed : UInt32
  csum : Bool
  gdtCsum : Bool
  recordSize : Nat
  indexSize : Nat

/-- The value of a signed byte. -/
def int8 (x : UInt8) : Int := if x.toNat < 128 then x.toNat else (x.toNat : Int) - 256

/-- A size given in blocks, or as the negated exponent of a power of two. -/
def sizeCode (code : Int) (block : Nat) : Nat :=
  if code < 0 then 2 ^ (-code).toNat else code.toNat * block % 2 ^ 32

/-- The checks of `native_probe` on an NTFS boot sector. -/
def ntfsGeometry (disk sector start length : Nat) (ro : Bool) (boot : Bytes) :
    Except Errno NativeVolume :=
  let bps := rd16 boot 11
  let spc := (boot 13).toNat
  let sectors := rd64 boot 40
  let mft := rd64 boot 48
  if bps ≠ sector ∨ power2 spc = false ∨ 128 < spc ∨ sectors = 0 ∨ length < sectors ∨
      boot 510 ≠ 0x55 ∨ boot 511 ≠ 0xaa then .error .enotsup
  else
    let block := bps * spc
    let blocks := sectors / spc
    let rs := int8 (boot 64)
    let is := int8 (boot 68)
    if rs = 0 ∨ is = 0 ∨ rs < -12 ∨ is < -12 then .error .enotsup
    else
      let recordSize := sizeCode rs block
      let indexSize := sizeCode is block
      if power2 recordSize = false ∨ recordSize < 512 ∨ 4096 < recordSize ∨
          power2 indexSize = false ∨ indexSize < 512 ∨ 4096 < indexSize ∨ mft = 0 ∨
            blocks ≤ mft then
        .error .enotsup
      else .ok
        { kind := .ntfs, disk, sector, start, length, block, blocks, readOnly := ro
          super := memCopy (fun _ => 0) 0 boot 0 512
          inodeSize := 0, inodes := 0, inodesPerGroup := 0, blocksPerGroup := 0, groups := 0
          descSize := 0, csumSeed := 0, csum := false, gdtCsum := false, recordSize, indexSize }

/-- Is a bit of `x` set that `mask` does not have? -/
def bitsOutside (x mask : Nat) : Bool := x &&& (2 ^ 32 - 1 - mask) != 0

/-- The checks of `native_probe` on an ext4 superblock. -/
def extGeometry (disk sector start length : Nat) (ro : Bool) (s : Bytes) :
    Except Errno NativeVolume :=
  let log := rd32 s 24
  let incompat := rd32 s 96
  let roc := rd32 s 100
  if rd16 s 56 ≠ 0xef53 then .error .enotsup
  else if 2 < log ∨ 1 < rd32 s 76 ∨ bitsOutside incompat 0x22c6 = true ∨ rd32 s 28 ≠ log then
    .error .enotsup
  else
    let block := 1024 * 2 ^ log
    let blocks := rd32 s 4 + if incompat.testBit 7 then 2 ^ 32 * rd32 s 336 else 0
    let inodeSize := if rd32 s 76 ≠ 0 then rd16 s 88 else 128
    let inodes := rd32 s 0
    let blocksPerGroup := rd32 s 32
    let inodesPerGroup := rd32 s 40
    let descSize := if incompat.testBit 7 then rd16 s 254 else 32
    let csum := roc.testBit 10
    let first := rd32 s 20
    if blocks = 0 ∨ length * sector % 2 ^ 64 / block < blocks ∨ inodes = 0 ∨ blocksPerGroup = 0 ∨
        8 * block < blocksPerGroup ∨ blocksPerGroup % 8 ≠ 0 ∨ inodesPerGroup = 0 ∨
        8 * block < inodesPerGroup ∨ inodeSize < 128 ∨ 512 < inodeSize ∨ power2 inodeSize = false ∨
        (descSize ≠ 32 ∧ descSize ≠ 64) ∨ first ≠ (if log = 0 then 1 else 0) then .error .enotsup
    else
      let groups := (blocks - first + blocksPerGroup - 1) / blocksPerGroup
      if groups = 0 ∨ 65536 < groups ∨ groups * inodesPerGroup < inodes then .error .enotsup
      else
        let seed := if incompat.testBit 13 then UInt32.ofNat (rd32 s 624)
          else crc32cStep 0xffffffff s 104 16
        if csum = true ∧ (s 373 ≠ 1 ∨ (crc32cStep 0xffffffff s 0 1020).toNat ≠ rd32 s 1020) then
          .error .eio
        else .ok
          { kind := .ext4, disk, sector, start, length, block, blocks
            readOnly := ro || bitsOutside roc 0x47b || rd16 s 58 != 1 || incompat.testBit 2 ||
              rd32 s 232 != 0
            super := s, inodeSize, inodes, inodesPerGroup, blocksPerGroup, groups, descSize
            csumSeed := seed, csum, gdtCsum := roc.testBit 4, recordSize := 0, indexSize := 0 }

/-- `"NTFS    "`. -/
def ntfsMagic : List UInt8 := [78, 84, 70, 83, 32, 32, 32, 32]

/-- What `native_probe` takes from the first sector, `boot`, and from the superblock, before it
reads the file table of an NTFS volume. -/
def nativeGeometry (g : Geometry) (disk start length : Nat) (ro : Bool) (boot super : Bytes) :
    Except Errno NativeVolume :=
  if length = 0 ∨ g.sectors ≤ start ∨ g.sectors - start < length then .error .einval
  else if memEq boot 3 ntfsMagic then ntfsGeometry disk g.sectorSize start length ro boot
  else extGeometry disk g.sectorSize start length ro super

/-- What `native_probe` makes sure of. -/
structure NativeVolume.Ok (v : NativeVolume) : Prop where
  sector_pos : 0 < v.sector
  block_pos : 0 < v.block
  blocks_lt : v.blocks < 2 ^ 64
  bytes_lt : (v.start + v.length) * v.sector < 2 ^ 64
  fits : v.blocks * v.block ≤ v.length * v.sector
  /-- The blocks of an ext4 volume and its inodes. -/
  ext : v.kind = .ext4 → 1024 ≤ v.block ∧ v.block ≤ 4096 ∧ 128 ≤ v.inodeSize ∧ v.inodeSize ≤ 512

namespace NativeVolume.Ok

variable {v : NativeVolume}

/-- The bytes of the volume fit `UINT64`. -/
theorem length_lt (h : v.Ok) : v.length * v.sector < 2 ^ 64 :=
  (Nat.mul_le_mul_right _ (Nat.le_add_left _ _)).trans_lt h.bytes_lt

theorem block_bytes (h : v.Ok) {b : Nat} (hb : b ≤ v.blocks) : b * v.block < 2 ^ 64 :=
  ((Nat.mul_le_mul_right _ hb).trans h.fits).trans_lt h.length_lt

end NativeVolume.Ok

/-- An NTFS boot sector that is accepted gives a volume in order. -/
theorem ntfsGeometry_ok {disk sector start length : Nat} {ro : Bool} {boot : Bytes}
    {v : NativeVolume} (hs : 0 < sector) (hb : (start + length) * sector < 2 ^ 64)
    (h : ntfsGeometry disk sector start length ro boot = .ok v) : v.Ok := by
  simp only [ntfsGeometry, ok_guard, not_or, not_not, not_lt, Bool.not_eq_false] at h
  obtain ⟨⟨hbps, hspc, -, -, hlen, -, -⟩, -, -, h⟩ := h
  cases h
  obtain ⟨k, hk⟩ := power2_iff.mp hspc
  have hpos : 0 < (boot 13).toNat := hk ▸ Nat.two_pow_pos k
  have hsectors := rd64_lt boot 40
  refine ⟨hs, Nat.mul_pos (hbps ▸ hs) hpos, ?_, hb, ?_, by simp⟩
  · exact (Nat.div_le_self _ _).trans_lt hsectors
  · calc rd64 boot 40 / (boot 13).toNat * (rd16 boot 11 * (boot 13).toNat)
        = rd64 boot 40 / (boot 13).toNat * (boot 13).toNat * rd16 boot 11 := by ring
      _ ≤ rd64 boot 40 * rd16 boot 11 := Nat.mul_le_mul_right _ (Nat.div_mul_le_self _ _)
      _ ≤ length * sector := hbps ▸ Nat.mul_le_mul_right _ hlen

theorem extGeometry_ok {disk sector start length : Nat} {ro : Bool} {s : Bytes} {v : NativeVolume}
    (hs : 0 < sector) (hb : (start + length) * sector < 2 ^ 64)
    (h : extGeometry disk sector start length ro s = .ok v) : v.Ok := by
  have hl : length * sector < 2 ^ 64 :=
    (Nat.mul_le_mul_right _ (Nat.le_add_left _ _)).trans_lt hb
  simp only [extGeometry, ok_guard, not_or, not_lt] at h
  obtain ⟨-, ⟨hlog, -, -, -⟩, ⟨-, hfit, -, -, -, -, -, -, h128, h512, -, -, -⟩, -, -, h⟩ := h
  cases h
  rw [Nat.mod_eq_of_lt hl] at hfit
  have hlo : 1 ≤ 2 ^ rd32 s 24 := Nat.one_le_two_pow
  have hhi : 2 ^ rd32 s 24 ≤ 2 ^ 2 := Nat.pow_le_pow_right (by omega) hlog
  have hmul := (Nat.le_div_iff_mul_le (by omega)).mp hfit
  refine ⟨hs, by dsimp only; omega, ?_, hb, hmul, fun _ => ?_⟩
  · have := Nat.le_mul_of_pos_right
      (rd32 s 4 + if (rd32 s 96).testBit 7 = true then 2 ^ 32 * rd32 s 336 else 0)
      (show 0 < 1024 * 2 ^ rd32 s 24 by omega)
    dsimp only
    omega
  · exact ⟨by dsimp only; omega, by dsimp only; omega, h128, h512⟩

/-- `native_probe` accepts volumes in order only. -/
theorem nativeGeometry_ok {g : Geometry} {disk start length : Nat} {ro : Bool} {boot super : Bytes}
    {v : NativeVolume} (h : nativeGeometry g disk start length ro boot super = .ok v) : v.Ok := by
  rw [nativeGeometry] at h
  split at h
  · cases h
  · rename_i h₁
    simp only [not_or, not_le, not_lt] at h₁
    have hb : (start + length) * g.sectorSize < 2 ^ 64 := by
      refine (Nat.mul_le_mul_right _ ?_).trans_lt g.mul_lt
      omega
    split at h
    · exact ntfsGeometry_ok g.sectorSize_pos hb h
    · exact extGeometry_ok g.sectorSize_pos hb h

/-! ### Bytes of a volume -/

section Read

variable {σ : Type} (io : Nat → Nat → Nat → Io Errno σ Bytes)

/-- `native_bytes`: bytes of the volume, checked against its end. -/
def nativeBytes (v : NativeVolume) (offset n : Nat) : Io Errno σ Bytes :=
  if spanOk offset n (v.length * v.sector % 2 ^ 64) then io v.disk (v.start * v.sector + offset) n
  else Io.fail .eio

end Read

/-! ### Runs -/

/-- `NATIVE_RUNS`. -/
def nativeRuns : Nat := 256

/-- `native_run`: blocks of a file and where they stand on the volume. -/
structure NativeRun where
  logical : Nat
  physical : Nat
  length : Nat
  hole : Bool
  deriving DecidableEq, Repr

/-- `overlap`, with sums that are checked. -/
def overlapU {ε : Type} (a n b m : Nat) : Checked ε Bool :=
  if n = 0 ∨ m = 0 then .ok false
  else do
    let y ← addU 64 b m
    if y ≤ a then return false
    else
      let x ← addU 64 a n
      return decide (b < x)

/-- Does a run before stand on one of the blocks? -/
def runsOverlap (physical length : Nat) : List NativeRun → Checked Errno Bool
  | [] => .ok false
  | r :: runs =>
      if r.hole then runsOverlap physical length runs
      else do
        if ← overlapU physical length r.physical r.length then return true
        else runsOverlap physical length runs

/-- Does the run start before the last one ends? -/
def runEarly (runs : List NativeRun) (r : NativeRun) : Checked Errno Bool :=
  match runs.getLast? with
  | none => .ok false
  | some last => do
      let next ← addU 64 last.logical last.length
      return decide (r.logical < next)

/-- `run_add`: the run goes to the end of the list. -/
def runAdd (v : NativeVolume) (runs : List NativeRun) (r : NativeRun) :
    Checked Errno (List NativeRun) :=
  if r.length = 0 ∨ runs.length = nativeRuns ∨ 2 ^ 64 - 1 - r.length < r.logical ∨
      (r.hole = false ∧ (v.blocks ≤ r.physical ∨ v.blocks - r.physical < r.length)) then
    .error (.code .eio)
  else do
    if ← runEarly runs r then .error (.code .eio)
    else if r.hole then return runs ++ [r]
    else if ← runsOverlap r.physical r.length runs then .error (.code .eio)
    else return runs ++ [r]

/-- A run that `run_add` accepts: it is not empty, its end has a number, and it lies on the
volume. -/
structure NativeRun.Ok (v : NativeVolume) (r : NativeRun) : Prop where
  pos : 0 < r.length
  logical_lt : r.logical + r.length < 2 ^ 64
  inside : r.hole = false → r.physical + r.length ≤ v.blocks

/-- **Run lists.**  The runs of a file stand in the order of its blocks, and no block of the volume
is in two of them. -/
structure RunList (v : NativeVolume) (runs : List NativeRun) : Prop where
  count : runs.length ≤ nativeRuns
  each : ∀ r ∈ runs, r.Ok v
  sorted : runs.Pairwise fun a b => a.logical + a.length ≤ b.logical
  apart : runs.Pairwise fun a b => a.hole = false → b.hole = false →
    a.physical + a.length ≤ b.physical ∨ b.physical + b.length ≤ a.physical

namespace RunList

variable {v : NativeVolume} {runs : List NativeRun} {r : NativeRun}

theorem nil : RunList v [] := ⟨Nat.zero_le _, by simp, .nil, .nil⟩

/-- All runs end before the last one does. -/
theorem before_last (h : RunList v runs) {last : NativeRun} (hl : runs.getLast? = some last) :
    ∀ a ∈ runs, a.logical + a.length ≤ last.logical + last.length := by
  obtain ⟨init, rfl⟩ := List.getLast?_eq_some_iff.mp hl
  intro a ha
  rcases List.mem_append.mp ha with ha | ha
  · have := (List.pairwise_append.mp h.sorted).2.2 a ha last (by simp)
    omega
  · rw [List.mem_singleton.mp ha]

/-- A run after the last, apart from the others. -/
theorem snoc (h : RunList v runs) (hc : runs.length ≠ nativeRuns) (hr : r.Ok v)
    (hl : ∀ last, runs.getLast? = some last → last.logical + last.length ≤ r.logical)
    (hp : r.hole = false → ∀ a ∈ runs, a.hole = false →
      a.physical + a.length ≤ r.physical ∨ r.physical + r.length ≤ a.physical) :
    RunList v (runs ++ [r]) := by
  refine ⟨?_, ?_, ?_, ?_⟩
  · have := h.count
    rw [List.length_append, List.length_singleton]
    omega
  · intro a ha
    rcases List.mem_append.mp ha with ha | ha
    · exact h.each a ha
    · exact (List.mem_singleton.mp ha) ▸ hr
  · refine List.pairwise_append.mpr ⟨h.sorted, List.pairwise_singleton _ _, ?_⟩
    intro a ha b hb
    rw [List.mem_singleton.mp hb]
    cases hlast : runs.getLast? with
    | none => simp [List.getLast?_eq_none_iff.mp hlast] at ha
    | some last => exact (h.before_last hlast a ha).trans (hl last hlast)
  · refine List.pairwise_append.mpr ⟨h.apart, List.pairwise_singleton _ _, ?_⟩
    intro a ha b hb hah hbh
    rw [List.mem_singleton.mp hb] at hbh ⊢
    exact hp hbh a ha hah

end RunList

/-- The overlap test does not wrap, and says no only of ranges that are apart. -/
theorem sound_overlapU {ε : Type} {a n b m : Nat} (hn : 0 < n) (hm : 0 < m) (ha : a + n < 2 ^ 64)
    (hb : b + m < 2 ^ 64) :
    Sound (overlapU a n b m : Checked ε Bool) fun c => c = false → a + n ≤ b ∨ b + m ≤ a := by
  rw [overlapU, if_neg (by omega)]
  refine (sound_addU hb).bind ?_
  rintro _ rfl
  refine Sound.ite (fun h => ?_) (fun h => ?_)
  · exact sound_pure.mpr fun _ => .inr h
  · refine (sound_addU ha).bind ?_
    rintro _ rfl
    exact sound_pure.mpr fun h' => .inl (by simpa using h')

/-- The test against every run says no only of a range apart from them. -/
theorem sound_runsOverlap {v : NativeVolume} {physical length : Nat} (hv : v.blocks < 2 ^ 64)
    (hpos : 0 < length) (hin : physical + length ≤ v.blocks) :
    ∀ {runs : List NativeRun}, (∀ a ∈ runs, a.Ok v) →
      Sound (runsOverlap physical length runs) fun c => c = false → ∀ a ∈ runs, a.hole = false →
        a.physical + a.length ≤ physical ∨ physical + length ≤ a.physical := by
  intro runs
  induction runs with
  | nil => simp [runsOverlap]
  | cons r runs ih =>
      intro h
      have hr := h r (by simp)
      have ih := ih fun a ha => h a (by simp [ha])
      rw [runsOverlap]
      refine Sound.ite (fun hole => ?_) (fun hole => ?_)
      · refine ih.mono fun c hc hf a ha hah => ?_
        rcases List.mem_cons.mp ha with rfl | ha
        · rw [hole] at hah
          cases hah
        · exact hc hf a ha hah
      · have hr' := hr.inside (by simpa using hole)
        refine (sound_overlapU hpos hr.pos (by omega) (by omega)).bind fun c hc => ?_
        cases c with
        | true => simp
        | false =>
            refine ih.mono fun c hc' hf a ha hah => ?_
            rcases List.mem_cons.mp ha with rfl | ha
            · exact (hc rfl).symm
            · exact hc' hf a ha hah

/-- The order test says no only of a run after the last. -/
theorem sound_runEarly {v : NativeVolume} {runs : List NativeRun} (h : RunList v runs)
    (r : NativeRun) :
    Sound (runEarly runs r) fun early => early = false → ∀ last, runs.getLast? = some last →
      last.logical + last.length ≤ r.logical := by
  rw [runEarly]
  cases hl : runs.getLast? with
  | none => simp
  | some last =>
      refine (sound_addU (h.each last (List.mem_of_getLast? hl)).logical_lt).bind ?_
      rintro _ rfl
      simp

/-- **Adding a run** keeps the list in order, and neither sums nor differences wrap. -/
theorem sound_runAdd {v : NativeVolume} (hv : v.Ok) {runs : List NativeRun} (h : RunList v runs)
    {r : NativeRun} (hlen : r.length < 2 ^ 64) :
    Sound (runAdd v runs r) fun runs' => RunList v runs' ∧ runs' = runs ++ [r] ∧ r.Ok v := by
  refine Sound.guard fun hg => ?_
  simp only [not_or, not_and, not_le, not_lt] at hg
  obtain ⟨hpos, hcount, hlog, hin⟩ := hg
  have hr : r.Ok v := by
    refine ⟨by omega, by omega, fun hole => ?_⟩
    have := hin hole
    omega
  refine (sound_runEarly h r).bind fun early he => ?_
  refine Sound.guard fun hearly => ?_
  have hlast := he (by simpa using hearly)
  refine Sound.ite (fun hole => ?_) (fun hole => ?_)
  · exact sound_pure.mpr ⟨h.snoc hcount hr hlast (by simp [hole]), rfl, hr⟩
  · have hin' := hr.inside (by simpa using hole)
    refine (sound_runsOverlap hv.blocks_lt hr.pos hin' h.each).bind fun clash hc => ?_
    refine Sound.guard fun hclash => ?_
    exact sound_pure.mpr ⟨h.snoc hcount hr hlast fun _ => hc (by simpa using hclash), rfl, hr⟩

end Efishell
