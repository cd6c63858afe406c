import Efishell.Storage.Disk

/-!
# File systems — FAT volumes

The functions of `fs.c` that read a FAT volume: the geometry that `fat_mount` checks,
`volume_bytes`, `fat_next`, `fat_directory`, `fat_refresh` and `fat_read`.

They run over any state and read the disk by one function, `io disk offset n`, which is
`disk_bytes`. The buffers of a call are values: what a failed call leaves in `out` is no part of its
result.

Both loops over a chain of clusters count their rounds and give up at a limit.  The number of rounds
left is the argument they recurse on, so that the check of the counter is the case of none left.
-/

namespace Efishell

/-- `fat_bits`. -/
inductive FatBits where
  | fat12 | fat16 | fat32
  deriving DecidableEq, Repr

/-- The fields of `fat_volume` that are read here. -/
structure FatVolume where
  disk : Nat
  sector : Nat
  spc : Nat
  bits : FatBits
  rootEntries : Nat
  rootCluster : Nat
  clusterCount : Nat
  start : Nat
  length : Nat
  fatStart : Nat
  fatSectors : Nat
  rootStart : Nat
  dataStart : Nat
  deriving DecidableEq, Repr

/-! ### Geometry -/

/-- The number of bytes of a table with `entries` entries. -/
def FatBits.tableBytes : FatBits → Nat → Nat
  | .fat12, entries => (entries * 3 + 1) / 2
  | .fat16, entries => entries * 2
  | .fat32, entries => entries * 4

/-- What `fat_mount` reads from the boot sector. -/
structure FatBoot where
  bps : Nat
  spc : Nat
  reserved : Nat
  fats : Nat
  rootEntries : Nat
  total : Nat
  fatSize16 : Nat
  fatSize : Nat
  flags : Nat
  version : Nat
  root : Nat
  deriving DecidableEq, Repr

/-- The fields `fat_mount` reads of a boot sector. -/
def fatBoot (boot : Bytes) : FatBoot where
  bps := rd16 boot 11
  spc := (boot 13).toNat
  reserved := rd16 boot 14
  fats := (boot 16).toNat
  rootEntries := rd16 boot 17
  total := if rd16 boot 19 = 0 then rd32 boot 32 else rd16 boot 19
  fatSize16 := rd16 boot 22
  fatSize := if rd16 boot 22 = 0 then rd32 boot 36 else rd16 boot 22
  flags := rd16 boot 40
  version := rd16 boot 42
  root := rd32 boot 44

namespace FatBoot

variable (b : FatBoot)

/-- The sectors of the fixed root directory. -/
def rootSectors : Nat := (b.rootEntries * 32 + b.bps - 1) / b.bps

/-- The first sector of the data area. -/
def data : Nat := b.reserved + b.fats * b.fatSize + b.rootSectors

/-- The clusters of the data area. -/
def clusters : Nat := (b.total - b.data) / b.spc

/-- The FAT type, which the number of clusters decides. -/
def bits : FatBits :=
  if b.clusters < 4085 then .fat12 else if b.clusters < 65525 then .fat16 else .fat32

/-- The number of the table in use. -/
def active : Nat := if b.bits = .fat32 ∧ b.flags.testBit 7 then b.flags % 16 else 0

/-- The volume at `start` of the disk. -/
def volume (disk start : Nat) : FatVolume where
  disk := disk
  sector := b.bps
  spc := b.spc
  bits := b.bits
  rootEntries := b.rootEntries
  rootCluster := if b.bits = .fat32 then b.root else 0
  clusterCount := b.clusters
  start := start
  length := b.total
  fatStart := b.reserved + b.active * b.fatSize
  fatSectors := b.fatSize
  rootStart := b.reserved + b.fats * b.fatSize
  dataStart := b.data

end FatBoot

/-- The signature of a boot sector and its first byte. -/
def bootSignature (boot : Bytes) : Bool :=
  boot 510 == 0x55 && boot 511 == 0xaa && (boot 0 == 0xeb || boot 0 == 0xe9)

/-- The checks of `fat_mount` on a boot sector, for the partition of `length` sectors at `start`, on
a disk with sectors of `sectorSize` bytes. -/
def fatGeometry (disk sectorSize start length : Nat) (boot : Bytes) : Except Errno FatVolume :=
  let b := fatBoot boot
  if bootSignature boot = false ∨ b.bps ≠ sectorSize ∨ power2 b.spc = false ∨ 128 < b.spc ∨
      b.reserved = 0 ∨ b.fats = 0 ∨ 2 < b.fats ∨ b.fatSize = 0 ∨ b.total = 0 ∨ length < b.total then
    .error .enotsup
  else if b.total ≤ b.data then .error .enotsup
  else if b.clusters = 0 ∨ 0x0fffffee < b.clusters then .error .enotsup
  else if b.fatSize * b.bps < b.bits.tableBytes (b.clusters + 2) then .error .enotsup
  else if b.bits = .fat32 ∧ (b.rootEntries ≠ 0 ∨ b.fatSize16 ≠ 0 ∨ b.version ≠ 0 ∨ b.root < 2 ∨
      b.clusters ≤ b.root - 2 ∨ b.fats ≤ b.active) then .error .enotsup
  else if b.bits ≠ .fat32 ∧ (b.rootEntries = 0 ∨ b.fatSize16 = 0) then .error .enotsup
  else .ok (b.volume disk start)

/-! ### Chains -/

/-- `0xffffffff`, where a chain ends. -/
def fatEnd : Nat := 0xffffffff

/-- The first entry that is an end mark. -/
def FatBits.endMark : FatBits → Nat
  | .fat12 => 0xff8
  | .fat16 => 0xfff8
  | .fat32 => 0x0ffffff8

/-- Where the entry of a cluster stands. -/
def FatBits.offset : FatBits → Nat → Nat
  | .fat12, cluster => cluster + cluster / 2
  | .fat16, cluster => cluster * 2
  | .fat32, cluster => cluster * 4

/-- How many bytes of it are read. -/
def FatBits.bytes : FatBits → Nat
  | .fat32 => 4
  | _ => 2

/-- The entry of a cluster, from the bytes that were read. -/
def FatBits.decode : FatBits → Nat → Bytes → Nat
  | .fat12, cluster, raw => if cluster % 2 = 1 then rd16 raw 0 / 16 else rd16 raw 0 % 0x1000
  | .fat16, _, raw => rd16 raw 0
  | .fat32, _, raw => rd32 raw 0 % 0x10000000

/-- What an entry says: the end of the chain or the next cluster. -/
def FatVolume.link (v : FatVolume) (n : Nat) : Except Errno Nat :=
  if v.bits.endMark ≤ n then .ok fatEnd
  else if n < 2 ∨ v.clusterCount ≤ n - 2 ∨ n = v.bits.endMark - 1 then .error .eio
  else .ok n

/-- `cluster < 2 || cluster - 2 >= v->cluster_count` is false. -/
def FatVolume.has (v : FatVolume) (cluster : Nat) : Bool :=
  decide (2 ≤ cluster) && decide (cluster - 2 < v.clusterCount)

section Read

variable {σ : Type} (io : Nat → Nat → Nat → Io Errno σ Bytes)

/-- `volume_bytes`: bytes of the volume, checked against its end. -/
def volumeBytes (v : FatVolume) (offset n : Nat) : Io Errno σ Bytes :=
  if spanOk offset n (v.length * v.sector) then io v.disk (v.start * v.sector + offset) n
  else Io.fail .eio

/-- `fat_next`: the table's entry of a cluster. -/
def fatNext (v : FatVolume) (cluster : Nat) : Io Errno σ Nat :=
  if v.has cluster = false then Io.fail .eio
  else if spanOk (v.bits.offset cluster) v.bits.bytes (v.fatSectors * v.sector) = false then
    Io.fail .eio
  else do
    let raw ← volumeBytes io v (v.fatStart * v.sector + v.bits.offset cluster) v.bits.bytes
    Io.lift (v.link (v.bits.decode cluster raw))

/-- The slow pointer moves in every other round. -/
def slowNext (v : FatVolume) (rounds tortoise : Nat) : Io Errno σ Nat :=
  if rounds % 2 = 0 then fatNext io v tortoise else pure tortoise

/-- The end of round number `rounds` of a walk: the next cluster and the slow pointer, or `none` at
the end of the chain.  With `strict` a slow pointer that comes to the end is an error as well. -/
def chase (v : FatVolume) (strict : Bool) (rounds cluster tortoise : Nat) :
    Io Errno σ (Option (Nat × Nat)) := do
  let next ← fatNext io v cluster
  if next = fatEnd then return none
  else do
    let tortoise ← slowNext io v rounds tortoise
    if strict ∧ rounds % 2 = 0 ∧ tortoise = fatEnd then Io.fail .eio
    else if next = tortoise then Io.fail .eio
    else return some (next, tortoise)

end Read

/-! ### Directories -/

/-- `k_dirent`. -/
structure Dirent where
  name : List UInt8
  directory : Bool
  attributes : UInt8
  directoryOffset : Nat
  size : Nat
  deriving DecidableEq, Repr

/-- The long name that is being read. -/
structure LfnState where
  longname : Bytes
  expected : Nat
  sum : UInt8
  lfn : Bool

/-- No long name is under way. -/
def LfnState.start : LfnState := ⟨fun _ => 0, 0, 0, false⟩

/-- The long name under way is given up. -/
def LfnState.drop (st : LfnState) : LfnState := { st with lfn := false }

/-- The first `n` bytes of `sfn_checksum`. -/
def sfnChecksumFrom (name : Bytes) : Nat → UInt8
  | 0 => 0
  | i + 1 =>
      let sum := sfnChecksumFrom name i
      (if sum.toNat % 2 = 1 then 128 else 0) + sum / 2 + name i

/-- `sfn_checksum`: the checksum of the eleven bytes of a short name. -/
def sfnChecksum (name : Bytes) : UInt8 := sfnChecksumFrom name 11

/-- `offsets`. -/
def lfnOffsets : List Nat := [1, 3, 5, 7, 9, 14, 16, 18, 20, 22, 24, 28, 30]

/-- One character of a long name. -/
def lfnChar (d : Bytes) (seq : Nat) (st : LfnState) (i : Nat) : LfnState :=
  let at_ := (seq - 1) * 13 + i
  let ch := rd16 d (lfnOffsets.getD i 0)
  if 255 ≤ at_ then if ch ≠ 0 ∧ ch ≠ 0xffff then st.drop else st
  else if ch = 0xffff ∨ ch = 0 then { st with longname := Function.update st.longname at_ 0 }
  else if ch < 32 ∨ 126 < ch ∨ ch = 47 ∨ ch = 92 then st.drop
  else { st with longname := Function.update st.longname at_ (UInt8.ofNat ch) }

/-- An entry that holds a piece of a long name. -/
def lfnEntry (d : Bytes) (st : LfnState) : LfnState :=
  let seq := (d 0).toNat % 32
  let st := if (d 0).toNat.testBit 6 then
      ⟨fun _ => 0, seq, d 13, decide (1 ≤ seq) && decide (seq ≤ 20)⟩
    else st
  if st.lfn = false ∨ seq ≠ st.expected ∨ d 13 ≠ st.sum ∨ d 12 ≠ 0 ∨ rd16 d 26 ≠ 0 ∨
      (d 0).toNat &&& 0xa0 ≠ 0 then st.drop
  else
    let st := (List.range 13).foldl (lfnChar d seq) st
    { st with expected := st.expected - 1 }

/-- The bytes of a string before its end. -/
def cstr (b : Bytes) : Nat → Nat → List UInt8
  | 0, _ => []
  | n + 1, i => if b i = 0 then [] else b i :: cstr b n (i + 1)

/-- The bytes from `i` on, at most `n`, that are no blanks. -/
def sfnPart (d : Bytes) : Nat → Nat → List UInt8
  | 0, _ => []
  | n + 1, i => if d i = 32 then [] else d i :: sfnPart d n (i + 1)

/-- The short name; a byte of zero ends it. -/
def sfnName (d : Bytes) : List UInt8 :=
  let n := sfnPart d 8 0 ++ (if d 8 ≠ 32 then 46 :: sfnPart d 3 8 else [])
  n.takeWhile (· ≠ 0)

/-- What a slot of a directory is. -/
inductive DirSlot where
  | stop
  | skip (st : LfnState)
  | bad (e : Errno)
  | entry (d : Dirent) (child : Nat)

/-- The slot `d`, which stands at `pos`. -/
def dirSlot (v : FatVolume) (d : Bytes) (pos : Nat) (st : LfnState) : DirSlot :=
  if d 0 = 0 then .stop
  else if d 0 = 0xe5 then .skip st.drop
  else if d 11 = 0x0f then .skip (lfnEntry d st)
  else if (d 11).toNat.testBit 3 then .skip st.drop
  else
    let name := if st.lfn ∧ st.expected = 0 ∧ st.sum = sfnChecksum d ∧ st.longname 0 ≠ 0 then
        cstr st.longname 255 0
      else sfnName d
    if name = [46] ∨ name = [46, 46] then .skip st.drop
    else
      let directory := (d 11).toNat.testBit 4
      let size := rd32 d 28
      let child := rd16 d 26 + (if v.bits = .fat32 then rd16 d 20 * 2 ^ 16 else 0)
      if v.bits = .fat32 ∧ 0x10000000 ≤ child then .bad .eio
      else if (directory ∨ size ≠ 0) ∧ v.has child = false then .bad .eio
      else .entry ⟨name, directory, d 11, pos, size⟩ child

/-- Where a loop over slots stands: the number of slots seen, and the long name. -/
structure DirState where
  scanned : Nat
  lfn : LfnState

section Read

variable {σ : Type} (io : Nat → Nat → Nat → Io Errno σ Bytes)

/-- The slots of one sector from `p` on; `none` says that the walk is over.  The callback says
whether to go on. -/
def dirSector (v : FatVolume) (fixed : Bool) (cb : Dirent → Nat → Io Errno σ Bool) (base : Nat)
    (sector : Bytes) : Nat → Nat → DirState → Io Errno σ (Option DirState)
  | 0, _, st => return some st
  | left + 1, p, st =>
      if fixed ∧ v.rootEntries ≤ st.scanned then return none
      else if 65536 < st.scanned + 1 then Io.fail .e2big
      else
        match dirSlot v (fun i => sector (p + i)) (base + p) st.lfn with
        | .stop => return none
        | .bad e => Io.fail e
        | .skip lfn => dirSector v fixed cb base sector left (p + 32) ⟨st.scanned + 1, lfn⟩
        | .entry d child => do
            let more ← cb d child
            if more then
              dirSector v fixed cb base sector left (p + 32) ⟨st.scanned + 1, st.lfn.drop⟩
            else return none

/-- The sectors from `first + s` on. -/
def dirSectors (v : FatVolume) (fixed : Bool) (cb : Dirent → Nat → Io Errno σ Bool) (first : Nat) :
    Nat → Nat → DirState → Io Errno σ (Option DirState)
  | 0, _, st => return some st
  | left + 1, s, st => do
      let sector ← volumeBytes io v ((first + s) * v.sector) v.sector
      let more ← dirSector v fixed cb ((first + s) * v.sector) sector ((v.sector + 31) / 32) 0 st
      match more with
      | none => return none
      | some st => dirSectors v fixed cb first left (s + 1) st

/-- The sectors of one cluster. -/
def dirCluster (v : FatVolume) (cb : Dirent → Nat → Io Errno σ Bool) (cluster : Nat)
    (st : DirState) :
    Io Errno σ (Option DirState) :=
  dirSectors io v false cb (v.dataStart + (cluster - 2) * v.spc) v.spc 0 st

/-- The loop over a chain of clusters; `left` rounds are allowed, and `visited` are done. -/
def dirLoop (v : FatVolume) (cb : Dirent → Nat → Io Errno σ Bool) :
    Nat → (visited cluster tortoise : Nat) → DirState → Io Errno σ Unit
  | 0, _, _, _, _ => Io.fail .eio
  | left + 1, visited, cluster, tortoise, st =>
      if v.has cluster = false then Io.fail .eio
      else do
        let more ← dirCluster io v cb cluster st
        match more with
        | none => return ()
        | some st => do
            let go ← chase io v true (visited + 1) cluster tortoise
            match go with
            | none => return ()
            | some (next, tortoise) => dirLoop v cb left (visited + 1) next tortoise st

/-- `fat_directory`: every entry of a directory, until the callback stops it. -/
def fatDirectory (v : FatVolume) (cluster : Nat) (cb : Dirent → Nat → Io Errno σ Bool) :
    Io Errno σ Unit :=
  if cluster = 0 ∧ v.bits = .fat32 then Io.fail .eio
  else if cluster = 0 then do
    let _ ← dirSectors io v true cb v.rootStart ((v.rootEntries * 32 + v.sector - 1) / v.sector) 0
      ⟨0, .start⟩
    return ()
  else dirLoop io v cb (min 65536 v.clusterCount) 0 cluster cluster ⟨0, .start⟩

/-! ### Files -/

end Read

/-- `k_file`. -/
structure KFile where
  kind : Nat
  object : Nat
  cluster : Nat
  attributes : Nat
  size : Nat
  directoryOffset : Nat
  deriving DecidableEq, Repr

section Read

variable {σ : Type} (io : Nat → Nat → Nat → Io Errno σ Bytes) (volumes : List FatVolume)

/-- `fat_refresh`: the open file's size and first cluster, read again. -/
def fatRefresh (f : KFile) : Io Errno σ KFile :=
  if f.kind ≠ 2 then Io.fail .einval
  else
    match volumes[f.object]? with
    | none => Io.fail .einval
    | some v =>
        if f.directoryOffset = 0 then return f
        else do
          let d ← volumeBytes io v f.directoryOffset 32
          if d 0 = 0 ∨ d 0 = 0xe5 ∨ (d 11).toNat.testBit 3 then Io.fail .enoent
          else
            let size := rd32 d 28
            let cluster := rd16 d 26 + (if v.bits = .fat32 then rd16 d 20 * 2 ^ 16 else 0)
            let attributes := (d 11).toNat
            if (size ≠ 0 ∨ attributes.testBit 4 ∨ cluster ≠ 0) ∧
              v.has cluster = false then Io.fail .eio
            else return { f with cluster := cluster, attributes := attributes, size := size }

/-- `(UINT64)v->spc * v->sector`. -/
def FatVolume.clusterBytes (v : FatVolume) : Nat := v.spc * v.sector

/-- Where the byte `at` of a cluster stands in the volume. -/
def FatVolume.position (v : FatVolume) (cluster at_ : Nat) : Nat :=
  (v.dataStart + (cluster - 2) * v.spc) * v.sector + at_

/-- The part of a cluster that a round reads: none while clusters are skipped. -/
def FatVolume.part (v : FatVolume) (skip at_ bytes : Nat) : Nat :=
  if skip = 0 then min bytes (v.clusterBytes - at_) else 0

/-- That part is read to position `p` of `out`. -/
def readPart (v : FatVolume) (cluster skip at_ n : Nat) (out : Bytes) (p : Nat) :
    Io Errno σ Bytes :=
  if skip = 0 then do
    let b ← volumeBytes io v (v.position cluster at_) n
    return memCopy out p b 0 n
  else return out

/-- The loop of `fat_read`; `left` rounds are allowed, `steps` are done, and `p` bytes are read. -/
def fatReadLoop (v : FatVolume) : Nat → (steps cluster tortoise skip at_ bytes : Nat) →
    (out : Bytes) → (p : Nat) → Io Errno σ (Bytes × Nat)
  | 0, _, _, _, skip, _, bytes, out, p =>
      if skip = 0 ∧ bytes = 0 then return (out, p) else Io.fail .eio
  | left + 1, steps, cluster, tortoise, skip, at_, bytes, out, p =>
      if skip = 0 ∧ bytes = 0 then return (out, p)
      else if v.has cluster = false then Io.fail .eio
      else do
        let out ← readPart io v cluster skip at_ (v.part skip at_ bytes) out p
        if skip = 0 ∧ bytes - v.part skip at_ bytes = 0 then return (out, p + v.part skip at_ bytes)
        else do
          let go ← chase io v false (steps + 1) cluster tortoise
          match go with
          | none => Io.fail .eio
          | some (next, tortoise) =>
              fatReadLoop v left (steps + 1) next tortoise (skip - 1) (if skip = 0 then 0 else at_)
                (bytes - v.part skip at_ bytes) out (p + v.part skip at_ bytes)

/-- The bytes that were read, and their number. -/
def fatRead (file : KFile) (offset bytes : Nat) (out : Bytes) : Io Errno σ (Bytes × Nat) := do
  let file ← fatRefresh io volumes file
  match volumes[file.object]? with
  | none => Io.fail .enoent
  | some v =>
      if file.size ≤ offset ∨ bytes = 0 then return (out, 0)
      else
        let bytes := min bytes (file.size - offset)
        let skip := offset / v.clusterBytes
        if 65536 < skip then Io.fail .e2big
        else
          fatReadLoop io v (min v.clusterCount 65537) 0 file.cluster file.cluster skip
            (offset % v.clusterBytes) bytes out 0

end Read

end Efishell
