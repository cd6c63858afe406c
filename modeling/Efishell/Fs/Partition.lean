import Efishell.Storage.Disk

/-!
# File systems — partition tables

`partition_add`, `gpt_parse` and `mbr_parse`.  The lists they build replace the array `parts` and
its counter; the list only grows at its end.

`gpt_parse` reads the header sector and checks it (`signatureOk`, `geometryOk`), checks the checksum
of the entry table sector by sector (`gptTableCrc`) and then reads the entries one by one
(`gptEntries`).  `mbr_parse` walks the four entries of sector 0 (`mbrPrimaries`) and then the chain
of extended boot records (`ebrChain`).
-/

namespace Efishell

/-- A partition as the parsers report it. -/
structure PartitionEntry where
  start : Nat
  length : Nat
  number : Nat
  readOnly : Bool
  deriving DecidableEq, Repr

/-- `partition_add`: a partition inside the disk that overlaps no other. -/
def partitionAdd (parts : List PartitionEntry) (start length number diskSize : Nat) :
    Except Errno (List PartitionEntry) :=
  if length = 0 ∨ start = 0 ∨ diskSize ≤ start ∨ diskSize - start < length ∨ 128 ≤ parts.length then
    .error .einval
  else if parts.any fun p => overlap start length p.start p.length then .error .einval
  else .ok (parts ++ [⟨start, length, number, false⟩])

/-! ### GPT -/

/-- One bit of `crc_step`. -/
def crcBit (crc : UInt32) : UInt32 := (crc >>> 1) ^^^ (0xedb88320 &&& (0 - (crc &&& 1)))

/-- One byte of the CRC-32. -/
def crcByte (crc : UInt32) (x : UInt8) : UInt32 :=
  crcBit (crcBit (crcBit (crcBit (crcBit (crcBit (crcBit (crcBit (crc ^^^ x.toUInt32))))))))

/-- The CRC-32 carried over `n` bytes. -/
def crcStep (crc : UInt32) (p : Bytes) (off : Nat) : Nat → UInt32
  | 0 => crc
  | n + 1 => crcStep (crcByte crc (p off)) p (off + 1) n

/-- `"EFI PART"`. -/
def efiPart : List UInt8 := [69, 70, 73, 32, 80, 65, 82, 84]

/-- The fields of the header `gpt_parse` uses. -/
structure GptHeader where
  backup : Nat
  first : Nat
  last : Nat
  table : Nat
  entries : Nat
  entrySize : Nat
  wanted : Nat

/-- The fields `gpt_parse` reads of a header sector. -/
def gptHeader (sector : Bytes) : GptHeader where
  backup := rd64 sector 32
  first := rd64 sector 40
  last := rd64 sector 48
  table := rd64 sector 72
  entries := rd32 sector 80
  entrySize := rd32 sector 84
  wanted := rd32 sector 88

namespace GptHeader

/-- `table_bytes`; a product of two 32-bit numbers does not leave 64 bits. -/
def tableBytes (h : GptHeader) : Nat := h.entries * h.entrySize

/-- The sectors of the entry table. -/
def tableSectors (h : GptHeader) (bps : Nat) : Nat := (h.tableBytes + bps - 1) / bps

/-- The signature, version, size, checksum and position of the header. -/
def signatureOk (sector : Bytes) (bps headerLba : Nat) : Bool :=
  let len := rd32 sector 12
  let saved := rd32 sector 16
  !(!memEq sector 0 efiPart || rd32 sector 8 != 0x10000 || decide (len < 92) ||
    decide (bps < len) || rd32 sector 20 != 0 || rd64 sector 24 != headerLba) &&
  (crcStep 0xffffffff (wr32 sector 16 0) 0 len ^^^ 0xffffffff).toNat == saved

/-- The geometry checks of the header. -/
def geometryOk (h : GptHeader) (sectors bps headerLba : Nat) : Bool :=
  !(decide (sectors ≤ h.backup) || h.backup == headerLba || decide (h.last < h.first) ||
    decide (h.first < 2) || decide (sectors - 1 ≤ h.last) || h.entries == 0 ||
    decide (4096 < h.entries) || decide (h.entrySize < 128) || decide (1024 < h.entrySize) ||
    h.entrySize &&& 127 != 0 || h.table == 0 || decide (sectors ≤ h.table) ||
    decide (sectors - h.table < h.tableSectors bps) ||
    overlap h.table (h.tableSectors bps) h.first (h.last - h.first + 1) ||
    overlap h.table (h.tableSectors bps) headerLba 1 ||
    overlap h.table (h.tableSectors bps) h.backup 1)

end GptHeader

/-- The checksum of the entry table, one sector at a time. -/
def gptTableCrc (bps table : Nat) : Nat → Nat → UInt32 → Nat → Io Errno Disk UInt32
  | 0, _, crc, _ => return crc
  | left + 1, i, crc, remaining => do
      let sector ← kDiskRead (table + i) 1 4096
      let n := min remaining bps
      gptTableCrc bps table left (i + 1) (crcStep crc sector 0 n) (remaining - n)

/-- An entry with a nonzero type is in use. -/
def gptUsed (entry : Bytes) : Bool := (List.range 16).any fun j => entry j != 0

/-- The loop over the entries, `i` the next one. -/
def gptEntries (h : GptHeader) (sectors bps : Nat) :
    Nat → Nat → List PartitionEntry → Io Errno Disk (List PartitionEntry)
  | 0, _, parts => return parts
  | left + 1, i, parts => do
      let entry ← diskBytes ((h.table * bps + i * h.entrySize) % 2 ^ 64) 128
      if gptUsed entry = false then gptEntries h sectors bps left (i + 1) parts
      else
        let a := rd64 entry 32
        let b := rd64 entry 40
        if a < h.first ∨ b < a ∨ h.last < b then Io.fail .einval
        else do
          let parts ← Io.lift (partitionAdd parts a ((b - a + 1) % 2 ^ 64) (i + 1) sectors)
          let readOnly := rd64 entry 48 &&& 2 ^ 60 != 0
          gptEntries h sectors bps left (i + 1)
            (parts.modify (parts.length - 1) fun p => { p with readOnly })

/-- `gpt_parse`: the partitions of the table whose header is at `headerLba`. -/
def gptParse (headerLba : Nat) : Io Errno Disk (List PartitionEntry) := do
  let d ← Io.get
  let bps := d.geo.sectorSize
  let sectors := d.geo.sectors
  let sector ← kDiskRead headerLba 1 4096
  if GptHeader.signatureOk sector bps headerLba = false then Io.fail .einval
  else
    let h := gptHeader sector
    if h.geometryOk sectors bps headerLba = false then Io.fail .einval
    else do
      let crc ← gptTableCrc bps h.table (h.tableSectors bps) 0 0xffffffff h.tableBytes
      if (crc ^^^ 0xffffffff).toNat ≠ h.wanted then Io.fail .einval
      else gptEntries h sectors bps h.entries 0 []

/-! ### MBR -/

/-- The MBR types of an extended partition. -/
def extendedType (t : UInt8) : Bool := t == 5 || t == 0x0f || t == 0x85

/-- The four entries of sector 0, `i` the next one. -/
def mbrPrimaries (mbr : Bytes) (diskSize : Nat) :
    Nat → Nat → List PartitionEntry → Nat → Nat → Except Errno (List PartitionEntry × Nat × Nat)
  | 0, _, parts, extBase, extLength => .ok (parts, extBase, extLength)
  | left + 1, i, parts, extBase, extLength =>
      let p := 446 + 16 * i
      let type := mbr (p + 4)
      let start := rd32 mbr (p + 8)
      let length := rd32 mbr (p + 12)
      if type = 0 ∨ length = 0 then mbrPrimaries mbr diskSize left (i + 1) parts extBase extLength
      else if type = 0xee then .error .einval
      else if start = 0 ∨ diskSize ≤ start ∨ diskSize - start < length then .error .einval
      else if extendedType type then
        if extLength ≠ 0 then .error .enotsup
        else mbrPrimaries mbr diskSize left (i + 1) parts start length
      else match partitionAdd parts start length (i + 1) diskSize with
        | .error e => .error e
        | .ok parts => mbrPrimaries mbr diskSize left (i + 1) parts extBase extLength

/-- The logical partition an extended boot record describes, if any. -/
def ebrLogical (sector : Bytes) (ebr extBase extLength visits diskSize : Nat)
    (parts : List PartitionEntry) : Except Errno (List PartitionEntry) :=
  let type := sector (446 + 4)
  let relative := rd32 sector (446 + 8)
  let length := rd32 sector (446 + 12)
  if type ≠ 0 ∧ length ≠ 0 then
    if extendedType type ∨ relative = 0 ∨ extBase + extLength - ebr ≤ relative ∨
        extBase + extLength - ebr - relative < length then .error .einval
    else partitionAdd parts (ebr + relative) length (4 + visits) diskSize
  else .ok parts

/-- The walk along the extended boot records.  `seen` holds the sectors visited so far, and the
first argument counts the free slots of `seen[124]`: the walk ends with the array. -/
def ebrChain (extBase extLength diskSize : Nat) :
    Nat → Nat → List Nat → List PartitionEntry → Io Errno Disk (List Nat × List PartitionEntry)
  | 0, _, _, _ => Io.fail .einval
  | left + 1, ebr, seen, parts =>
      if ebr < extBase ∨ extLength ≤ ebr - extBase then Io.fail .einval
      else if ebr ∈ seen then Io.fail .einval
      else do
        let seen := seen ++ [ebr]
        let sector ← kDiskRead ebr 1 4096
        if sector 510 ≠ 0x55 ∨ sector 511 ≠ 0xaa then Io.fail .einval
        else do
          let parts ← Io.lift (ebrLogical sector ebr extBase extLength seen.length diskSize parts)
          if sector (462 + 4) = 0 then return (seen, parts)
          else if extendedType (sector (462 + 4)) = false then Io.fail .einval
          else
            let next := rd32 sector (462 + 8)
            let len := rd32 sector (462 + 12)
            if next = 0 ∨ extLength ≤ next ∨ len = 0 ∨ extLength - next < len then Io.fail .einval
            else ebrChain extBase extLength diskSize left (extBase + next) seen parts

/-- The `while (ext_length)` loop. -/
def ebrWalk (extBase extLength diskSize : Nat) (parts : List PartitionEntry) :
    Io Errno Disk (List Nat × List PartitionEntry) :=
  if extLength = 0 then return ([], parts)
  else ebrChain extBase extLength diskSize 124 extBase [] parts

/-- `mbr_parse`: the primary partitions, and the logical ones of the chain. -/
def mbrParse (mbr : Bytes) : Io Errno Disk (List PartitionEntry) := do
  let d ← Io.get
  let diskSize := d.geo.sectors
  let (parts, extBase, extLength) ← Io.lift (mbrPrimaries mbr diskSize 4 0 [] 0 0)
  if extLength ≠ 0 ∧ parts.any fun p => overlap extBase extLength p.start p.length then
    Io.fail .einval
  else do
    let (seen, parts) ← ebrWalk extBase extLength diskSize parts
    if seen.any fun e => parts.any fun p => overlap e 1 p.start p.length then Io.fail .einval
    else return parts

end Efishell
