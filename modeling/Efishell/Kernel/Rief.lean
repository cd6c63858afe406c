import Efishell.Arch.Mmu

/-!
# Kernel — loading a RIEF image

`rief_load_locked` of `kernel/process.c`: it checks an image it does not trust, maps the regions,
copies their bytes, applies the relocations and publishes the exports.  Until the first region is
mapped an error just returns; after that it rolls the address space back (`riefFail`).

The image is `size` bytes of kernel memory.  Every access to it goes through `RiefImage.inside`: an
access beyond the end ends the load with `LoadStop.outside`, which no error code stands for.
-/

namespace Efishell

/-! ### Records -/

/-- An image, as its bytes and their number. -/
structure RiefImage where
  bytes : Bytes
  size : Nat

/-- `rief_header_t`. -/
structure RiefHeader where
  magic : Nat
  versionMajor : Nat
  versionMinor : Nat
  architecture : Nat
  flags : Nat
  headerSize : Nat
  regionCount : Nat
  relocCount : Nat
  importCount : Nat
  exportCount : Nat
  regionTableOffset : Nat
  relocTableOffset : Nat
  importTableOffset : Nat
  exportTableOffset : Nat
  stringTableOffset : Nat
  stringTableSize : Nat
  entryRegion : Nat
  reserved : Nat
  entryOffset : Nat

/-- `rief_region_t`. -/
structure RiefRegion where
  flags : Nat
  alignment : Nat
  fileOffset : Nat
  fileSize : Nat
  memorySize : Nat

/-- `rief_reloc_t`. -/
structure RiefReloc where
  patchRegion : Nat
  type : Nat
  targetRegion : Nat
  reserved : Nat
  patchOffset : Nat
  targetOffset : Nat
  addend : Int

/-- `rief_export_t`. -/
structure RiefExport where
  nameOffset : Nat
  region : Nat
  offset : Nat

/-- A word of 64 bits as `int64_t`. -/
def int64 (n : Nat) : Int := if n < 2 ^ 63 then n else (n : Int) - 2 ^ 64

namespace RiefImage

variable (im : RiefImage)

/-- The header, at the start of the image. -/
def header : RiefHeader where
  magic := rd32 im.bytes 0
  versionMajor := rd16 im.bytes 4
  versionMinor := rd16 im.bytes 6
  architecture := rd16 im.bytes 8
  flags := rd16 im.bytes 10
  headerSize := rd32 im.bytes 12
  regionCount := rd32 im.bytes 16
  relocCount := rd32 im.bytes 20
  importCount := rd32 im.bytes 24
  exportCount := rd32 im.bytes 28
  regionTableOffset := rd64 im.bytes 32
  relocTableOffset := rd64 im.bytes 40
  importTableOffset := rd64 im.bytes 48
  exportTableOffset := rd64 im.bytes 56
  stringTableOffset := rd64 im.bytes 64
  stringTableSize := rd64 im.bytes 72
  entryRegion := rd32 im.bytes 80
  reserved := rd32 im.bytes 84
  entryOffset := rd64 im.bytes 88

/-- The `i`-th region. -/
def region (i : Nat) : RiefRegion :=
  let off := im.header.regionTableOffset + 32 * i
  { flags := rd32 im.bytes off
    alignment := rd32 im.bytes (off + 4)
    fileOffset := rd64 im.bytes (off + 8)
    fileSize := rd64 im.bytes (off + 16)
    memorySize := rd64 im.bytes (off + 24) }

/-- The `i`th relocation. -/
def reloc (i : Nat) : RiefReloc :=
  let off := im.header.relocTableOffset + 40 * i
  { patchRegion := rd32 im.bytes off
    type := rd32 im.bytes (off + 4)
    targetRegion := rd32 im.bytes (off + 8)
    reserved := rd32 im.bytes (off + 12)
    patchOffset := rd64 im.bytes (off + 16)
    targetOffset := rd64 im.bytes (off + 24)
    addend := int64 (rd64 im.bytes (off + 32)) }

/-- `name_offset` and `reserved` of the `i`-th import. -/
def import_ (i : Nat) : Nat × Nat :=
  let off := im.header.importTableOffset + 8 * i
  (rd32 im.bytes off, rd32 im.bytes (off + 4))

/-- The `i`th export. -/
def export_ (i : Nat) : RiefExport :=
  let off := im.header.exportTableOffset + 16 * i
  { nameOffset := rd32 im.bytes off
    region := rd32 im.bytes (off + 4)
    offset := rd64 im.bytes (off + 8) }

end RiefImage

/-- The relocation types. -/
def riefRelocAbs64 : Nat := 1

/-- `RIEF_RELOC_REL32`. -/
def riefRelocRel32 : Nat := 2

/-- `RIEF_RELOC_REL64`. -/
def riefRelocRel64 : Nat := 3

/-- `RIEF_RELOC_IMPORT64`. -/
def riefRelocImport64 : Nat := 4

/-- The number of bytes a relocation patches. -/
def RiefReloc.width (r : RiefReloc) : Nat := if r.type = riefRelocRel32 then 4 else 8

/-- The regions an image may have. -/
def maxRegions : Nat := 64

/-- The exports a process keeps. -/
def maxExports : Nat := 64

/-! ### Processes -/

/-- One of `exports`; the name is `char[128]`. -/
structure ProcessExport where
  name : Bytes
  address : Nat

/-- The fields of `k_process` that the loader uses, with the address space it points to. -/
structure Process where
  used : Bool
  loaded : Bool
  taskId : Nat
  vm : Vm
  regionBase : Nat → Nat
  regionSize : Nat → Nat
  regionCount : Nat
  exportCount : Nat
  exports : Nat → ProcessExport
  entry : Nat

/-- `k_rief_binding`; a name is a C string or `NULL`. -/
structure RiefBinding where
  name : Option Bytes
  address : Nat

/-- How a load ends early: with an error code, or by an access outside the image. -/
inductive LoadStop where
  | errno (e : Errno)
  | outside
  deriving DecidableEq, Repr

/-- A part of the loader, on the process it fills. -/
abbrev Load := Io LoadStop Process

namespace Load

/-- `return e` or `error = e; goto fail`. -/
def fail {α : Type} (e : Errno) : Load α := Io.fail (.errno e)

/-- A call that works on the address space. -/
def onSpace {α : Type} (f : Vm → Except Errno α × Vm) : Load α := fun p =>
  match f p.vm with
  | (.ok a, vm) => (.ok a, { p with vm := vm })
  | (.error e, vm) => (.error (.errno e), { p with vm := vm })

/-- `k_as_check(p->as, address, 1, FALSE)`, where every error is `K_EFAULT`. -/
def mapped (address : Nat) : Load Unit := onSpace fun w =>
  match asCheck address 1 false w with
  | (.ok (), w) => (.ok (), w)
  | (.error _, w) => (.error .efault, w)

/-- `as_copy(p->as, u, buf, n, TRUE, TRUE)`. -/
def copyIn (u : Nat) (buf : Bytes) (n : Nat) : Load Unit :=
  onSpace fun w => match asCopy u buf n true true w with
    | (r, _, w) => (r, w)

end Load

/-- The `n` bytes from `off` on are about to be read. -/
def RiefImage.inside (im : RiefImage) (off n : Nat) : Load Unit :=
  if off + n ≤ im.size then pure () else Io.fail .outside

/-! ### Strings -/

/-- `str_eq` on two C strings; `fuel` bounds the length of the first. -/
def strEqFrom (a b : Bytes) : Nat → Nat → Bool
  | 0, i => a i == b i
  | fuel + 1, i => if a i ≠ 0 ∧ a i = b i then strEqFrom a b fuel (i + 1) else a i == b i

/-- `str_eq` on a name of at most 127 characters. -/
def strEq (a b : Bytes) : Bool := strEqFrom a b 128 0

/-- The loop of `rief_string` over `left` more characters, and what stands in `out` at the end. -/
def riefStringFrom (im : RiefImage) (base size off : Nat) :
    Nat → Nat → Bytes → Except LoadStop Unit × Bytes
  | 0, _, out => (.error (.errno .enoexec), out)
  | left + 1, i, out =>
      if size ≤ off + i then (.error (.errno .enoexec), out)
      else if im.size < base + off + i + 1 then (.error .outside, out)
      else
        let c := im.bytes (base + off + i)
        if c = 0 then
          let out := Function.update out i 0
          if i = 0 then (.error (.errno .enoexec), out) else (.ok (), out)
        else if c < 33 ∨ 126 < c then (.error (.errno .enoexec), out)
        else riefStringFrom im base size off left (i + 1) (Function.update out i c)

/-- `rief_string`. -/
def riefString (im : RiefImage) (off : Nat) (out : Bytes) : Except LoadStop Unit × Bytes :=
  let h := im.header
  if h.stringTableSize ≤ off then (.error (.errno .enoexec), out)
  else riefStringFrom im h.stringTableOffset h.stringTableSize off 128 0 out

/-! ### Checks -/

/-- The first checks of the header. -/
def RiefHeader.ok (h : RiefHeader) (size : Nat) : Bool :=
  h.magic == 0x46454952 && h.versionMajor == 1 && h.versionMinor == 0 && h.architecture == 1 &&
    h.flags == 0 && h.reserved == 0 && decide (96 ≤ h.headerSize) && decide (h.headerSize ≤ 4096) &&
    decide (h.headerSize ≤ size) && h.regionCount != 0 && decide (h.regionCount ≤ maxRegions) &&
    decide (h.relocCount ≤ 4096) && decide (h.importCount ≤ 64) &&
    decide (h.exportCount ≤ maxExports) && decide (h.entryRegion < h.regionCount)

/-- The bytes of the header from `i` on are zero. -/
def riefHeaderTail (im : RiefImage) : Nat → Nat → Load Unit
  | 0, _ => pure ()
  | left + 1, i => do
      im.inside i 1
      if im.bytes i ≠ 0 then Load.fail .enoexec else riefHeaderTail im left (i + 1)

/-- `meta_off[i]` and `meta_len[i]`. -/
def RiefHeader.tables (h : RiefHeader) : List (Nat × Nat) :=
  [(0, h.headerSize), (h.regionTableOffset, 32 * h.regionCount),
    (h.relocTableOffset, 40 * h.relocCount),
    (h.importTableOffset, 8 * h.importCount), (h.exportTableOffset, 16 * h.exportCount),
    (h.stringTableOffset, h.stringTableSize)]

/-- The tables lie inside the image, aligned, and apart; `before` are those already seen. -/
def riefTablesOk (size : Nat) : Nat → List (Nat × Nat) → List (Nat × Nat) → Bool
  | _, _, [] => true
  | i, before, t :: rest =>
      spanOk t.1 t.2 size && !(t.2 == 0 && t.1 != 0) &&
        !(decide (0 < i) && decide (i < 5) && t.1 &&& 7 != 0) &&
        (before.all fun b => !overlap t.1 t.2 b.1 b.2) &&
        riefTablesOk size (i + 1) (before ++ [t]) rest

/-- What the loader asks of a region before it maps any. -/
def RiefRegion.ok (r : RiefRegion) (size : Nat) : Bool :=
  r.memorySize != 0 && decide (r.memorySize ≤ 64 * 1024 * 1024) &&
    decide (r.fileSize ≤ r.memorySize) &&
    spanOk r.fileOffset r.fileSize size && power2 r.alignment &&
      decide (r.alignment ≤ 0x40000000) &&
    rwxOk r.flags

/-- The loop over the regions; `total` is the memory they ask for. -/
def riefRegions (im : RiefImage) : Nat → Nat → Nat → Load Unit
  | 0, _, _ => pure ()
  | left + 1, i, total => do
      im.inside (im.header.regionTableOffset + 32 * i) 32
      let r := im.region i
      if !r.ok im.size then Load.fail .enoexec
      else
        let total := total + alignUp 64 r.memorySize 4096
        if 64 * 1024 * 1024 < total then Load.fail .e2big
        else if im.header.tables.any fun t => overlap r.fileOffset r.fileSize t.1 t.2 then
          Load.fail .enoexec
        else if (List.range i).any fun j =>
            overlap r.fileOffset r.fileSize (im.region j).fileOffset (im.region j).fileSize then
          Load.fail .enoexec
        else riefRegions im left (i + 1) total

/-- The bindings for one import; `found` is the address of the one already seen. -/
def riefBind (symbol : Bytes) : List RiefBinding → Option Nat → Load (Option Nat)
  | [], found => pure found
  | b :: rest, found =>
      if b.name.any fun name => strEq symbol name then
        if found.isSome then Load.fail .efault
        else do
          Load.mapped b.address
          riefBind symbol rest (some b.address)
      else riefBind symbol rest found

/-- The loop over the imports; the result is the array `imports`. -/
def riefImports (im : RiefImage) (bindings : List RiefBinding) : Nat → Nat → Load (List Nat)
  | 0, _ => pure []
  | left + 1, i => do
      im.inside (im.header.importTableOffset + 8 * i) 8
      let imp := im.import_ i
      if imp.2 ≠ 0 then Load.fail .enoexec
      else do
        let symbol := riefString im imp.1 fun _ => 0
        Io.lift symbol.1
        match ← riefBind symbol.2 bindings none with
        | none => Load.fail .enoent
        | some address => do
            let rest ← riefImports im bindings left (i + 1)
            pure (address :: rest)

/-- The check of the `i`-th relocation. -/
def riefRelocOk (im : RiefImage) (i lastRegion lastEnd : Nat) : Bool :=
  let h := im.header
  let r := im.reloc i
  r.reserved == 0 && decide (riefRelocAbs64 ≤ r.type) && decide (r.type ≤ riefRelocImport64) &&
    decide (r.patchRegion < h.regionCount) &&
    spanOk r.patchOffset r.width (im.region r.patchRegion).memorySize &&
    !(i != 0 && (decide (r.patchRegion < lastRegion) ||
      r.patchRegion == lastRegion && decide (r.patchOffset < lastEnd))) &&
    (if r.type = riefRelocImport64 then decide (r.targetRegion < h.importCount) &&
      r.targetOffset == 0
    else decide (r.targetRegion < h.regionCount) &&
      decide (r.targetOffset ≤ (im.region r.targetRegion).memorySize))

/-- The loop that checks the relocations. -/
def riefRelocs (im : RiefImage) : Nat → Nat → Nat → Nat → Load Unit
  | 0, _, _, _ => pure ()
  | left + 1, i, lastRegion, lastEnd => do
      im.inside (im.header.relocTableOffset + 40 * i) 40
      if !riefRelocOk im i lastRegion lastEnd then Load.fail .enoexec
      else
        riefRelocs im left (i + 1) (im.reloc i).patchRegion
          ((im.reloc i).patchOffset + (im.reloc i).width)

/-- The loop that checks the exports and takes their names. -/
def riefExports (im : RiefImage) : Nat → Nat → Load Unit
  | 0, _ => pure ()
  | left + 1, i => do
      im.inside (im.header.exportTableOffset + 16 * i) 16
      let ex := im.export_ i
      if im.header.regionCount ≤ ex.region ∨ (im.region ex.region).memorySize ≤ ex.offset then
        Load.fail .enoexec
      else do
        let p ← Io.get
        let name := riefString im ex.nameOffset (p.exports i).name
        Io.modify fun p => { p with
          exports := Function.update p.exports i { p.exports i with name := name.2 } }
        Io.lift name.1
        if (List.range i).any fun j => strEq name.2 (p.exports j).name then Load.fail .enoexec
        else riefExports im left (i + 1)

/-- Everything before the first region is mapped; the result is the array `imports`. -/
def riefCheck (im : RiefImage) (bindings : List RiefBinding) : Load (List Nat) := do
  let p ← Io.get
  if !p.used ∨ p.loaded ∨ p.taskId ≠ 0 ∨ 64 < bindings.length then Load.fail .einval
  else if im.size < 96 ∨ 64 * 1024 * 1024 < im.size then Load.fail .enoexec
  else do
    im.inside 0 96
    let h := im.header
    if !h.ok im.size then Load.fail .enoexec
    else do
      riefHeaderTail im (h.headerSize - 96) 96
      if !riefTablesOk im.size 0 [] h.tables then Load.fail .enoexec
      else do
        riefRegions im h.regionCount 0 0
        if !regionX (im.region h.entryRegion).flags ∨
          (im.region h.entryRegion).fileSize ≤ h.entryOffset then
          Load.fail .enoexec
        else do
          let imports ← riefImports im bindings h.importCount 0
          riefRelocs im h.relocCount 0 0 0
          riefExports im h.exportCount 0
          pure imports

/-! ### Mapping -/

/-- The loop that maps the regions and copies their bytes. -/
def riefMap (env : MmuEnv) (im : RiefImage) : Nat → Nat → Load Unit
  | 0, _ => pure ()
  | left + 1, i => do
      let r := im.region i
      let base ← Load.onSpace (asAlloc env r.memorySize r.alignment r.flags)
      Io.modify fun p => { p with
        regionBase := Function.update p.regionBase i base
        regionSize := Function.update p.regionSize i r.memorySize }
      im.inside r.fileOffset r.fileSize
      Load.copyIn base (fun k => im.bytes (r.fileOffset + k)) r.fileSize
      riefMap env im left (i + 1)

/-- `target + addend` of a relocation, without leaving 64 bits. -/
def riefTarget (target : Nat) (addend : Int) : Option Nat :=
  if 0 ≤ addend then
    if 2 ^ 64 - 1 - target < addend.toNat then none else some (target + addend.toNat)
  else if target < (-addend).toNat then none
  else some (target - (-addend).toNat)

/-- One relocation. -/
def riefPatch (im : RiefImage) (imports : List Nat) (i : Nat) : Load Unit := do
  im.inside (im.header.relocTableOffset + 40 * i) 40
  let r := im.reloc i
  let p ← Io.get
  let start := if r.type = riefRelocImport64 then imports.getD r.targetRegion 0
    else p.regionBase r.targetRegion + r.targetOffset
  match riefTarget start r.addend with
  | none => Load.fail .enoexec
  | some target =>
      if target < kUserBase ∨ kUserLimit ≤ target then Load.fail .enoexec
      else if r.type ≠ riefRelocImport64 ∧ (target < p.regionBase r.targetRegion ∨
          p.regionSize r.targetRegion < target - p.regionBase r.targetRegion) then
            Load.fail .enoexec
      else do
        if r.type = riefRelocImport64 then Load.mapped target else pure ()
        let patch := p.regionBase r.patchRegion + r.patchOffset
        let delta : Int := (target : Int) - (patch + r.width : Nat)
        if r.type = riefRelocRel32 ∧ (delta < -2147483648 ∨ 2147483647 < delta) then
          Load.fail .enoexec
        else
          let value :=
            if r.type = riefRelocRel32 ∨ r.type = riefRelocRel64 then (delta % 2 ^ 64).toNat
            else target
          Load.copyIn patch (byteOf value) r.width

/-- The loop over the relocations. -/
def riefPatches (im : RiefImage) (imports : List Nat) : Nat → Nat → Load Unit
  | 0, _ => pure ()
  | left + 1, i => do
      riefPatch im imports i
      riefPatches im imports left (i + 1)

/-- The loop that publishes the exports. -/
def riefPublish (im : RiefImage) : Nat → Nat → Load Unit
  | 0, _ => pure ()
  | left + 1, i => do
      im.inside (im.header.exportTableOffset + 16 * i) 16
      let ex := im.export_ i
      Io.modify fun p => { p with
        exports := Function.update p.exports i
          { p.exports i with address := p.regionBase ex.region + ex.offset } }
      riefPublish im left (i + 1)

/-- Everything from the first mapping on. -/
def riefInstall (env : MmuEnv) (im : RiefImage) (imports : List Nat) : Load Unit := do
  let h := im.header
  riefMap env im h.regionCount 0
  riefPatches im imports h.relocCount 0
  riefPublish im h.exportCount 0
  Io.modify fun p => { p with
    regionCount := h.regionCount
    exportCount := h.exportCount
    entry := p.regionBase h.entryRegion + h.entryOffset
    loaded := true }

/-- The label `fail`: the space goes back to where it was, and the tables of the process to zero. -/
def riefFail (oldNext oldPages : Nat) (p : Process) : Process := { p with
  vm := asRollback oldNext oldPages p.vm
  regionBase := fun _ => 0
  regionSize := fun _ => 0
  exports := fun _ => ⟨fun _ => 0, 0⟩ }

/-- `rief_load_locked`. -/
def riefLoadLocked (env : MmuEnv) (im : RiefImage) (bindings : List RiefBinding) : Load Unit := do
  let imports ← riefCheck im bindings
  fun p => match riefInstall env im imports p with
    | (.ok (), p') => (.ok (), p')
    | (.error e, p') => (.error e, riefFail p.vm.as.next p.vm.as.pages p')

/-- `k_rief_export`: the address that `symbol` is exported at. -/
def kRiefExport (p : Process) (symbol : Bytes) : Except Errno Nat :=
  if !p.used ∨ !p.loaded then .error .einval
  else
    match (List.range p.exportCount).find? fun i => strEq symbol (p.exports i).name with
    | some i => .ok (p.exports i).address
    | none => .error .enoent

end Efishell
