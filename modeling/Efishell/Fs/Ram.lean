import Efishell.Fs.Path
import Efishell.Fs.Fat
import Efishell.Memory.Physical

/-!
# File systems — the nodes in memory

The part of `fs.c` that keeps files in memory, with the calls that the rest of the kernel makes:
`k_vfs_mkdir`, `k_vfs_put`, `k_vfs_open`, `k_vfs_read`, `k_vfs_create`, `k_vfs_write` and
`k_vfs_stat`.

A file's bytes stand in pages of the physical allocator, `pages` of them from the address `data` on.
A call that changes the bytes takes new pages, fills them and only then gives the old ones back.

What a call does below a mount point or on a handle of another kind is the business of the file
systems of the volumes; they are the parameter `Drivers`, under the names that the source calls them
by, and `volumes` is the state that they work on.  All calls run under one mutex, so each is one
step.
-/

namespace Efishell

/-- `MAX_NODES`. -/
def maxNodes : Nat := 192

/-- `FAT_WRITE_MAX`, which is also what `k_vfs_put` allows. -/
def fatWriteMax : Nat := 4 * 1024 * 1024

/-- An entry of `nodes`; `data` is an address. -/
structure RamNode where
  used : Bool
  directory : Bool
  parent : Nat
  blockId : Nat
  kind : Nat
  pages : Nat
  name : Name
  data : Nat
  size : Nat

/-- An entry after `mem_zero`. -/
def RamNode.blank : RamNode where
  used := false
  directory := false
  parent := 0
  blockId := 0
  kind := 0
  pages := 0
  name := []
  data := 0
  size := 0

/-- An entry of `mounts`. -/
structure MountEntry where
  path : List UInt8
  volume : Nat
  kind : Nat

/-- The file system's state: its nodes, roots and mounts, and the disks' part. -/
structure Vfs (δ : Type) where
  ready : Bool
  nodes : Nat → RamNode
  mounts : List MountEntry
  roots : List PathRoot
  phys : Phys
  volumes : δ

/-- The file systems of the volumes, and `disk_bytes` for the disks themselves. -/
structure Drivers (δ : Type) where
  nativeCreate : Nat → List UInt8 → Bool → Io Errno (Vfs δ) KFile
  fatCreateLocked : Nat → List UInt8 → Bool → Io Errno (Vfs δ) KFile
  nativeStore : Nat → List UInt8 → List UInt8 → Io Errno (Vfs δ) Unit
  fatStoreLocked : Nat → List UInt8 → List UInt8 → Io Errno (Vfs δ) Unit
  nativeOpen : Nat → List UInt8 → Io Errno (Vfs δ) KFile
  fatOpen : Nat → List UInt8 → Io Errno (Vfs δ) KFile
  nativeRead : KFile → Nat → Nat → Io Errno (Vfs δ) (List UInt8)
  fatRead : KFile → Nat → Nat → Io Errno (Vfs δ) (List UInt8)
  nativeRefresh : KFile → Io Errno (Vfs δ) KFile
  fatRefresh : KFile → Io Errno (Vfs δ) KFile
  nativeWrite : KFile → Nat → List UInt8 → Vfs δ → Except Errno Nat × KFile × Vfs δ
  fatReplaceLocked : KFile → List UInt8 → Vfs δ → Except Errno Unit × KFile × Vfs δ
  diskSize : Nat → Option Nat
  diskBytes : Nat → Nat → Nat → Io Errno (Vfs δ) (List UInt8)

/-! ### Bytes in memory -/

/-- The `n` bytes from `off` on. -/
def memSlice (b : Bytes) (off n : Nat) : List UInt8 := (List.range n).map fun i => b (off + i)

/-- `mem_copy` of a caller's bytes to `dst`. -/
def memStore (b : Bytes) (dst : Nat) (data : List UInt8) : Bytes :=
  memCopy b dst (fun i => data.getD i 0) 0 data.length

/-- `(size + 4095) / 4096`. -/
def pagesFor (size : Nat) : Nat := (size + 4095) / 4096

/-! ### The nodes -/

/-- The indices that a loop over the nodes visits; the root is not one of them. -/
def nodeIndices : List Nat := List.range' 1 (maxNodes - 1)

/-- `ram_child`: the first node of that parent and name. -/
def ramChild (nodes : Nat → RamNode) (parent : Nat) (name : Name) : Option Nat :=
  nodeIndices.find? fun i => (nodes i).used && (nodes i).parent == parent && (nodes i).name == name

/-- The loop of `ram_walk`.  Each pass takes at least one byte of the path, so `left` never runs
out when it starts as the length. -/
def ramWalkLoop (nodes : Nat → RamNode) : Nat → List UInt8 → Nat → Option Nat
  | _, [], at_ => some at_
  | 0, _ :: _, _ => none
  | left + 1, c :: path, at_ =>
    if c = slash then ramWalkLoop nodes left path at_
    else if (nodes at_).directory = false then none
    else
      match ramChild nodes at_ ((c :: path).takeWhile (· ≠ slash)) with
      | none => none
      | some next => ramWalkLoop nodes left ((c :: path).dropWhile (· ≠ slash)) next

/-- `ram_walk`; its one error is `K_ENOENT`. -/
def ramWalk (nodes : Nat → RamNode) (path : List UInt8) : Option Nat :=
  ramWalkLoop nodes path.length path 0

/-- `while (split && parent[split - 1] != '/') --split;` -/
def splitScan (parent : List UInt8) : Nat → Nat
  | 0 => 0
  | split + 1 => if parent.getD split 0 ≠ slash then splitScan parent split else split + 1

/-- `ram_new`: a node at a free index, below the parent the path names. -/
def ramNew (path : List UInt8) (directory : Bool) (nodes : Nat → RamNode) :
    Except Errno (Nat × (Nat → RamNode)) :=
  let parent := strCopy path kPathMax
  let n := parent.length
  if n ≤ 1 then .error .eexist
  else
    let split := splitScan parent n
    let name := strCopy (parent.drop split) (kNameMax + 1)
    match ramWalk nodes (parent.take (if 1 < split then split - 1 else 1)) with
    | none => .error .enoent
    | some p =>
      if (nodes p).directory = false then .error .enoent
      else if (ramChild nodes p name).isSome then .error .eexist
      else
        match nodeIndices.find? fun i => !(nodes i).used with
        | none => .error .enomem
        | some i =>
          .ok (i, Function.update nodes i { RamNode.blank with
            used := true
            parent := p
            directory := directory
            kind := 1
            name := strCopy name (kNameMax + 1) })

/-- The node that was found, or a new file where there was none. -/
def ramTarget (found : Option Nat) (path : List UInt8) (nodes : Nat → RamNode) :
    Except Errno (Nat × (Nat → RamNode)) :=
  match found with
  | some index => .ok (index, nodes)
  | none => ramNew path false nodes

/-- The longest mount point above the path, the first one of that length. -/
def chooseMount (path : List UInt8) (mounts : List MountEntry) : Option MountEntry :=
  mounts.foldl (fun best m =>
    if pathPrefix path m.path ∧ (best.elim 0 fun b => b.path.length) < m.path.length then some m
    else best) none

/-- `canonical_path + str_len(mounts[mount].path)`. -/
def MountEntry.below (m : MountEntry) (path : List UInt8) : List UInt8 := path.drop m.path.length

/-! ### The calls -/

section Calls

variable {δ : Type} (fs : Drivers δ)

/-- `k_vfs_init`: the root node alone. -/
def kVfsInit (s : Vfs δ) : Except Errno Unit × Vfs δ :=
  if s.ready then (.error .ebusy, s)
  else (.ok (), { s with
    nodes := Function.update s.nodes 0 { s.nodes 0 with used := true, directory := true, kind := 1 }
    ready := true })

/-- `k_vfs_mkdir`. -/
def kVfsMkdir (path : List UInt8) (s : Vfs δ) : Except Errno Unit × Vfs δ :=
  if s.ready = false then (.error .einval, s)
  else
    match kPathResolve s.roots path [slash] with
    | .error e => (.error e, s)
    | .ok canonicalPath =>
      match chooseMount canonicalPath s.mounts with
      | some m =>
        match (if 4 ≤ m.kind then fs.nativeCreate else fs.fatCreateLocked)
            m.volume (m.below canonicalPath) true s with
        | (r, s) => (r.map fun _ => (), s)
      | none =>
        match ramNew canonicalPath true s.nodes with
        | .error e => (.error e, s)
        | .ok (_, nodes) => (.ok (), { s with nodes })

/-- The end of `k_vfs_put`: the node has the new bytes, and its old pages are free. -/
def ramReplace (s : Vfs δ) (index data size pages : Nat) : Vfs δ :=
  let r := s.nodes index
  { s with
    phys := if r.data ≠ 0 then { s.phys with pmm := kPmmFreePages r.data r.pages s.phys.pmm }
      else s.phys
    nodes := Function.update s.nodes index { r with data := data, size := size, pages := pages } }

/-- `k_vfs_put` where no volume is mounted over the path. -/
def ramPut (canonicalPath : List UInt8) (bytes : List UInt8) (s : Vfs δ) :
    Except Errno Unit × Vfs δ :=
  let found := ramWalk s.nodes canonicalPath
  if found.any fun i => (s.nodes i).directory || (s.nodes i).kind != 1 then (.error .einval, s)
  else
    let pages := pagesFor bytes.length
    match (if pages ≠ 0 then kPmmAllocPages pages 0 s.phys else (0, s.phys)) with
    | (data, phys) =>
      if pages ≠ 0 ∧ data = 0 then (.error .enomem, { s with phys })
      else
        match ramTarget found canonicalPath s.nodes with
        | .error e =>
          (.error e, { s with
            phys :=
              if data ≠ 0 then { phys with pmm := kPmmFreePages data pages phys.pmm } else phys })
        | .ok (index, nodes) =>
          let phys := { phys with mem := memStore phys.mem data bytes }
          (.ok (), ramReplace { s with nodes, phys } index data bytes.length pages)

/-- `k_vfs_put`: a whole file, made or replaced. -/
def kVfsPut (path bytes : List UInt8) (s : Vfs δ) : Except Errno Unit × Vfs δ :=
  if s.ready = false ∨ fatWriteMax < bytes.length then (.error .einval, s)
  else
    match kPathResolve s.roots path [slash] with
    | .error e => (.error e, s)
    | .ok canonicalPath =>
      match chooseMount canonicalPath s.mounts with
      | some m =>
        (if 4 ≤ m.kind then fs.nativeStore else fs.fatStoreLocked)
          m.volume (m.below canonicalPath) bytes s
      | none => ramPut canonicalPath bytes s

/-- `vfs_open_locked`: the file, on its mount or among the RAM nodes. -/
def vfsOpenLocked (path : List UInt8) (s : Vfs δ) : Except Errno KFile × Vfs δ :=
  match chooseMount path s.mounts with
  | some m => (if 4 ≤ m.kind then fs.nativeOpen else fs.fatOpen) m.volume (m.below path) s
  | none =>
    match ramWalk s.nodes path with
    | none => (.error .enoent, s)
    | some n =>
      let r := s.nodes n
      (.ok ⟨r.kind, if r.kind = 3 then r.blockId else n, 0, if r.directory then 0x10
        else 0, r.size, 0⟩, s)

/-- `k_vfs_open`. -/
def kVfsOpen (path : List UInt8) (s : Vfs δ) : Except Errno KFile × Vfs δ :=
  if s.ready = false then (.error .einval, s)
  else
    match kPathResolve s.roots path [slash] with
    | .error e => (.error e, s)
    | .ok resolved => vfsOpenLocked fs resolved s

/-- `k_vfs_read`; the bytes are what it writes to `out`, `*got` of them. -/
def kVfsRead (file : KFile) (offset n : Nat) (s : Vfs δ) : Except Errno (List UInt8) × Vfs δ :=
  if file.attributes &&& 0x10 ≠ 0 then (.error .einval, s)
  else if file.kind = 1 then
    if maxNodes ≤ file.object ∨ (s.nodes file.object).used = false then (.error .enoent, s)
    else
      let r := s.nodes file.object
      if offset < r.size then
        (.ok (memSlice s.phys.mem (r.data + offset) (min n (r.size - offset))), s)
      else (.ok [], s)
  else if file.kind = 4 ∨ file.kind = 5 then fs.nativeRead file offset n s
  else if file.kind = 2 then fs.fatRead file offset n s
  else if file.kind = 3 then
    match fs.diskSize file.object with
    | none => (.error .enoent, s)
    | some size =>
      if offset < size then fs.diskBytes file.object offset (min n (size - offset)) s
      else (.ok [], s)
  else (.error .enotsup, s)

/-- `k_vfs_create`. -/
def kVfsCreate (path : List UInt8) (s : Vfs δ) : Except Errno KFile × Vfs δ :=
  if s.ready = false then (.error .einval, s)
  else
    match kPathResolve s.roots path [slash] with
    | .error e => (.error e, s)
    | .ok resolved =>
      match vfsOpenLocked fs resolved s with
      | (.ok _, s) => (.error .eexist, s)
      | (.error e, s) =>
        if e ≠ .enoent then (.error e, s)
        else
          match chooseMount resolved s.mounts with
          | some m =>
            (if 4 ≤ m.kind then fs.nativeCreate else fs.fatCreateLocked)
              m.volume (m.below resolved) false s
          | none =>
            match ramNew resolved false s.nodes with
            | .error e => (.error e, s)
            | .ok (_, nodes) => vfsOpenLocked fs resolved { s with nodes }

/-- The checks of `k_vfs_write` on what the handle stands for; they bring its size up to date. -/
def writeTarget (file : KFile) (s : Vfs δ) : Except Errno Unit × KFile × Vfs δ :=
  if file.kind = 2 then
    match fs.fatRefresh file s with
    | (.error e, s) => (.error e, file, s)
    | (.ok file, s) => (.ok (), file, s)
  else if file.kind = 1 ∧ file.object < maxNodes ∧ (s.nodes file.object).used = true then
    let r := s.nodes file.object
    if r.kind ≠ 1 ∨ r.directory = true then (.error .einval, { file with size := r.size }, s)
    else (.ok (), { file with size := r.size }, s)
  else (.error .einval, file, s)

/-- The end of `k_vfs_write` on a FAT file: the old bytes and the new ones go to `image`, and that
to the volume. -/
def fatWriteImage (file : KFile) (offset : Nat) (data : List UInt8) (size image pages : Nat)
    (s : Vfs δ) : Except Errno Nat × KFile × Vfs δ :=
  let done : Vfs δ → Vfs δ := fun s =>
    { s with phys := { s.phys with pmm := kPmmFreePages image pages s.phys.pmm } }
  match fs.fatRead file 0 file.size s with
  | (.error e, s) => (.error e, file, done s)
  | (.ok old, s) =>
    if old.length ≠ file.size then (.error .eio, file, done s)
    else
      let mem := memStore (memStore s.phys.mem image old) (image + offset) data
      match fs.fatReplaceLocked file (memSlice mem image size)
          { s with phys := { s.phys with mem } } with
      | (r, file, s) => (r.map fun _ => data.length, file, done s)

/-- `k_vfs_write`; the handle comes back with its size up to date. -/
def kVfsWrite (file : KFile) (offset : Nat) (data : List UInt8) (s : Vfs δ) :
    Except Errno Nat × KFile × Vfs δ :=
  let n := data.length
  if file.kind = 3 then (.error .erofs, file, s)
  else if fatWriteMax < n then (.error .e2big, file, s)
  else if file.kind = 4 ∨ file.kind = 5 then fs.nativeWrite file offset data s
  else
    match writeTarget fs file s with
    | (.error e, file, s) => (.error e, file, s)
    | (.ok (), file, s) =>
      if file.attributes &&& 0x11 ≠ 0 then (.error .erofs, file, s)
      else
        let offset := if offset = 2 ^ 64 - 1 then file.size else offset
        if fatWriteMax < file.size ∨ fatWriteMax < offset ∨ fatWriteMax - offset < n then
          (.error .e2big, file, s)
        else if n = 0 then (.ok 0, file, s)
        else
          let size := if offset + n < file.size then file.size else offset + n
          let pages := pagesFor size
          match kPmmAllocPages pages 0 s.phys with
          | (image, phys) =>
            if image = 0 then (.error .enomem, file, { s with phys })
            else if file.kind = 2 then
              fatWriteImage fs file offset data size image pages { s with phys }
            else
              let r := s.nodes file.object
              let mem := if file.size ≠ 0 then memCopy phys.mem image phys.mem r.data file.size
                else phys.mem
              let phys := { phys with mem := memStore mem (image + offset) data }
              (.ok n, { file with size := size },
                ramReplace { s with phys } file.object image size pages)

/-- `k_vfs_stat`. -/
def kVfsStat (file : KFile) (s : Vfs δ) : Except Errno KFile × Vfs δ :=
  if file.kind = 1 then
    if maxNodes ≤ file.object ∨ (s.nodes file.object).used = false then (.error .enoent, s)
    else (.ok { file with size := (s.nodes file.object).size }, s)
  else if file.kind = 2 then fs.fatRefresh file s
  else if file.kind = 4 ∨ file.kind = 5 then fs.nativeRefresh file s
  else if file.kind ≠ 3 ∨ fs.diskSize file.object = none then (.error .einval, s)
  else (.ok file, s)

end Calls

end Efishell
