import Efishell.Memory.Physical

/-!
# Paging — the page tables of an address space

The functions of `arch/x86_64/mmu.c` and `arch/x86_64/vm_features.c` that build, walk, undo and free
the page tables of a user address space.  Tables live in physical memory (`Phys`): an entry is the
64-bit word at `table + 8 * idx`, read by `rd64` and written by `wr64`.

All calls run under `vm_lock`, so each is one step.  TLB invalidation changes no state and is
left out.
-/

namespace Efishell

/-! ### Entries -/

namespace Pte

/-- `e & PAGE_PRESENT`. -/
def present (e : Nat) : Bool := e.testBit 0

/-- `e & PAGE_RW`. -/
def rw (e : Nat) : Bool := e.testBit 1

/-- `e & PAGE_USER`. -/
def user (e : Nat) : Bool := e.testBit 2

/-- `e & PAGE_LARGE`. -/
def large (e : Nat) : Bool := e.testBit 7

/-- `e & X86_LAZY`. -/
def lazy (e : Nat) : Bool := e.testBit 9

/-- `e & PAGE_NX`. -/
def nx (e : Nat) : Bool := e.testBit 63

end Pte

/-- `PAGE_PRESENT`: the entry maps a page or a table. -/
def pagePresent : Nat := 2 ^ 0

/-- `PAGE_RW`: writes are allowed. -/
def pageRw : Nat := 2 ^ 1

/-- `PAGE_USER`: Ring 3 may use the entry. -/
def pageUser : Nat := 2 ^ 2

/-- `PAGE_LARGE`: the entry maps a 2 MiB or 1 GiB page. -/
def pageLarge : Nat := 2 ^ 7

/-- `X86_LAZY`: the page is promised and not yet backed. -/
def x86Lazy : Nat := 2 ^ 9

/-- `PAGE_NX`: the page holds no code. -/
def pageNx : Nat := 2 ^ 63

/-- `PHYS_MASK`: the address bits of an entry. -/
def physMask : Nat := 0x000ffffffffff000

/-- `e & PHYS_MASK`. -/
def Pte.phys (e : Nat) : Nat := e &&& physMask

/-- The number of bytes an entry of the level covers. -/
def ptSpan (level : Nat) : Nat := 2 ^ (12 + 9 * (level - 1))

/-- `(v >> (12 + 9 * (level - 1))) & 511`. -/
def ptIndex (v level : Nat) : Nat := v / ptSpan level % 512

/-- `canonical`: the sixteen high bits of the address repeat bit 47. -/
def canonical (a : Nat) : Bool := a / 2 ^ 47 == 0 || a / 2 ^ 47 == 0x1ffff

/-! ### Constants -/

/-- `USER_SLOT`: the entry of the root that holds what `k_as_alloc` gives out. -/
def userSlot : Nat := 128

/-- `K_USER_BASE`: the first address of the user window. -/
def kUserBase : Nat := 0x400000000000

/-- `K_USER_LIMIT`: the address the user window ends at. -/
def kUserLimit : Nat := 0x408000000000

/-- `K_USER_CANON_LIMIT`: no user address is at or above it. -/
def kUserCanonLimit : Nat := 0x800000000000

/-- `MAX_USER_PAGES`: the pages one space may hold. -/
def maxUserPages : Nat := 16384

/-- What the address spaces share: the kernel's root table and `platform.nx`. -/
structure MmuEnv where
  kernelPml4 : Nat
  nx : Bool

/-- `k_address_space`; `owned` are the bits of `owned_slots`. -/
structure AddressSpace where
  used : Bool
  owner : Bool
  root : Nat
  next : Nat
  pages : Nat
  owned : Nat → Bool

/-- An address space with the memory its tables live in. -/
structure Vm where
  as : AddressSpace
  phys : Phys

/-- `table[idx]`. -/
def ptRead (mem : Bytes) (table idx : Nat) : Nat := rd64 mem (table + 8 * idx)

/-- `table[idx] = e`. -/
def ptWrite (table idx e : Nat) (s : Phys) : Phys :=
  { s with mem := wr64 s.mem (table + 8 * idx) e }

/-! ### Tables -/

/-- The entries a large entry splits into. -/
def ptSplit (e level child : Nat) (mem : Bytes) : Bytes :=
  let stride := if level = 3 then 0x200000 else 4096
  let base := Pte.phys e / (512 * stride) * (512 * stride)
  let flags := e - Pte.phys e
  let flags := if e.testBit 12 then flags ||| (if level = 3 then 2 ^ 12 else pageLarge)
    else if level = 2 ∧ Pte.large flags then flags - pageLarge else flags
  (List.range 512).foldl (fun m j => wr64 m (child + 8 * j) ((base + j * stride) ||| flags)) mem

/-- `x86_64_pt_child`: the table below an entry, made new or split from a large page as needed. -/
def ptChild (table idx level : Nat) (user : Bool) (s : Phys) : Except Errno Nat × Phys :=
  let e := ptRead s.mem table idx
  let finish := fun (s : Phys) =>
    let e := ptRead s.mem table idx
    if user && !Pte.user e then (Except.error Errno.eperm, s) else (.ok (Pte.phys e), s)
  if !Pte.present e then
    let r := pmmAllocPage s
    if r.1 = 0 then (.error .enomem, r.2)
    else finish (ptWrite table idx
      (r.1 ||| pagePresent ||| pageRw ||| (if user then pageUser else 0)) r.2)
  else if Pte.large e then
    if level ≠ 2 ∧ level ≠ 3 then (.error .einval, s)
    else
      let r := pmmAllocPage s
      if r.1 = 0 then (.error .enomem, r.2)
      else
        let s := { r.2 with mem := ptSplit e level r.1 r.2.mem }
        finish (ptWrite table idx
          (r.1 ||| pagePresent ||| pageRw ||| (if Pte.user e then pageUser else 0)) s)
  else finish s

/-- The walk of `x86_64_map_page_raw` from `level` down to the last table. -/
def ptWalk (v : Nat) (user : Bool) : (level : Nat) → (table : Nat) → Phys → Except Errno Nat × Phys
  | 0, table, s => (.ok table, s)
  | 1, table, s => (.ok table, s)
  | level + 2, table, s =>
      match ptChild table (ptIndex v (level + 2)) (level + 2) user s with
      | (.error e, s) => (.error e, s)
      | (.ok table, s) => ptWalk v user (level + 1) table s

/-- `x86_64_map_page_raw`: one 4 KiB page, its tables made on the way. -/
def mapPageRaw (env : MmuEnv) (root v p flags : Nat) (replace : Bool) (s : Phys) :
    Except Errno Unit × Phys :=
  if root = 0 ∨ canonical v = false ∨ v % 4096 ≠ 0 ∨ p % 4096 ≠ 0 ∨ p ≠ p &&& physMask then
    (.error .einval, s)
  else
    let user := Pte.user flags
    if user ∧ (v < 0x10000 ∨ kUserCanonLimit ≤ v ∨
        (env.kernelPml4 ≠ 0 ∧ Pte.present (ptRead s.mem env.kernelPml4 (v / 2 ^ 39)))) then
      (.error .eperm, s)
    else
      match ptWalk v user 4 root s with
      | (.error e, s) => (.error e, s)
      | (.ok t, s) =>
          if !replace && ptRead s.mem t (ptIndex v 1) != 0 then (.error .eexist, s)
          else (.ok (), ptWrite t (ptIndex v 1) (p ||| flags ||| pagePresent) s)

/-- The walk of `x86_64_vmm_translate`: the physical address, and whether every entry allows the
user, every entry allows writing, and no entry forbids execution. -/
def vmmWalk (mem : Bytes) (v : Nat) : (level : Nat) → (table : Nat) → (user rw nx : Bool) →
    Option (Nat × Bool × Bool × Bool)
  | 0, _, _, _, _ => none
  | level + 1, table, user, rw, nx =>
      let e := ptRead mem table (ptIndex v (level + 1))
      if !Pte.present e then none
      else
        let user := user && Pte.user e
        let rw := rw && Pte.rw e
        let nx := nx || Pte.nx e
        if level = 0 ∨ ((level = 1 ∨ level = 2) ∧ Pte.large e) then
          some (Pte.phys e / ptSpan (level + 1) * ptSpan (level + 1) + v % ptSpan (level + 1),
            user, rw, nx)
        else vmmWalk mem v level (Pte.phys e) user rw nx

/-- A translation: the physical address and the flags `PAGE_USER`, `PAGE_RW` and `PAGE_NX`. -/
structure Translation where
  phys : Nat
  user : Bool
  rw : Bool
  nx : Bool
  deriving DecidableEq, Repr

/-- `vmm_translate`: the physical address and the rights of a virtual address. -/
def vmmTranslate (mem : Bytes) (root v : Nat) : Option Translation :=
  if root = 0 ∨ canonical v = false then none
  else (vmmWalk mem v 4 root true true false).map fun r => ⟨r.1, r.2.1, r.2.2.1, r.2.2.2⟩

/-! ### Address spaces -/

/-- `x86_64_as_create`, when `spaces` has a slot left. -/
def asCreate (env : MmuEnv) (s : Phys) : Option Vm :=
  let r := pmmAllocPage s
  if r.1 = 0 then none
  else
    let s := { r.2 with mem := memCopy r.2.mem r.1 r.2.mem env.kernelPml4 4096 }
    some
      { as :=
          { used := true
            owner := false
            root := r.1
            next := kUserBase + 0x200000
            pages := 0
            owned := fun slot => slot == userSlot }
        phys := ptWrite r.1 userSlot 0 s }

/-- One entry of `free_user_tree`; `descend` frees the table below. -/
def freeEntry (mem : Bytes) (descend : Nat → Pmm → Pmm) (level table : Nat) (m : Pmm) (i : Nat) :
    Pmm :=
  let e := ptRead mem table i
  if Pte.present e then
    if level = 2 ∧ Pte.large e then kPmmFreePages (Pte.phys e) 512 m
    else pmmFreePage (Pte.phys e) (if 1 < level then descend (Pte.phys e) m else m)
  else m

/-- `free_user_tree`: every page and table below an entry returns to the allocator. -/
def freeUserTree (mem : Bytes) : (level : Nat) → (table : Nat) → Pmm → Pmm
  | 0, _, m => m
  | level + 1, table, m =>
      (List.range 512).foldl (freeEntry mem (freeUserTree mem level) (level + 1) table) m

/-- One slot of `x86_64_as_destroy`. -/
def destroySlot (mem : Bytes) (as : AddressSpace) (m : Pmm) (slot : Nat) : Pmm :=
  let e := ptRead mem as.root slot
  if as.owned slot && Pte.present e then
    pmmFreePage (Pte.phys e) (freeUserTree mem 3 (Pte.phys e) m)
  else m

/-- `x86_64_as_destroy`; `running` says that a task runs in the space. -/
def asDestroy (running : Bool) (w : Vm) : Except Errno Unit × Vm :=
  if !w.as.used then (.error .einval, w)
  else if w.as.owner then (.error .ebusy, w)
  else if running then (.error .ebusy, w)
  else
    let m := (List.range 256).foldl (destroySlot w.phys.mem w.as) w.phys.pmm
    (.ok (),
      { as := { used := false, owner := false, root := 0, next := 0, pages := 0,
                owned := fun _ => false }
        phys := { w.phys with pmm := pmmFreePage w.as.root m } })

/-- The bits of `rwx`. -/
def regionR (rwx : Nat) : Bool := rwx.testBit 0

/-- `RIEF_REGION_W` of a region's flags. -/
def regionW (rwx : Nat) : Bool := rwx.testBit 1

/-- `RIEF_REGION_X` of a region's flags. -/
def regionX (rwx : Nat) : Bool := rwx.testBit 2

/-- `rwx` is a set of permissions with R and not both W and X. -/
def rwxOk (rwx : Nat) : Bool := decide (rwx < 8) && regionR rwx && !(regionW rwx && regionX rwx)

/-- `PAGE_USER | (W ? PAGE_RW : 0) | (X ? 0 : PAGE_NX)`. -/
def leafFlags (rwx : Nat) : Nat :=
  pageUser ||| (if regionW rwx then pageRw else 0) ||| (if regionX rwx then 0 else pageNx)

/-- The loop that maps `count` pages from `v` on; the number of pages made, and the error. -/
def mapPages (env : MmuEnv) (root flags v : Nat) : Nat → Nat → Phys → Nat × Option Errno × Phys
  | 0, done, s => (done, none, s)
  | count + 1, done, s =>
      let r := pmmAllocPage s
      if r.1 = 0 then (done, some .enomem, r.2)
      else
        match mapPageRaw env root (v + 4096 * done) r.1 flags false r.2 with
        | (.ok (), s) => mapPages env root flags v count (done + 1) s
        | (.error e, s) => (done, some e, { s with pmm := pmmFreePage r.1 s.pmm })

/-- The last table of the walk that takes every entry as it is. -/
def rawTable (mem : Bytes) (v : Nat) : (level : Nat) → (table : Nat) → Nat
  | 0, table => table
  | 1, table => table
  | level + 2, table =>
      rawTable mem v (level + 1) (Pte.phys (ptRead mem table (ptIndex v (level + 2))))

/-- The page at `v` is unmapped and freed. -/
def unmapPage (root v : Nat) (s : Phys) : Phys :=
  let t := rawTable s.mem v 4 root
  let p := Pte.phys (ptRead s.mem t (ptIndex v 1))
  let s := ptWrite t (ptIndex v 1) 0 s
  { s with pmm := pmmFreePage p s.pmm }

/-- The first `done` pages from `v` on are undone. -/
def unmapPages (root v : Nat) : Nat → Nat → Phys → Phys
  | 0, _, s => s
  | left + 1, j, s => unmapPages root v left (j + 1) (unmapPage root (v + 4096 * j) s)

/-- `k_as_alloc`: a region of fresh pages at the next address of the user window. -/
def asAlloc (env : MmuEnv) (bytes align rwx : Nat) (w : Vm) : Except Errno Nat × Vm :=
  if !w.as.used ∨ bytes = 0 ∨ power2 align = false ∨ 0x40000000 < align ∨ rwxOk rwx = false then
    (.error .einval, w)
  else if !env.nx then (.error .enotsup, w)
  else if 4096 * maxUserPages < bytes then (.error .e2big, w)
  else
    let n := alignUp 64 bytes 4096 / 4096
    let v := alignUp 64 w.as.next (max align 4096)
    if (2 ^ 32 + maxUserPages - w.as.pages) % 2 ^ 32 < n ∨ kUserLimit ≤ v ∨
        kUserLimit - v < 4096 * n + 4096 then (.error .enomem, w)
    else
      match mapPages env w.as.root (leafFlags rwx) v n 0 w.phys with
      | (done, some e, s) => (.error e, { w with phys := unmapPages w.as.root v done 0 s })
      | (_, none, s) =>
          (.ok v,
            { as := { w.as with next := v + 4096 * n + 4096, pages := w.as.pages + n }
              phys := s })

/-! ### Faults and copies -/

/-- `leaf_for`: the table that holds the entry of `v` at `level`. -/
def leafFor (v level : Nat) (create : Bool) : (l : Nat) → (table : Nat) → Phys →
    Except Errno Nat × Phys
  | 0, table, s => (.ok table, s)
  | l + 1, table, s =>
      if l + 1 ≤ level then (.ok table, s)
      else
        let e := ptRead s.mem table (ptIndex v (l + 1))
        if !create && (!Pte.present e || Pte.large e) then (.error .efault, s)
        else
          match ptChild table (ptIndex v (l + 1)) (l + 1) true s with
          | (.error e, s) => (.error e, s)
          | (.ok table, s) => leafFor v level create l table s

/-- `x86_64_demand_fault`. -/
def demandFault (address error : Nat) (w : Vm) : Except Errno Unit × Vm :=
  if !w.as.used ∨ address < kUserBase ∨ kUserLimit ≤ address ∨ error ≠ error &&& 6 then
    (.error .efault, w)
  else
    match leafFor address 1 false 4 w.as.root w.phys with
    | (.error e, s) => (.error e, { w with phys := s })
    | (.ok t, s) =>
        let entry := ptRead s.mem t (ptIndex address 1)
        if !Pte.lazy entry || Pte.present entry || !Pte.user entry ||
            (error.testBit 1 && !Pte.rw entry) then (.error .efault, { w with phys := s })
        else
          let r := pmmAllocPage s
          if r.1 = 0 then (.error .enomem, { w with phys := r.2 })
          else
            let made := r.1 ||| (entry - x86Lazy) ||| pagePresent
            (.ok (), { w with phys := ptWrite t (ptIndex address 1) made r.2 })

/-- The pages of `x86_64_as_check` from `v` on. -/
def checkPages (write : Bool) : Nat → Nat → Vm → Except Errno Unit × Vm
  | 0, _, w => (.ok (), w)
  | left + 1, v, w =>
      let r := if (vmmTranslate w.phys.mem w.as.root v).isSome then (.ok (), w)
        else demandFault v (if write then 2 else 0) w
      match r with
      | (.error _, w) => (.error .efault, w)
      | (.ok (), w) =>
          match vmmTranslate w.phys.mem w.as.root v with
          | none => (.error .efault, w)
          | some t =>
              if !t.user || (write && !t.rw) then (.error .efault, w)
              else checkPages write left (v + 4096) w

/-- `x86_64_as_check`: every page of the range is mapped for the access asked. -/
def asCheck (address bytes : Nat) (write : Bool) (w : Vm) : Except Errno Unit × Vm :=
  if !w.as.used ∨ address < 0x10000 ∨ kUserCanonLimit ≤ address ∨
      kUserCanonLimit - address < bytes then (.error .efault, w)
  else if bytes = 0 then (.ok (), w)
  else
    let v := address / 4096 * 4096
    checkPages write ((address + bytes - v + 4095) / 4096) v w

/-- The loop of `x86_64_as_copy`: `n` bytes between `buf + off` and `u`.  Each iteration moves at
least one byte. -/
def copyLoop (root : Nat) (toUser : Bool) : Nat → (u off n : Nat) → Bytes → Phys →
    Except Errno Unit × Bytes × Phys
  | 0, _, _, _, buf, s => (.ok (), buf, s)
  | fuel + 1, u, off, n, buf, s =>
      if n = 0 then (.ok (), buf, s)
      else
        match vmmTranslate s.mem root u with
        | none => (.error .efault, buf, s)
        | some t =>
            let chunk := min n (4096 - u % 4096)
            if toUser then
              copyLoop root toUser fuel (u + chunk) (off + chunk) (n - chunk) buf
                { s with mem := memCopy s.mem t.phys buf off chunk }
            else
              copyLoop root toUser fuel (u + chunk) (off + chunk) (n - chunk)
                (memCopy buf off s.mem t.phys chunk) s

/-- `x86_64_as_copy`; the buffer is returned as it is left. -/
def asCopy (u : Nat) (buf : Bytes) (n : Nat) (toUser loader : Bool) (w : Vm) :
    Except Errno Unit × Bytes × Vm :=
  match asCheck u n (toUser && !loader) w with
  | (.error e, w) => (.error e, buf, w)
  | (.ok (), w) =>
      match copyLoop w.as.root toUser n u 0 n buf w.phys with
      | (r, buf, s) => (r, buf, { w with phys := s })

/-! ### Rollback -/

/-- One entry of `rollback_tree`; `descend` rolls the table below back. -/
def rollbackEntry (descend : Nat → Nat → Phys → Bool × Phys) (level table base oldNext : Nat)
    (acc : Bool × Phys) (i : Nat) : Bool × Phys :=
  let s := acc.2
  let e := ptRead s.mem table i
  let address := base + i * ptSpan level
  if !Pte.present e then
    if Pte.lazy e && decide (oldNext ≤ address) then (acc.1, ptWrite table i 0 s)
    else if e ≠ 0 then (false, s)
    else acc
  else if oldNext < address + ptSpan level then
    if level = 2 ∧ Pte.large e ∧ oldNext ≤ address then
      (acc.1, ptWrite table i 0 { s with pmm := kPmmFreePages (Pte.phys e) 512 s.pmm })
    else if level = 1 then
      (acc.1, ptWrite table i 0 { s with pmm := pmmFreePage (Pte.phys e) s.pmm })
    else
      match descend (Pte.phys e) address s with
      | (true, s) => (acc.1, ptWrite table i 0 { s with pmm := pmmFreePage (Pte.phys e) s.pmm })
      | (false, s) => (false, s)
  else (false, s)

/-- `rollback_tree`: the pages at or above `old_next` are freed; the flag says that nothing is
left. -/
def rollbackTree (oldNext : Nat) : (level : Nat) → (table base : Nat) → Phys → Bool × Phys
  | 0, _, _, s => (true, s)
  | level + 1, table, base, s =>
      (List.range 512).foldl
        (rollbackEntry (rollbackTree oldNext level) (level + 1) table base oldNext)
        (true, s)

/-- `x86_64_as_rollback`: the space's counters and user window as they were. -/
def asRollback (oldNext oldPages : Nat) (w : Vm) : Vm :=
  let e := ptRead w.phys.mem w.as.root userSlot
  let s :=
    if Pte.present e then
      match rollbackTree oldNext 3 (Pte.phys e) kUserBase w.phys with
      | (true, s) => ptWrite w.as.root userSlot 0 { s with pmm := pmmFreePage (Pte.phys e) s.pmm }
      | (false, s) => s
    else w.phys
  { as := { w.as with next := oldNext, pages := oldPages }, phys := s }

/-! ### Fixed mappings -/

/-- Whether none of the `count` pages from `address` on is mapped. -/
def allUnmapped (mem : Bytes) (root address count : Nat) : Bool :=
  (List.range count).all fun i => (vmmTranslate mem root (address + 4096 * i)).isNone

/-- `x86_64_as_map_at`: lazy pages at an address the caller names. -/
def asMapAt (env : MmuEnv) (address bytes rwx : Nat) (w : Vm) : Except Errno Unit × Vm :=
  if bytes = 0 ∨ 4096 * maxUserPages < bytes ∨ address % 4096 ≠ 0 ∨ address < 0x10000 ∨
      kUserCanonLimit ≤ address ∨ kUserCanonLimit - address < bytes ∨
        rwxOk rwx = false ∨ !env.nx then
    (.error .einval, w)
  else
    let count := (bytes + 4095) / 4096
    let slot := address / 2 ^ 39
    if (address + 4096 * count - 1) / 2 ^ 39 ≠ slot then (.error .einval, w)
    else if Pte.present (ptRead w.phys.mem env.kernelPml4 slot) then (.error .eperm, w)
    else if (2 ^ 32 + maxUserPages - w.as.pages) % 2 ^ 32 < count then (.error .enomem, w)
    else if allUnmapped w.phys.mem w.as.root address count = false then (.error .eexist, w)
    else
      let as := { w.as with owned := Function.update w.as.owned slot true }
      match mapPages env as.root (leafFlags rwx) address count 0 w.phys with
      | (made, some e, s) => (.error e, { as := as, phys := unmapPages as.root address made 0 s })
      | (_, none, s) => (.ok (), { as := { as with pages := as.pages + count }, phys := s })

/-! ### Demand-zero and large mappings -/

/-- `K_VM_LAZY` and `K_VM_HUGE`. -/
inductive VmOption where
  | lazy | huge
  deriving DecidableEq, Repr

namespace VmOption

/-- `unit`, in bytes. -/
def unit : VmOption → Nat
  | .lazy => 4096
  | .huge => 0x200000

/-- The level of the leaves. -/
def level : VmOption → Nat
  | .lazy => 1
  | .huge => 2

end VmOption

/-- The loop of `x86_64_as_alloc_ex` over `left` units from `v` on; the units made, and the
error. -/
def mapUnits (o : VmOption) (root flags v : Nat) : Nat → Nat → Phys → Nat × Option Errno × Phys
  | 0, done, s => (done, none, s)
  | left + 1, done, s =>
      let a := v + o.unit * done
      match leafFor a o.level true 4 root s with
      | (.error e, s) => (done, some e, s)
      | (.ok t, s) =>
          if ptRead s.mem t (ptIndex a o.level) ≠ 0 then (done, some .eexist, s)
          else
            match o with
            | .lazy =>
                mapUnits o root flags v left (done + 1)
                  (ptWrite t (ptIndex a o.level) (flags ||| x86Lazy) s)
            | .huge =>
                let r := kPmmAllocAligned 512 512 0 s
                if r.1 = 0 then (done, some .enomem, r.2)
                else
                  mapUnits o root flags v left (done + 1)
                    (ptWrite t (ptIndex a o.level)
                      (r.1 ||| flags ||| pagePresent ||| pageLarge) r.2)

/-- The undo loop of `x86_64_as_alloc_ex`, from the last unit down. -/
def unmapUnits (o : VmOption) (root v : Nat) : Nat → Phys → Phys
  | 0, s => s
  | done + 1, s =>
      let a := v + o.unit * done
      match leafFor a o.level false 4 root s with
      | (.error _, s) => unmapUnits o root v done s
      | (.ok t, s) =>
          let e := ptRead s.mem t (ptIndex a o.level)
          let s :=
            if Pte.present e then { s with pmm := kPmmFreePages (Pte.phys e) 512 s.pmm } else s
          unmapUnits o root v done (ptWrite t (ptIndex a o.level) 0 s)

/-- `x86_64_as_alloc_ex` with an option. -/
def asAllocOption (env : MmuEnv) (bytes align rwx : Nat) (o : VmOption) (w : Vm) :
    Except Errno Nat × Vm :=
  if !w.as.used ∨ bytes = 0 ∨ 4096 * maxUserPages < bytes ∨ power2 align = false ∨
      0x40000000 < align ∨ rwxOk rwx = false then (.error .einval, w)
  else if !env.nx then (.error .enotsup, w)
  else if o = .lazy ∧ regionX rwx then (.error .eperm, w)
  else if o = .huge ∧ bytes % o.unit ≠ 0 then (.error .einval, w)
  else
    let bytes := alignUp 64 bytes 4096
    let v := alignUp 64 w.as.next (max align o.unit)
    if (2 ^ 32 + maxUserPages - w.as.pages) % 2 ^ 32 < bytes / 4096 ∨ kUserLimit ≤ v ∨
        kUserLimit - v < bytes + 4096 then (.error .enomem, w)
    else
      match mapUnits o w.as.root (leafFlags rwx) v (bytes / o.unit) 0 w.phys with
      | (done, some e, s) => (.error e, { w with phys := unmapUnits o w.as.root v done s })
      | (_, none, s) =>
          (.ok v,
            { as := { w.as with next := v + bytes + 4096, pages := w.as.pages + bytes / 4096 }
              phys := s })

/-- `x86_64_as_alloc_ex`. -/
def asAllocEx (env : MmuEnv) (bytes align rwx options : Nat) (w : Vm) : Except Errno Nat × Vm :=
  if options = 0 then asAlloc env bytes align rwx w
  else if options = 1 then asAllocOption env bytes align rwx .lazy w
  else if options = 2 then asAllocOption env bytes align rwx .huge w
  else (.error .einval, w)

end Efishell
