import Mathlib.Data.Finset.Card
import Efishell.Memory.Physical

/-!
# Memory — the kernel heap

`k_heap_alloc` and `k_heap_free`.  Requests of up to 32760 bytes share arenas of 16 pages, cut into
1024 units of 64 bytes with a bit for each; larger ones, and those aligned to more than a page, get
pages of their own.  Behind each block stands a canary of eight bytes.

The arrays `arenas` and `large` are functions from indices, of which the code uses those below 64;
`used` is a function from units to bits.
-/

namespace Efishell

/-- One arena. -/
structure Arena where
  base : Nat
  used : Nat → Bool
  length : Nat → Nat
  requested : Nat → Nat
  live : Nat

/-- A record of `large`. -/
structure LargeBlock where
  base : Nat
  pointer : Nat
  requested : Nat
  pages : Nat

/-- `k_heap_info`. -/
structure HeapInfo where
  committedBytes : Nat
  liveBytes : Nat
  allocations : Nat
  errors : Nat

/-- The heap's tables over the page allocator. -/
structure Heap where
  arenas : Nat → Arena
  large : Nat → LargeBlock
  stats : HeapInfo
  phys : Phys

/-- An arena without pages. -/
def Arena.zero : Arena := ⟨0, fun _ => false, fun _ => 0, fun _ => 0, 0⟩

/-- A free record. -/
def LargeBlock.zero : LargeBlock := ⟨0, 0, 0, 0⟩

/-- The heap before its first call, over pages that the allocator was seeded with. -/
def Heap.init (phys : Phys) : Heap where
  arenas := fun _ => Arena.zero
  large := fun _ => LargeBlock.zero
  stats := ⟨0, 0, 0, 0⟩
  phys := phys

/-- `CANARY`. -/
def heapCanary : Nat := 0xd831ad7e56b0c429

/-! ### Allocation -/

/-- `while (j < needed && !occupied(a, u + j)) ++j`, with `n` units to go. -/
def freeUnits (a : Arena) (u : Nat) : Nat → Nat → Nat
  | 0, j => j
  | n + 1, j => if a.used (u + j) then j else freeUnits a u n (j + 1)

/-- The search for `needed` free units from `u` on; each iteration moves `u` up, so the fuel `1025`
the caller gives it is enough. -/
def arenaScan (a : Arena) (needed alignment : Nat) : Nat → Nat → Option Nat
  | 0, _ => none
  | fuel + 1, u =>
      if 1024 < u + needed then none
      else if (a.base + 64 * u) &&& (alignment - 1) ≠ 0 then
        arenaScan a needed alignment fuel (u + 1)
      else
        let j := freeUnits a u needed 0
        if j ≠ needed then arenaScan a needed alignment fuel (u + j + 1) else some u

/-- The units from `u` on become a block. -/
def Arena.take (a : Arena) (u needed bytes : Nat) : Arena := { a with
  used := fun v => a.used v || (decide (u ≤ v) && decide (v < u + needed))
  length := Function.update a.length u (needed % 2 ^ 16)
  requested := Function.update a.requested u (bytes % 2 ^ 32)
  live := (a.live + 1) % 2 ^ 32 }

/-- The arena at another base. -/
def Arena.setBase (a : Arena) (base : Nat) : Arena := { a with base }

/-- `if (!a->base) a->base = k_pmm_alloc_pages(16, 0)`. -/
def openArena (i : Nat) (h : Heap) : Heap :=
  if (h.arenas i).base ≠ 0 then h
  else
    match kPmmAllocPages 16 0 h.phys with
    | (base, phys) => { h with
        arenas := Function.update h.arenas i ((h.arenas i).setBase base)
        stats := { h.stats with
          committedBytes := if base = 0 then h.stats.committedBytes
            else (h.stats.committedBytes + 65536) % 2 ^ 64 }
        phys }

/-- The loop over the arenas, `i` the next one. -/
def arenaAlloc (needed bytes alignment : Nat) : Nat → Nat → Heap → Nat × Heap
  | 0, _, h => (0, h)
  | left + 1, i, h =>
      let h := openArena i h
      if (h.arenas i).base = 0 then (0, h)
      else match arenaScan (h.arenas i) needed alignment 1025 0 with
        | none => arenaAlloc needed bytes alignment left (i + 1) h
        | some u =>
            ((h.arenas i).base + 64 * u,
              { h with arenas := Function.update h.arenas i ((h.arenas i).take u needed bytes) })

/-- `pages` of a block that gets pages of its own. -/
def largePages (bytes alignment : Nat) : Nat := (bytes + alignment + 7 + 4095) / 4096 % 2 ^ 32

/-- The first free entry of `large`. -/
def Heap.largeSlot (h : Heap) : Option Nat := (List.range 64).find? fun i => (h.large i).base == 0

/-- Entry `i` of `large` takes the pages the allocator answered with, if any. -/
def largeTake (i pages bytes alignment : Nat) (h : Heap) : Nat × Phys → Nat × Heap
  | (base, phys) =>
      if base = 0 then (0, { h with phys })
      else
        let result := alignUp 32 base alignment
        (result, { h with
          large := Function.update h.large i ⟨base, result, bytes, pages⟩
          stats := { h.stats with
            committedBytes := (h.stats.committedBytes + 4096 * pages) % 2 ^ 64 }
          phys })

/-- The branch of `k_heap_alloc` that takes whole pages. -/
def largeAlloc (bytes alignment : Nat) (h : Heap) : Nat × Heap :=
  match h.largeSlot with
  | none => (0, h)
  | some i =>
      let pages := largePages bytes alignment
      largeTake i pages bytes alignment h (kPmmAllocPages pages 0 h.phys)

/-- The block is zeroed and its canary set. -/
def Heap.fill (h : Heap) (result bytes : Nat) : Heap := { h with
  phys := { h.phys with
    mem := wr64 (memZero h.phys.mem result bytes) (result + bytes)
      (heapCanary ^^^ result ^^^ bytes) }
  stats := { h.stats with
    liveBytes := (h.stats.liveBytes + bytes) % 2 ^ 64
    allocations := (h.stats.allocations + 1) % 2 ^ 64 } }

/-- A request that gets pages of its own. -/
def takesPages (bytes alignment : Nat) : Bool :=
  decide (32768 < bytes + 8) || decide (4096 < alignment)

/-- The requests `k_heap_alloc` serves. -/
def heapServes (bytes alignment : Nat) : Bool :=
  bytes != 0 && decide (bytes ≤ 64 * 1024 * 1024) && power2 alignment &&
    decide (alignment ≤ 0x200000)

/-- `k_heap_alloc`: the pointer, or zero. -/
def kHeapAlloc (bytes alignment : Nat) (h : Heap) : Nat × Heap :=
  if heapServes bytes alignment = false then (0, h)
  else
    let alignment := if alignment < 16 then 16 else alignment
    match (if takesPages bytes alignment then largeAlloc bytes alignment h
      else arenaAlloc ((bytes + 8 + 64 - 1) / 64 % 2 ^ 32) bytes alignment 64 0 h) with
    | (result, h) => if result = 0 then (0, h) else (result, h.fill result bytes)

/-! ### Release -/

/-- `errors` counts the calls that fail. -/
def Heap.failed (h : Heap) : Heap :=
  { h with stats := { h.stats with errors := (h.stats.errors + 1) % 2 ^ 64 } }

/-- The canary behind the block at `p` is intact. -/
def Heap.canaryOk (h : Heap) (p bytes : Nat) : Bool :=
  rd64 h.phys.mem (p + bytes) == heapCanary ^^^ p ^^^ bytes

/-- Entry `i` of `large` is given up. -/
def Heap.dropLarge (h : Heap) (i : Nat) : Heap :=
  let b := h.large i
  { h with
    large := Function.update h.large i LargeBlock.zero
    phys := { h.phys with pmm := kPmmFreePages b.base b.pages h.phys.pmm }
    stats := { h.stats with
      liveBytes := (h.stats.liveBytes + 2 ^ 64 - b.requested) % 2 ^ 64
      committedBytes := (h.stats.committedBytes + 2 ^ 64 - 4096 * b.pages) % 2 ^ 64 } }

/-- The block at unit `u` is given back to its arena. -/
def Arena.drop (a : Arena) (u : Nat) : Arena := { a with
  used := fun v => a.used v && !(decide (u ≤ v) && decide (v < u + a.length u))
  length := Function.update a.length u 0
  requested := Function.update a.requested u 0
  live := (a.live + 2 ^ 32 - 1) % 2 ^ 32 }

/-- Unit `u` of arena `i` is given up; an arena without blocks loses its pages. -/
def Heap.dropUnit (h : Heap) (i u : Nat) : Heap :=
  let a := h.arenas i
  let p := a.base + 64 * u
  let a' := a.drop u
  let stats := { h.stats with
    liveBytes := (h.stats.liveBytes + 2 ^ 64 - a.requested u) % 2 ^ 64 }
  let mem := memZero h.phys.mem p (64 * a.length u)
  if a'.live = 0 then { h with
    arenas := Function.update h.arenas i Arena.zero
    phys := { pmm := kPmmFreePages a.base 16 h.phys.pmm, mem }
    stats := { stats with committedBytes := (stats.committedBytes + 2 ^ 64 - 65536) % 2 ^ 64 } }
  else { h with arenas := Function.update h.arenas i a', phys := { h.phys with mem }, stats }

/-- The arena that holds the address `p` at a unit. -/
def Heap.arenaOf (h : Heap) (p : Nat) : Option Nat :=
  (List.range 64).find? fun i =>
    let base := (h.arenas i).base
    !(base == 0 || decide (p < base) || decide (65536 ≤ p - base) || (p - base) % 64 != 0)

/-- `k_heap_free`: the block is given back, unless what stands behind it was overwritten. -/
def kHeapFree (p : Nat) : Io Errno Heap Unit := fun h =>
  if p = 0 then (.ok (), h)
  else match (List.range 64).find? fun i => (h.large i).pointer == p with
    | some i =>
        if h.canaryOk p (h.large i).requested then (.ok (), h.dropLarge i)
        else (.error .efault, h.failed)
    | none =>
        match h.arenaOf p with
        | none => (.error .einval, h.failed)
        | some i =>
            let a := h.arenas i
            let u := (p - a.base) / 64
            if a.length u = 0 ∨ 1024 - u < a.length u then (.error .einval, h.failed)
            else if h.canaryOk p (a.requested u) = false then (.error .efault, h.failed)
            else if (List.range (a.length u)).any fun j => !a.used (u + j) then
              (.error .efault, h.failed)
            else (.ok (), h.dropUnit i u)

end Efishell
