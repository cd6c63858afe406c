import Mathlib.Algebra.BigOperators.Group.Finset.Piecewise
import Mathlib.Algebra.BigOperators.Group.Finset.Sigma
import Efishell.Memory.HeapPlacement
import Efishell.Memory.PhysicalRun

/-!
# Memory — the books of the heap

`k_heap_free` recognises a pointer by what the tables say of it, and the counters move apart from
the tables.  `HeapBooked` ties them together: a unit is marked only inside a block, and the pages
that left the allocator are those of the arenas and of the entries of `large`, as `committed_bytes`
says.  An arena has pages only while it has a block (`Heap.Lively`).  `HeapLedger` adds the live
blocks: each slot in use holds one of them, and `live_bytes` is the sum of their sizes.

* `HeapLedger.alloc`, `HeapLedger.free`: the two calls keep the books.
* `heap_free_exact`: which frees succeed, and what the counters say.
-/

namespace Efishell

/-! ### Pages and counters -/

/-- The pages an arena holds. -/
def Heap.arenaPages (h : Heap) (i : Nat) : Nat := if (h.arenas i).base = 0 then 0 else 16

/-- The pages a record of `large` holds. -/
def Heap.largeHeld (h : Heap) (i : Nat) : Nat :=
  if (h.large i).base = 0 then 0 else (h.large i).pages

/-- The pages of the arenas and of the large blocks. -/
def Heap.heldPages (h : Heap) : Nat :=
  ∑ i ∈ Finset.range 64, h.arenaPages i + ∑ i ∈ Finset.range 64, h.largeHeld i

/-- A marked unit is inside a block. -/
def ArenaExact (a : Arena) : Prop :=
  ∀ v, a.used v = true → ∃ u, a.length u ≠ 0 ∧ u ≤ v ∧ v < u + a.length u

/-- The tables, the counter of committed bytes and the page allocator agree. -/
structure HeapBooked (seed : Pmm) (h : Heap) : Prop where
  counted : PmmCounted h.phys.pmm
  eligible : h.phys.pmm.eligible = seed.eligible
  pages : h.phys.pmm.freePages + h.heldPages = seed.freePages
  committed : h.stats.committedBytes = 4096 * h.heldPages % 2 ^ 64
  arena : ∀ i, ArenaExact (h.arenas i)
  arenaIdle : ∀ i, 64 ≤ i → (h.arenas i).base = 0
  largeIdle : ∀ i, 64 ≤ i → (h.large i).base = 0

/-- An arena has pages only while it has a block. -/
def Heap.Lively (h : Heap) : Prop := ∀ i, (h.arenas i).base ≠ 0 → ∃ u, (h.arenas i).length u ≠ 0

/-- A term of a sum is exchanged. -/
theorem sum_update_range {n i b : Nat} {f : Nat → Nat} (hi : i < n) :
    ∑ j ∈ Finset.range n, Function.update f i b j + f i = ∑ j ∈ Finset.range n, f j + b := by
  have hmem := Finset.mem_range.mpr hi
  rw [Finset.sum_update_of_mem hmem, Finset.sdiff_singleton_eq_erase,
    ← Finset.add_sum_erase _ f hmem]
  omega

/-- An arena without pages has no stray unit. -/
theorem ArenaExact.zero : ArenaExact Arena.zero := fun _ h => absurd h Bool.false_ne_true

/-- A block placed uses exactly its units. -/
theorem ArenaExact.take {a : Arena} (hx : ArenaExact a) {u needed bytes : Nat}
    (hn : needed < 2 ^ 16) (hn0 : 0 < needed) (hold : a.length u = 0) :
    ArenaExact (a.take u needed bytes) := by
  intro v hv
  simp only [Arena.take, Bool.or_eq_true, Bool.and_eq_true, decide_eq_true_eq] at hv
  have hlen : (a.take u needed bytes).length = Function.update a.length u (needed % 2 ^ 16) := rfl
  rw [hlen, Nat.mod_eq_of_lt hn]
  rcases hv with hv | ⟨h₁, h₂⟩
  · obtain ⟨w, hw, h₁, h₂⟩ := hx v hv
    have hne : w ≠ u := fun e => hw (e ▸ hold)
    exact ⟨w, by rwa [Function.update_of_ne hne], h₁, by rwa [Function.update_of_ne hne]⟩
  · exact ⟨u, by rw [Function.update_self]; omega, h₁, by rwa [Function.update_self]⟩

theorem ArenaExact.drop {a : Arena} (hx : ArenaExact a) (u : Nat) : ArenaExact (a.drop u) := by
  intro v hv
  simp only [Arena.drop, Bool.and_eq_true, Bool.not_eq_true', Bool.and_eq_false_iff,
    decide_eq_false_iff_not] at hv
  obtain ⟨w, hw, h₁, h₂⟩ := hx v hv.1
  have hne : w ≠ u := by
    rintro rfl
    omega
  have hlen : (a.drop u).length w = a.length w := by
    simp only [Arena.drop, Function.update_of_ne hne]
  exact ⟨w, by rwa [hlen], h₁, by rwa [hlen]⟩

/-- In an arena without blocks the search succeeds at once. -/
theorem arenaScan_empty {a : Arena} (hx : ArenaExact a) (hnone : ∀ u, a.length u = 0)
    {needed alignment : Nat} (hn : needed ≤ 1024) (ha : power2 alignment = true)
    (hal : alignment ≤ 4096) (hb : 4096 ∣ a.base) :
    arenaScan a needed alignment 1025 0 = some 0 := by
  have hfree : ∀ v, a.used v = false := by
    intro v
    by_contra hne
    obtain ⟨u, hu, -⟩ := hx v (Bool.not_eq_false _ ▸ hne)
    exact hu (hnone u)
  have hunits : ∀ n j, freeUnits a 0 n j = j + n := by
    intro n
    induction n with
    | zero => exact fun _ => rfl
    | succ n ih =>
        intro j
        rw [freeUnits, if_neg (by rw [hfree]; exact Bool.false_ne_true), ih]
        omega
  have hand : a.base + 64 * 0 &&& (alignment - 1) = 0 := by
    rw [and_sub_one_eq_mod ha, Nat.mul_zero, Nat.add_zero]
    exact Nat.mod_eq_zero_of_dvd ((power2_dvd ha (by decide) hal).trans hb)
  rw [arenaScan, if_neg (by omega), hand, if_neg (fun h => h rfl)]
  dsimp only
  rw [hunits, if_neg (by omega)]

/-! ### What an allocation can do -/

/-- Arena `i` after its pages came from the allocator. -/
def Heap.opened (h : Heap) (i start : Nat) : Heap := { h with
  arenas := Function.update h.arenas i ((h.arenas i).setBase (4096 * start))
  stats := { h.stats with committedBytes := (h.stats.committedBytes + 65536) % 2 ^ 64 }
  phys := h.phys.claim start 16 }

/-- Arena `i` with a new block. -/
def Heap.placed (h : Heap) (i u needed bytes : Nat) : Heap :=
  { h with arenas := Function.update h.arenas i ((h.arenas i).take u needed bytes) }

/-- The arena is left, or gets sixteen free pages. -/
theorem openArena_cases {h : Heap} (hm : PmmOk h.phys.pmm) (i : Nat) :
    openArena i h = h ∨ ((h.arenas i).base = 0 ∧ ∃ start,
      FreeRun h.phys.pmm.free 16 1 start ∧ openArena i h = h.opened i start) := by
  by_cases hb : (h.arenas i).base = 0
  · rw [openArena, if_neg (not_not.mpr hb), kPmmAllocPages]
    rcases kPmmAllocAligned_cases 16 1 0 h.phys with hz | ⟨start, he, hc, hrun, -, -⟩
    · rw [hz]
      dsimp only
      rw [show (h.arenas i).setBase 0 = h.arenas i by rw [← hb]; rfl, Function.update_eq_self]
      exact Or.inl rfl
    · have hge := hrun.ge hm hc
      rw [he]
      dsimp only
      rw [if_neg (by omega)]
      exact Or.inr ⟨hb, start, hrun, rfl⟩
  · rw [openArena, if_pos hb]
    exact Or.inl rfl

@[simp] theorem Heap.opened_self (h : Heap) (i start : Nat) :
    (h.opened i start).arenas i = (h.arenas i).setBase (4096 * start) := Function.update_self _ _ _

theorem Heap.opened_liveBytes (h : Heap) (i start : Nat) :
    (h.opened i start).stats.liveBytes = h.stats.liveBytes := by simp only [Heap.opened]

/-- The other arenas stay. -/
theorem Heap.opened_ne (h : Heap) {i j : Nat} (start : Nat) (hne : j ≠ i) :
    (h.opened i start).arenas j = h.arenas j := Function.update_of_ne hne _ _

/-- The arena has the block. -/
@[simp] theorem Heap.placed_self (h : Heap) (i u needed bytes : Nat) :
    (h.placed i u needed bytes).arenas i = (h.arenas i).take u needed bytes :=
  Function.update_self _ _ _

/-- The other arenas stay. -/
theorem Heap.placed_ne (h : Heap) {i j : Nat} (u needed bytes : Nat) (hne : j ≠ i) :
    (h.placed i u needed bytes).arenas j = h.arenas j := Function.update_of_ne hne _ _

/-- The loop over the arenas fails and changes nothing, or places the block in one arena, which it
opens first if need be: no arena is opened in vain. -/
theorem arenaAlloc_cases {needed bytes alignment : Nat} (hn : needed ≤ 1024)
    (ha : power2 alignment = true) (hal : alignment ≤ 4096) {h : Heap} (hok : HeapOk h)
    (hx : ∀ i, ArenaExact (h.arenas i)) (left : Nat) :
    ∀ i, arenaAlloc needed bytes alignment left i h = (0, h) ∨
      ∃ j u, i ≤ j ∧ j < i + left ∧ ((openArena j h).arenas j).base ≠ 0 ∧
        arenaScan ((openArena j h).arenas j) needed alignment 1025 0 = some u ∧
        arenaAlloc needed bytes alignment left i h =
          (((openArena j h).arenas j).base + 64 * u, (openArena j h).placed j u needed bytes) := by
  induction left with
  | zero =>
      intro i
      exact Or.inl rfl
  | succ left ih =>
      intro i
      rw [arenaAlloc]
      rcases openArena_cases hok.held.ok i with e | ⟨hb, start, hrun, e⟩
      · rw [e]
        split
        · exact Or.inl rfl
        · rename_i hbase
          split
          · rcases ih (i + 1) with hz | ⟨j, u, h₁, h₂, h₃⟩
            · exact Or.inl hz
            · exact Or.inr ⟨j, u, by omega, by omega, h₃⟩
          · rename_i u hscan
            refine Or.inr ⟨i, u, le_rfl, by omega, ?_, ?_, ?_⟩
            · rwa [e]
            · rwa [e]
            · rw [e]
              rfl
      · -- the arena is new, so there is room in it
        have hge := hrun.ge hok.held.ok (by decide)
        have hbase : (((h.opened i start).arenas i).base) ≠ 0 := by
          rw [Heap.opened_self, Arena.setBase]
          dsimp only
          omega
        have hscan : arenaScan ((h.opened i start).arenas i) needed alignment 1025 0 = some 0 := by
          rw [Heap.opened_self]
          exact arenaScan_empty (a := (h.arenas i).setBase (4096 * start)) (hx i)
            ((hok.arena i).idle hb) hn ha hal (Nat.dvd_mul_right _ _)
        rw [e, if_neg hbase, hscan]
        refine Or.inr ⟨i, 0, le_rfl, by omega, ?_, ?_, ?_⟩
        · rwa [e]
        · rwa [e]
        · rw [e]
          rfl

/-- Entry `i` of `large` with a new block. -/
def Heap.placedLarge (h : Heap) (i start pages bytes alignment : Nat) : Heap := { h with
  large :=
    Function.update h.large i ⟨4096 * start, alignUp 32 (4096 * start) alignment, bytes, pages⟩
  stats := { h.stats with committedBytes := (h.stats.committedBytes + 4096 * pages) % 2 ^ 64 }
  phys := h.phys.claim start pages }

@[simp] theorem Heap.placedLarge_self (h : Heap) (i start pages bytes alignment : Nat) :
    (h.placedLarge i start pages bytes alignment).large i =
      ⟨4096 * start, alignUp 32 (4096 * start) alignment, bytes, pages⟩ :=
  Function.update_self _ _ _

theorem Heap.placedLarge_liveBytes (h : Heap) (i start pages bytes alignment : Nat) :
    (h.placedLarge i start pages bytes alignment).stats.liveBytes = h.stats.liveBytes := by
  simp only [Heap.placedLarge]

/-- The other records stay. -/
theorem Heap.placedLarge_ne (h : Heap) {i j : Nat} (start pages bytes alignment : Nat)
    (hne : j ≠ i) :
    (h.placedLarge i start pages bytes alignment).large j = h.large j :=
  Function.update_of_ne hne _ _

/-- Nothing is done, or a free record gets a run of free pages. -/
theorem largeAlloc_cases (bytes alignment : Nat) {h : Heap} (hm : PmmOk h.phys.pmm) :
    largeAlloc bytes alignment h = (0, h) ∨
      ∃ i start, i < 64 ∧ (h.large i).base = 0 ∧
        FreeRun h.phys.pmm.free (largePages bytes alignment) 1 start ∧
        0 < largePages bytes alignment ∧
        largeAlloc bytes alignment h = (alignUp 32 (4096 * start) alignment,
          h.placedLarge i start (largePages bytes alignment) bytes alignment) := by
  cases hslot : h.largeSlot with
  | none =>
      rw [largeAlloc, hslot]
      exact Or.inl rfl
  | some i =>
      have hi := List.mem_range.mp (List.mem_of_find?_eq_some hslot)
      have hbase : (h.large i).base = 0 := by simpa using List.find?_some hslot
      rw [largeAlloc_some hslot]
      generalize largePages bytes alignment = pages
      rcases kPmmAllocAligned_cases pages 1 0 h.phys with hz | ⟨start, he, hc, hrun, -, -⟩
      · rw [hz, largeTake, if_pos rfl]
        exact Or.inl rfl
      · have hge := hrun.ge hm hc
        rw [he, largeTake, if_neg (by omega)]
        exact Or.inr ⟨i, start, hi, hbase, hrun, hc, rfl⟩

/-! ### The books are kept -/

/-- One arena changed. -/
theorem Heap.arenaPages_update {h h' : Heap} {i : Nat} {a : Arena}
    (ha : h'.arenas = Function.update h.arenas i a) :
    h'.arenaPages = Function.update h.arenaPages i (if a.base = 0 then 0 else 16) := by
  funext j
  rw [Heap.arenaPages, ha]
  exact Function.apply_update (fun _ (a : Arena) => if a.base = 0 then 0 else 16) h.arenas i a j

/-- One record changed. -/
theorem Heap.largeHeld_update {h h' : Heap} {i : Nat} {b : LargeBlock}
    (hl : h'.large = Function.update h.large i b) :
    h'.largeHeld = Function.update h.largeHeld i (if b.base = 0 then 0 else b.pages) := by
  funext j
  rw [Heap.largeHeld, hl]
  exact Function.apply_update (fun _ (b : LargeBlock) => if b.base = 0 then 0 else b.pages)
    h.large i b j

theorem Heap.arenaPages_congr {h h' : Heap} (ha : h'.arenas = h.arenas) :
    h'.arenaPages = h.arenaPages := by
  funext j
  rw [Heap.arenaPages, Heap.arenaPages, ha]

theorem Heap.largeHeld_congr {h h' : Heap} (hl : h'.large = h.large) :
    h'.largeHeld = h.largeHeld := by
  funext j
  rw [Heap.largeHeld, Heap.largeHeld, hl]

/-- The held pages of a heap in which one arena is replaced. -/
theorem Heap.heldPages_arena (h h' : Heap) {i : Nat} {a : Arena} (hi : i < 64)
    (ha : h'.arenas = Function.update h.arenas i a) (hl : h'.large = h.large) :
    h'.heldPages + h.arenaPages i = h.heldPages + (if a.base = 0 then 0 else 16) := by
  have hsum := sum_update_range (f := h.arenaPages) (b := if a.base = 0 then 0 else 16) hi
  rw [← Heap.arenaPages_update ha] at hsum
  rw [Heap.heldPages, Heap.heldPages, Heap.largeHeld_congr hl]
  omega

/-- The pages held change with the record's. -/
theorem Heap.heldPages_large (h h' : Heap) {i : Nat} {b : LargeBlock} (hi : i < 64)
    (ha : h'.arenas = h.arenas) (hl : h'.large = Function.update h.large i b) :
    h'.heldPages + h.largeHeld i = h.heldPages + (if b.base = 0 then 0 else b.pages) := by
  have hsum := sum_update_range (f := h.largeHeld) (b := if b.base = 0 then 0 else b.pages) hi
  rw [← Heap.largeHeld_update hl] at hsum
  rw [Heap.heldPages, Heap.heldPages, Heap.arenaPages_congr ha]
  omega

/-- An update of one arena keeps what holds of each of them. -/
theorem forall_update {α : Type} {P : α → Prop} {f : Nat → α} {i : Nat} {a : α} (hf : ∀ j, P (f j))
    (ha : P a) (j : Nat) : P (Function.update f i a j) := by
  rcases eq_or_ne j i with rfl | hne
  · rwa [Function.update_self]
  · rw [Function.update_of_ne hne]
    exact hf j

/-- The other records stay. -/
theorem Heap.dropLarge_ne (h : Heap) {i j : Nat} (hne : j ≠ i) :
    (h.dropLarge i).large j = h.large j := Function.update_of_ne hne _ _

namespace HeapBooked

variable {seed : Pmm} {h : Heap}

/-- Only the 64 arenas have pages. -/
theorem lt_of_base (hb : HeapBooked seed h) {i : Nat} (hi : (h.arenas i).base ≠ 0) : i < 64 := by
  by_contra hcon
  exact hi (hb.arenaIdle i (Nat.not_lt.mp hcon))

theorem lt_of_large (hb : HeapBooked seed h) {i : Nat} (hi : (h.large i).base ≠ 0) : i < 64 := by
  by_contra hcon
  exact hi (hb.largeIdle i (Nat.not_lt.mp hcon))

/-- Sixteen pages pass from the allocator to an arena. -/
theorem opened (hb : HeapBooked seed h) {i start : Nat} (hi : i < 64) (h0 : (h.arenas i).base = 0)
    (hrun : FreeRun h.phys.pmm.free 16 1 start) (hs : 256 ≤ start) :
    HeapBooked seed (h.opened i start) := by
  have hn := hb.counted.run_le hrun.2
  have hbase : ((h.arenas i).setBase (4096 * start)).base ≠ 0 := by
    rw [Arena.setBase]
    dsimp only
    omega
  have hheld := Heap.heldPages_arena h (h.opened i start) hi rfl rfl
  rw [Heap.arenaPages, if_pos h0, if_neg hbase] at hheld
  have hp := hb.pages
  have hc := hb.committed
  refine ⟨hb.counted.claim hrun.2, hb.eligible, ?_, ?_, fun j => forall_update hb.arena ?_ j,
    fun j hj => ?_, hb.largeIdle⟩
  · have hfree : (h.opened i start).phys.pmm.freePages = h.phys.pmm.freePages - 16 := rfl
    omega
  · have hcom : (h.opened i start).stats.committedBytes =
        (h.stats.committedBytes + 65536) % 2 ^ 64 := rfl
    omega
  · exact hb.arena i
  · have hne : j ≠ i := by omega
    have := hb.arenaIdle j hj
    rwa [Heap.opened_ne h start hne]

/-- A block goes to an open arena. -/
theorem placed (hb : HeapBooked seed h) {i u needed bytes : Nat} (h0 : (h.arenas i).base ≠ 0)
    (hn : 0 < needed) (hn' : needed < 2 ^ 16) (hold : (h.arenas i).length u = 0) :
    HeapBooked seed (h.placed i u needed bytes) := by
  have hi := hb.lt_of_base h0
  have hbase : ((h.arenas i).take u needed bytes).base ≠ 0 := h0
  have hheld := Heap.heldPages_arena h (h.placed i u needed bytes) hi rfl rfl
  rw [Heap.arenaPages, if_neg h0, if_neg hbase] at hheld
  have heq : (h.placed i u needed bytes).heldPages = h.heldPages := by omega
  refine ⟨hb.counted, hb.eligible, ?_, ?_, fun j => forall_update hb.arena ?_ j, fun j hj => ?_,
    hb.largeIdle⟩
  · rw [heq]
    exact hb.pages
  · rw [heq]
    exact hb.committed
  · exact (hb.arena i).take hn' hn hold
  · have hne : j ≠ i := by omega
    have := hb.arenaIdle j hj
    rwa [Heap.placed_ne h u needed bytes hne]

/-- A free entry of `large` takes pages. -/
theorem placedLarge (hb : HeapBooked seed h) {i start pages bytes alignment : Nat} (hi : i < 64)
    (h0 : (h.large i).base = 0) (hrun : FreeRun h.phys.pmm.free pages 1 start) (hs : 256 ≤ start) :
    HeapBooked seed (h.placedLarge i start pages bytes alignment) := by
  have hn := hb.counted.run_le hrun.2
  have hheld := Heap.heldPages_large h (h.placedLarge i start pages bytes alignment) hi
    rfl rfl
  rw [Heap.largeHeld, if_pos h0] at hheld
  dsimp only at hheld
  rw [if_neg (by omega)] at hheld
  have hp := hb.pages
  have hc := hb.committed
  refine ⟨hb.counted.claim hrun.2, hb.eligible, ?_, ?_, hb.arena, hb.arenaIdle, fun j hj => ?_⟩
  · have hfree : (h.placedLarge i start pages bytes alignment).phys.pmm.freePages =
      h.phys.pmm.freePages - pages := rfl
    omega
  · have hcom : (h.placedLarge i start pages bytes alignment).stats.committedBytes =
        (h.stats.committedBytes + 4096 * pages) % 2 ^ 64 := rfl
    omega
  · have hne : j ≠ i := by omega
    have := hb.largeIdle j hj
    rwa [Heap.placedLarge_ne h start pages bytes alignment hne]

/-- Memory and the counters of calls and of live bytes are not part of the books. -/
theorem congr {h' : Heap} (hb : HeapBooked seed h) (ha : h'.arenas = h.arenas)
    (hl : h'.large = h.large) (hp : h'.phys.pmm = h.phys.pmm)
    (hc : h'.stats.committedBytes = h.stats.committedBytes) : HeapBooked seed h' := by
  have heq : h'.heldPages = h.heldPages := by
    rw [Heap.heldPages, Heap.heldPages, Heap.arenaPages_congr ha, Heap.largeHeld_congr hl]
  refine ⟨?_, ?_, ?_, ?_, ?_, ?_, ?_⟩
  · rw [hp]
    exact hb.counted
  · rw [hp]
    exact hb.eligible
  · rw [hp, heq]
    exact hb.pages
  · rw [hc, heq]
    exact hb.committed
  · rw [ha]
    exact hb.arena
  · rw [ha]
    exact hb.arenaIdle
  · rw [hl]
    exact hb.largeIdle

/-- The pages of a holder go back to the allocator. -/
theorem counted_release (hb : HeapBooked seed h) (hok : HeapOk h) {x : Holder} (hx : h.base x ≠ 0) :
    PmmCounted (kPmmFreePages (h.base x) (h.pages x) h.phys.pmm) ∧
      (kPmmFreePages (h.base x) (h.pages x) h.phys.pmm).eligible = h.phys.pmm.eligible ∧
      (kPmmFreePages (h.base x) (h.pages x) h.phys.pmm).freePages =
        h.phys.pmm.freePages + h.pages x ∧
      h.pages x ≤ pmmMaxPages := by
  have hheld := hok.held.held x hx
  have hpos := hok.held.nonempty x hx
  have hlast := (Pmm.held_iff.mp hheld (h.base x / 4096 + h.pages x - 1) (by omega) (by omega)).1
  have hlt := hb.counted.eligible_lt _ hlast
  have heq := kPmmFreePages_eq hok.held.ok hpos hheld
  rw [Nat.mul_div_cancel' (hok.held.aligned x hx)] at heq
  rw [heq]
  exact ⟨hb.counted.release hheld, rfl, rfl, by omega⟩

/-- A large block freed keeps the books. -/
theorem dropLarge (hb : HeapBooked seed h) (hok : HeapOk h) {i : Nat} (h0 : (h.large i).base ≠ 0) :
    HeapBooked seed (h.dropLarge i) := by
  have hi := hb.lt_of_large h0
  obtain ⟨h₁, h₂, h₃, h₄⟩ := hb.counted_release hok (x := .large i) h0
  simp only [Heap.base, Heap.pages] at h₁ h₂ h₃ h₄
  have hmax : pmmMaxPages = 67108864 := rfl
  have hheld := Heap.heldPages_large h (h.dropLarge i) hi rfl rfl
  rw [Heap.largeHeld, if_neg h0, if_pos (show LargeBlock.zero.base = 0 from rfl)] at hheld
  have hp := hb.pages
  have hc := hb.committed
  refine ⟨h₁, h₂.trans hb.eligible, ?_, ?_, hb.arena, hb.arenaIdle,
    fun j hj => ?_⟩
  · have hfree : (h.dropLarge i).phys.pmm.freePages =
      (kPmmFreePages (h.large i).base (h.large i).pages h.phys.pmm).freePages := rfl
    omega
  · have hcom : (h.dropLarge i).stats.committedBytes =
        (h.stats.committedBytes + 2 ^ 64 - 4096 * (h.large i).pages) % 2 ^ 64 := rfl
    omega
  · have hne : j ≠ i := by omega
    have := hb.largeIdle j hj
    rwa [h.dropLarge_ne hne]

end HeapBooked

/-- The heap with the block at unit `u` of arena `i` given up. -/
theorem Heap.dropUnit_cases (h : Heap) (i u : Nat) :
    (((h.arenas i).drop u).live = 0 ∧
      (h.dropUnit i u).arenas = Function.update h.arenas i Arena.zero ∧
      (h.dropUnit i u).phys.pmm = kPmmFreePages (h.arenas i).base 16 h.phys.pmm ∧
      (h.dropUnit i u).stats.committedBytes =
        (h.stats.committedBytes + 2 ^ 64 - 65536) % 2 ^ 64) ∨
    (((h.arenas i).drop u).live ≠ 0 ∧
      (h.dropUnit i u).arenas = Function.update h.arenas i ((h.arenas i).drop u) ∧
      (h.dropUnit i u).phys.pmm = h.phys.pmm ∧
      (h.dropUnit i u).stats.committedBytes = h.stats.committedBytes) := by
  by_cases h0 : ((h.arenas i).drop u).live = 0
  · exact Or.inl ⟨h0, by simp only [Heap.dropUnit, h0, if_true],
      by simp only [Heap.dropUnit, h0, if_true], by simp only [Heap.dropUnit, h0, if_true]⟩
  · exact Or.inr ⟨h0, by simp only [Heap.dropUnit, h0, if_false],
      by simp only [Heap.dropUnit, h0, if_false], by simp only [Heap.dropUnit, h0, if_false]⟩

@[simp] theorem Heap.dropUnit_large (h : Heap) (i u : Nat) : (h.dropUnit i u).large = h.large := by
  rw [Heap.dropUnit]
  dsimp only
  split <;> rfl

/-- The bytes of the block are counted off. -/
@[simp] theorem Heap.dropUnit_liveBytes (h : Heap) (i u : Nat) :
    (h.dropUnit i u).stats.liveBytes =
      (h.stats.liveBytes + 2 ^ 64 - (h.arenas i).requested u) % 2 ^ 64 := by
  rw [Heap.dropUnit]
  dsimp only
  split <;> rfl

/-- A block of an arena freed keeps the books. -/
theorem HeapBooked.dropUnit {seed : Pmm} {h : Heap} (hb : HeapBooked seed h) (hok : HeapOk h)
    {i u : Nat} (h0 : (h.arenas i).base ≠ 0) : HeapBooked seed (h.dropUnit i u) := by
  have hi := hb.lt_of_base h0
  have hp := hb.pages
  have hc := hb.committed
  rcases h.dropUnit_cases i u with ⟨-, ha, hpmm, hcom⟩ | ⟨-, ha, hpmm, hcom⟩
  · obtain ⟨h₁, h₂, h₃, -⟩ := hb.counted_release hok (x := .arena i) h0
    simp only [Heap.base, Heap.pages] at h₁ h₂ h₃
    have hheld := Heap.heldPages_arena _ _ hi ha (h.dropUnit_large i u)
    rw [Heap.arenaPages, if_neg h0, if_pos (show Arena.zero.base = 0 from rfl)] at hheld
    refine ⟨?_, ?_, ?_, by omega, fun j => ?_, fun j hj => ?_, ?_⟩
    · rwa [hpmm]
    · rw [hpmm, h₂]
      exact hb.eligible
    · rw [hpmm, h₃]
      omega
    · rw [ha]
      exact forall_update hb.arena ArenaExact.zero j
    · rw [ha, Function.update_of_ne (by omega)]
      exact hb.arenaIdle j hj
    · rw [h.dropUnit_large]
      exact hb.largeIdle
  · have hheld := Heap.heldPages_arena _ _ hi ha (h.dropUnit_large i u)
    rw [Heap.arenaPages, if_neg h0, if_neg (show ((h.arenas i).drop u).base ≠ 0 from h0)] at hheld
    have heq : (h.dropUnit i u).heldPages = h.heldPages := by omega
    refine ⟨?_, ?_, ?_, ?_, fun j => ?_, fun j hj => ?_, ?_⟩
    · rw [hpmm]
      exact hb.counted
    · rw [hpmm]
      exact hb.eligible
    · rw [hpmm, heq]
      exact hp
    · rw [hcom, heq]
      exact hc
    · rw [ha]
      exact forall_update hb.arena ((hb.arena i).drop u) j
    · rw [ha, Function.update_of_ne (by omega)]
      exact hb.arenaIdle j hj
    · rw [h.dropUnit_large]
      exact hb.largeIdle

/-- The arena that loses its last block loses its pages. -/
theorem Heap.Lively.dropUnit {h : Heap} (hl : h.Lively) (hok : HeapOk h) {i u : Nat}
    (hu : (h.arenas i).length u ≠ 0) : (h.dropUnit i u).Lively := by
  rcases h.dropUnit_cases i u with ⟨-, ha, -⟩ | ⟨hlive, ha, -⟩
  · rw [Heap.Lively, ha]
    exact forall_update (P := fun a : Arena => a.base ≠ 0 → ∃ u, a.length u ≠ 0) hl
      fun h0 => absurd rfl h0
  · rw [Heap.Lively, ha]
    refine forall_update (P := fun a : Arena => a.base ≠ 0 → ∃ u, a.length u ≠ 0) hl fun _ => ?_
    -- the count of blocks is the counter, which is not zero
    obtain ⟨hdrop, -⟩ := (hok.arena i).drop hu
    rw [hdrop.live] at hlive
    obtain ⟨v, hv⟩ := Finset.card_pos.mp (Nat.pos_of_ne_zero hlive)
    exact ⟨v, (Arena.mem_blocks hdrop).mp hv⟩

/-! ### Blocks and slots -/

/-- Nothing is stored in `h'` that was not in `h`, but for a block of `bytes` bytes at `r`. -/
def Heap.Adds (h h' : Heap) (r bytes : Nat) : Prop :=
  ∀ s b, h'.StoredAt s b → h.StoredAt s b ∨ (b.pointer = r ∧ b.bytes = bytes)

/-- A new arena stores nothing new. -/
theorem Heap.opened_stored {h : Heap} (hok : HeapOk h) {i start : Nat} (h0 : (h.arenas i).base = 0)
    {s : Slot} {b : HeapBlock} (hs : (h.opened i start).StoredAt s b) : h.StoredAt s b := by
  cases s with
  | large j => exact hs
  | unit j u =>
      rcases eq_or_ne j i with rfl | hne
      · have hl := hs.2.1
        rw [Heap.opened_self, Arena.setBase] at hl
        exact absurd ((hok.arena j).idle h0 u) hl
      · rw [Heap.StoredAt, h.opened_ne start hne] at hs
        exact hs

/-- A block placed in an arena is the one block added. -/
theorem Heap.placed_adds (h : Heap) {i u needed bytes : Nat} (hb : bytes < 2 ^ 32) :
    h.Adds (h.placed i u needed bytes) ((h.arenas i).base + 64 * u) bytes := by
  intro s b hs
  cases s with
  | large j => exact Or.inl hs
  | unit j v =>
      rcases eq_or_ne j i with rfl | hne
      · rw [Heap.StoredAt, Heap.placed_self] at hs
        obtain ⟨h₁, h₂, h₃, h₄⟩ := hs
        rcases eq_or_ne v u with rfl | hv
        · simp only [Arena.take, Function.update_self, Nat.mod_eq_of_lt hb] at h₃ h₄
          exact Or.inr ⟨h₃.symm, h₄.symm⟩
        · simp only [Arena.take, Function.update_of_ne hv] at h₁ h₂ h₃ h₄
          exact Or.inl ⟨h₁, h₂, h₃, h₄⟩
      · rw [Heap.StoredAt, h.placed_ne u needed bytes hne] at hs
        exact Or.inl hs

theorem Heap.placedLarge_adds (h : Heap) {i start pages bytes alignment : Nat} :
    h.Adds (h.placedLarge i start pages bytes alignment) (alignUp 32 (4096 * start) alignment)
      bytes := by
  intro s b hs
  cases s with
  | unit j u => exact Or.inl hs
  | large j =>
      rcases eq_or_ne j i with rfl | hne
      · rw [Heap.StoredAt, Heap.placedLarge_self] at hs
        exact Or.inr ⟨hs.2.1.symm, hs.2.2.symm⟩
      · rw [Heap.StoredAt, h.placedLarge_ne start pages bytes alignment hne] at hs
        exact Or.inl hs

/-- What a served allocation makes of the heap, before the block is filled. -/
structure HeapPlacedAt (seed : Pmm) (h h' : Heap) (r bytes : Nat) : Prop where
  ne_zero : r ≠ 0
  booked : HeapBooked seed h'
  lively : h'.Lively
  adds : h.Adds h' r bytes
  liveBytes : h'.stats.liveBytes = h.stats.liveBytes

/-- A block in an arena. -/
theorem HeapBooked.arenaAlloc {seed : Pmm} {h : Heap} (hb : HeapBooked seed h) (hok : HeapOk h)
    (hl : h.Lively) {needed bytes alignment : Nat} (hn : 0 < needed) (hn' : needed ≤ 1024)
    (hbytes : bytes < 2 ^ 32) (ha : power2 alignment = true) (hal : alignment ≤ 4096) :
    arenaAlloc needed bytes alignment 64 0 h = (0, h) ∨
      ∃ r h', arenaAlloc needed bytes alignment 64 0 h = (r, h') ∧
        HeapPlacedAt seed h h' r bytes := by
  rcases arenaAlloc_cases hn' ha hal hok hb.arena 64 0 with
    hz | ⟨j, u, -, hj, hbase, hscan, heq⟩
  · exact Or.inl hz
  · refine Or.inr ⟨_, _, heq, ?_⟩
    obtain ⟨hok₁, -⟩ := openArena_ok hok j
    -- the heap with the arena open has the books of `h`
    have hopen : HeapBooked seed (openArena j h) ∧ (∀ s b, (openArena j h).StoredAt s b →
        h.StoredAt s b) ∧ (openArena j h).stats.liveBytes = h.stats.liveBytes ∧
        ∀ k, k ≠ j → (openArena j h).arenas k = h.arenas k := by
      rcases openArena_cases hok.held.ok j with e | ⟨h0, start, hrun, e⟩
      · rw [e]
        exact ⟨hb, fun _ _ hs => hs, rfl, fun _ _ => rfl⟩
      · rw [e]
        exact ⟨hb.opened (by omega) h0 hrun (hrun.ge hok.held.ok (by decide)),
          fun _ _ hs => Heap.opened_stored hok h0 hs, h.opened_liveBytes j start,
          fun k hk => h.opened_ne start hk⟩
    obtain ⟨hb₁, hst, hlb, hothers⟩ := hopen
    obtain ⟨-, -, hfree⟩ := arenaScan_spec hscan
    have hold : ((openArena j h).arenas j).length u = 0 := by
      by_contra hne
      have := (hok₁.arena j).used u hne u le_rfl (by omega)
      have hf := hfree 0 hn
      rw [Nat.add_zero, this] at hf
      cases hf
    refine ⟨by omega, hb₁.placed hbase hn (by omega) hold, fun k hk => ?_, fun s b hs => ?_, hlb⟩
    · rcases eq_or_ne k j with rfl | hne
      · refine ⟨u, ?_⟩
        rw [Heap.placed_self]
        simp only [Arena.take, Function.update_self]
        omega
      · rw [Heap.placed_ne _ u needed bytes hne, hothers k hne] at hk ⊢
        exact hl k hk
    · rcases Heap.placed_adds _ hbytes s b hs with h₁ | h₁
      · exact Or.inl (hst s b h₁)
      · exact Or.inr h₁

/-- A block with pages of its own, below 2 GiB. -/
theorem HeapBooked.largeAlloc {seed : Pmm} {h : Heap} (hb : HeapBooked seed h) (hok : HeapOk h)
    (hl : h.Lively) (hlow : ∀ p, seed.eligible p = true → p < 2 ^ 19) {bytes alignment : Nat}
    (ha : power2 alignment = true) (hal : alignment ≤ 0x200000) :
    largeAlloc bytes alignment h = (0, h) ∨
      ∃ r h', largeAlloc bytes alignment h = (r, h') ∧ HeapPlacedAt seed h h' r bytes := by
  rcases largeAlloc_cases bytes alignment hok.held.ok with
    hz | ⟨i, start, hi, h0, hrun, hpos, heq⟩
  · exact Or.inl hz
  · refine Or.inr ⟨_, _, heq, ?_⟩
    have hge := hrun.ge hok.held.ok hpos
    have hlt : start < 2 ^ 19 := by
      have hel := hb.counted.free_eligible _ (hrun.2 0 hpos)
      rw [hb.eligible] at hel
      exact hlow start hel
    obtain ⟨-, hle, -⟩ := alignUp_spec (w := 32) (x := 4096 * start) ha (by omega) (by decide)
      (by omega)
    exact ⟨by omega, hb.placedLarge hi h0 hrun hge, hl, h.placedLarge_adds,
      h.placedLarge_liveBytes i start _ bytes alignment⟩

/-- A call of `k_heap_alloc` fails and changes nothing, or fills a block it placed. -/
theorem HeapBooked.kHeapAlloc {seed : Pmm} {h : Heap} (hb : HeapBooked seed h) (hok : HeapOk h)
    (hl : h.Lively) (hlow : ∀ p, seed.eligible p = true → p < 2 ^ 19) (bytes alignment : Nat) :
    kHeapAlloc bytes alignment h = (0, h) ∨
      ∃ r h', kHeapAlloc bytes alignment h = (r, h'.fill r bytes) ∧
        HeapPlacedAt seed h h' r bytes := by
  by_cases hs : heapServes bytes alignment = false
  · rw [Efishell.kHeapAlloc, if_pos hs]
    exact Or.inl rfl
  · obtain ⟨hb0, hbytes, ha, hal⟩ := heapServes_iff.mp (Bool.not_eq_false _ ▸ hs)
    obtain ⟨ha', -, hal', -⟩ := heapAlignment_spec ha hal
    rw [Efishell.kHeapAlloc, if_neg hs]
    simp only [← heapAlignment.eq_1]
    generalize heapAlignment alignment = a at *
    have hstep : (if takesPages bytes a = true then Efishell.largeAlloc bytes a h
          else Efishell.arenaAlloc ((bytes + 8 + 64 - 1) / 64 % 2 ^ 32) bytes a 64 0 h) = (0, h) ∨
        ∃ r h', (if takesPages bytes a = true then Efishell.largeAlloc bytes a h
          else Efishell.arenaAlloc ((bytes + 8 + 64 - 1) / 64 % 2 ^ 32) bytes a 64 0 h) = (r, h') ∧
          HeapPlacedAt seed h h' r bytes := by
      by_cases ht : takesPages bytes a = true
      · rw [if_pos ht]
        exact hb.largeAlloc hok hl hlow ha' hal'
      · rw [if_neg ht]
        simp only [takesPages, Bool.or_eq_true, decide_eq_true_eq, not_or, Nat.not_lt] at ht
        exact hb.arenaAlloc hok hl (by omega) (by omega) (by omega) ha' ht.2
    rcases hstep with e | ⟨r, h', e, hp⟩
    · rw [e]
      exact Or.inl rfl
    · rw [e]
      dsimp only
      rw [if_neg hp.ne_zero]
      exact Or.inr ⟨r, h', rfl, hp⟩

/-! ### What a release can do -/

/-- The ways `k_heap_free` can go. -/
theorem kHeapFree_cases (p : Nat) (h : Heap) :
    (p = 0 ∧ kHeapFree p h = (.ok (), h)) ∨
    (p ≠ 0 ∧ ∃ i, (h.large i).pointer = p ∧ h.canaryOk p (h.large i).requested = true ∧
      kHeapFree p h = (.ok (), h.dropLarge i)) ∨
    (p ≠ 0 ∧ ∃ i u, (h.arenas i).base ≠ 0 ∧ (h.arenas i).base + 64 * u = p ∧
      (h.arenas i).length u ≠ 0 ∧ h.canaryOk p ((h.arenas i).requested u) = true ∧
      kHeapFree p h = (.ok (), h.dropUnit i u)) ∨
    ∃ e, kHeapFree p h = (.error e, h.failed) := by
  rw [kHeapFree]
  split
  · rename_i h0
    exact Or.inl ⟨h0, rfl⟩
  · rename_i h0
    split
    · rename_i i hfind
      have hptr : (h.large i).pointer = p := by simpa using List.find?_some hfind
      split
      · rename_i hcan
        exact Or.inr (Or.inl ⟨h0, i, hptr, hcan, rfl⟩)
      · exact Or.inr (Or.inr (Or.inr ⟨_, rfl⟩))
    · split
      · exact Or.inr (Or.inr (Or.inr ⟨_, rfl⟩))
      · rename_i i hfind
        obtain ⟨hb, hu⟩ := Heap.arenaOf_some hfind
        dsimp only
        generalize (p - (h.arenas i).base) / 64 = u at hu ⊢
        split
        · exact Or.inr (Or.inr (Or.inr ⟨_, rfl⟩))
        · rename_i hlen
          split
          · exact Or.inr (Or.inr (Or.inr ⟨_, rfl⟩))
          · rename_i hcan
            split
            · exact Or.inr (Or.inr (Or.inr ⟨_, rfl⟩))
            · exact Or.inr (Or.inr (Or.inl ⟨h0, i, u, hb, hu, fun e => hlen (Or.inl e),
                Bool.not_eq_false _ ▸ hcan, rfl⟩))

/-- The canary behind the block is the one `k_heap_alloc` wrote. -/
def Heap.Intact (h : Heap) (b : HeapBlock) : Prop :=
  rd64 h.phys.mem (b.pointer + b.bytes) = heapCanary ^^^ b.pointer ^^^ b.bytes

/-- The canary is intact if the eight bytes behind the block are. -/
theorem Heap.canaryOk_iff {h : Heap} {b : HeapBlock} :
    h.canaryOk b.pointer b.bytes = true ↔ h.Intact b := by
  rw [Heap.canaryOk, beq_iff_eq, Heap.Intact]

/-- The table entry that holds a live block is the one the search finds. -/
theorem HeapOk.free_large {h : Heap} (hok : HeapOk h) {i : Nat} (hi : i < 64) {b : HeapBlock}
    (hs : h.StoredAt (.large i) b) (hcan : h.Intact b) :
    kHeapFree b.pointer h = (.ok (), h.dropLarge i) := by
  have hin := hok.inside hs
  have hp : b.pointer ≠ 0 := by
    have := HeapOk.base_ne_zero hs
    omega
  have hfind : (List.range 64).find? (fun j => (h.large j).pointer == b.pointer) = some i := by
    cases hf : (List.range 64).find? (fun j => (h.large j).pointer == b.pointer) with
    | none =>
        have := List.find?_eq_none.mp hf i (List.mem_range.mpr hi)
        exact absurd (beq_iff_eq.mpr hs.2.1) this
    | some j =>
        have hptr : (h.large j).pointer = b.pointer := by simpa using List.find?_some hf
        have hj : (h.large j).base ≠ 0 := fun e => hp (hptr ▸ (hok.large j).idle e)
        have hstored : h.StoredAt (.large j) ⟨b.pointer, (h.large j).requested, 1⟩ :=
          ⟨hj, hptr, rfl⟩
        by_contra hne
        have hap := hok.apart (fun e => hne (by cases e; rfl)) hs hstored
        simp only [HeapBlock.Apart] at hap
        omega
  rw [kHeapFree, if_neg hp, hfind]
  dsimp only
  rw [if_pos]
  rw [hs.2.2, Heap.canaryOk_iff]
  exact hcan

/-- `k_heap_free` of a block of an arena frees its units. -/
theorem HeapOk.free_unit {h : Heap} (hok : HeapOk h) {i u : Nat} (hi : i < 64) {b : HeapBlock}
    (hs : h.StoredAt (.unit i u) b) (hcan : h.Intact b) :
    kHeapFree b.pointer h = (.ok (), h.dropUnit i u) := by
  have hin := hok.inside hs
  obtain ⟨hbase, hlen, hptr, hreq⟩ := id hs
  have hp : b.pointer ≠ 0 := by omega
  have hu := (hok.arena i).inside u hlen
  -- no entry of `large` has the pointer
  have hlarge : (List.range 64).find? (fun j => (h.large j).pointer == b.pointer) = none := by
    refine List.find?_eq_none.mpr fun j _ => ?_
    rw [beq_iff_eq]
    intro hj
    have hjb : (h.large j).base ≠ 0 := fun e => hp (hj ▸ (hok.large j).idle e)
    have hstored : h.StoredAt (.large j) ⟨b.pointer, (h.large j).requested, 1⟩ := ⟨hjb, hj, rfl⟩
    have hap := hok.apart (fun e => by cases e) hs hstored
    simp only [HeapBlock.Apart] at hap
    omega
  -- and only this arena has the address
  have harena : h.arenaOf b.pointer = some i := by
    rw [Heap.arenaOf]
    cases hf : (List.range 64).find? (fun j => !((h.arenas j).base == 0 ||
        decide (b.pointer < (h.arenas j).base) || decide (65536 ≤ b.pointer - (h.arenas j).base) ||
        (b.pointer - (h.arenas j).base) % 64 != 0)) with
    | none =>
        have := List.find?_eq_none.mp hf i (List.mem_range.mpr hi)
        simp only [Bool.not_eq_true', Bool.or_eq_true, beq_iff_eq, decide_eq_true_eq,
          bne_iff_ne, ne_eq, Bool.not_eq_false] at this
        omega
    | some j =>
        have hj := List.find?_some hf
        simp only [Bool.not_eq_true', Bool.or_eq_false_iff, beq_eq_false_iff_ne,
          decide_eq_false_iff_not, bne_eq_false_iff_eq] at hj
        by_contra hne
        have hap := hok.held.apart (.arena i) (.arena j) (fun e => hne (by cases e; rfl)) hbase
          hj.1.1.1
        simp only [Heap.base, Heap.pages] at hap
        omega
  rw [kHeapFree, if_neg hp, hlarge]
  dsimp only
  rw [harena]
  dsimp only
  rw [show (b.pointer - (h.arenas i).base) / 64 = u by omega, if_neg (by omega), if_neg, if_neg]
  · simp only [List.any_eq_true, List.mem_range, Bool.not_eq_true', not_exists, not_and,
      Bool.not_eq_false]
    intro j hj
    exact (hok.arena i).used u hlen (u + j) (by omega) (by omega)
  · rw [hreq, Bool.not_eq_false, Heap.canaryOk_iff]
    exact hcan

/-! ### The live blocks -/

/-- The heap and the list of live blocks agree. -/
structure HeapLedger (seed : Pmm) (h : Heap) (live : List HeapBlock) : Prop
    extends HeapInv h live where
  booked : HeapBooked seed h
  lively : h.Lively
  owned : ∀ s b, h.StoredAt s b → ∃ c ∈ live, c.pointer = b.pointer ∧ c.bytes = b.bytes
  sizes : h.stats.liveBytes = (live.map HeapBlock.bytes).sum % 2 ^ 64

/-- Where a block is stored depends on its pointer and its size only. -/
theorem Heap.StoredAt.congr {h : Heap} {s : Slot} {b c : HeapBlock} (hs : h.StoredAt s b)
    (hp : c.pointer = b.pointer) (hb : c.bytes = b.bytes) : h.StoredAt s c := by
  cases s with
  | unit i u => exact ⟨hs.1, hs.2.1, hs.2.2.1.trans hp.symm, hs.2.2.2.trans hb.symm⟩
  | large i => exact ⟨hs.1, hs.2.1.trans hp.symm, hs.2.2.trans hb.symm⟩

/-- Blocks with one pointer are stored at one slot. -/
theorem HeapOk.slot_unique {h : Heap} (hok : HeapOk h) {s t : Slot} {b c : HeapBlock}
    (hs : h.StoredAt s b) (ht : h.StoredAt t c) (hp : b.pointer = c.pointer) : s = t := by
  by_contra hne
  have hap := hok.apart hne hs ht
  simp only [HeapBlock.Apart] at hap
  omega

namespace HeapLedger

variable {seed : Pmm} {h h' : Heap} {live : List HeapBlock}

/-- Every block ends below the end of memory. -/
theorem end_le (hl : HeapLedger seed h live) {s : Slot} {b : HeapBlock} (hs : h.StoredAt s b) :
    b.pointer + b.bytes + 8 ≤ 4096 * pmmMaxPages := by
  obtain ⟨-, hin⟩ := hl.ok.inside hs
  have hb := HeapOk.base_ne_zero hs
  have hheld := hl.ok.held.held _ hb
  have hpos := hl.ok.held.nonempty _ hb
  have hdvd := Nat.mul_div_cancel' (hl.ok.held.aligned _ hb)
  have hlast := (Pmm.held_iff.mp hheld (h.base s.holder / 4096 + h.pages s.holder - 1) (by omega)
    (by omega)).1
  have hlt := hl.booked.counted.eligible_lt _ hlast
  omega

/-- `k_heap_alloc` keeps the ledger. -/
theorem alloc (hl : HeapLedger seed h live) (hlow : ∀ p, seed.eligible p = true → p < 2 ^ 19)
    (bytes alignment : Nat) :
    HeapLedger seed (kHeapAlloc bytes alignment h).2
      (if (kHeapAlloc bytes alignment h).1 = 0 then live
        else ⟨(kHeapAlloc bytes alignment h).1, bytes, alignment⟩ :: live) := by
  have hfits : AlignFits h bytes alignment := by
    rintro hserves - - ⟨t, ht⟩
    obtain ⟨-, hb, ha, hal⟩ := heapServes_iff.mp hserves
    obtain ⟨-, -, hal', -⟩ := heapAlignment_spec ha hal
    by_cases hpos : 0 < largePages bytes (heapAlignment alignment)
    · have hel := hl.booked.counted.free_eligible _ (ht.2 0 hpos)
      rw [hl.booked.eligible] at hel
      have hlt := hlow _ hel
      exact ⟨t, ht.ge hl.ok.held.ok hpos, by omega, ht⟩
    · rw [Nat.eq_zero_of_not_pos hpos]
      exact ⟨256, le_rfl, by omega, by simp, fun i hi => absurd hi (Nat.not_lt_zero i)⟩
  have hinv := hl.toHeapInv.alloc hfits
  rcases hl.booked.kHeapAlloc hl.ok hl.lively hlow bytes alignment with e | ⟨r, h', e, hp⟩
  · rw [e]
    exact hl
  · rw [e] at hinv ⊢
    dsimp only at hinv ⊢
    rw [if_neg hp.ne_zero] at hinv ⊢
    have hfill : ∀ s b, (h'.fill r bytes).StoredAt s b → h'.StoredAt s b := by
      intro s b hs
      cases s with
      | unit i u => exact hs
      | large i => exact hs
    refine ⟨hinv, hp.booked.congr rfl rfl rfl rfl, hp.lively, fun s b hs => ?_, ?_⟩
    · rcases hp.adds s b (hfill s b hs) with hold | ⟨e₁, e₂⟩
      · obtain ⟨c, hc, hc'⟩ := hl.owned s b hold
        exact ⟨c, List.mem_cons_of_mem _ hc, hc'⟩
      · exact ⟨⟨r, bytes, alignment⟩, List.mem_cons_self, e₁.symm, e₂.symm⟩
    · have hsum : (h'.fill r bytes).stats.liveBytes = (h'.stats.liveBytes + bytes) % 2 ^ 64 := by
        simp only [Heap.fill]
      rw [hsum, hp.liveBytes, hl.sizes, List.map_cons, List.sum_cons]
      dsimp only
      omega

/-- The block at slot `s` is taken back. -/
theorem erase (hl : HeapLedger seed h live) {s : Slot} {p bytes : Nat}
    (hs : h.StoredAt s ⟨p, bytes, 1⟩) (hinv : HeapInv h' (live.eraseP fun b => b.pointer == p))
    (hbook : HeapBooked seed h') (hlive : h'.Lively)
    (hstored : ∀ t b, h'.StoredAt t b → h.StoredAt t b ∧ t ≠ s)
    (hsum : h'.stats.liveBytes = (h.stats.liveBytes + 2 ^ 64 - bytes) % 2 ^ 64) :
    HeapLedger seed h' (live.eraseP fun b => b.pointer == p) := by
  refine ⟨hinv, hbook, hlive, fun t b ht => ?_, ?_⟩
  · obtain ⟨hold, hne⟩ := hstored t b ht
    obtain ⟨c, hc, hcp, hcb⟩ := hl.owned t b hold
    have hcne : ¬ (c.pointer == p) = true := by
      rw [beq_iff_eq]
      intro e
      exact hne (hl.ok.slot_unique hold hs (hcp.symm.trans e))
    exact ⟨c, (List.mem_eraseP_of_neg (p := fun b : HeapBlock => b.pointer == p) hcne).mpr hc, hcp,
      hcb⟩
  · obtain ⟨c₀, hc₀, hp₀, -⟩ := hl.owned s _ hs
    obtain ⟨c, l₁, l₂, -, hc, hlist, herase⟩ :=
      List.exists_of_eraseP (p := fun b : HeapBlock => b.pointer == p) hc₀ (by simpa using hp₀)
    have hcp : c.pointer = p := by simpa using hc
    -- the first block with the pointer is the one stored at the slot
    obtain ⟨t, ht⟩ := hl.stored c (by rw [hlist]; exact List.mem_append_right _ List.mem_cons_self)
    obtain rfl := hl.ok.slot_unique ht hs hcp
    have hcb : c.bytes = bytes := by
      cases t with
      | unit i u => exact ht.2.2.2.symm.trans hs.2.2.2
      | large i => exact ht.2.2.symm.trans hs.2.2
    have hle := hl.end_le hs
    have hmax : 4096 * pmmMaxPages = 274877906944 := by decide
    have hs' := hl.sizes
    rw [hlist, List.map_append, List.map_cons, List.sum_append, List.sum_cons, hcb] at hs'
    rw [herase, List.map_append, List.sum_append, hsum, hs']
    dsimp only at hle
    omega

/-- `k_heap_free` keeps the ledger. -/
theorem free (hl : HeapLedger seed h live) (p : Nat) :
    HeapLedger seed (kHeapFree p h).2
      (match (kHeapFree p h).1 with
        | .ok () => live.eraseP fun b => b.pointer == p
        | .error _ => live) := by
  have hinv := hl.toHeapInv.free p
  rcases kHeapFree_cases p h with ⟨rfl, e⟩ | ⟨hp, i, hptr, -, e⟩
    | ⟨hp, i, u, hb, hptr, hlen, -, e⟩ |
    ⟨err, e⟩
  · -- no live block has the null pointer
    rw [e] at hinv ⊢
    have hnone : ∀ b ∈ live, ¬ (b.pointer == 0) = true := by
      intro b hb
      obtain ⟨s, hs⟩ := hl.stored b hb
      have hin := hl.ok.inside hs
      have := HeapOk.base_ne_zero hs
      rw [beq_iff_eq]
      omega
    dsimp only
    rw [List.eraseP_of_forall_not hnone]
    exact hl
  · rw [e] at hinv ⊢
    have hb : (h.large i).base ≠ 0 := fun h0 => hp (hptr ▸ (hl.ok.large i).idle h0)
    -- a large block
    refine hl.erase (s := .large i) (p := p) ⟨hb, hptr, rfl⟩ hinv (hl.booked.dropLarge hl.ok hb)
      hl.lively (fun t b ht => ?_) ?_
    · cases t with
      | unit j v => exact ⟨ht, fun e => by cases e⟩
      | large j =>
          rcases eq_or_ne j i with rfl | hne
          · have h0 := ht.1
            simp only [Heap.dropLarge, Function.update_self] at h0
            exact absurd rfl h0
          · rw [Heap.StoredAt, h.dropLarge_ne hne] at ht
            exact ⟨ht, fun e => hne (by cases e; rfl)⟩
    · simp only [Heap.dropLarge]
  · rw [e] at hinv ⊢
    dsimp only at hinv ⊢
    have hs : h.StoredAt (.unit i u) ⟨p, (h.arenas i).requested u, 1⟩ := ⟨hb, hlen, hptr, rfl⟩
    -- a block of an arena; the last one gives the arena's page back
    refine hl.erase hs hinv (hl.booked.dropUnit hl.ok hb) (hl.lively.dropUnit hl.ok hlen)
      (fun t b ht => ?_) (h.dropUnit_liveBytes i u)
    cases t with
    | large j =>
        rw [Heap.StoredAt, h.dropUnit_large] at ht
        exact ⟨ht, fun e => by cases e⟩
    | unit j v =>
        rcases eq_or_ne j i with rfl | hne
        · rcases h.dropUnit_cases j u with ⟨-, ha, -⟩ | ⟨-, ha, -⟩
          · rw [Heap.StoredAt, ha, Function.update_self] at ht
            exact absurd rfl ht.1
          · rw [Heap.StoredAt, ha, Function.update_self] at ht
            obtain ⟨h₁, h₂, h₃, h₄⟩ := ht
            have hv : v ≠ u := by
              rintro rfl
              simp only [Arena.drop, Function.update_self] at h₂
              exact h₂ rfl
            simp only [Arena.drop, Function.update_of_ne hv] at h₁ h₂ h₃ h₄
            exact ⟨⟨h₁, h₂, h₃, h₄⟩, fun e => hv (by cases e; rfl)⟩
        · have hother : (h.dropUnit i u).arenas j = h.arenas j := by
            rcases h.dropUnit_cases i u with ⟨-, ha, -⟩ | ⟨-, ha, -⟩
            · rw [ha, Function.update_of_ne hne]
            · rw [ha, Function.update_of_ne hne]
          rw [Heap.StoredAt, hother] at ht
          exact ⟨ht, fun e => hne (by cases e; rfl)⟩
  · rw [e] at hinv ⊢
    refine ⟨hinv, hl.booked.congr rfl rfl rfl (by simp only [Heap.failed]), hl.lively,
      fun s b hs => hl.owned s b (by cases s <;> exact hs), ?_⟩
    simp only [Heap.failed]
    exact hl.sizes

/-- What clients write in memory does not matter to it. -/
theorem write (hl : HeapLedger seed h live) (mem : Bytes) :
    HeapLedger seed { h with phys := { h.phys with mem } } live := by
  refine ⟨⟨⟨hl.ok.held, hl.ok.arena, hl.ok.large⟩, fun b hb => ?_, hl.aligned, hl.apart⟩,
    hl.booked.congr rfl rfl rfl rfl, hl.lively, fun s b hs =>
      hl.owned s b (by cases s <;> exact hs),
    hl.sizes⟩
  obtain ⟨s, hs⟩ := hl.stored b hb
  exact ⟨s, by cases s <;> exact hs⟩

end HeapLedger

/-! ### Runs -/

/-- A heap without pages holds none. -/
theorem Heap.heldPages_zero {h : Heap} (ha : ∀ i, (h.arenas i).base = 0)
    (hl : ∀ i, (h.large i).base = 0) : h.heldPages = 0 := by
  rw [Heap.heldPages]
  simp only [Heap.arenaPages, Heap.largeHeld, ha, hl, if_true, Finset.sum_const_zero, Nat.add_zero]

/-- At first the ledger is empty. -/
theorem HeapLedger.init (map : List EfiMemoryDescriptor) (mem : Bytes) :
    HeapLedger (pmmSeedFromEfiMap map) (Heap.init ⟨pmmSeedFromEfiMap map, mem⟩) [] := by
  have hzero : (Heap.init ⟨pmmSeedFromEfiMap map, mem⟩).heldPages = 0 :=
    Heap.heldPages_zero (fun _ => rfl) fun _ => rfl
  refine ⟨HeapInv.init map mem, ⟨pmmCounted_seed map, rfl, ?_, ?_, fun _ => ArenaExact.zero,
    fun _ _ => rfl, fun _ _ => rfl⟩, fun i h0 => absurd rfl h0, fun s b hs => ?_, rfl⟩
  · rw [hzero]
    rfl
  · rw [hzero]
    rfl
  · cases s <;> exact absurd rfl (HeapOk.base_ne_zero hs)

/-- All pages that the allocator manages are below 2 GiB. -/
def LowMemory (map : List EfiMemoryDescriptor) : Prop :=
  ∀ p, (pmmSeedFromEfiMap map).eligible p = true → 4096 * p < 2 ^ 31

/-- Every run below 2 GiB keeps the ledger, by induction on the run. -/
theorem HeapReach.ledger {map : List EfiMemoryDescriptor} (hlow : LowMemory map) {h : Heap}
    {live : List HeapBlock} (hr : HeapReach (fun _ _ _ => True) map h live) :
    HeapLedger (pmmSeedFromEfiMap map) h live := by
  have hlow' : ∀ p, (pmmSeedFromEfiMap map).eligible p = true → p < 2 ^ 19 := by
    intro p hp
    have := hlow p hp
    omega
  induction hr with
  | init mem => exact HeapLedger.init map mem
  | alloc bytes alignment _ _ ih => exact ih.alloc hlow' bytes alignment
  | free p _ ih => exact ih.free p
  | write mem _ ih => exact ih.write mem

/-! ### No counter wraps -/

/-- Disjoint blocks fit below the end of memory together. -/
theorem sum_bytes_le {n : Nat} {live : List HeapBlock} (hap : live.Pairwise HeapBlock.Apart)
    (hle : ∀ b ∈ live, b.pointer + b.bytes + 8 ≤ n) : (live.map HeapBlock.bytes).sum ≤ n := by
  suffices h : ∃ c : Finset Nat, c.card = (live.map HeapBlock.bytes).sum ∧
      ∀ x ∈ c, ∃ b ∈ live, b.pointer ≤ x ∧ x < b.pointer + b.bytes by
    obtain ⟨c, hc, hmem⟩ := h
    have hsub : c ⊆ Finset.range n := by
      intro x hx
      obtain ⟨b, hb, -, hlt⟩ := hmem x hx
      have := hle b hb
      exact Finset.mem_range.mpr (by omega)
    have := Finset.card_le_card hsub
    rwa [hc, Finset.card_range] at this
  induction live with
  | nil => exact ⟨∅, rfl, by simp⟩
  | cons b live ih =>
      obtain ⟨hb, hlive⟩ := List.pairwise_cons.mp hap
      obtain ⟨c, hc, hmem⟩ := ih hlive fun b' h' => hle b' (List.mem_cons_of_mem _ h')
      have hdisj : Disjoint (Finset.Ico b.pointer (b.pointer + b.bytes)) c := by
        refine Finset.disjoint_left.mpr fun x hx hx' => ?_
        obtain ⟨b', hb', h₁, h₂⟩ := hmem x hx'
        have hap' := hb b' hb'
        rw [Finset.mem_Ico] at hx
        simp only [HeapBlock.Apart] at hap'
        omega
      refine ⟨Finset.Ico b.pointer (b.pointer + b.bytes) ∪ c, ?_, fun x hx => ?_⟩
      · rw [Finset.card_union_of_disjoint hdisj, Nat.card_Ico, hc, List.map_cons, List.sum_cons,
          Nat.add_sub_cancel_left]
      · rcases Finset.mem_union.mp hx with hx | hx
        · rw [Finset.mem_Ico] at hx
          exact ⟨b, List.mem_cons_self, hx⟩
        · obtain ⟨b', hb', h'⟩ := hmem x hx
          exact ⟨b', List.mem_cons_of_mem _ hb', h'⟩

/-- The pages the heap holds: those that left the allocator. -/
def Heap.taken (map : List EfiMemoryDescriptor) (h : Heap) : Finset Nat :=
  (pmmSeedFromEfiMap map).freeSet \ h.phys.pmm.freeSet

/-- The pages of a block outside of the arenas: those of the entry of `large` with its pointer. -/
def Heap.largePages (h : Heap) (b : HeapBlock) : Nat :=
  ∑ i ∈ Finset.range 64, if (h.large i).pointer = b.pointer then h.largeHeld i else 0

/-- What the heap promises about invalid pointers and about its counters. -/
structure HeapExact (map : List EfiMemoryDescriptor) (h : Heap) (live : List HeapBlock) : Prop where
  free_ok : ∀ p, p ≠ 0 → ((kHeapFree p h).1 = .ok () ↔ ∃ b ∈ live, b.pointer = p ∧ h.Intact b)
  free_null : kHeapFree 0 h = (.ok (), h)
  free_error : ∀ p e, (kHeapFree p h).1 = .error e → (kHeapFree p h).2 = h.failed
  liveBytes : h.stats.liveBytes = (live.map HeapBlock.bytes).sum
  committed : h.stats.committedBytes =
    65536 * ((Finset.range 64).filter fun i => (h.arenas i).base ≠ 0).card +
      4096 * (live.map h.largePages).sum
  taken : h.stats.committedBytes = 4096 * (h.taken map).card
  arenas : ∀ i, (h.arenas i).base ≠ 0 ↔ ∃ b ∈ live, ∃ u, h.StoredAt (.unit i u) b

namespace HeapLedger

variable {map : List EfiMemoryDescriptor} {seed : Pmm} {h : Heap} {live : List HeapBlock}

/-- The pages held are those of the arenas and those of the large records. -/
theorem heldPages_eq (h : Heap) : h.heldPages =
    16 * ((Finset.range 64).filter fun i => (h.arenas i).base ≠ 0).card +
      ∑ i ∈ Finset.range 64, h.largeHeld i := by
  have harena : h.arenaPages = fun i => if (h.arenas i).base ≠ 0 then 16 else 0 := by
    funext i
    rw [Heap.arenaPages]
    split <;> simp [*]
  rw [Heap.heldPages, harena, ← Finset.sum_filter, Finset.sum_const_nat fun _ _ => rfl,
    Nat.mul_comm]

/-- The two sums change places. -/
theorem sum_map_sum {α : Type} (l : List α) (f : Nat → α → Nat) (s : Finset Nat) :
    (l.map fun b => ∑ i ∈ s, f i b).sum = ∑ i ∈ s, (l.map (f i)).sum := by
  induction l with
  | nil => simp
  | cons b l ih => simp only [List.map_cons, List.sum_cons, ih, Finset.sum_add_distrib]

/-- One term of the list counts. -/
theorem sum_map_single {α : Type} {l : List α} {f : α → Nat}
    (hd : l.Pairwise fun b c => f b ≠ f c) {c : α}
    (hc : c ∈ l) (n : Nat) : (l.map fun b => if f c = f b then n else 0).sum = n := by
  induction l with
  | nil => exact absurd hc List.not_mem_nil
  | cons b l ih =>
      obtain ⟨hb, hl⟩ := List.pairwise_cons.mp hd
      rw [List.map_cons, List.sum_cons]
      rcases List.mem_cons.mp hc with rfl | hc
      · have hrest : (l.map fun b => if f c = f b then n else 0).sum = 0 := by
          refine List.sum_eq_zero fun x hx => ?_
          obtain ⟨d, hd, rfl⟩ := List.mem_map.mp hx
          exact if_neg (hb d hd)
        rw [hrest, if_pos rfl, Nat.add_zero]
      · rw [if_neg (hb c hc).symm, ih hl hc, Nat.zero_add]

/-- The entries of `large` in use are those of the live blocks. -/
theorem sum_largePages (hl : HeapLedger seed h live) :
    (live.map h.largePages).sum = ∑ i ∈ Finset.range 64, h.largeHeld i := by
  have hptr : live.Pairwise fun b c => b.pointer ≠ c.pointer := hl.apart.imp fun hbc => by
    rw [HeapBlock.Apart] at hbc
    omega
  rw [show h.largePages = fun b => ∑ i ∈ Finset.range 64,
    if (h.large i).pointer = b.pointer then h.largeHeld i else 0 from rfl, sum_map_sum]
  refine Finset.sum_congr rfl fun i _ => ?_
  by_cases h0 : (h.large i).base = 0
  · rw [Heap.largeHeld, if_pos h0]
    exact List.sum_eq_zero fun x hx => by
      obtain ⟨b, -, rfl⟩ := List.mem_map.mp hx
      exact ite_self 0
  · obtain ⟨c, hc, hp, -⟩ :=
      hl.owned (.large i) ⟨(h.large i).pointer, (h.large i).requested, 1⟩ ⟨h0, rfl, rfl⟩
    have hp : c.pointer = (h.large i).pointer := hp
    rw [← hp]
    exact sum_map_single hptr hc _

/-- The pages taken from the allocator are those the heap holds. -/
theorem taken_card (hl : HeapLedger (pmmSeedFromEfiMap map) h live) :
    (h.taken map).card = h.heldPages ∧ h.heldPages ≤ pmmMaxPages := by
  have hsub : h.phys.pmm.freeSet ⊆ (pmmSeedFromEfiMap map).freeSet := by
    intro p hp
    rw [Pmm.mem_freeSet hl.booked.counted.toPmmOk] at hp
    rw [Pmm.mem_freeSet (pmmOk_seed map), seed_free, ← hl.booked.eligible]
    exact hl.booked.counted.free_eligible p hp
  have hcard := Finset.card_sdiff_of_subset hsub
  have hp := hl.booked.pages
  rw [hl.booked.counted.count, (pmmCounted_seed map).count] at hp
  have hmax : (pmmSeedFromEfiMap map).freeSet.card ≤ pmmMaxPages := by
    have := Finset.card_filter_le (Finset.range pmmMaxPages)
      fun p => (pmmSeedFromEfiMap map).free p = true
    rwa [Finset.card_range] at this
  rw [Heap.taken]
  omega

/-- `k_heap_free` succeeds exactly on a live block whose canary is intact. -/
theorem free_ok_iff {seed : Pmm} (hl : HeapLedger seed h live) {p : Nat} (hp : p ≠ 0) :
    (kHeapFree p h).1 = .ok () ↔ ∃ b ∈ live, b.pointer = p ∧ h.Intact b := by
  constructor
  · intro hok
    rcases kHeapFree_cases p h with ⟨h0, -⟩ | ⟨-, i, hptr, hcan, -⟩
      | ⟨-, i, u, hb, hptr, hlen, hcan, -⟩ |
      ⟨err, e⟩
    · exact absurd h0 hp
    · have hb : (h.large i).base ≠ 0 := fun h0 => hp (hptr ▸ (hl.ok.large i).idle h0)
      obtain ⟨c, hc, e₁, e₂⟩ := hl.owned (.large i) ⟨p, (h.large i).requested, 1⟩ ⟨hb, hptr, rfl⟩
      dsimp only at e₁ e₂
      refine ⟨c, hc, e₁, ?_⟩
      rw [← e₁, ← e₂] at hcan
      exact Heap.canaryOk_iff.mp hcan
    · obtain ⟨c, hc, e₁, e₂⟩ := hl.owned (.unit i u) ⟨p, (h.arenas i).requested u, 1⟩
        ⟨hb, hlen, hptr, rfl⟩
      dsimp only at e₁ e₂
      refine ⟨c, hc, e₁, ?_⟩
      rw [← e₁, ← e₂] at hcan
      exact Heap.canaryOk_iff.mp hcan
    · rw [e] at hok
      cases hok
  · rintro ⟨b, hb, rfl, hcan⟩
    obtain ⟨s, hs⟩ := hl.stored b hb
    have hbase := HeapOk.base_ne_zero hs
    cases s with
    | unit i u => rw [hl.ok.free_unit (hl.booked.lt_of_base hbase) hs hcan]
    | large i => rw [hl.ok.free_large (hl.booked.lt_of_large hbase) hs hcan]

/-- What the ledger says of a state. -/
theorem exact (hl : HeapLedger (pmmSeedFromEfiMap map) h live) : HeapExact map h live := by
  obtain ⟨htaken, hmax⟩ := hl.taken_card
  have hmax' : pmmMaxPages = 67108864 := by decide
  have hcommitted : h.stats.committedBytes = 4096 * h.heldPages := by
    have := hl.booked.committed
    omega
  refine ⟨fun p hp => hl.free_ok_iff hp, rfl, fun p err he => ?_, ?_, ?_, ?_, fun i =>
    ⟨fun hb => ?_, ?_⟩⟩
  · rcases kHeapFree_cases p h with ⟨-, e⟩ | ⟨-, i, -, -, e⟩ | ⟨-, i, u, -, -, -, -, e⟩ | ⟨err', e⟩
    · rw [e] at he
      cases he
    · rw [e] at he
      cases he
    · rw [e] at he
      cases he
    · rw [e]
  · have hsum := sum_bytes_le hl.apart fun b hb => by
      obtain ⟨s, hs⟩ := hl.stored b hb
      exact hl.end_le hs
    have := hl.sizes
    omega
  · rw [hcommitted, heldPages_eq, hl.sum_largePages]
    omega
  · rw [hcommitted, htaken]
  · obtain ⟨u, hu⟩ := hl.lively i hb
    have hs : h.StoredAt (.unit i u) ⟨(h.arenas i).base + 64 * u, (h.arenas i).requested u, 1⟩ :=
      ⟨hb, hu, rfl, rfl⟩
    obtain ⟨c, hc, e₁, e₂⟩ := hl.owned _ _ hs
    exact ⟨c, hc, u, hs.congr e₁ e₂⟩
  · rintro ⟨b, -, u, hs⟩
    exact hs.1

end HeapLedger

/-- **Invalid frees are found and the counters are right.**  In every state of every run over memory
below 2 GiB, `k_heap_free` accepts a pointer other than null just when it is the start of a live
block with an intact canary, and otherwise changes the error counter alone; null it accepts and
ignores. `live_bytes` is the sum of the live requests, `committed_bytes` is what the arenas and the
live large blocks have and what left the page allocator, and an arena has pages just when it has a
live block. -/
theorem heap_free_exact {map : List EfiMemoryDescriptor} (hlow : LowMemory map) {h : Heap}
    {live : List HeapBlock} (hr : HeapReach (fun _ _ _ => True) map h live) :
    HeapExact map h live :=
  (hr.ledger hlow).exact

theorem lowMap_low : LowMemory lowMap := by
  intro p hp
  have hfree : (pmmSeedFromEfiMap lowMap).free p = true := by
    rw [seed_free]
    exact hp
  have h : (pmmSeedFromEfiMap lowMap).free = (seedPages 16 0x100 Pmm.empty).free := rfl
  rw [h, seedPages_free] at hfree
  simp only [Pmm.empty, Bool.false_eq_true, false_or] at hfree
  omega

/-- A block of 100 bytes in the first arena. -/
theorem heap_free_exact_lowMap :
    HeapExact lowMap (kHeapAlloc 100 16 (Heap.init ⟨pmmSeedFromEfiMap lowMap, fun _ => 0⟩)).2
      [⟨0x100000, 100, 16⟩] := by
  have hi : HeapReach (fun _ _ _ => True) lowMap _ _ := .init fun _ => 0
  have hr := HeapReach.alloc 100 16 hi trivial
  have hp :
      (kHeapAlloc 100 16 (Heap.init ⟨pmmSeedFromEfiMap lowMap, fun _ => 0⟩)).1 = 0x100000 := by
    decide +kernel
  rw [hp] at hr
  exact heap_free_exact lowMap_low hr

/-- Without the exception for null: `k_heap_free(NULL)` returns 0 and no live block starts there. -/
theorem heap_free_accepts_null :
    ¬ ∀ (map : List EfiMemoryDescriptor) (h : Heap) (live : List HeapBlock), LowMemory map →
      HeapReach (fun _ _ _ => True) map h live →
        ∀ p, (kHeapFree p h).1 = .ok () ↔ ∃ b ∈ live, b.pointer = p ∧ h.Intact b := by
  intro hall
  obtain ⟨b, hb, -⟩ := (hall lowMap _ _ lowMap_low (.init fun _ => 0) 0).mp rfl
  simp at hb

end Efishell
