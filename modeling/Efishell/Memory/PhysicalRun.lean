import Mathlib.Data.Finset.Card
import Mathlib.Order.Interval.Finset.Nat
import Efishell.Memory.Physical

/-!
# Memory — what the page allocator promises

A run of the allocator starts from `pmm_seed_from_efi_map` on any memory map and makes any calls
with any arguments, while the owners of pages write to memory.  `PmmCounted` is what holds in every
state: the bitmaps are sound, `pmm_free_pages` is the number of free bits and no eligible page is
above `pmm_high_page`.

From `PmmCounted` an allocation fails only where there is no run for it (`PmmAlloc`): the counter
refuses no request that has a run, and the two passes of the search cover every page.  A release is
all or nothing (`PmmFree`).

* `PhysReach.counted`: in every reachable state the free pages are counted.
* `physical_page_allocator`: what the calls do there.
-/

namespace Efishell

/-- The free bits. -/
def Pmm.freeSet (m : Pmm) : Finset Nat := (Finset.range pmmMaxPages).filter fun p => m.free p = true

/-- What holds of the allocator in every state of a run. -/
structure PmmCounted (m : Pmm) : Prop extends PmmOk m where
  count : m.freePages = m.freeSet.card
  below : ∀ p, m.eligible p = true → p < m.high

/-- A run of `count` free pages that `k_pmm_alloc_aligned` may return. -/
structure Pmm.Run (m : Pmm) (count alignment maximum start : Nat) : Prop where
  ge : 256 ≤ start
  aligned : alignment ∣ start
  free : ∀ i < count, m.free (start + i) = true
  le : maximum ≠ 0 → 4096 * (start + count) ≤ maximum

/-- What an allocation answers: zero, with nothing changed, when there is no run; otherwise a run,
which is then taken and zero. -/
structure PmmAlloc (s : Phys) (count alignment maximum : Nat) (r : Nat × Phys) : Prop where
  none_iff : r.1 = 0 ↔ ¬ ∃ start, s.pmm.Run count alignment maximum start
  none_same : r.1 = 0 → r.2 = s
  some_run : r.1 ≠ 0 → ∃ start, r.1 = 4096 * start ∧ s.pmm.Run count alignment maximum start ∧
    (∀ p, r.2.pmm.free p = true ↔ s.pmm.free p = true ∧ ¬ (start ≤ p ∧ p < start + count)) ∧
    r.2.pmm.eligible = s.pmm.eligible ∧
    (∀ b, 4096 * start ≤ b → b < 4096 * (start + count) → r.2.mem b = 0) ∧
    ∀ b, b < 4096 * start ∨ 4096 * (start + count) ≤ b → r.2.mem b = s.mem b

/-- The pages are aligned, eligible and taken. -/
def Pmm.Allocated (m : Pmm) (phys count : Nat) : Prop :=
  0 < count ∧ 4096 ∣ phys ∧
    ∀ p, phys / 4096 ≤ p → p < phys / 4096 + count → m.eligible p = true ∧ m.free p = false

/-- What a release does: it frees all pages named, when all are allocated, or nothing. -/
def PmmFree (m : Pmm) (phys count : Nat) (m' : Pmm) : Prop :=
  (m.Allocated phys count ∧ m'.eligible = m.eligible ∧
    ∀ p, m'.free p = true ↔ m.free p = true ∨ (phys / 4096 ≤ p ∧ p < phys / 4096 + count)) ∨
  (¬ m.Allocated phys count ∧ m' = m)

/-- The states of the allocator over a memory map. -/
inductive PhysReach (map : List EfiMemoryDescriptor) : Phys → Prop where
  | seed (mem : Bytes) : PhysReach map ⟨pmmSeedFromEfiMap map, mem⟩
  | allocAligned {s : Phys} (count alignment maximum : Nat) (hr : PhysReach map s) :
      PhysReach map (kPmmAllocAligned count alignment maximum s).2
  | allocPages {s : Phys} (n maximum : Nat) (hr : PhysReach map s) :
      PhysReach map (kPmmAllocPages n maximum s).2
  | freePages {s : Phys} (phys count : Nat) (hr : PhysReach map s) :
      PhysReach map { s with pmm := kPmmFreePages phys count s.pmm }
  | write {s : Phys} (mem : Bytes) (hr : PhysReach map s) : PhysReach map { s with mem }

/-! ### The free bits -/

/-- The free pages, as a set. -/
theorem Pmm.mem_freeSet {m : Pmm} (h : PmmOk m) {p : Nat} : p ∈ m.freeSet ↔ m.free p = true := by
  rw [Pmm.freeSet, Finset.mem_filter, Finset.mem_range]
  exact ⟨And.right, fun hp => ⟨h.eligible_lt p (h.free_eligible p hp), hp⟩⟩

/-- A run of free pages lies in it. -/
theorem run_subset {m : Pmm} (h : PmmOk m) {start count : Nat}
    (hfree : ∀ i < count, m.free (start + i) = true) :
    Finset.Ico start (start + count) ⊆ m.freeSet := by
  intro p hp
  rw [Finset.mem_Ico] at hp
  refine (Pmm.mem_freeSet h).mpr ?_
  have := hfree (p - start) (by omega)
  rwa [show start + (p - start) = p by omega] at this

/-- The counter refuses no request that has a run. -/
theorem PmmCounted.run_le {m : Pmm} (h : PmmCounted m) {start count : Nat}
    (hfree : ∀ i < count, m.free (start + i) = true) : count ≤ m.freePages := by
  have hcard := Finset.card_le_card (run_subset h.toPmmOk hfree)
  rw [Nat.card_Ico, Nat.add_sub_cancel_left] at hcard
  rw [h.count]
  exact hcard

/-! ### Seeding -/

/-- The bookkeeping of the seed, which sets `high` only after the pages. -/
structure Seeding (m : Pmm) (top : Nat) : Prop extends PmmOk m where
  count : m.freePages = m.freeSet.card
  below : ∀ p, m.eligible p = true → p < top

/-- One page seeded is counted once. -/
theorem Seeding.page {m : Pmm} {top p : Nat} (h : Seeding m top) (hp : 256 ≤ p)
    (hp' : p < pmmMaxPages) (ht : p < top) : Seeding (seedPage m p) top := by
  have hok := h.toPmmOk.seedPage hp hp'
  refine ⟨hok, ?_, fun q hq => ?_⟩
  · by_cases e : m.eligible p = true
    · rw [seedPage, if_pos e]
      exact h.count
    · -- the page is new: it was not free before
      have hnew : p ∉ m.freeSet := fun hmem =>
        e (h.free_eligible p ((Pmm.mem_freeSet h.toPmmOk).mp hmem))
      have hset : (seedPage m p).freeSet = insert p m.freeSet := by
        ext q
        rw [Pmm.mem_freeSet hok, seedPage_free, Finset.mem_insert, Pmm.mem_freeSet h.toPmmOk]
        constructor
        · rintro (hq | ⟨rfl, -⟩)
          · exact Or.inr hq
          · exact Or.inl rfl
        · rintro (rfl | hq)
          · exact Or.inr ⟨rfl, Bool.not_eq_true _ ▸ e⟩
          · exact Or.inl hq
      rw [hset, Finset.card_insert_of_notMem hnew, ← h.count, seedPage, if_neg e]
  · rcases seedPage_eligible.mp hq with hq | rfl
    · exact h.below q hq
    · exact ht

theorem Seeding.pages {n top : Nat} : ∀ {p : Nat} {m : Pmm}, Seeding m top → 256 ≤ p →
    p + n ≤ pmmMaxPages → p + n ≤ top → Seeding (seedPages n p m) top := by
  induction n with
  | zero =>
      intro p m h _ _ _
      exact h
  | succ n ih =>
      intro p m h hp hn ht
      exact ih (h.page hp (by omega) (by omega)) (by omega) (by omega) (by omega)

theorem seedPage_high (m : Pmm) (p : Nat) : (seedPage m p).high = m.high := by
  rw [seedPage]
  split <;> rfl

theorem seedPages_high {n : Nat} : ∀ (p : Nat) (m : Pmm), (seedPages n p m).high = m.high := by
  induction n with
  | zero => exact fun _ _ => rfl
  | succ n ih =>
      intro p m
      rw [seedPages, ih, seedPage_high]

/-- A range of pages is counted. -/
theorem PmmCounted.seedRange {m : Pmm} (h : PmmCounted m) {first last : Nat}
    (hl : last ≤ pmmMaxPages) : PmmCounted (seedRange m first last) := by
  rw [Efishell.seedRange]
  generalize hf : (if first < 256 then 256 else first) = lo
  have hlo : 256 ≤ lo := by
    split at hf <;> omega
  have hstart : Seeding m (max m.high last) :=
    ⟨h.toPmmOk, h.count, fun p hp => lt_of_lt_of_le (h.below p hp) (Nat.le_max_left _ _)⟩
  have hs : Seeding (seedPages (last - lo) lo m) (max m.high last) := by
    by_cases hle : lo ≤ last
    · exact hstart.pages hlo (by omega) (by omega)
    · rw [show last - lo = 0 by omega]
      exact hstart
  rw [seedPages_high]
  split
  · rename_i hlt
    exact ⟨⟨hs.free_eligible, hs.eligible_ge, hs.eligible_lt⟩, hs.count,
      fun p hp => by simpa [Nat.max_eq_right hlt.le] using hs.below p hp⟩
  · rename_i hlt
    refine ⟨hs.toPmmOk, hs.count, fun p hp => ?_⟩
    rw [seedPages_high]
    simpa [Nat.max_eq_left (Nat.not_lt.mp hlt)] using hs.below p hp

/-- A descriptor's pages are counted. -/
theorem PmmCounted.seedDescriptor {m : Pmm} (h : PmmCounted m) (d : EfiMemoryDescriptor) :
    PmmCounted (seedDescriptor m d) := by
  rw [Efishell.seedDescriptor]
  split
  · exact h
  · dsimp only
    split
    · exact h
    · exact h.seedRange (by omega)

theorem PmmCounted.empty : PmmCounted Pmm.empty where
  toPmmOk := PmmOk.empty
  count := by simp [Pmm.empty, Pmm.freeSet]
  below := fun _ h => absurd h Bool.false_ne_true

/-- The counter of a seeded allocator is right, also where descriptors overlap. -/
theorem pmmCounted_seed (map : List EfiMemoryDescriptor) : PmmCounted (pmmSeedFromEfiMap map) := by
  have h : ∀ (map : List EfiMemoryDescriptor) (m : Pmm), PmmCounted m →
      PmmCounted (map.foldl seedDescriptor m) := by
    intro map
    induction map with
    | nil => exact fun m hm => hm
    | cons d map ih => exact fun m hm => ih _ (hm.seedDescriptor d)
  exact h map _ PmmCounted.empty

theorem seedPage_free_eq {m : Pmm} (hm : m.free = m.eligible) (p : Nat) :
    (seedPage m p).free = (seedPage m p).eligible := by
  rw [seedPage]
  split
  · exact hm
  · simp only [hm]

/-- Every page seeded is free. -/
theorem seedPages_free_eq {n : Nat} : ∀ {m : Pmm} (p : Nat), m.free = m.eligible →
    (seedPages n p m).free = (seedPages n p m).eligible := by
  induction n with
  | zero => exact fun _ hm => hm
  | succ n ih => exact fun p hm => ih (p + 1) (seedPage_free_eq hm p)

theorem seedDescriptor_free_eq {m : Pmm} (hm : m.free = m.eligible) (d : EfiMemoryDescriptor) :
    (seedDescriptor m d).free = (seedDescriptor m d).eligible := by
  rw [seedDescriptor]
  split
  · exact hm
  · dsimp only
    split
    · exact hm
    · rw [seedRange]
      generalize (if d.physicalStart / 4096 < 256 then 256 else d.physicalStart / 4096) = lo
      split <;> exact seedPages_free_eq lo hm

/-- Every eligible page of a fresh allocator is free. -/
theorem seed_free (map : List EfiMemoryDescriptor) :
    (pmmSeedFromEfiMap map).free = (pmmSeedFromEfiMap map).eligible := by
  have h : ∀ (map : List EfiMemoryDescriptor) (m : Pmm), m.free = m.eligible →
      (map.foldl seedDescriptor m).free = (map.foldl seedDescriptor m).eligible := by
    intro map
    induction map with
    | nil => exact fun m hm => hm
    | cons d map ih => exact fun m hm => ih _ (seedDescriptor_free_eq hm d)
  exact h map _ rfl

/-! ### Calls -/

/-- A claim of free pages is counted off. -/
theorem PmmCounted.claim {s : Phys} (h : PmmCounted s.pmm) {start count : Nat}
    (hfree : ∀ i < count, s.pmm.free (start + i) = true) :
    PmmCounted (s.claim start count).pmm := by
  have hok := h.toPmmOk.claim start count
  refine ⟨hok, ?_, h.below⟩
  have hset : (s.claim start count).pmm.freeSet =
      s.pmm.freeSet \ Finset.Ico start (start + count) := by
    ext p
    rw [Pmm.mem_freeSet hok, Phys.claim_free, Finset.mem_sdiff, Pmm.mem_freeSet h.toPmmOk,
      Finset.mem_Ico]
  rw [hset, Finset.card_sdiff_of_subset (run_subset h.toPmmOk hfree), Nat.card_Ico, ← h.count,
    Nat.add_sub_cancel_left]
  rfl

/-- `k_pmm_alloc_aligned` keeps the count. -/
theorem PmmCounted.allocAligned {s : Phys} (h : PmmCounted s.pmm) (count alignment maximum : Nat) :
    PmmCounted (kPmmAllocAligned count alignment maximum s).2.pmm := by
  rcases kPmmAllocAligned_cases count alignment maximum s with e | ⟨start, e, -, hrun, -⟩
  · rw [e]
    exact h
  · rw [e]
    exact h.claim hrun.2

/-- A release whose arguments pass the range checks, or none. -/
theorem kPmmFreePages_cases (phys count : Nat) (m : Pmm) :
    (kPmmFreePages phys count m = m.release (phys / 4096) count ∧ 0 < count ∧ 4096 ∣ phys ∧
      m.held (phys / 4096) count = true) ∨
    (kPmmFreePages phys count m = m ∧
      (count = 0 ∨ ¬ 4096 ∣ phys ∨ pmmMaxPages < phys / 4096 + count ∨
        m.held (phys / 4096) count = false)) := by
  have hand : phys &&& 4095 = phys % 4096 := and_sub_one_eq_mod (a := 4096) (by decide) phys
  rw [kPmmFreePages, hand]
  split
  · rename_i hbad
    refine Or.inr ⟨rfl, ?_⟩
    rcases hbad with e | e | e | e
    · exact Or.inl e
    · exact Or.inr (Or.inl fun hd => e (Nat.mod_eq_zero_of_dvd hd))
    · rcases Nat.eq_zero_or_pos count with h0 | h0
      · exact Or.inl h0
      · exact Or.inr (Or.inr (Or.inl (by omega)))
    · exact Or.inr (Or.inr (Or.inl (by omega)))
  · rename_i hgood
    split
    · rename_i hheld
      exact Or.inr ⟨rfl, Or.inr (Or.inr (Or.inr hheld))⟩
    · rename_i hheld
      exact Or.inl ⟨rfl, by omega, Nat.dvd_of_mod_eq_zero (by omega), Bool.not_eq_false _ ▸ hheld⟩

/-- A release is counted. -/
theorem PmmCounted.release {m : Pmm} (h : PmmCounted m) {start count : Nat}
    (hheld : m.held start count = true) :
    PmmCounted (m.release start count) := by
  have hok := h.toPmmOk.release hheld
  have hh := Pmm.held_iff.mp hheld
  refine ⟨hok, ?_, h.below⟩
  have hset : (m.release start count).freeSet =
      m.freeSet ∪ Finset.Ico start (start + count) := by
    ext p
    rw [Pmm.mem_freeSet hok, Pmm.release_free, Finset.mem_union, Pmm.mem_freeSet h.toPmmOk,
      Finset.mem_Ico]
  have hdisj : Disjoint m.freeSet (Finset.Ico start (start + count)) := by
    refine Finset.disjoint_left.mpr fun p hp hp' => ?_
    rw [Finset.mem_Ico] at hp'
    have := (hh p hp'.1 hp'.2).2
    rw [(Pmm.mem_freeSet h.toPmmOk).mp hp] at this
    cases this
  rw [hset, Finset.card_union_of_disjoint hdisj, Nat.card_Ico, ← h.count, Nat.add_sub_cancel_left]
  rfl

theorem PmmCounted.freePages {m : Pmm} (h : PmmCounted m) (phys count : Nat) :
    PmmCounted (kPmmFreePages phys count m) := by
  rcases kPmmFreePages_cases phys count m with ⟨e, -, -, hheld⟩ | ⟨e, -⟩
  · rw [e]
    exact h.release hheld
  · rw [e]
    exact h

/-- Every reachable allocator has its pages counted. -/
theorem PhysReach.counted {map : List EfiMemoryDescriptor} {s : Phys} (hr : PhysReach map s) :
    PmmCounted s.pmm := by
  induction hr with
  | seed mem => exact pmmCounted_seed map
  | allocAligned count alignment maximum _ ih => exact ih.allocAligned count alignment maximum
  | allocPages n maximum _ ih => exact ih.allocAligned n 1 maximum
  | freePages phys count _ ih => exact ih.freePages phys count
  | write mem _ ih => exact ih

/-! ### Exact answers -/

/-- A run below `maximum` ends below the limit of the search. -/
theorem PmmCounted.run_limit {m : Pmm} (h : PmmCounted m) {count alignment maximum start : Nat}
    (hc : 0 < count) (hrun : m.Run count alignment maximum start) :
    start + count ≤ m.limit maximum := by
  have hlast := h.below _ (h.free_eligible _ (hrun.free (count - 1) (by omega)))
  rw [Pmm.limit]
  split
  · rename_i hm
    have := hrun.le hm
    omega
  · omega

/-- A run of free pages is one the caller may get. -/
theorem PmmCounted.freeRun_run {m : Pmm} (h : PmmCounted m) {count alignment maximum start : Nat}
    (hc : 0 < count) (ha : power2 alignment = true) (hrun : FreeRun m.free count alignment start)
    (hl : start + count ≤ m.limit maximum) : m.Run count alignment maximum start where
  ge := by
    have := h.eligible_ge _ (h.free_eligible _ (hrun.2 0 hc))
    omega
  aligned := by
    have hand := hrun.1
    rw [and_sub_one_eq_mod ha] at hand
    exact Nat.dvd_of_mod_eq_zero hand
  free := hrun.2
  le := by
    intro hm
    rw [Pmm.limit, if_pos hm] at hl
    omega

/-- One the caller may get is a run of free pages. -/
theorem Pmm.Run.freeRun {m : Pmm} {count alignment maximum start : Nat}
    (hrun : m.Run count alignment maximum start) (ha : power2 alignment = true) :
    FreeRun m.free count alignment start := by
  refine ⟨?_, hrun.free⟩
  rw [and_sub_one_eq_mod ha]
  exact Nat.mod_eq_zero_of_dvd hrun.aligned

/-- What an allocation does. -/
theorem PmmCounted.alloc {s : Phys} (h : PmmCounted s.pmm) {count alignment maximum : Nat}
    (hc : 0 < count) (ha : power2 alignment = true) :
    PmmAlloc s count alignment maximum (kPmmAllocAligned count alignment maximum s) := by
  rcases kPmmAllocAligned_cases count alignment maximum s with e | ⟨start, e, -, hrun, hl, -⟩
  · -- nothing was found: a run would have been
    refine ⟨⟨fun _ => ?_, fun _ => by rw [e]⟩, fun _ => by rw [e], fun hne => absurd ?_ hne⟩
    · rintro ⟨start, hrun⟩
      obtain ⟨t, ht, htrun⟩ := kPmmAllocAligned_succeeds ha hc (h.run_le hrun.free) hrun.ge
        (h.run_limit hc hrun) (hrun.freeRun ha)
      have hend : t + count ≤ s.pmm.limit 0 := by
        have := h.below _ (h.free_eligible _ (htrun.2 (count - 1) (by omega)))
        simp only [Pmm.limit, ne_eq, not_true_eq_false, if_false]
        omega
      have hpos := (h.freeRun_run hc ha htrun hend).ge
      rw [e] at ht
      have := congrArg Prod.fst ht
      dsimp only at this
      omega
    · rw [e]
  · have hr := h.freeRun_run hc ha hrun hl
    have hpos : 4096 * start ≠ 0 := by
      have := hr.ge
      omega
    rw [e]
    refine ⟨⟨fun h0 => absurd h0 hpos, fun hno => absurd ⟨start, hr⟩ hno⟩, fun h0 => absurd h0 hpos,
      fun _ => ⟨start, rfl, hr, fun p => Phys.claim_free, rfl, fun b h₁ h₂ => ?_, fun b hb => ?_⟩⟩
    · exact if_pos ⟨h₁, by omega⟩
    · exact if_neg (by omega)

/-- What a release does. -/
theorem PmmOk.free {m : Pmm} (h : PmmOk m) (phys count : Nat) :
    PmmFree m phys count (kPmmFreePages phys count m) := by
  rcases kPmmFreePages_cases phys count m with ⟨e, hc, hd, hheld⟩ | ⟨e, hbad⟩
  · rw [e]
    exact Or.inl ⟨⟨hc, hd, fun p h₁ h₂ => Pmm.held_iff.mp hheld p h₁ h₂⟩, rfl,
      fun p => Pmm.release_free⟩
  · rw [e]
    refine Or.inr ⟨?_, rfl⟩
    rintro ⟨hc, hd, hall⟩
    rcases hbad with hz | hz | hz | hz
    · omega
    · exact hz hd
    · have := h.eligible_lt _ (hall (phys / 4096 + count - 1) (by omega) (by omega)).1
      omega
    · rw [Pmm.held_iff.mpr hall] at hz
      cases hz

/-- **The page allocator.**  In every state of every run over any memory map the free pages are
eligible and above the low memory and `pmm_free_pages` counts them; an allocation fails only where
no run fits, and takes and zeroes one otherwise; a release frees all of its pages or changes
nothing. -/
theorem physical_page_allocator {map : List EfiMemoryDescriptor} {s : Phys} (hr : PhysReach map s) :
    (∀ p, s.pmm.free p = true → s.pmm.eligible p = true ∧ 256 ≤ p) ∧
    s.pmm.freePages = s.pmm.freeSet.card ∧
    (∀ count alignment maximum, 0 < count → power2 alignment = true →
      PmmAlloc s count alignment maximum (kPmmAllocAligned count alignment maximum s)) ∧
    ∀ phys count, PmmFree s.pmm phys count (kPmmFreePages phys count s.pmm) := by
  have h := hr.counted
  exact ⟨fun p hp => ⟨h.free_eligible p hp, h.eligible_ge p (h.free_eligible p hp)⟩, h.count,
    fun count alignment maximum hc ha => h.alloc hc ha, fun phys count => h.toPmmOk.free phys count⟩

/-- Two descriptors that share a page. -/
def overlappingMap : List EfiMemoryDescriptor :=
  [⟨efiConventionalMemory, 0x100000, 2⟩, ⟨efiConventionalMemory, 0x101000, 2⟩]

/-- Two of the three pages are taken, and the first one is given back. -/
def overlappingRun : Phys :=
  let s := (kPmmAllocAligned 2 2 0 ⟨pmmSeedFromEfiMap overlappingMap, fun _ => 1⟩).2
  { s with pmm := kPmmFreePages 0x100000 1 s.pmm }

/-- The run takes pages and gives some back. -/
theorem overlappingRun_reach : PhysReach overlappingMap overlappingRun :=
  .freePages 0x100000 1 (.allocAligned 2 2 0 (.seed _))

/-- The pages 256 and 258 are free, so two of them are no run. -/
theorem physical_page_allocator_overlapping :
    overlappingRun.pmm.freePages = 2 ∧ overlappingRun.pmm.freeSet.card = 2 ∧
      (kPmmAllocAligned 1 1 0 overlappingRun).1 = 0x100000 ∧
      ¬ ∃ start, overlappingRun.pmm.Run 2 1 0 start := by
  obtain ⟨-, hcount, halloc, -⟩ := physical_page_allocator overlappingRun_reach
  have hfree : overlappingRun.pmm.freePages = 2 := by decide
  refine ⟨hfree, hcount.symm.trans hfree, by decide, ?_⟩
  exact (halloc 2 1 0 (by decide) (by decide)).none_iff.mp (by decide)

end Efishell
