import Efishell.Kernel.Bytes

/-!
# Memory — physical pages

The page allocator of `kernel/mm/physical.c`.  `page_bitmap` is `free`, `eligible_bitmap` is
`eligible`; both are functions from page numbers to bits.  The allocator zeroes the pages it hands
out, so its operations act on the allocator together with physical memory (`Phys`).

`PmmOk` is the invariant of the bitmaps.  `kPmmAllocAligned_cases` says once what an allocation
can do: nothing, or the removal of a free run (`Phys.claim`), which for a request of several pages
is the lowest one.

`PagesHeld` and `Ledger` keep the books for any set of holders of pages: no page has two of them,
and what they hold is exactly what has left the allocator.

* `pmmScan_spec`: the scan finds the lowest run.
* `kPmmAllocAligned_cases`: an allocation takes a free run or changes nothing.
-/

namespace Efishell

/-- The state of the allocator. -/
structure Pmm where
  free : Nat → Bool
  eligible : Nat → Bool
  freePages : Nat
  totalPages : Nat
  cursor : Nat
  high : Nat

/-- The allocator with the memory it manages. -/
structure Phys where
  pmm : Pmm
  mem : Bytes

/-- `PMM_MAX_PAGES`. -/
def pmmMaxPages : Nat := 256 * 262144

/-! ### Seeding -/

/-- The fields of `EFI_MEMORY_DESCRIPTOR` that `pmm_seed_from_efi_map` reads. -/
structure EfiMemoryDescriptor where
  type : Nat
  physicalStart : Nat
  numberOfPages : Nat

/-- `EfiConventionalMemory`. -/
def efiConventionalMemory : Nat := 7

/-- The allocator before the memory map is read. -/
def Pmm.empty : Pmm where
  free := fun _ => false
  eligible := fun _ => false
  freePages := 0
  totalPages := 0
  cursor := 0
  high := 0

/-- One page of a descriptor; a page that two descriptors name counts once. -/
def seedPage (m : Pmm) (p : Nat) : Pmm :=
  if m.eligible p then m
  else { m with
    eligible := Function.update m.eligible p true
    free := Function.update m.free p true
    freePages := m.freePages + 1
    totalPages := m.totalPages + 1 }

/-- The loop over the `n` pages from `p` on. -/
def seedPages : Nat → Nat → Pmm → Pmm
  | 0, _, m => m
  | n + 1, p, m => seedPages n (p + 1) (seedPage m p)

/-- The pages from `first` to `last`, the low memory left out. -/
def seedRange (m : Pmm) (first last : Nat) : Pmm :=
  let first := if first < 256 then 256 else first
  let m := seedPages (last - first) first m
  if m.high < last then { m with high := last } else m

/-- One descriptor of the memory map. -/
def seedDescriptor (m : Pmm) (d : EfiMemoryDescriptor) : Pmm :=
  if d.type ≠ efiConventionalMemory ∨ d.physicalStart &&& 4095 ≠ 0 then m
  else
    let first := d.physicalStart / 4096
    if pmmMaxPages ≤ first then m
    else seedRange m first (first + min d.numberOfPages (pmmMaxPages - first))

/-- `pmm_seed_from_efi_map`. -/
def pmmSeedFromEfiMap (map : List EfiMemoryDescriptor) : Pmm := map.foldl seedDescriptor Pmm.empty

/-! ### Allocation and release -/

/-- One pass of the search: `left` pages from `p` on remain, `run` pages before `p` are free and
belong to the candidate at `start`. -/
def pmmScan (free : Nat → Bool) (count alignment : Nat) : Nat → Nat → Nat → Nat → Option Nat
  | 0, _, _, _ => none
  | left + 1, p, run, start =>
      if free p then
        if run = 0 ∧ p &&& (alignment - 1) ≠ 0 then
          pmmScan free count alignment left (p + 1) run start
        else
          let start := if run = 0 then p else start
          if run + 1 = count then some start
          else pmmScan free count alignment left (p + 1) (run + 1) start
      else pmmScan free count alignment left (p + 1) 0 start

/-- The run of `count` pages at `start` is taken and zeroed. -/
def Phys.claim (s : Phys) (start count : Nat) : Phys where
  pmm := { s.pmm with
    free := fun p => s.pmm.free p && !(decide (start ≤ p) && decide (p < start + count))
    freePages := s.pmm.freePages - count
    cursor := start + count }
  mem := memZero s.mem (4096 * start) (4096 * count)

/-- `maximum ? MIN(maximum / 4096, pmm_high_page) : pmm_high_page`. -/
def Pmm.limit (m : Pmm) (maximum : Nat) : Nat :=
  if maximum ≠ 0 then min (maximum / 4096) m.high else m.high

/-- `k_pmm_alloc_aligned`: the address of the pages, zeroed, or zero. -/
def kPmmAllocAligned (count alignment maximum : Nat) (s : Phys) : Nat × Phys :=
  if power2 alignment = false then (0, s)
  else if count = 0 then (0, s)
  else
    let limit := s.pmm.limit maximum
    if s.pmm.freePages < count ∨ limit < count then (0, s)
    else
      let cursor := if count = 1 ∧ s.pmm.cursor < limit then s.pmm.cursor else 256
      match pmmScan s.pmm.free count alignment (limit - cursor) cursor 0 0 with
      | some start => (4096 * start, s.claim start count)
      | none =>
          match pmmScan s.pmm.free count alignment (cursor - 256) 256 0 0 with
          | some start => (4096 * start, s.claim start count)
          | none => (0, s)

/-- `k_pmm_alloc_pages`. -/
def kPmmAllocPages (n maximum : Nat) (s : Phys) : Nat × Phys := kPmmAllocAligned n 1 maximum s

/-- `pmm_alloc_page`. -/
def pmmAllocPage (s : Phys) : Nat × Phys := kPmmAllocPages 1 0 s

/-- The `n` pages from `start` on are all eligible and taken. -/
def Pmm.held (m : Pmm) (start n : Nat) : Bool :=
  (List.range n).all fun i => m.eligible (start + i) && !m.free (start + i)

/-- The run of `count` pages at `start` is free again. -/
def Pmm.release (m : Pmm) (start count : Nat) : Pmm := { m with
  free := fun p => m.free p || (decide (start ≤ p) && decide (p < start + count))
  freePages := m.freePages + count
  cursor := if start < m.cursor then start else m.cursor }

/-- `k_pmm_free_pages`: all the pages, or none when one of them was not given out. -/
def kPmmFreePages (phys count : Nat) (m : Pmm) : Pmm :=
  if count = 0 ∨ phys &&& 4095 ≠ 0 ∨ pmmMaxPages ≤ phys / 4096 ∨
      pmmMaxPages - phys / 4096 < count then m
  else if m.held (phys / 4096) count = false then m
  else m.release (phys / 4096) count

/-- `pmm_free_page`. -/
def pmmFreePage (phys : Nat) (m : Pmm) : Pmm := kPmmFreePages phys 1 m

/-! ### The bitmaps -/

/-- What holds of the bitmaps at all times. -/
structure PmmOk (m : Pmm) : Prop where
  free_eligible : ∀ p, m.free p = true → m.eligible p = true
  eligible_ge : ∀ p, m.eligible p = true → 256 ≤ p
  eligible_lt : ∀ p, m.eligible p = true → p < pmmMaxPages

theorem PmmOk.empty : PmmOk Pmm.empty where
  free_eligible := fun _ h => h
  eligible_ge := fun _ h => absurd h Bool.false_ne_true
  eligible_lt := fun _ h => absurd h Bool.false_ne_true

theorem PmmOk.seedPage {m : Pmm} (h : PmmOk m) {p : Nat} (hp : 256 ≤ p) (hp' : p < pmmMaxPages) :
    PmmOk (seedPage m p) := by
  rw [Efishell.seedPage]
  by_cases e : m.eligible p = true
  · rw [if_pos e]
    exact h
  · rw [if_neg e]
    refine ⟨fun q hq => ?_, fun q hq => ?_, fun q hq => ?_⟩
    all_goals
      rcases eq_or_ne q p with rfl | hne
      · first | exact Function.update_self _ _ _ | assumption
      · simp only [Function.update_of_ne hne] at hq ⊢
        first | exact h.free_eligible q hq | exact h.eligible_ge q hq | exact h.eligible_lt q hq

/-- A range of pages more. -/
theorem PmmOk.seedPages {n : Nat} : ∀ {p : Nat} {m : Pmm}, PmmOk m → 256 ≤ p →
    p + n ≤ pmmMaxPages → PmmOk (seedPages n p m) := by
  induction n with
  | zero =>
      intro p m h _ _
      exact h
  | succ n ih =>
      intro p m h hp hn
      exact ih (h.seedPage hp (by omega)) (by omega) (by omega)

/-- The pages of a descriptor above 1 MiB. -/
theorem PmmOk.seedRange {m : Pmm} (h : PmmOk m) {first last : Nat} (hl : last ≤ pmmMaxPages) :
    PmmOk (seedRange m first last) := by
  rw [Efishell.seedRange]
  generalize hf : (if first < 256 then 256 else first) = lo
  have hlo : 256 ≤ lo := by
    split at hf <;> omega
  have h256 : 256 ≤ pmmMaxPages := by decide
  have hs : PmmOk (Efishell.seedPages (last - lo) lo m) := by
    by_cases hle : lo ≤ last
    · exact h.seedPages hlo (by omega)
    · rw [show last - lo = 0 by omega]
      exact h
  split
  · exact ⟨hs.free_eligible, hs.eligible_ge, hs.eligible_lt⟩
  · exact hs

/-- One descriptor keeps the bitmaps in order. -/
theorem PmmOk.seedDescriptor {m : Pmm} (h : PmmOk m) (d : EfiMemoryDescriptor) :
    PmmOk (seedDescriptor m d) := by
  rw [Efishell.seedDescriptor]
  split
  · exact h
  · dsimp only
    split
    · exact h
    · exact h.seedRange (by omega)

/-- Any memory map gives sound bitmaps. -/
theorem pmmOk_seed (map : List EfiMemoryDescriptor) : PmmOk (pmmSeedFromEfiMap map) := by
  have h : ∀ (map : List EfiMemoryDescriptor) (m : Pmm), PmmOk m →
      PmmOk (map.foldl seedDescriptor m) := by
    intro map
    induction map with
    | nil => exact fun m hm => hm
    | cons d map ih => exact fun m hm => ih _ (hm.seedDescriptor d)
  exact h map _ PmmOk.empty

/-- The page is eligible. -/
theorem seedPage_eligible {m : Pmm} {p q : Nat} :
    (seedPage m p).eligible q = true ↔ m.eligible q = true ∨ q = p := by
  rw [seedPage]
  by_cases e : m.eligible p = true
  · rw [if_pos e]
    refine ⟨Or.inl, ?_⟩
    rintro (h | rfl)
    · exact h
    · exact e
  · rw [if_neg e]
    simp only [Function.update_apply]
    split <;> simp [*]

theorem seedPage_free {m : Pmm} {p q : Nat} :
    (seedPage m p).free q = true ↔ m.free q = true ∨ (q = p ∧ m.eligible q = false) := by
  rw [seedPage]
  by_cases e : m.eligible p = true
  · rw [if_pos e]
    refine ⟨Or.inl, ?_⟩
    rintro (h | ⟨rfl, h⟩)
    · exact h
    · rw [e] at h
      cases h
  · rw [if_neg e]
    simp only [Function.update_apply]
    split
    · rename_i hq
      rw [hq]
      simp [e]
    · rename_i hq
      simp [hq]

/-- The loop over a range frees those of its pages that no descriptor named before. -/
theorem seedPages_free {n : Nat} : ∀ {p : Nat} {m : Pmm} {q : Nat},
    (seedPages n p m).free q = true ↔
      m.free q = true ∨ (p ≤ q ∧ q < p + n ∧ m.eligible q = false) := by
  induction n with
  | zero =>
      intro p m q
      refine ⟨Or.inl, ?_⟩
      rintro (h | ⟨h₁, h₂, -⟩)
      · exact h
      · omega
  | succ n ih =>
      intro p m q
      have he := seedPage_eligible (m := m) (p := p) (q := q)
      rw [seedPages, ih, seedPage_free]
      constructor
      · rintro ((h | ⟨h₁, h₂⟩) | ⟨h₁, h₂, h₃⟩)
        · exact Or.inl h
        · exact Or.inr ⟨by omega, by omega, h₂⟩
        · refine Or.inr ⟨by omega, by omega, ?_⟩
          by_contra hne
          rw [he.mpr (Or.inl (Bool.not_eq_false _ ▸ hne))] at h₃
          cases h₃
      · rintro (h | ⟨h₁, h₂, h₃⟩)
        · exact Or.inl (Or.inl h)
        · rcases Nat.eq_or_lt_of_le h₁ with e | e
          · exact Or.inl (Or.inr ⟨e.symm, h₃⟩)
          · refine Or.inr ⟨by omega, by omega, ?_⟩
            by_contra hne
            rcases he.mp (Bool.not_eq_false _ ▸ hne) with h | h
            · rw [h₃] at h
              cases h
            · omega

/-! ### The search -/

/-- A run of `count` free pages at an aligned page. -/
def FreeRun (free : Nat → Bool) (count alignment s : Nat) : Prop :=
  s &&& (alignment - 1) = 0 ∧ ∀ i < count, free (s + i) = true

/-- The state of a pass that started at `lo`: the candidate is free so far, and no run starts
before it. -/
structure ScanInv (free : Nat → Bool) (count alignment lo p run start : Nat) : Prop where
  lo_le : lo ≤ p
  run_lt : run < count
  start_ge : run ≠ 0 → lo ≤ start
  start_eq : run ≠ 0 → start + run = p
  aligned : run ≠ 0 → start &&& (alignment - 1) = 0
  is_free : run ≠ 0 → ∀ i < run, free (start + i) = true
  before : ∀ s, lo ≤ s → s < (if run = 0 then p else start) → ¬ FreeRun free count alignment s

namespace ScanInv

variable {free : Nat → Bool} {count alignment lo p run start : Nat}

/-- Nothing has been scanned. -/
theorem init (hc : 0 < count) (start : Nat) : ScanInv free count alignment p p 0 start :=
  ⟨Nat.le_refl p, hc, by simp, by simp, by simp, by simp,
    fun s h₁ h₂ => absurd h₂ (by rw [if_pos rfl]; exact Nat.not_lt.mpr h₁)⟩

/-- A page that no run can start at or contain. -/
theorem skip (h : ScanInv free count alignment lo p run start)
    (hs : ∀ s, s ≤ p → p < s + count → ¬ FreeRun free count alignment s) :
    ScanInv free count alignment lo (p + 1) 0 start := by
  refine ⟨by have := h.lo_le; omega, by have := h.run_lt; omega, by simp, by simp, by simp, by simp,
    fun s hlo hlt => ?_⟩
  rw [if_pos rfl] at hlt
  have hb := h.before s hlo
  have hrun := h.run_lt
  by_cases hr : run = 0
  · rw [if_pos hr] at hb
    rcases Nat.lt_or_ge s p with e | e
    · exact hb e
    · exact hs s (by omega) (by omega)
  · rw [if_neg hr] at hb
    have heq := h.start_eq hr
    rcases Nat.lt_or_ge s start with e | e
    · exact hb e
    · exact hs s (by omega) (by omega)

/-- A free page that starts or extends the candidate. -/
theorem extend (h : ScanInv free count alignment lo p run start) (hf : free p = true)
    (ha : run = 0 → p &&& (alignment - 1) = 0) (hc : run + 1 < count) :
    ScanInv free count alignment lo (p + 1) (run + 1) (if run = 0 then p else start) := by
  by_cases hr : run = 0
  · subst hr
    rw [if_pos rfl]
    refine ⟨by have := h.lo_le; omega, hc, fun _ => h.lo_le, fun _ => rfl, fun _ => ha rfl,
      fun _ i hi => ?_, fun s hlo hlt => ?_⟩
    · obtain rfl : i = 0 := by omega
      exact hf
    · exact h.before s hlo (by simpa using hlt)
  · rw [if_neg hr]
    have heq := h.start_eq hr
    refine ⟨by have := h.lo_le; omega, hc, fun _ => h.start_ge hr, fun _ => by omega,
      fun _ => h.aligned hr, fun _ i hi => ?_, fun s hlo hlt => ?_⟩
    · rcases Nat.lt_or_ge i run with e | e
      · exact h.is_free hr i e
      · obtain rfl : i = run := by omega
        rwa [heq]
    · refine h.before s hlo ?_
      rw [if_neg hr]
      simpa using hlt

end ScanInv

/-- The candidate is complete: it is the first run from `lo` on. -/
theorem ScanInv.found {free : Nat → Bool} {count alignment lo p run start : Nat}
    (h : ScanInv free count alignment lo p run start) (hf : free p = true)
    (ha : run = 0 → p &&& (alignment - 1) = 0) (hc : run + 1 = count) :
    FreeRun free count alignment (if run = 0 then p else start) ∧
      lo ≤ (if run = 0 then p else start) ∧ (if run = 0 then p else start) + count = p + 1 ∧
      ∀ s, lo ≤ s → s < (if run = 0 then p else start) → ¬ FreeRun free count alignment s := by
  refine ⟨?_, ?_, ?_, h.before⟩
  · by_cases hr : run = 0
    · rw [if_pos hr]
      refine ⟨ha hr, fun i hi => ?_⟩
      obtain rfl : i = 0 := by omega
      exact hf
    · rw [if_neg hr]
      have heq := h.start_eq hr
      refine ⟨h.aligned hr, fun i hi => ?_⟩
      rcases Nat.lt_or_ge i run with e | e
      · exact h.is_free hr i e
      · obtain rfl : i = run := by omega
        rwa [heq]
  · by_cases hr : run = 0
    · rw [if_pos hr]
      exact h.lo_le
    · rw [if_neg hr]
      exact h.start_ge hr
  · by_cases hr : run = 0
    · rw [if_pos hr]
      omega
    · rw [if_neg hr]
      have := h.start_eq hr
      omega

/-- A pass finds the first run of its window, or there is none. -/
theorem pmmScan_spec {free : Nat → Bool} {count alignment lo : Nat} (left : Nat) :
    ∀ {p run start : Nat}, ScanInv free count alignment lo p run start →
      match pmmScan free count alignment left p run start with
      | some t => FreeRun free count alignment t ∧ lo ≤ t ∧ t + count ≤ p + left ∧
          ∀ s, lo ≤ s → s < t → ¬ FreeRun free count alignment s
      | none => ∀ s, lo ≤ s → s + count ≤ p + left → ¬ FreeRun free count alignment s := by
  induction left with
  | zero =>
      intro p run start h s hlo hs
      refine h.before s hlo ?_
      have hrun := h.run_lt
      by_cases hr : run = 0
      · rw [if_pos hr]
        omega
      · rw [if_neg hr]
        have := h.start_eq hr
        omega
  | succ left ih =>
      intro p run start h
      rw [pmmScan, show p + (left + 1) = p + 1 + left by omega]
      by_cases hf : free p = true
      · rw [if_pos hf]
        -- a run begins at an aligned page only
        by_cases hskip : run = 0 ∧ p &&& (alignment - 1) ≠ 0
        · rw [if_pos hskip]
          obtain ⟨rfl, hal⟩ := hskip
          refine ih ⟨by have := h.lo_le; omega, h.run_lt, by simp, by simp, by simp, by simp,
            fun s hlo hlt hrun => ?_⟩
          rw [if_pos rfl] at hlt
          rcases Nat.lt_or_ge s p with e | e
          · exact h.before s hlo (by simpa using e) hrun
          · obtain rfl : s = p := by omega
            exact hal hrun.1
        · rw [if_neg hskip]
          have ha : run = 0 → p &&& (alignment - 1) = 0 := fun hr => by
            by_contra hne
            exact hskip ⟨hr, hne⟩
          dsimp only
          by_cases hc : run + 1 = count
          · rw [if_pos hc]
            obtain ⟨h₁, h₂, h₃, h₄⟩ := h.found hf ha hc
            exact ⟨h₁, h₂, by omega, h₄⟩
          · rw [if_neg hc]
            exact ih (h.extend hf ha (by have := h.run_lt; omega))
      · rw [if_neg hf]
        refine ih (h.skip fun s hs hs' hrun => hf ?_)
        have := hrun.2 (p - s) (by omega)
        rwa [show s + (p - s) = p by omega] at this

/-! ### What an allocation does -/

/-- An allocation fails and changes nothing, or takes a free run; a run of several pages is the
lowest one above the low memory. -/
theorem kPmmAllocAligned_cases (count alignment maximum : Nat) (s : Phys) :
    kPmmAllocAligned count alignment maximum s = (0, s) ∨
      ∃ start, kPmmAllocAligned count alignment maximum s = (4096 * start, s.claim start count) ∧
        0 < count ∧ FreeRun s.pmm.free count alignment start ∧
        start + count ≤ s.pmm.limit maximum ∧
        (count ≠ 1 → ∀ t, 256 ≤ t → t < start → ¬ FreeRun s.pmm.free count alignment t) := by
  rw [kPmmAllocAligned]
  by_cases h₁ : power2 alignment = false
  · rw [if_pos h₁]
    exact Or.inl rfl
  · rw [if_neg h₁]
    by_cases h₂ : count = 0
    · rw [if_pos h₂]
      exact Or.inl rfl
    · rw [if_neg h₂]
      have hc : 0 < count := Nat.pos_of_ne_zero h₂
      dsimp only
      by_cases h₃ : s.pmm.freePages < count ∨ s.pmm.limit maximum < count
      · rw [if_pos h₃]
        exact Or.inl rfl
      · rw [if_neg h₃]
        generalize hcur : (if count = 1 ∧ s.pmm.cursor < s.pmm.limit maximum
          then s.pmm.cursor else 256) = cursor
        have hpass := pmmScan_spec (s.pmm.limit maximum - cursor)
          (ScanInv.init hc 0 : ScanInv s.pmm.free count alignment cursor cursor 0 0)
        split
        · -- the first pass, from the cursor on
          rename_i start hs
          rw [hs] at hpass
          obtain ⟨hrun, hlo, hhi, hlow⟩ := hpass
          refine Or.inr ⟨start, rfl, hc, hrun, by omega, fun hne t ht hlt => ?_⟩
          rw [if_neg fun h => hne h.1] at hcur
          exact hlow t (by omega) hlt
        · -- the second pass, below the cursor; it is empty for several pages
          generalize hleft : cursor - 256 = left
          have hpass₂ := pmmScan_spec left
            (ScanInv.init hc 0 : ScanInv s.pmm.free count alignment 256 256 0 0)
          split
          · rename_i start hs
            rw [hs] at hpass₂
            obtain ⟨hrun, hlo, hhi, hlow⟩ := hpass₂
            refine Or.inr ⟨start, rfl, hc, hrun, ?_, fun hne t ht hlt => hlow t ht hlt⟩
            by_cases hone : count = 1 ∧ s.pmm.cursor < s.pmm.limit maximum
            · rw [if_pos hone] at hcur
              omega
            · rw [if_neg hone] at hcur
              omega
          · exact Or.inl rfl

/-- An allocation succeeds when there is a run for it. -/
theorem kPmmAllocAligned_succeeds {count alignment maximum t : Nat} {s : Phys}
    (ha : power2 alignment = true) (hc : 0 < count) (hn : count ≤ s.pmm.freePages)
    (ht : 256 ≤ t) (hl : t + count ≤ s.pmm.limit maximum)
    (hrun : FreeRun s.pmm.free count alignment t) :
    ∃ start, kPmmAllocAligned count alignment maximum s = (4096 * start, s.claim start count) ∧
      FreeRun s.pmm.free count alignment start := by
  rw [kPmmAllocAligned, if_neg (by rw [ha]; exact Bool.noConfusion), if_neg (by omega)]
  dsimp only
  rw [if_neg (by omega)]
  generalize hcur : (if count = 1 ∧ s.pmm.cursor < s.pmm.limit maximum
    then s.pmm.cursor else 256) = cursor
  have hpass := pmmScan_spec (s.pmm.limit maximum - cursor)
    (ScanInv.init hc 0 : ScanInv s.pmm.free count alignment cursor cursor 0 0)
  split
  · rename_i start hs
    rw [hs] at hpass
    exact ⟨start, rfl, hpass.1⟩
  · rename_i hnone
    rw [hnone] at hpass
    generalize hleft : cursor - 256 = left
    have hpass₂ := pmmScan_spec left
      (ScanInv.init hc 0 : ScanInv s.pmm.free count alignment 256 256 0 0)
    split
    · rename_i start hs
      rw [hs] at hpass₂
      exact ⟨start, rfl, hpass₂.1⟩
    · rename_i hnone₂
      rw [hnone₂] at hpass₂
      exfalso
      by_cases hlt : cursor ≤ t
      · exact hpass t hlt (by omega) hrun
      · refine hpass₂ t ht ?_ hrun
        by_cases hone : count = 1 ∧ s.pmm.cursor < s.pmm.limit maximum
        · omega
        · rw [if_neg hone] at hcur
          omega

/-- The pages claimed are not free. -/
theorem Phys.claim_free {s : Phys} {start count p : Nat} :
    (s.claim start count).pmm.free p = true ↔
      s.pmm.free p = true ∧ ¬ (start ≤ p ∧ p < start + count) := by
  simp only [Phys.claim, Bool.and_eq_true, Bool.not_eq_true', Bool.and_eq_false_iff,
    decide_eq_false_iff_not, not_and_or]

@[simp] theorem Phys.claim_eligible {s : Phys} {start count : Nat} :
    (s.claim start count).pmm.eligible = s.pmm.eligible := rfl

/-- A claim keeps the bitmaps in order. -/
theorem PmmOk.claim {s : Phys} (h : PmmOk s.pmm) (start count : Nat) :
    PmmOk (s.claim start count).pmm where
  free_eligible := fun p hp => h.free_eligible p (Phys.claim_free.mp hp).1
  eligible_ge := h.eligible_ge
  eligible_lt := h.eligible_lt

/-! ### What a release does -/

/-- The pages were all given out. -/
theorem Pmm.held_iff {m : Pmm} {start n : Nat} :
    m.held start n = true ↔ ∀ p, start ≤ p → p < start + n →
      m.eligible p = true ∧ m.free p = false := by
  simp only [Pmm.held, List.all_eq_true, List.mem_range, Bool.and_eq_true, Bool.not_eq_true']
  constructor
  · intro h p h₁ h₂
    have := h (p - start) (by omega)
    rwa [show start + (p - start) = p by omega] at this
  · intro h i hi
    exact h (start + i) (by omega) (by omega)

/-- The pages released are free. -/
theorem Pmm.release_free {m : Pmm} {start count p : Nat} :
    (m.release start count).free p = true ↔
      m.free p = true ∨ (start ≤ p ∧ p < start + count) := by
  simp only [Pmm.release, Bool.or_eq_true, Bool.and_eq_true, decide_eq_true_eq]

@[simp] theorem Pmm.release_eligible {m : Pmm} {start count : Nat} :
    (m.release start count).eligible = m.eligible := rfl

/-- Pages that are held are released. -/
theorem kPmmFreePages_eq {m : Pmm} (h : PmmOk m) {start count : Nat} (hc : 0 < count)
    (hheld : m.held start count = true) :
    kPmmFreePages (4096 * start) count m = m.release start count := by
  have hlast :=
    h.eligible_lt _ ((Pmm.held_iff.mp hheld (start + count - 1) (by omega) (by omega)).1)
  have hdiv : 4096 * start / 4096 = start := Nat.mul_div_cancel_left _ (by decide)
  have hand : 4096 * start &&& 4095 = 0 := by
    have := and_sub_one_eq_mod (a := 4096) (by decide) (4096 * start)
    rw [show (4095 : Nat) = 4096 - 1 from rfl, this, Nat.mul_mod_right]
  rw [kPmmFreePages, hdiv, if_neg (by omega), if_neg (by rw [hheld]; exact Bool.noConfusion)]

/-- A release of pages that were given out keeps the bitmaps in order. -/
theorem PmmOk.release {m : Pmm} (h : PmmOk m) {start count : Nat}
    (hheld : m.held start count = true) : PmmOk (m.release start count) where
  free_eligible := by
    intro p hp
    rcases Pmm.release_free.mp hp with hp | hp
    · exact h.free_eligible p hp
    · exact (Pmm.held_iff.mp hheld p hp.1 hp.2).1
  eligible_ge := h.eligible_ge
  eligible_lt := h.eligible_lt

/-! ### Holders of pages -/

/-- Each `x` with a nonzero base holds `pages x` pages from there on, and no two holders share a
page. -/
structure PagesHeld {ι : Type} (m : Pmm) (base pages : ι → Nat) : Prop where
  ok : PmmOk m
  aligned : ∀ x, base x ≠ 0 → 4096 ∣ base x
  nonempty : ∀ x, base x ≠ 0 → 0 < pages x
  held : ∀ x, base x ≠ 0 → m.held (base x / 4096) (pages x) = true
  apart : ∀ x y, x ≠ y → base x ≠ 0 → base y ≠ 0 →
    base x + 4096 * pages x ≤ base y ∨ base y + 4096 * pages y ≤ base x

namespace PagesHeld

variable {ι : Type} {m : Pmm} {base pages base' pages' : ι → Nat}

/-- The page count of a holder without pages does not matter. -/
theorem congr (h : PagesHeld m base pages) (hb : ∀ x, base' x = base x)
    (hp : ∀ x, base x ≠ 0 → pages' x = pages x) : PagesHeld m base' pages' := by
  obtain rfl : base' = base := funext hb
  refine ⟨h.ok, h.aligned, fun x hx => ?_, fun x hx => ?_, fun x y hxy hx hy => ?_⟩
  · rw [hp x hx]
    exact h.nonempty x hx
  · rw [hp x hx]
    exact h.held x hx
  · rw [hp x hx, hp y hy]
    exact h.apart x y hxy hx hy

theorem none (hm : PmmOk m) : PagesHeld m (fun _ : ι => 0) pages :=
  ⟨hm, fun _ h => absurd rfl h, fun _ h => absurd rfl h, fun _ h => absurd rfl h,
    fun _ _ _ h => absurd rfl h⟩

variable [DecidableEq ι]

/-- A holder without pages takes a free run. -/
theorem claim {s : Phys} {start n alignment : Nat} (h : PagesHeld s.pmm base pages) {x : ι}
    (hx : base x = 0) (hn : 0 < n) (hrun : FreeRun s.pmm.free n alignment start) :
    PagesHeld (s.claim start n).pmm (Function.update base x (4096 * start))
      (Function.update pages x n) := by
  have hfree : ∀ p, start ≤ p → p < start + n → s.pmm.free p = true := by
    intro p h₁ h₂
    have := hrun.2 (p - start) (by omega)
    rwa [show start + (p - start) = p by omega] at this
  -- a held page is not free, so the run keeps clear of every other holder
  have hout : ∀ y, base y ≠ 0 →
      base y / 4096 + pages y ≤ start ∨ start + n ≤ base y / 4096 := by
    intro y hy
    have hny := h.nonempty y hy
    have hheld := Pmm.held_iff.mp (h.held y hy)
    by_contra hcon
    have hf := hfree (max start (base y / 4096)) (by omega) (by omega)
    rw [(hheld (max start (base y / 4096)) (by omega) (by omega)).2] at hf
    cases hf
  have hapart : ∀ y, base y ≠ 0 →
      base y + 4096 * pages y ≤ 4096 * start ∨ 4096 * start + 4096 * n ≤ base y := by
    intro y hy
    have := Nat.mul_div_cancel' (h.aligned y hy)
    rcases hout y hy with e | e <;> omega
  refine ⟨h.ok.claim start n, fun y hy => ?_, fun y hy => ?_, fun y hy => ?_,
    fun y z hyz hy hz => ?_⟩
  · rcases eq_or_ne y x with rfl | hne
    · rw [Function.update_self]
      exact Nat.dvd_mul_right _ _
    · rw [Function.update_of_ne hne] at hy ⊢
      exact h.aligned y hy
  · rcases eq_or_ne y x with rfl | hne
    · rwa [Function.update_self]
    · rw [Function.update_of_ne hne] at hy ⊢
      exact h.nonempty y hy
  · refine Pmm.held_iff.mpr fun p h₁ h₂ => ?_
    rw [Phys.claim_eligible, ← Bool.not_eq_true, Phys.claim_free]
    rcases eq_or_ne y x with rfl | hne
    · rw [Function.update_self, Nat.mul_div_cancel_left _ (by decide)] at h₁ h₂
      rw [Function.update_self] at h₂
      exact ⟨h.ok.free_eligible p (hfree p h₁ h₂), fun hp => hp.2 ⟨h₁, h₂⟩⟩
    · rw [Function.update_of_ne hne] at hy h₁ h₂
      rw [Function.update_of_ne hne] at h₂
      obtain ⟨he, hf⟩ := Pmm.held_iff.mp (h.held y hy) p h₁ h₂
      refine ⟨he, fun hp => ?_⟩
      rw [hf] at hp
      cases hp.1
  · rcases eq_or_ne y x with rfl | hny
    · rw [Function.update_of_ne hyz.symm] at hz
      rw [Function.update_self, Function.update_self, Function.update_of_ne hyz.symm,
        Function.update_of_ne hyz.symm]
      exact (hapart z hz).symm
    · rcases eq_or_ne z x with rfl | hnz
      · rw [Function.update_of_ne hny] at hy
        rw [Function.update_self, Function.update_self, Function.update_of_ne hny,
          Function.update_of_ne hny]
        exact hapart y hy
      · rw [Function.update_of_ne hny] at hy
        rw [Function.update_of_ne hnz] at hz
        simp only [Function.update_of_ne hny, Function.update_of_ne hnz]
        exact h.apart y z hyz hy hz

/-- A holder gives its pages back. -/
theorem release (h : PagesHeld m base pages) {x : ι} (hx : base x ≠ 0) :
    PagesHeld (kPmmFreePages (base x) (pages x) m) (Function.update base x 0) pages := by
  have heq := kPmmFreePages_eq h.ok (h.nonempty x hx) (h.held x hx)
  rw [Nat.mul_div_cancel' (h.aligned x hx)] at heq
  rw [heq]
  have hne : ∀ {y}, Function.update base x 0 y ≠ 0 → y ≠ x ∧ base y ≠ 0 := by
    intro y hy
    rcases eq_or_ne y x with rfl | e
    · rw [Function.update_self] at hy
      exact absurd rfl hy
    · rw [Function.update_of_ne e] at hy
      exact ⟨e, hy⟩
  refine ⟨h.ok.release (h.held x hx), fun y hy => ?_, fun y hy => ?_, fun y hy => ?_,
    fun y z hyz hy hz => ?_⟩
  · obtain ⟨e, hy'⟩ := hne hy
    rw [Function.update_of_ne e]
    exact h.aligned y hy'
  · exact h.nonempty y (hne hy).2
  · obtain ⟨e, hy'⟩ := hne hy
    rw [Function.update_of_ne e]
    refine Pmm.held_iff.mpr fun p h₁ h₂ => ?_
    obtain ⟨he, hf⟩ := Pmm.held_iff.mp (h.held y hy') p h₁ h₂
    rw [Pmm.release_eligible, ← Bool.not_eq_true, Pmm.release_free]
    refine ⟨he, ?_⟩
    rintro (hp | hp)
    · rw [hf] at hp
      cases hp
    · have d₁ := Nat.mul_div_cancel' (h.aligned x hx)
      have d₂ := Nat.mul_div_cancel' (h.aligned y hy')
      rcases h.apart y x e hy' hx with a | a <;> omega
  · obtain ⟨e, hy'⟩ := hne hy
    obtain ⟨e', hz'⟩ := hne hz
    rw [Function.update_of_ne e, Function.update_of_ne e']
    exact h.apart y z hyz hy' hz'

/-- A run of held pages passes from one holder to another. -/
theorem move (h : PagesHeld m base pages) {x y : ι} (hy : base y = 0) (hx : base x ≠ 0) :
    PagesHeld m (Function.update (Function.update base x 0) y (base x))
      (Function.update pages y (pages x)) := by
  have hxy : x ≠ y := fun e => hx (e ▸ hy)
  -- each new holder has the pages of an old one
  have hold : ∀ z, Function.update (Function.update base x 0) y (base x) z ≠ 0 →
      ∃ z', base z' ≠ 0 ∧ Function.update (Function.update base x 0) y (base x) z = base z' ∧
        Function.update pages y (pages x) z = pages z' ∧ (z = y → z' = x) ∧
          (z ≠ y → z' = z ∧ z ≠ x) := by
    intro z hz
    rcases eq_or_ne z y with rfl | e
    · exact ⟨x, hx, Function.update_self _ _ _, Function.update_self _ _ _, fun _ => rfl,
        fun e => absurd rfl e⟩
    · rw [Function.update_of_ne e] at hz ⊢
      rw [Function.update_of_ne e]
      rcases eq_or_ne z x with rfl | e'
      · rw [Function.update_self] at hz
        exact absurd rfl hz
      · rw [Function.update_of_ne e'] at hz ⊢
        exact ⟨z, hz, rfl, rfl, fun h => absurd h e, fun _ => ⟨rfl, e'⟩⟩
  refine ⟨h.ok, fun z hz => ?_, fun z hz => ?_, fun z hz => ?_, fun z t hzt hz ht => ?_⟩
  · obtain ⟨z', hz', e₁, -, -⟩ := hold z hz
    rw [e₁]
    exact h.aligned z' hz'
  · obtain ⟨z', hz', -, e₂, -⟩ := hold z hz
    rw [e₂]
    exact h.nonempty z' hz'
  · obtain ⟨z', hz', e₁, e₂, -⟩ := hold z hz
    rw [e₁, e₂]
    exact h.held z' hz'
  · obtain ⟨z', hz', e₁, e₂, e₃, e₄⟩ := hold z hz
    obtain ⟨t', ht', f₁, f₂, f₃, f₄⟩ := hold t ht
    rw [e₁, e₂, f₁, f₂]
    refine h.apart z' t' (fun e => ?_) hz' ht'
    by_cases hzy : z = y
    · have hty : t ≠ y := fun h => hzt (hzy.trans h.symm)
      rw [e₃ hzy, (f₄ hty).1] at e
      exact (f₄ hty).2 e.symm
    · by_cases hty : t = y
      · rw [f₃ hty, (e₄ hzy).1] at e
        exact (e₄ hzy).2 e
      · rw [(e₄ hzy).1, (f₄ hty).1] at e
        exact hzt e

/-! A call that runs may hold pages of its own before they have a holder among `ι`; it is the holder
`none`. -/

/-- Pages for the call that runs. -/
theorem stage {s : Phys} {start n k alignment : Nat}
    (h : PagesHeld s.pmm (fun x : Option ι => x.elim 0 base) fun x => x.elim k pages) (hn : 0 < n)
    (hrun : FreeRun s.pmm.free n alignment start) :
    PagesHeld (s.claim start n).pmm (fun x : Option ι => x.elim (4096 * start) base)
      fun x => x.elim n pages := by
  refine (h.claim (x := Option.none) rfl hn hrun).congr (fun x => ?_) fun x _ => ?_
  · cases x <;> simp
  · cases x <;> simp

/-- The call gives its pages back. -/
theorem unstage {image n : Nat} (k : Nat)
    (h : PagesHeld m (fun x : Option ι => x.elim image base) fun x => x.elim n pages)
    (hi : image ≠ 0) :
    PagesHeld (kPmmFreePages image n m) (fun x : Option ι => x.elim 0 base)
      fun x => x.elim k pages := by
  refine (h.release (x := Option.none) hi).congr (fun x => ?_) fun x hx => ?_
  · cases x <;> simp
  · cases x with
    | none => simp at hx
    | some y => rfl

/-- The pages of the call go to `x`, whose own pages are given back. -/
theorem exchange {image n : Nat} (k : Nat)
    (h : PagesHeld m (fun x : Option ι => x.elim image base) fun x => x.elim n pages) (x : ι) :
    PagesHeld (if base x ≠ 0 then kPmmFreePages (base x) (pages x) m else m)
      (fun y : Option ι => y.elim 0 (Function.update base x image))
      fun y => y.elim k (Function.update pages x n) := by
  -- first the old pages go, then the new ones come
  have hold : PagesHeld (if base x ≠ 0 then kPmmFreePages (base x) (pages x) m else m)
      (fun y : Option ι => y.elim image (Function.update base x 0)) fun y => y.elim n pages := by
    split
    · rename_i hx
      refine (h.release (x := some x) hx).congr (fun y => ?_) fun _ _ => rfl
      cases y with
      | none => simp
      | some y => by_cases e : y = x <;> simp [e]
    · rename_i hx
      refine h.congr (fun y => ?_) fun _ _ => rfl
      cases y with
      | none => rfl
      | some y =>
          by_cases e : y = x
          · simpa [e] using (not_not.mp hx).symm
          · simp [e]
  by_cases hi : image = 0
  · subst hi
    refine hold.congr (fun y => ?_) fun y hy => ?_
    · cases y <;> simp
    · cases y with
      | none => simp at hy
      | some y =>
          have e : y ≠ x := by
            rintro rfl
            simp at hy
          simp [e]
  · refine (hold.move (x := Option.none) (y := some x) (by simp) hi).congr (fun y => ?_)
      fun y hy => ?_
    · cases y with
      | none => simp
      | some y => by_cases e : y = x <;> simp [Function.update_apply, e]
    · cases y with
      | none => simp at hy
      | some y => by_cases e : y = x <;> simp [Function.update_apply, e]

end PagesHeld

/-! ### Accounts -/

/-- Page `p` belongs to a holder. -/
def HeldPage {ι : Type} (base pages : ι → Nat) (p : Nat) : Prop :=
  ∃ x, base x ≠ 0 ∧ base x / 4096 ≤ p ∧ p < base x / 4096 + pages x

/-- The holders have exactly the pages that were in `free₀` and are not free now. -/
structure Ledger {ι : Type} (free₀ : Nat → Bool) (m : Pmm) (base pages : ι → Nat) : Prop
    extends PagesHeld m base pages where
  account : ∀ p, free₀ p = true ↔ m.free p = true ∨ HeldPage base pages p

namespace Ledger

variable {ι : Type} {free₀ : Nat → Bool} {m : Pmm} {base pages base' pages' : ι → Nat}

/-- At first nothing is held, and the free pages are those of the start. -/
theorem start (hm : PmmOk m) : Ledger m.free m (fun _ : ι => 0) pages :=
  ⟨PagesHeld.none hm, fun _ => ⟨Or.inl, fun h => h.elim id fun ⟨_, hx, _⟩ => absurd rfl hx⟩⟩

/-- All pages are back. -/
theorem settled (h : Ledger free₀ m (fun _ : ι => 0) pages) : m.free = free₀ := by
  funext p
  rw [Bool.eq_iff_iff, h.account p]
  exact ⟨Or.inl, fun h => h.elim id fun ⟨_, hx, _⟩ => absurd rfl hx⟩

/-- The ledger is about the pages held only. -/
theorem congr (h : Ledger free₀ m base pages) (hb : ∀ x, base' x = base x)
    (hp : ∀ x, base x ≠ 0 → pages' x = pages x) : Ledger free₀ m base' pages' := by
  obtain rfl : base' = base := funext hb
  refine ⟨h.toPagesHeld.congr hb hp, fun p => ?_⟩
  rw [h.account p]
  constructor
  · rintro (e | ⟨x, h₁, h₂, h₃⟩)
    · exact Or.inl e
    · exact Or.inr ⟨x, h₁, h₂, by rwa [hp x h₁]⟩
  · rintro (e | ⟨x, h₁, h₂, h₃⟩)
    · exact Or.inl e
    · exact Or.inr ⟨x, h₁, h₂, by rwa [hp x h₁] at h₃⟩

variable [DecidableEq ι]

/-- Pages claimed for one that held none. -/
theorem claim {s : Phys} {start n alignment : Nat} (h : Ledger free₀ s.pmm base pages) {x : ι}
    (hx : base x = 0) (hn : 0 < n) (hrun : FreeRun s.pmm.free n alignment start) (hs : start ≠ 0) :
    Ledger free₀ (s.claim start n).pmm (Function.update base x (4096 * start))
      (Function.update pages x n) := by
  refine ⟨h.toPagesHeld.claim hx hn hrun, fun p => ?_⟩
  rw [h.account p, Phys.claim_free]
  have hdiv : 4096 * start / 4096 = start := Nat.mul_div_cancel_left _ (by decide)
  constructor
  · rintro (e | ⟨y, h₁, h₂, h₃⟩)
    · by_cases hp : start ≤ p ∧ p < start + n
      · refine Or.inr ⟨x, ?_, ?_, ?_⟩
        · rw [Function.update_self]
          omega
        · rw [Function.update_self, hdiv]
          exact hp.1
        · rw [Function.update_self, Function.update_self, hdiv]
          exact hp.2
      · exact Or.inl ⟨e, hp⟩
    · have hne : y ≠ x := fun e => h₁ (e ▸ hx)
      exact Or.inr ⟨y, by rwa [Function.update_of_ne hne], by rwa [Function.update_of_ne hne],
        by rwa [Function.update_of_ne hne, Function.update_of_ne hne]⟩
  · rintro (⟨e, -⟩ | ⟨y, h₁, h₂, h₃⟩)
    · exact Or.inl e
    · rcases eq_or_ne y x with rfl | hne
      · rw [Function.update_self, hdiv] at h₂ h₃
        rw [Function.update_self] at h₃
        have := hrun.2 (p - start) (by omega)
        rw [show start + (p - start) = p by omega] at this
        exact Or.inl this
      · rw [Function.update_of_ne hne] at h₁ h₂ h₃
        rw [Function.update_of_ne hne] at h₃
        exact Or.inr ⟨y, h₁, h₂, h₃⟩

/-- Pages given back. -/
theorem release (h : Ledger free₀ m base pages) {x : ι} (hx : base x ≠ 0) :
    Ledger free₀ (kPmmFreePages (base x) (pages x) m) (Function.update base x 0) pages := by
  refine ⟨h.toPagesHeld.release hx, fun p => ?_⟩
  have heq := kPmmFreePages_eq h.ok (h.nonempty x hx) (h.held x hx)
  rw [Nat.mul_div_cancel' (h.aligned x hx)] at heq
  rw [h.account p, heq, Pmm.release_free]
  constructor
  · rintro (e | ⟨y, h₁, h₂, h₃⟩)
    · exact Or.inl (Or.inl e)
    · rcases eq_or_ne y x with rfl | hne
      · exact Or.inl (Or.inr ⟨h₂, h₃⟩)
      · exact Or.inr ⟨y, by rwa [Function.update_of_ne hne], by rwa [Function.update_of_ne hne],
          by rwa [Function.update_of_ne hne]⟩
  · rintro ((e | e) | ⟨y, h₁, h₂, h₃⟩)
    · exact Or.inl e
    · exact Or.inr ⟨x, hx, e⟩
    · rcases eq_or_ne y x with rfl | hne
      · rw [Function.update_self] at h₁
        exact absurd rfl h₁
      · rw [Function.update_of_ne hne] at h₁ h₂ h₃
        exact Or.inr ⟨y, h₁, h₂, h₃⟩

/-- Pages that change hands. -/
theorem move (h : Ledger free₀ m base pages) {x y : ι} (hy : base y = 0) (hx : base x ≠ 0) :
    Ledger free₀ m (Function.update (Function.update base x 0) y (base x))
      (Function.update pages y (pages x)) := by
  have hxy : x ≠ y := fun e => hx (e ▸ hy)
  refine ⟨h.toPagesHeld.move hy hx, fun p => ?_⟩
  rw [h.account p]
  constructor
  · rintro (e | ⟨z, h₁, h₂, h₃⟩)
    · exact Or.inl e
    · rcases eq_or_ne z x with rfl | hzx
      · exact Or.inr ⟨y, by rwa [Function.update_self], by rwa [Function.update_self],
          by rwa [Function.update_self, Function.update_self]⟩
      · have hzy : z ≠ y := fun e => h₁ (e ▸ hy)
        refine Or.inr ⟨z, ?_, ?_, ?_⟩
        all_goals simpa only [Function.update_of_ne hzy, Function.update_of_ne hzx]
  · rintro (e | ⟨z, h₁, h₂, h₃⟩)
    · exact Or.inl e
    · rcases eq_or_ne z y with rfl | hzy
      · rw [Function.update_self] at h₂ h₃
        rw [Function.update_self] at h₃
        exact Or.inr ⟨x, hx, h₂, h₃⟩
      · rw [Function.update_of_ne hzy] at h₁ h₂ h₃
        rw [Function.update_of_ne hzy] at h₃
        rcases eq_or_ne z x with rfl | hzx
        · rw [Function.update_self] at h₁
          exact absurd rfl h₁
        · rw [Function.update_of_ne hzx] at h₁ h₂ h₃
          exact Or.inr ⟨z, h₁, h₂, h₃⟩

end Ledger

end Efishell
