import Efishell.Memory.Heap

/-!
# Memory — where the heap places its blocks

A run of the heap is any sequence of calls, with any change of memory in between (the owners of the
blocks write to them).  It carries the list of live blocks: those `k_heap_alloc` returned and
`k_heap_free` has not taken back.  `HeapPlaced` says that each live block is aligned as asked for,
lies with its canary inside pages held for it, and overlaps no other.

`ALIGN_UP` takes its mask in the 32 bits of `alignment`, so the pointer of a block with pages of its
own loses the upper half of its address when the pages end above 4 GiB.  `heap_placement` proves
`HeapPlaced` in every state of every run in which no request comes to that (`AlignFits`);
`heap_block_outside_its_pages` is a run in which one does.

* `HeapInv.alloc`, `HeapInv.free`: the two calls keep the blocks apart.
* `heap_placement`: where the live blocks are, in runs whose rounding stays below 4 GiB.
-/

namespace Efishell

/-! ### Blocks and where they are stored -/

/-- A block as its owner sees it. -/
structure HeapBlock where
  pointer : Nat
  bytes : Nat
  alignment : Nat

/-- The ranges of the blocks, canaries included, are disjoint. -/
def HeapBlock.Apart (b c : HeapBlock) : Prop :=
  b.pointer + b.bytes + 8 ≤ c.pointer ∨ c.pointer + c.bytes + 8 ≤ b.pointer

/-- An owner of pages: an arena or an entry of `large`. -/
inductive Holder where
  | arena (i : Nat)
  | large (i : Nat)
  deriving DecidableEq

/-- A place for a block: a unit of an arena or an entry of `large`. -/
inductive Slot where
  | unit (i u : Nat)
  | large (i : Nat)
  deriving DecidableEq

/-- The arena or the large record a slot lies in. -/
def Slot.holder : Slot → Holder
  | .unit i _ => .arena i
  | .large i => .large i

namespace Heap

/-- Where the holder's pages start; zero when it has none. -/
def base (h : Heap) : Holder → Nat
  | .arena i => (h.arenas i).base
  | .large i => (h.large i).base

/-- How many pages it has. -/
def pages (h : Heap) : Holder → Nat
  | .arena _ => 16
  | .large i => (h.large i).pages

/-- Block `b` is the one the heap keeps at the slot. -/
def StoredAt (h : Heap) : Slot → HeapBlock → Prop
  | .unit i u, b => (h.arenas i).base ≠ 0 ∧ (h.arenas i).length u ≠ 0 ∧
      (h.arenas i).base + 64 * u = b.pointer ∧ (h.arenas i).requested u = b.bytes
  | .large i, b => (h.large i).base ≠ 0 ∧ (h.large i).pointer = b.pointer ∧
      (h.large i).requested = b.bytes

end Heap

/-- What the heap promises about its live blocks. -/
structure HeapPlaced (h : Heap) (live : List HeapBlock) : Prop where
  aligned : ∀ b ∈ live, b.alignment ∣ b.pointer
  inside : ∀ b ∈ live, ∃ s, h.StoredAt s b ∧ h.base s.holder ≤ b.pointer ∧
    b.pointer + b.bytes + 8 ≤ h.base s.holder + 4096 * h.pages s.holder ∧
    h.phys.pmm.held (h.base s.holder / 4096) (h.pages s.holder) = true
  apart : live.Pairwise HeapBlock.Apart

/-! ### The invariant -/

/-- The units with a block. -/
def Arena.blocks (a : Arena) : Finset Nat := (Finset.range 1024).filter fun u => a.length u ≠ 0

/-- The units of an arena's blocks lie inside it and are its own. -/
structure ArenaOk (a : Arena) : Prop where
  idle : a.base = 0 → ∀ u, a.length u = 0
  inside : ∀ u, a.length u ≠ 0 → u + a.length u ≤ 1024
  used : ∀ u, a.length u ≠ 0 → ∀ v, u ≤ v → v < u + a.length u → a.used v = true
  room : ∀ u, a.length u ≠ 0 → a.requested u + 8 ≤ 64 * a.length u
  apart : ∀ u v, u < v → a.length u ≠ 0 → a.length v ≠ 0 → u + a.length u ≤ v
  live : a.live = a.blocks.card

/-- An entry of `large` that is free has no pointer; one in use has its block inside its pages. -/
structure LargeOk (b : LargeBlock) : Prop where
  idle : b.base = 0 → b.pointer = 0
  inside : b.base ≠ 0 → b.base ≤ b.pointer ∧ b.pointer + b.requested + 8 ≤ b.base + 4096 * b.pages

/-- The holders' pages are their own, and every arena is in order. -/
structure HeapOk (h : Heap) : Prop where
  held : PagesHeld h.phys.pmm h.base h.pages
  arena : ∀ i, ArenaOk (h.arenas i)
  large : ∀ i, LargeOk (h.large i)

/-- The invariant of a run. -/
structure HeapInv (h : Heap) (live : List HeapBlock) : Prop where
  ok : HeapOk h
  stored : ∀ b ∈ live, ∃ s, h.StoredAt s b
  aligned : ∀ b ∈ live, b.alignment ∣ b.pointer
  apart : live.Pairwise HeapBlock.Apart

/-- The blocks of an arena are the units with a length. -/
theorem Arena.mem_blocks {a : Arena} (ha : ArenaOk a) {u : Nat} :
    u ∈ a.blocks ↔ a.length u ≠ 0 := by
  rw [Arena.blocks, Finset.mem_filter, Finset.mem_range]
  refine ⟨fun h => h.2, fun h => ⟨?_, h⟩⟩
  have := ha.inside u h
  omega

theorem ArenaOk.zero : ArenaOk Arena.zero :=
  ⟨fun _ _ => rfl, fun _ h => absurd rfl h, fun _ h => absurd rfl h, fun _ h => absurd rfl h,
    fun _ _ _ h => absurd rfl h, by simp [Arena.blocks, Arena.zero]⟩

theorem LargeOk.zero : LargeOk LargeBlock.zero := ⟨fun _ => rfl, fun h => absurd rfl h⟩

/-- A stored block has pages. -/
theorem HeapOk.base_ne_zero {h : Heap} {s : Slot} {b : HeapBlock} (hs : h.StoredAt s b) :
    h.base s.holder ≠ 0 := by
  cases s with
  | unit i u => exact hs.1
  | large i => exact hs.1

/-- A stored block lies inside the pages of its holder. -/
theorem HeapOk.inside {h : Heap} (hok : HeapOk h) {s : Slot} {b : HeapBlock}
    (hs : h.StoredAt s b) :
    h.base s.holder ≤ b.pointer ∧
      b.pointer + b.bytes + 8 ≤ h.base s.holder + 4096 * h.pages s.holder := by
  cases s with
  | unit i u =>
      obtain ⟨hb, hl, hp, hr⟩ := hs
      have h₁ := (hok.arena i).inside u hl
      have h₂ := (hok.arena i).room u hl
      simp only [Heap.base, Heap.pages, Slot.holder]
      omega
  | large i =>
      obtain ⟨hb, hp, hr⟩ := hs
      have := (hok.large i).inside hb
      simp only [Heap.base, Heap.pages, Slot.holder]
      omega

/-- Blocks at different slots are apart. -/
theorem HeapOk.apart {h : Heap} (hok : HeapOk h) {s t : Slot} {b c : HeapBlock} (hst : s ≠ t)
    (hs : h.StoredAt s b) (ht : h.StoredAt t c) : b.Apart c := by
  have hb := hok.inside hs
  have hc := hok.inside ht
  by_cases hne : s.holder = t.holder
  · -- the same holder is an arena, with two of its units
    cases s with
    | large i =>
        cases t with
        | large j =>
            cases hne
            exact absurd rfl hst
        | unit j v => cases hne
    | unit i u =>
        cases t with
        | large j => cases hne
        | unit j v =>
            cases hne
            obtain ⟨-, hl, hp, hr⟩ := hs
            obtain ⟨-, hl', hp', hr'⟩ := ht
            have huv : u ≠ v := fun e => hst (by rw [e])
            have hu := (hok.arena i).room u hl
            have hv := (hok.arena i).room v hl'
            rcases Nat.lt_or_gt_of_ne huv with e | e
            · have := (hok.arena i).apart u v e hl hl'
              exact Or.inl (by omega)
            · have := (hok.arena i).apart v u e hl' hl
              exact Or.inr (by omega)
  · rcases hok.held.apart _ _ hne (HeapOk.base_ne_zero hs) (HeapOk.base_ne_zero ht) with e | e
    · exact Or.inl (by omega)
    · exact Or.inr (by omega)

/-- The invariant says where the live blocks are. -/
theorem HeapInv.placed {h : Heap} {live : List HeapBlock} (hinv : HeapInv h live) :
    HeapPlaced h live := by
  refine ⟨hinv.aligned, fun b hb => ?_, hinv.apart⟩
  obtain ⟨s, hs⟩ := hinv.stored b hb
  obtain ⟨h₁, h₂⟩ := hinv.ok.inside hs
  exact ⟨s, hs, h₁, h₂, hinv.ok.held.held _ (HeapOk.base_ne_zero hs)⟩

/-! ### Units of an arena -/

/-- The units counted are free. -/
theorem freeUnits_spec {a : Arena} {u : Nat} : ∀ (n : Nat) {j : Nat},
    (∀ k < j, a.used (u + k) = false) → freeUnits a u n j = j + n →
      ∀ k < j + n, a.used (u + k) = false := by
  intro n
  induction n with
  | zero =>
      intro j h _
      exact h
  | succ n ih =>
      intro j h he
      rw [freeUnits] at he
      by_cases hu : a.used (u + j) = true
      · rw [if_pos hu] at he
        omega
      · rw [if_neg hu] at he
        have := ih (j := j + 1) (fun k hk => ?_) (by omega)
        · rwa [show j + 1 + n = j + (n + 1) by omega] at this
        · rcases Nat.lt_or_ge k j with e | e
          · exact h k e
          · obtain rfl : k = j := by omega
            exact Bool.not_eq_true _ ▸ hu

/-- The units the search finds are in the arena, free and aligned. -/
theorem arenaScan_spec {a : Arena} {needed alignment fuel : Nat} :
    ∀ {u v : Nat}, arenaScan a needed alignment fuel u = some v →
      v + needed ≤ 1024 ∧ (a.base + 64 * v) &&& (alignment - 1) = 0 ∧
        ∀ k < needed, a.used (v + k) = false := by
  induction fuel with
  | zero =>
      intro u v h
      cases h
  | succ fuel ih =>
      intro u v h
      rw [arenaScan] at h
      split at h
      · cases h
      · rename_i hle
        split at h
        · exact ih h
        · rename_i hal
          dsimp only at h
          split at h
          · exact ih h
          · rename_i hj
            cases h
            refine ⟨by omega, Decidable.not_not.mp hal, ?_⟩
            have := freeUnits_spec (a := a) (u := u) needed (j := 0) (by simp)
              (by rw [Nat.zero_add]; exact Decidable.not_not.mp hj)
            simpa using this

/-- A block goes to free units. -/
theorem ArenaOk.take {a : Arena} (ha : ArenaOk a) (hb : a.base ≠ 0) {u needed bytes : Nat}
    (hn : 0 < needed) (hn' : needed < 2 ^ 16) (hr : bytes + 8 ≤ 64 * needed)
    (hu : u + needed ≤ 1024)
    (hfree : ∀ k < needed, a.used (u + k) = false) : ArenaOk (a.take u needed bytes) := by
  have hfree' : ∀ v, u ≤ v → v < u + needed → a.used v = false := by
    intro v h₁ h₂
    have := hfree (v - u) (by omega)
    rwa [show u + (v - u) = v by omega] at this
  have hlen : (a.take u needed bytes).length u = needed := by
    simp only [Arena.take, Function.update_self]
    exact Nat.mod_eq_of_lt hn'
  have hlen' : ∀ v, v ≠ u → (a.take u needed bytes).length v = a.length v := by
    intro v hv
    simp only [Arena.take, Function.update_of_ne hv]
  -- no block of the arena touches the new units
  have hout : ∀ v, a.length v ≠ 0 → v + a.length v ≤ u ∨ u + needed ≤ v := by
    intro v hv
    by_contra hcon
    have hused := ha.used v hv (max u v) (by omega) (by omega)
    rw [hfree' (max u v) (by omega) (by omega)] at hused
    cases hused
  have hold : a.length u = 0 := by
    by_contra hne
    rcases hout u hne with e | e <;> omega
  refine ⟨fun h => absurd h hb, fun v hv => ?_, fun v hv w h₁ h₂ => ?_, fun v hv => ?_,
    fun v w hvw hv hw => ?_, ?_⟩
  · rcases eq_or_ne v u with rfl | hne
    · rw [hlen]
      exact hu
    · rw [hlen' v hne] at hv ⊢
      exact ha.inside v hv
  · simp only [Arena.take, Bool.or_eq_true, Bool.and_eq_true, decide_eq_true_eq]
    rcases eq_or_ne v u with rfl | hne
    · rw [hlen] at h₂
      exact Or.inr ⟨h₁, h₂⟩
    · rw [hlen' v hne] at hv h₂
      exact Or.inl (ha.used v hv w h₁ h₂)
  · rcases eq_or_ne v u with rfl | hne
    · rw [hlen]
      simp only [Arena.take, Function.update_self]
      rw [Nat.mod_eq_of_lt (by omega)]
      exact hr
    · rw [hlen' v hne] at hv ⊢
      simp only [Arena.take, Function.update_of_ne hne]
      exact ha.room v hv
  · rcases eq_or_ne v u with rfl | hne
    · rw [hlen' w (by omega)] at hw
      rw [hlen]
      rcases hout w hw with e | e <;> omega
    · rw [hlen' v hne] at hv ⊢
      rcases eq_or_ne w u with rfl | hne'
      · rcases hout v hv with e | e <;> omega
      · rw [hlen' w hne'] at hw
        exact ha.apart v w hvw hv hw
  · have hblocks : (a.take u needed bytes).blocks = insert u a.blocks := by
      ext v
      rw [Arena.blocks, Finset.mem_filter, Finset.mem_insert, Finset.mem_range]
      rcases eq_or_ne v u with rfl | hne
      · rw [hlen]
        simp only [true_or, iff_true]
        omega
      · rw [hlen' v hne, Arena.mem_blocks ha]
        constructor
        · exact fun h => Or.inr h.2
        · rintro (h | h)
          · exact absurd h hne
          · have := ha.inside v h
            exact ⟨by omega, h⟩
    have hnot : u ∉ a.blocks := fun h => (Arena.mem_blocks ha).mp h hold
    have hcard : a.blocks.card ≤ 1024 := by
      have := Finset.card_filter_le (Finset.range 1024) fun u => a.length u ≠ 0
      rwa [Finset.card_range] at this
    rw [hblocks, Finset.card_insert_of_notMem hnot]
    simp only [Arena.take]
    rw [ha.live, Nat.mod_eq_of_lt (by omega)]

/-- A block is taken back. -/
theorem ArenaOk.drop {a : Arena} (ha : ArenaOk a) {u : Nat} (hu : a.length u ≠ 0) :
    ArenaOk (a.drop u) ∧ ((a.drop u).live = 0 → ∀ v, (a.drop u).length v = 0) := by
  have hlen : ∀ v, (a.drop u).length v = if v = u then 0 else a.length v := by
    intro v
    simp only [Arena.drop, Function.update_apply]
  have hne : ∀ {v}, (a.drop u).length v ≠ 0 →
      v ≠ u ∧ a.length v ≠ 0 ∧ (a.drop u).length v = a.length v := by
    intro v hv
    rw [hlen] at hv ⊢
    by_cases e : v = u
    · rw [if_pos e] at hv
      exact absurd rfl hv
    · rw [if_neg e] at hv ⊢
      exact ⟨e, hv, rfl⟩
  -- the arena counts its blocks, so the count says when there is none
  have hblocks : (a.drop u).blocks = a.blocks.erase u := by
    ext v
    rw [Arena.blocks, Finset.mem_filter, Finset.mem_erase, Arena.blocks, Finset.mem_filter, hlen]
    by_cases e : v = u <;> simp [e]
  have hmem : u ∈ a.blocks := (Arena.mem_blocks ha).mpr hu
  have hlive : (a.drop u).live = (a.drop u).blocks.card := by
    have hcard : a.blocks.card ≤ 1024 := by
      have := Finset.card_filter_le (Finset.range 1024) fun u => a.length u ≠ 0
      rwa [Finset.card_range] at this
    have hpos := Finset.card_pos.mpr ⟨u, hmem⟩
    rw [hblocks, Finset.card_erase_of_mem hmem]
    simp only [Arena.drop]
    rw [ha.live]
    omega
  have hok : ArenaOk (a.drop u) := by
    refine ⟨fun h v => ?_, fun v hv => ?_, fun v hv w h₁ h₂ => ?_, fun v hv => ?_,
      fun v w hvw hv hw => ?_, hlive⟩
    · rw [hlen, ha.idle h v, ite_self]
    · obtain ⟨-, h, e⟩ := hne hv
      rw [e]
      exact ha.inside v h
    · obtain ⟨huv, h, e⟩ := hne hv
      rw [e] at h₂
      simp only [Arena.drop, Bool.and_eq_true, Bool.not_eq_true', Bool.and_eq_false_iff,
        decide_eq_false_iff_not]
      refine ⟨ha.used v h w h₁ h₂, ?_⟩
      rcases Nat.lt_or_gt_of_ne huv with hlt | hlt
      · have := ha.apart v u hlt h hu
        exact Or.inl (by omega)
      · have := ha.apart u v hlt hu h
        exact Or.inr (by omega)
    · obtain ⟨huv, h, e⟩ := hne hv
      rw [e]
      simp only [Arena.drop, Function.update_of_ne huv]
      exact ha.room v h
    · obtain ⟨-, h, e⟩ := hne hv
      obtain ⟨-, h', -⟩ := hne hw
      rw [e]
      exact ha.apart v w hvw h h'
  refine ⟨hok, fun h0 v => ?_⟩
  by_contra hv
  rw [hlive] at h0
  have := Finset.card_pos.mpr ⟨v, (Arena.mem_blocks hok).mpr hv⟩
  omega

/-! ### Steps of the heap -/

/-- The blocks stored in `h` are stored in `h'` too. -/
def Heap.Keeps (h h' : Heap) : Prop := ∀ s b, h.StoredAt s b → h'.StoredAt s b

theorem Heap.Keeps.refl (h : Heap) : h.Keeps h := fun _ _ hs => hs

theorem Heap.Keeps.trans {h h₁ h₂ : Heap} (e : h.Keeps h₁) (e' : h₁.Keeps h₂) : h.Keeps h₂ :=
  fun s b hs => e' s b (e s b hs)

/-- What an allocation can do: fail, or store a new block at a slot that was free. -/
structure HeapAllocated (h h' : Heap) (result bytes alignment : Nat) : Prop where
  ok : HeapOk h'
  keeps : h.Keeps h'
  fresh : result ≠ 0 → alignment ∣ result ∧ ∃ s, (∀ b, ¬ h.StoredAt s b) ∧
    ∀ b : HeapBlock, b.pointer = result → b.bytes = bytes → h'.StoredAt s b

/-- Opening an arena adds at most its 16 pages. -/
theorem openArena_ok {h : Heap} (hok : HeapOk h) (i : Nat) :
    HeapOk (openArena i h) ∧ h.Keeps (openArena i h) := by
  by_cases hb : (h.arenas i).base = 0
  · have hk : h.Keeps (openArena i h) := by
      intro s b hs
      rw [openArena, if_neg (not_not.mpr hb)]
      cases s with
      | large j => exact hs
      | unit j u =>
          have hne : j ≠ i := fun e => hs.1 (e ▸ hb)
          simp only [Heap.StoredAt, Function.update_of_ne hne]
          exact hs
    refine ⟨?_, hk⟩
    rcases kPmmAllocAligned_cases 16 1 0 h.phys with hz | ⟨start, he, hc, hrun, -, -⟩
    · rw [openArena, if_neg (not_not.mpr hb), kPmmAllocPages, hz]
      dsimp only
      rw [show (h.arenas i).setBase 0 = h.arenas i by rw [← hb]; rfl, Function.update_eq_self]
      exact ⟨hok.held, hok.arena, hok.large⟩
    · rw [openArena, if_neg (not_not.mpr hb), kPmmAllocPages, he]
      have hclaim := hok.held.claim (x := .arena i) hb hc hrun
      refine ⟨hclaim.congr (fun x => ?_) (fun x _ => ?_), fun j => ?_, hok.large⟩
      · cases x with
        | large j => rfl
        | arena j =>
            simp only [Heap.base, Function.update_apply, Holder.arena.injEq]
            split <;> rfl
      · cases x with
        | large j => rfl
        | arena j =>
            simp only [Heap.pages, Function.update_apply]
            split <;> rfl
      · have ha := hok.arena i
        rcases eq_or_ne j i with rfl | hne
        · simp only [Function.update_self]
          exact ⟨fun _ => ha.idle hb, ha.inside, ha.used, ha.room, ha.apart, ha.live⟩
        · simp only [Function.update_of_ne hne]
          exact hok.arena j
  · rw [openArena, if_pos hb]
    exact ⟨hok, Heap.Keeps.refl h⟩

/-- The loop over the arenas places the block in free units, or not at all. -/
theorem arenaAlloc_ok {needed bytes alignment left : Nat} (hn : 0 < needed) (hn' : needed < 2 ^ 16)
    (hb : bytes < 2 ^ 32) (hr : bytes + 8 ≤ 64 * needed) (ha : power2 alignment = true) :
    ∀ {i : Nat} {h : Heap}, HeapOk h →
      HeapAllocated h (arenaAlloc needed bytes alignment left i h).2
        (arenaAlloc needed bytes alignment left i h).1 bytes alignment := by
  induction left with
  | zero =>
      intro i h hok
      exact ⟨hok, Heap.Keeps.refl h, fun hne => absurd rfl hne⟩
  | succ left ih =>
      intro i h hok
      obtain ⟨hok', hk⟩ := openArena_ok hok i
      generalize hopen : openArena i h = h₁ at hok' hk
      rw [arenaAlloc]
      simp only [hopen]
      split
      · exact ⟨hok', hk, fun hne => absurd rfl hne⟩
      · rename_i hbase
        split
        · -- no room in this arena
          obtain ⟨h₁', h₂', h₃'⟩ := ih (i := i + 1) hok'
          refine ⟨h₁', hk.trans h₂', fun hne => ?_⟩
          obtain ⟨hd, s, hs, hs'⟩ := h₃' hne
          exact ⟨hd, s, fun b hb => hs b (hk s b hb), hs'⟩
        · rename_i u hscan
          obtain ⟨hin, hal, hfree⟩ := arenaScan_spec hscan
          -- the units that the scan found are free, and so no block begins there
          have htake := (hok'.arena i).take hbase hn hn' hr hin hfree
          have hold : (h₁.arenas i).length u = 0 := by
            by_contra hne
            have := (hok'.arena i).used u hne u (Nat.le_refl u) (by omega)
            have hf := hfree 0 hn
            rw [Nat.add_zero, this] at hf
            cases hf
          refine ⟨⟨hok'.held.congr (fun x => ?_) (fun x _ => ?_), fun j => ?_, hok'.large⟩,
            hk.trans fun s b hs => ?_, fun _ => ⟨?_, .unit i u, fun b hb => ?_, fun b hp hb' => ?_⟩⟩
          · cases x with
            | large j => rfl
            | arena j =>
                simp only [Heap.base, Function.update_apply]
                split
                · rename_i e
                  rw [e]
                  rfl
                · rfl
          · cases x <;> rfl
          · rcases eq_or_ne j i with rfl | hne
            · simp only [Function.update_self]
              exact htake
            · simp only [Function.update_of_ne hne]
              exact hok'.arena j
          · cases s with
            | large j => exact hs
            | unit j v =>
                rcases eq_or_ne j i with rfl | hne
                · obtain ⟨h₁', h₂', h₃', h₄'⟩ := hs
                  have hv : v ≠ u := fun e => h₂' (e ▸ hold)
                  simp only [Heap.StoredAt, Function.update_self, Arena.take,
                    Function.update_of_ne hv]
                  exact ⟨h₁', h₂', h₃', h₄'⟩
                · simp only [Heap.StoredAt, Function.update_of_ne hne]
                  exact hs
          · rw [and_sub_one_eq_mod ha] at hal
            exact Nat.dvd_of_mod_eq_zero hal
          · obtain ⟨-, h₂', -, -⟩ := hk _ _ hb
            exact h₂' hold
          · simp only [Heap.StoredAt, Function.update_self, Arena.take, hp, hb']
            rw [Nat.mod_eq_of_lt hn', Nat.mod_eq_of_lt hb]
            exact ⟨hbase, by omega, trivial, rfl⟩

/-- `if (alignment < 16) alignment = 16`. -/
def heapAlignment (alignment : Nat) : Nat := if alignment < 16 then 16 else alignment

/-- The rounding of the pointer stays below 4 GiB: the request gets no pages of its own, or when
there are pages for it, the lowest run that is long enough starts at most `2 ^ 32 - alignment`. -/
def AlignFits (h : Heap) (bytes alignment : Nat) : Prop :=
  heapServes bytes alignment = true → takesPages bytes (heapAlignment alignment) = true →
    (∃ i < 64, (h.large i).base = 0) →
    (∃ t, FreeRun h.phys.pmm.free (largePages bytes (heapAlignment alignment)) 1 t) →
    ∃ t, 256 ≤ t ∧ 4096 * t + heapAlignment alignment ≤ 2 ^ 32 ∧
      FreeRun h.phys.pmm.free (largePages bytes (heapAlignment alignment)) 1 t

/-- What `k_heap_alloc` serves. -/
theorem heapServes_iff {bytes alignment : Nat} : heapServes bytes alignment = true ↔
    bytes ≠ 0 ∧ bytes ≤ 64 * 1024 * 1024 ∧ power2 alignment = true ∧ alignment ≤ 0x200000 := by
  simp only [heapServes, Bool.and_eq_true, bne_iff_ne, decide_eq_true_eq, and_assoc]

/-- The alignment used is a multiple of the one asked. -/
theorem heapAlignment_spec {alignment : Nat} (ha : power2 alignment = true)
    (hl : alignment ≤ 0x200000) :
    power2 (heapAlignment alignment) = true ∧ 16 ≤ heapAlignment alignment ∧
      heapAlignment alignment ≤ 0x200000 ∧ alignment ∣ heapAlignment alignment := by
  rw [heapAlignment]
  by_cases h : alignment < 16
  · rw [if_pos h]
    exact ⟨by decide, Nat.le_refl _, by decide, power2_dvd ha (by decide) (Nat.le_of_lt h)⟩
  · rw [if_neg h]
    exact ⟨ha, Nat.not_lt.mp h, hl, Nat.dvd_refl _⟩

/-- The pages of a large block hold it at any alignment. -/
theorem largePages_spec {bytes alignment : Nat} (hb : bytes ≤ 64 * 1024 * 1024)
    (ha : alignment ≤ 0x200000) (ht : takesPages bytes alignment = true) :
    2 ≤ largePages bytes alignment ∧
      bytes + alignment + 7 ≤ 4096 * largePages bytes alignment := by
  simp only [takesPages, Bool.or_eq_true, decide_eq_true_eq] at ht
  rw [largePages, Nat.mod_eq_of_lt (by omega)]
  omega

/-- No run of free pages starts below 1 MiB. -/
theorem FreeRun.ge {m : Pmm} (hm : PmmOk m) {n alignment start : Nat} (hn : 0 < n)
    (h : FreeRun m.free n alignment start) : 256 ≤ start :=
  hm.eligible_ge _ (hm.free_eligible _ (h.2 0 hn))

/-- With a free record, pages are asked for. -/
theorem largeAlloc_some {bytes alignment i : Nat} {h : Heap} (hslot : h.largeSlot = some i) :
    largeAlloc bytes alignment h = largeTake i (largePages bytes alignment) bytes alignment h
      (kPmmAllocAligned (largePages bytes alignment) 1 0 h.phys) := by
  simp only [largeAlloc, hslot, kPmmAllocPages]

/-- A block with pages of its own. -/
theorem largeAlloc_ok {bytes alignment : Nat} {h : Heap} (hok : HeapOk h)
    (hb : bytes ≤ 64 * 1024 * 1024) (ha : power2 alignment = true) (hal : alignment ≤ 0x200000)
    (ht : takesPages bytes alignment = true)
    (hfits : (∃ i < 64, (h.large i).base = 0) →
      (∃ t, FreeRun h.phys.pmm.free (largePages bytes alignment) 1 t) →
      ∃ t, 256 ≤ t ∧ 4096 * t + alignment ≤ 2 ^ 32 ∧
        FreeRun h.phys.pmm.free (largePages bytes alignment) 1 t) :
    HeapAllocated h (largeAlloc bytes alignment h).2 (largeAlloc bytes alignment h).1 bytes
      alignment := by
  obtain ⟨hp2, hroom⟩ := largePages_spec hb hal ht
  cases hslot : h.largeSlot with
  | none =>
      rw [largeAlloc, hslot]
      exact ⟨hok, Heap.Keeps.refl h, fun hne => absurd rfl hne⟩
  | some i =>
      have hi64 := List.mem_range.mp (List.mem_of_find?_eq_some hslot)
      have hbase : (h.large i).base = 0 := by simpa using List.find?_some hslot
      rw [largeAlloc_some hslot]
      generalize hpg : largePages bytes alignment = pages at *
      rcases kPmmAllocAligned_cases pages 1 0 h.phys with hz | ⟨start, he, hc, hrun, -, hlow⟩
      · rw [hz, largeTake, if_pos rfl]
        exact ⟨⟨hok.held, hok.arena, hok.large⟩, fun s b hs => by cases s <;> exact hs,
          fun hne => absurd rfl hne⟩
      · have hge := hrun.ge hok.held.ok hc
        obtain ⟨t, ht₁, ht₂, ht₃⟩ := hfits ⟨i, hi64, hbase⟩ ⟨start, hrun⟩
        -- the scan gives the lowest run, which is no higher than the one that is promised
        have hle : start ≤ t := by
          by_contra hcon
          exact hlow (by omega) t ht₁ (by omega) ht₃
        have hclaim := hok.held.claim (x := .large i) hbase hc hrun
        have hsum : 4096 * start + alignment ≤ 2 ^ 32 :=
          (Nat.add_le_add_right (Nat.mul_le_mul_left 4096 hle) alignment).trans ht₂
        have hpos : 4096 * start ≠ 0 := by omega
        rw [he, largeTake]
        generalize 4096 * start = base at hclaim hsum hpos ⊢
        rw [if_neg hpos]
        obtain ⟨hdvd, hlo, hhi⟩ := alignUp_spec ha (Nat.le_of_add_left_le hsum) (by decide) hsum
        refine ⟨⟨hclaim.congr (fun x => ?_) (fun x _ => ?_), hok.arena, fun j => ?_⟩,
          fun s b hs => ?_, fun _ => ⟨hdvd, .large i, fun b hb' => ?_, fun b hp hb' => ?_⟩⟩
        · cases x with
          | arena j => rfl
          | large j =>
              simp only [Heap.base, Function.update_apply, Holder.large.injEq]
              split <;> rfl
        · cases x with
          | arena j => rfl
          | large j =>
              simp only [Heap.pages, Function.update_apply, Holder.large.injEq]
              split <;> rfl
        · rcases eq_or_ne j i with rfl | hne
          · simp only [Function.update_self]
            exact ⟨fun h0 => absurd h0 hpos, fun _ => ⟨hlo, by dsimp only; omega⟩⟩
          · simp only [Function.update_of_ne hne]
            exact hok.large j
        · cases s with
          | unit j u => exact hs
          | large j =>
              have hne : j ≠ i := fun e => hs.1 (e ▸ hbase)
              simp only [Heap.StoredAt, Function.update_of_ne hne]
              exact hs
        · exact hb'.1 hbase
        · simp only [Heap.StoredAt, Function.update_self, hp, hb', and_self, and_true]
          exact hpos

/-- Filling a block changes memory and counters only. -/
theorem HeapAllocated.fill {h h' : Heap} {result bytes alignment : Nat}
    (ha : HeapAllocated h h' result bytes alignment) :
    HeapAllocated h (h'.fill result bytes) result bytes alignment := by
  have hk : h'.Keeps (h'.fill result bytes) := fun s b hs => by cases s <;> exact hs
  refine ⟨⟨ha.ok.held, ha.ok.arena, ha.ok.large⟩, ha.keeps.trans hk, fun hne => ?_⟩
  obtain ⟨hd, s, hs, hs'⟩ := ha.fresh hne
  exact ⟨hd, s, hs, fun b hp hb => hk s b (hs' b hp hb)⟩

/-- A call whose rounding stays below 4 GiB places its block, or returns zero. -/
theorem kHeapAlloc_ok {bytes alignment : Nat} {h : Heap} (hok : HeapOk h)
    (hfits : AlignFits h bytes alignment) :
    HeapAllocated h (kHeapAlloc bytes alignment h).2 (kHeapAlloc bytes alignment h).1 bytes
      alignment := by
  rw [kHeapAlloc]
  by_cases hs : heapServes bytes alignment = false
  · rw [if_pos hs]
    exact ⟨hok, Heap.Keeps.refl h, fun hne => absurd rfl hne⟩
  · rw [if_neg hs]
    have hs' := Bool.not_eq_false _ ▸ hs
    obtain ⟨hb0, hb, ha, hal⟩ := heapServes_iff.mp hs'
    obtain ⟨ha', h16, hal', hdvd⟩ := heapAlignment_spec ha hal
    have hfits' := hfits hs'
    simp only [← heapAlignment.eq_1]
    generalize heapAlignment alignment = a at *
    have hstep : HeapAllocated h
        (if takesPages bytes a = true then largeAlloc bytes a h
          else arenaAlloc ((bytes + 8 + 64 - 1) / 64 % 2 ^ 32) bytes a 64 0 h).2
        (if takesPages bytes a = true then largeAlloc bytes a h
          else arenaAlloc ((bytes + 8 + 64 - 1) / 64 % 2 ^ 32) bytes a 64 0 h).1 bytes a := by
      by_cases ht : takesPages bytes a = true
      · rw [if_pos ht]
        exact largeAlloc_ok hok hb ha' hal' ht (hfits' ht)
      · rw [if_neg ht]
        simp only [takesPages, Bool.or_eq_true, decide_eq_true_eq, not_or, Nat.not_lt] at ht
        exact arenaAlloc_ok (by omega) (by omega) (by omega) (by omega) ha' hok
    generalize (if takesPages bytes a = true then largeAlloc bytes a h
      else arenaAlloc ((bytes + 8 + 64 - 1) / 64 % 2 ^ 32) bytes a 64 0 h) = r at hstep ⊢
    have hw : HeapAllocated h r.2 r.1 bytes alignment :=
      ⟨hstep.ok, hstep.keeps, fun hne => ⟨hdvd.trans (hstep.fresh hne).1, (hstep.fresh hne).2⟩⟩
    split
    · exact ⟨hw.ok, hw.keeps, fun hne => absurd rfl hne⟩
    · exact hw.fill

/-- A large block freed leaves the others. -/
theorem dropLarge_ok {h : Heap} (hok : HeapOk h) {i : Nat} (hb : (h.large i).base ≠ 0) :
    HeapOk (h.dropLarge i) ∧
      ∀ s b, h.StoredAt s b → s ≠ .large i → (h.dropLarge i).StoredAt s b := by
  have hrel := hok.held.release (x := .large i) hb
  refine ⟨⟨hrel.congr (fun x => ?_) (fun x hx => ?_), hok.arena, fun j => ?_⟩, fun s b hs hne => ?_⟩
  · cases x with
    | arena j => rfl
    | large j =>
        simp only [Heap.base, Heap.dropLarge, Function.update_apply, Holder.large.injEq]
        split <;> rfl
  · cases x with
    | arena j => rfl
    | large j =>
        rcases eq_or_ne j i with rfl | e
        · rw [Function.update_self] at hx
          exact absurd rfl hx
        · simp only [Heap.pages, Heap.dropLarge, Function.update_of_ne e]
  · rcases eq_or_ne j i with rfl | e
    · simp only [Heap.dropLarge, Function.update_self]
      exact LargeOk.zero
    · simp only [Heap.dropLarge, Function.update_of_ne e]
      exact hok.large j
  · cases s with
    | unit j u => exact hs
    | large j =>
        have e : j ≠ i := fun e => hne (by rw [e])
        simp only [Heap.StoredAt, Heap.dropLarge, Function.update_of_ne e]
        exact hs

/-- A block of an arena is given up, and the arena with it when it was the last one. -/
theorem dropUnit_ok {h : Heap} (hok : HeapOk h) {i u : Nat} (hb : (h.arenas i).base ≠ 0)
    (hl : (h.arenas i).length u ≠ 0) :
    HeapOk (h.dropUnit i u) ∧
      ∀ s b, h.StoredAt s b → s ≠ .unit i u → (h.dropUnit i u).StoredAt s b := by
  obtain ⟨hdrop, hlast⟩ := (hok.arena i).drop hl
  rw [Heap.dropUnit]
  dsimp only
  split
  · rename_i h0
    -- the last block: the arena gives its page back
    have hrel := hok.held.release (x := .arena i) hb
    refine ⟨⟨hrel.congr (fun x => ?_) (fun x hx => ?_), fun j => ?_, hok.large⟩,
      fun s b hs hne => ?_⟩
    · cases x with
      | large j => rfl
      | arena j =>
          simp only [Heap.base, Function.update_apply, Holder.arena.injEq]
          split <;> rfl
    · cases x <;> rfl
    · rcases eq_or_ne j i with rfl | e
      · simp only [Function.update_self]
        exact ArenaOk.zero
      · simp only [Function.update_of_ne e]
        exact hok.arena j
    · cases s with
      | large j => exact hs
      | unit j v =>
          rcases eq_or_ne j i with rfl | e
          · -- the arena had no block but the one at `u`
            have hv : v ≠ u := fun e => hne (by rw [e])
            have := hlast h0 v
            simp only [Arena.drop, Function.update_of_ne hv] at this
            exact absurd this hs.2.1
          · simp only [Heap.StoredAt, Function.update_of_ne e]
            exact hs
  · refine ⟨⟨hok.held.congr (fun x => ?_) (fun x hx => ?_), fun j => ?_, hok.large⟩,
      fun s b hs hne => ?_⟩
    · cases x with
      | large j => rfl
      | arena j =>
          simp only [Heap.base, Function.update_apply]
          split
          · rename_i e
            rw [e]
            rfl
          · rfl
    · cases x <;> rfl
    · rcases eq_or_ne j i with rfl | e
      · simp only [Function.update_self]
        exact hdrop
      · simp only [Function.update_of_ne e]
        exact hok.arena j
    · cases s with
      | large j => exact hs
      | unit j v =>
          rcases eq_or_ne j i with rfl | e
          · have hv : v ≠ u := fun e => hne (by rw [e])
            simp only [Heap.StoredAt, Function.update_self, Arena.drop, Function.update_of_ne hv]
            exact hs
          · simp only [Heap.StoredAt, Function.update_of_ne e]
            exact hs

/-- A free that fails leaves everything. -/
theorem Heap.failed_ok {h : Heap} (hok : HeapOk h) : HeapOk h.failed ∧ h.Keeps h.failed :=
  ⟨⟨hok.held, hok.arena, hok.large⟩, fun s b hs => by cases s <;> exact hs⟩

/-- The arena `k_heap_free` finds has pages, and the pointer is at one of its units. -/
theorem Heap.arenaOf_some {h : Heap} {p i : Nat} (ha : h.arenaOf p = some i) :
    (h.arenas i).base ≠ 0 ∧ (h.arenas i).base + 64 * ((p - (h.arenas i).base) / 64) = p := by
  have := List.find?_some ha
  simp only [Bool.not_eq_true', Bool.or_eq_false_iff, beq_eq_false_iff_ne, decide_eq_false_iff_not,
    bne_eq_false_iff_eq] at this
  omega

/-- A call of `k_heap_free` keeps every block but the one it takes back. -/
theorem kHeapFree_ok {h : Heap} (hok : HeapOk h) (p : Nat) :
    HeapOk (kHeapFree p h).2 ∧ ∀ s b, h.StoredAt s b →
      ((kHeapFree p h).1 = .ok () → b.pointer ≠ p) → (kHeapFree p h).2.StoredAt s b := by
  have hfail := Heap.failed_ok hok
  rw [kHeapFree]
  split
  · exact ⟨hok, fun s b hs _ => hs⟩
  · rename_i hp
    split
    · rename_i i hfind
      have hptr : (h.large i).pointer = p := by simpa using List.find?_some hfind
      split
      · have hb : (h.large i).base ≠ 0 := fun e => hp (hptr ▸ (hok.large i).idle e)
        obtain ⟨h₁, h₂⟩ := dropLarge_ok hok hb
        refine ⟨h₁, fun s b hs hne => h₂ s b hs fun e => ?_⟩
        subst e
        exact hne rfl (hs.2.1.symm.trans hptr)
      · exact ⟨hfail.1, fun s b hs _ => hfail.2 s b hs⟩
    · split
      · exact ⟨hfail.1, fun s b hs _ => hfail.2 s b hs⟩
      · rename_i i hfind
        obtain ⟨hb, hu⟩ := Heap.arenaOf_some hfind
        dsimp only
        generalize (p - (h.arenas i).base) / 64 = u at hu ⊢
        split
        · exact ⟨hfail.1, fun s b hs _ => hfail.2 s b hs⟩
        · rename_i hl
          split
          · exact ⟨hfail.1, fun s b hs _ => hfail.2 s b hs⟩
          · split
            · exact ⟨hfail.1, fun s b hs _ => hfail.2 s b hs⟩
            · obtain ⟨h₁, h₂⟩ := dropUnit_ok hok hb fun e => hl (Or.inl e)
              generalize h.dropUnit i u = h' at h₁ h₂ ⊢
              refine ⟨h₁, fun s b hs hne => h₂ s b hs fun e => ?_⟩
              subst e
              exact hne rfl (hs.2.2.1.symm.trans hu)

/-! ### Runs -/

/-- The states of the heap over a memory map, with the live blocks.  `Served` restricts the requests
to `k_heap_alloc`, as a condition on the state they are made in. -/
inductive HeapReach (Served : Heap → Nat → Nat → Prop) (map : List EfiMemoryDescriptor) :
    Heap → List HeapBlock → Prop where
  | init (mem : Bytes) : HeapReach Served map (Heap.init ⟨pmmSeedFromEfiMap map, mem⟩) []
  | alloc {h : Heap} {live : List HeapBlock} (bytes alignment : Nat)
      (hr : HeapReach Served map h live) (hs : Served h bytes alignment) :
      HeapReach Served map (kHeapAlloc bytes alignment h).2
        (if (kHeapAlloc bytes alignment h).1 = 0 then live
          else ⟨(kHeapAlloc bytes alignment h).1, bytes, alignment⟩ :: live)
  | free {h : Heap} {live : List HeapBlock} (p : Nat) (hr : HeapReach Served map h live) :
      HeapReach Served map (kHeapFree p h).2
        (match (kHeapFree p h).1 with
          | .ok () => live.eraseP fun b => b.pointer == p
          | .error _ => live)
  | write {h : Heap} {live : List HeapBlock} (mem : Bytes) (hr : HeapReach Served map h live) :
      HeapReach Served map { h with phys := { h.phys with mem } } live

/-- The invariant holds before the first call. -/
theorem HeapInv.init (map : List EfiMemoryDescriptor) (mem : Bytes) :
    HeapInv (Heap.init ⟨pmmSeedFromEfiMap map, mem⟩) [] where
  ok := by
    have hnone : PagesHeld (pmmSeedFromEfiMap map) (fun _ : Holder => 0) (fun _ => 0) :=
      PagesHeld.none (pmmOk_seed map)
    refine ⟨hnone.congr (fun x => ?_) (fun x hx => absurd rfl hx), fun _ => ArenaOk.zero,
      fun _ => LargeOk.zero⟩
    cases x <;> rfl
  stored := by simp
  aligned := by simp
  apart := .nil

theorem HeapInv.alloc {h : Heap} {live : List HeapBlock} (hinv : HeapInv h live)
    {bytes alignment : Nat} (hfits : AlignFits h bytes alignment) :
    HeapInv (kHeapAlloc bytes alignment h).2
      (if (kHeapAlloc bytes alignment h).1 = 0 then live
        else ⟨(kHeapAlloc bytes alignment h).1, bytes, alignment⟩ :: live) := by
  have ha := kHeapAlloc_ok hinv.ok hfits
  generalize kHeapAlloc bytes alignment h = r at ha ⊢
  obtain ⟨hok, hk, hfresh⟩ := ha
  have hold : ∀ b ∈ live, ∃ s, r.2.StoredAt s b := by
    intro b hb
    obtain ⟨s, hs⟩ := hinv.stored b hb
    exact ⟨s, hk s b hs⟩
  by_cases h0 : r.1 = 0
  · rw [if_pos h0]
    exact ⟨hok, hold, hinv.aligned, hinv.apart⟩
  · rw [if_neg h0]
    obtain ⟨hd, s₀, hfree, hnew⟩ := hfresh h0
    have hs₀ := hnew ⟨r.1, bytes, alignment⟩ rfl rfl
    refine ⟨hok, fun b hb => ?_, fun b hb => ?_,
      List.pairwise_cons.mpr ⟨fun b hb => ?_, hinv.apart⟩⟩
    · rcases List.mem_cons.mp hb with rfl | hb
      · exact ⟨s₀, hs₀⟩
      · exact hold b hb
    · rcases List.mem_cons.mp hb with rfl | hb
      · exact hd
      · exact hinv.aligned b hb
    · obtain ⟨s, hs⟩ := hinv.stored b hb
      have hne : s₀ ≠ s := fun e => hfree b (e ▸ hs)
      exact hok.apart hne hs₀ (hk s b hs)

theorem HeapInv.free {h : Heap} {live : List HeapBlock} (hinv : HeapInv h live) (p : Nat) :
    HeapInv (kHeapFree p h).2
      (match (kHeapFree p h).1 with
        | .ok () => live.eraseP fun b => b.pointer == p
        | .error _ => live) := by
  obtain ⟨hok, hkeep⟩ := kHeapFree_ok hinv.ok p
  cases hr : (kHeapFree p h).1 with
  | error e =>
      refine ⟨hok, fun b hb => ?_, hinv.aligned, hinv.apart⟩
      obtain ⟨s, hs⟩ := hinv.stored b hb
      exact ⟨s, hkeep s b hs fun e' => by rw [hr] at e'; cases e'⟩
  | ok x =>
      cases x
      have hsub : (live.eraseP fun b => b.pointer == p).Sublist live := List.eraseP_sublist
      refine ⟨hok, fun b hb => ?_, fun b hb => hinv.aligned b (hsub.mem hb),
        hinv.apart.sublist hsub⟩
      obtain ⟨s, hs⟩ := hinv.stored b (hsub.mem hb)
      refine ⟨s, hkeep s b hs fun _ hbp => ?_⟩
      -- two live blocks with one pointer would overlap
      obtain ⟨c, l₁, l₂, -, hc, hlive, herase⟩ :=
        List.exists_of_eraseP (p := fun b : HeapBlock => b.pointer == p) (hsub.mem hb)
          (by simpa using hbp)
      rw [herase] at hb
      have hap := hinv.apart
      rw [hlive] at hap
      obtain ⟨-, hap₂, hap₃⟩ := List.pairwise_append.mp hap
      have hcp : c.pointer = p := by simpa using hc
      rcases List.mem_append.mp hb with hb | hb
      · have := hap₃ b hb c (List.mem_cons_self ..)
        simp only [HeapBlock.Apart] at this
        omega
      · have := (List.pairwise_cons.mp hap₂).1 b hb
        simp only [HeapBlock.Apart] at this
        omega

/-- **The heap places its blocks.**  In every state of every run over any memory map in which the
rounding of no pointer reaches 4 GiB, each live block is aligned as asked for, lies with its canary
inside pages that are held for it, and overlaps no other live block. -/
theorem heap_placement {map : List EfiMemoryDescriptor} {h : Heap} {live : List HeapBlock}
    (hr : HeapReach AlignFits map h live) : HeapPlaced h live := by
  suffices hinv : HeapInv h live from hinv.placed
  induction hr with
  | init mem => exact HeapInv.init map mem
  | alloc bytes alignment _ hs ih => exact ih.alloc hs
  | free p _ ih => exact ih.free p
  | write mem _ ih =>
      refine ⟨⟨ih.ok.held, ih.ok.arena, ih.ok.large⟩, fun b hb => ?_, ih.aligned, ih.apart⟩
      obtain ⟨s, hs⟩ := ih.stored b hb
      exact ⟨s, by cases s <;> exact hs⟩

/-- Sixteen pages at 1 MiB. -/
def lowMap : List EfiMemoryDescriptor := [⟨efiConventionalMemory, 0x100000, 16⟩]

theorem heap_placement_lowMap :
    HeapPlaced (kHeapAlloc 100 16 (Heap.init ⟨pmmSeedFromEfiMap lowMap, fun _ => 0⟩)).2
      [⟨0x100000, 100, 16⟩] := by
  have hfits : AlignFits (Heap.init ⟨pmmSeedFromEfiMap lowMap, fun _ => 0⟩) 100 16 := by
    intro _ ht
    exact absurd ht (by decide)
  have hr := HeapReach.alloc 100 16 (.init fun _ => 0) hfits
  have hp :
      (kHeapAlloc 100 16 (Heap.init ⟨pmmSeedFromEfiMap lowMap, fun _ => 0⟩)).1 = 0x100000 := by
    decide +kernel
  rw [hp] at hr
  exact heap_placement hr

/-- Twelve pages from 4 GiB + 4 KiB on. -/
def highMap : List EfiMemoryDescriptor := [⟨efiConventionalMemory, 0x100001000, 12⟩]

theorem highMap_free {q : Nat} :
    (pmmSeedFromEfiMap highMap).free q = true ↔ 0x100001 ≤ q ∧ q < 0x100001 + 12 := by
  have h : (pmmSeedFromEfiMap highMap).free = (seedPages 12 0x100001 Pmm.empty).free := rfl
  rw [h, seedPages_free]
  simp [Pmm.empty]

/-- The only run of twelve pages is taken whole. -/
theorem highMap_alloc (mem : Bytes) :
    kPmmAllocAligned 12 1 0 ⟨pmmSeedFromEfiMap highMap, mem⟩ =
      (4096 * 0x100001, Phys.claim ⟨pmmSeedFromEfiMap highMap, mem⟩ 0x100001 12) := by
  have hrun : FreeRun (pmmSeedFromEfiMap highMap).free 12 1 0x100001 :=
    ⟨by decide, fun i hi => highMap_free.mpr ⟨by omega, by omega⟩⟩
  have hn : 12 ≤ (pmmSeedFromEfiMap highMap).freePages := by decide +kernel
  have hl : 0x100001 + 12 ≤ (pmmSeedFromEfiMap highMap).limit 0 := by decide +kernel
  obtain ⟨start, hs, hrs⟩ := kPmmAllocAligned_succeeds (s := ⟨pmmSeedFromEfiMap highMap, mem⟩)
    (by decide) (by decide) hn (by decide) hl hrun
  have h₀ := highMap_free.mp (hrs.2 0 (by decide))
  have h₁ := highMap_free.mp (hrs.2 11 (by decide))
  obtain rfl : start = 0x100001 := by omega
  exact hs

/-- The block that gets the pages from 4 GiB + 4 KiB on is aligned to the wrong address. -/
theorem kHeapAlloc_truncates {s s' : Phys}
    (hs : kPmmAllocAligned 12 1 0 s = (4096 * 0x100001, s')) :
    (kHeapAlloc 40000 8192 (Heap.init s)).1 = 0x2000 ∧
      (kHeapAlloc 40000 8192 (Heap.init s)).2.phys.pmm = s'.pmm := by
  have hslot : (Heap.init s).largeSlot = some 0 := rfl
  have hphys : (Heap.init s).phys = s := rfl
  have hpages : largePages 40000 8192 = 12 := by decide
  have halign : alignUp 32 (4096 * 0x100001) 8192 = 0x2000 := by decide
  have hlarge : largeAlloc 40000 8192 (Heap.init s) =
      largeTake 0 12 40000 8192 (Heap.init s) (4096 * 0x100001, s') := by
    rw [largeAlloc_some hslot, hpages, hphys, hs]
  rw [largeTake, if_neg (by decide), halign] at hlarge
  rw [kHeapAlloc, if_neg (by decide)]
  dsimp only
  rw [if_neg (show ¬ 8192 < 16 by decide), if_pos (show takesPages 40000 8192 = true by decide),
    hlarge]
  dsimp only
  rw [if_neg (show ¬ 0x2000 = 0 by decide)]
  exact ⟨rfl, rfl⟩

/-- Without the condition on the rounding: a block of 40000 bytes aligned to 8192, given pages from
`0x100001000` on, is returned as `0x2000`. -/
theorem heap_block_outside_its_pages :
    ¬ ∀ (map : List EfiMemoryDescriptor) (h : Heap) (live : List HeapBlock),
      HeapReach (fun _ _ _ => True) map h live → HeapPlaced h live := by
  intro hall
  obtain ⟨hp, hpmm⟩ := kHeapAlloc_truncates (highMap_alloc fun _ => 0)
  have hok : PmmOk (Phys.claim ⟨pmmSeedFromEfiMap highMap, fun _ => 0⟩ 0x100001 12).pmm :=
    PmmOk.claim (s := ⟨pmmSeedFromEfiMap highMap, fun _ => 0⟩) (pmmOk_seed highMap) _ _
  rw [← hpmm] at hok
  have hi : HeapReach (fun _ _ _ => True) highMap _ _ := .init fun _ => 0
  have hr := HeapReach.alloc 40000 8192 hi trivial
  rw [hp] at hr
  obtain ⟨s, hs, hle, hin, hheld⟩ := (hall _ _ _ hr).inside _ (List.mem_singleton.mpr rfl)
  dsimp only at hle hin
  -- held pages are above 1 MiB, the pointer is below
  have hge := hok.eligible_ge _ ((Pmm.held_iff.mp hheld _ (Nat.le_refl _) (by omega)).1)
  omega

end Efishell
