import Efishell.Arch.PageTrees

/-!
# Paging — the address space as a whole

`SpaceInv` adds to the tables of a space what its record says of them: which slots of the root it
owns, up to where the window is handed out, and that large pages lie below that point.  Every call
keeps it, whether it succeeds or fails, and the lemma of a call says what it did to the map.

* `SpaceInv.asAlloc`, `SpaceInv.asAllocOption`, `SpaceInv.asMapAt`: a region is handed out, or
  tables were added at most.
* `SpaceInv.asRollback`: a rollback keeps the invariant.
-/

namespace Efishell

/-- The invariant of a space that was created in `s₀`. -/
structure SpaceInv (env : MmuEnv) (s₀ : Phys) (w : Vm) (g : PageMap) : Prop where
  tables : PtInv env s₀ w.as.root w.phys g
  hand : ∀ q, g (0, q) = .empty
  used : w.as.used = true
  owned : ∀ slot, g (4, slot) ≠ .empty → slot < 256 ∧ w.as.owned slot = true
  not_kernel : ∀ slot < 256, w.as.owned slot = true → kernelSlot env s₀ slot = false
  next_aligned : 4096 ∣ w.as.next
  next_ge : kUserBase + 0x200000 ≤ w.as.next
  next_le : w.as.next ≤ kUserLimit
  pages_le : w.as.pages ≤ maxUserPages
  window : w.as.owned userSlot = true
  huge : ∀ q p rwx, g (2, q) = .page p rwx → (q + 1) * ptSpan 2 ≤ w.as.next

/-- The addresses that are not handed out yet. -/
def Ahead (next v : Nat) : Prop := next ≤ v ∧ v < kUserLimit

/-- The user window lies in one entry of the root. -/
theorem slot_of_window {v : Nat} (h₁ : kUserBase ≤ v) (h₂ : v < kUserLimit) :
    v / ptSpan 4 = userSlot := by
  simp only [kUserBase, kUserLimit] at h₁ h₂
  rw [show ptSpan 4 = 2 ^ 39 from rfl, show userSlot = 128 from rfl]
  omega

/-- The larger of two powers of two is one. -/
theorem power2_max {a b : Nat} (ha : power2 a = true) (hb : power2 b = true) :
    power2 (max a b) = true := by
  rcases Nat.le_total a b with h | h
  · rwa [Nat.max_eq_right h]
  · rwa [Nat.max_eq_left h]

namespace SpaceInv

variable {env : MmuEnv} {s₀ : Phys} {w : Vm} {g g' : PageMap}

/-- A large page of the user window ends before what was given out last. -/
theorem hugeApart (h : SpaceInv env s₀ w g) : HugeApart w.as.next g :=
  fun q p rwx hx => Or.inr (h.huge q p rwx hx)

/-- No large page covers an address that is not handed out yet. -/
theorem no_huge (h : SpaceInv env s₀ w g) {v : Nat} (hv : w.as.next ≤ v) (p rwx : Nat) :
    g (2, v / ptSpan 2) ≠ .page p rwx := by
  intro hx
  have h₁ := h.huge _ p rwx hx
  have h₂ := Nat.lt_div_mul_add (a := v) (ptSpan_pos 2)
  rw [Nat.add_mul, Nat.one_mul] at h₁
  omega

/-- What is given out lies in the user window. -/
theorem base_le_next (h : SpaceInv env s₀ w g) : kUserBase ≤ w.as.next :=
  (Nat.le_add_right _ _).trans h.next_ge

/-- A range of entries was filled, and the record says so. -/
theorem fill (h : SpaceInv env s₀ w g) {z : Vm} {S : Nat → Prop} {level q₀ n : Nat}
    {K : Phys → Ent → Prop} (hroot : z.as.root = w.as.root) (hused : z.as.used = true)
    (ht : PtInv env s₀ w.as.root z.phys g') (hh : g' (0, 0) = .empty)
    (hf : Filled S level q₀ n K g g' w.phys z.phys) (hl : level = 1 ∨ level = 2)
    (hsub : ∀ slot, w.as.owned slot = true → z.as.owned slot = true)
    (hS : ∀ v, S v → v / ptSpan 4 < 256 ∧ z.as.owned (v / ptSpan 4) = true)
    (hnk : ∀ slot < 256, z.as.owned slot = true → kernelSlot env s₀ slot = false)
    (hnext : w.as.next ≤ z.as.next) (hend : level = 2 → (q₀ + n) * ptSpan 2 ≤ z.as.next)
    (hal : 4096 ∣ z.as.next) (hle : z.as.next ≤ kUserLimit) (hpages : z.as.pages ≤ maxUserPages) :
    SpaceInv env s₀ z g' where
  tables := by
    rw [hroot]
    exact ht
  hand q := by
    rcases Nat.eq_zero_or_pos q with rfl | hq
    · exact hh
    · rcases hf.rest (0, q) (by simp only; omega) with e | ⟨-, -, e, -⟩
      · rw [e]
        exact h.hand q
      · exact absurd e (by simp)
  used := hused
  owned slot hs := by
    rcases hf.rest (4, slot) (by simp only; omega) with e | ⟨-, -, -, -, v, hv, e⟩
    · obtain ⟨h₁, h₂⟩ := h.owned slot (e ▸ hs)
      exact ⟨h₁, hsub slot h₂⟩
    · rw [show slot = v / ptSpan 4 from e]
      exact hS v hv
  not_kernel := hnk
  next_aligned := hal
  next_ge := h.next_ge.trans hnext
  next_le := hle
  pages_le := hpages
  window := hsub userSlot h.window
  huge q p rwx hx := by
    by_cases hin : level = 2 ∧ q₀ ≤ q ∧ q < q₀ + n
    · exact (Nat.mul_le_mul_right _ hin.2.2).trans (hend hin.1)
    · rcases hf.rest (2, q) (by simp only; omega) with e | ⟨-, ⟨p', e⟩, -⟩
      · exact (h.huge q p rwx (e ▸ hx)).trans hnext
      · rw [hx] at e
        cases e

/-- Addresses ahead lie in the window. -/
theorem ahead (h : SpaceInv env s₀ w g) {v : Nat} (hv : Ahead w.as.next v) :
    v / ptSpan 4 < 256 ∧ w.as.owned (v / ptSpan 4) = true := by
  rw [slot_of_window (h.base_le_next.trans hv.1) hv.2]
  exact ⟨by decide, h.window⟩

/-- Tables were added. -/
theorem grow (h : SpaceInv env s₀ w g) {z : Vm} {S : Nat → Prop} (hroot : z.as.root = w.as.root)
    (hused : z.as.used = true) (hnext : z.as.next = w.as.next) (hpages : z.as.pages = w.as.pages)
    (ht : PtInv env s₀ w.as.root z.phys g') (hh : g' (0, 0) = .empty)
    (hg : Grows S g g' w.phys z.phys)
    (hsub : ∀ slot, w.as.owned slot = true → z.as.owned slot = true)
    (hS : ∀ v, S v → v / ptSpan 4 < 256 ∧ z.as.owned (v / ptSpan 4) = true)
    (hnk : ∀ slot < 256, z.as.owned slot = true → kernelSlot env s₀ slot = false) :
    SpaceInv env s₀ z g' := by
  have hf : Filled S 1 0 0 (LazyPage 0) g g' w.phys z.phys := Filled.zero hg
  refine h.fill hroot hused ht hh hf (Or.inl rfl) hsub hS hnk hnext.ge (by omega) ?_ ?_ ?_
  · rw [hnext]
    exact h.next_aligned
  · rw [hnext]
    exact h.next_le
  · rw [hpages]
    exact h.pages_le

/-! ### Allocation -/

/-- What a call that hands out addresses did: nothing but tables, or a range of new entries. -/
structure Handed (w w' : Vm) (level v n : Nat) (K : Phys → Ent → Prop) (g g' : PageMap) : Prop where
  filled : Filled (Ahead w.as.next) level (v / ptSpan level) n K g g' w.phys w'.phys
  aligned : ptSpan level ∣ v
  ge : w.as.next ≤ v
  next : w'.as.next = v + ptSpan level * n + 4096
  pages : w'.as.pages = w.as.pages + ptSpan level / 4096 * n
  rest : w'.as = { w.as with next := w'.as.next, pages := w'.as.pages }

/-- `ALIGN_UP` to pages, where it does not wrap. -/
theorem alignUp_pages {bytes : Nat} (h : bytes ≤ 4096 * maxUserPages) :
    alignUp 64 bytes 4096 = (bytes + 4095) / 4096 * 4096 := by
  simp only [maxUserPages] at h
  rw [alignUp_eq (by decide) (by decide) (by omega), Nat.mod_eq_of_lt (by omega)]
  rfl

/-- Where the next range starts. -/
theorem alignUp_next (h : SpaceInv env s₀ w g) {align : Nat} (unit : Nat) (ha : power2 align = true)
    (hu : power2 unit = true) (hle : align ≤ 0x40000000) (hule : unit ≤ 0x40000000) :
    align ∣ alignUp 64 w.as.next (max align unit) ∧ unit ∣ alignUp 64 w.as.next (max align unit) ∧
      w.as.next ≤ alignUp 64 w.as.next (max align unit) := by
  have hm := power2_max ha hu
  have hn := h.next_le
  simp only [kUserLimit] at hn
  obtain ⟨h₁, h₂, -⟩ := alignUp_spec (w := 64) (x := w.as.next) hm (by omega) (by omega) (by omega)
  exact ⟨(power2_dvd ha hm (Nat.le_max_left _ _)).trans h₁,
    (power2_dvd hu hm (Nat.le_max_right _ _)).trans h₁, h₂⟩

/-- The page counter does not wrap. -/
theorem pages_room (h : SpaceInv env s₀ w g) {n : Nat}
    (hn : ¬ (2 ^ 32 + maxUserPages - w.as.pages) % 2 ^ 32 < n) : w.as.pages + n ≤ maxUserPages := by
  have hp := h.pages_le
  simp only [maxUserPages] at hn hp ⊢
  omega

/-- `k_as_alloc`: on failure only tables were added; on success the region is new and zero. -/
theorem asAlloc (h : SpaceInv env s₀ w g) (hk : KernelOk env s₀) (bytes align rwx : Nat) :
    (∃ e g', (asAlloc env bytes align rwx w).1 = .error e ∧
      (asAlloc env bytes align rwx w).2.as = w.as ∧
        SpaceInv env s₀ (asAlloc env bytes align rwx w).2 g' ∧
        Grows (Ahead w.as.next) g g' w.phys (asAlloc env bytes align rwx w).2.phys) ∨
      ∃ v g', (asAlloc env bytes align rwx w).1 = .ok v ∧
        SpaceInv env s₀ (asAlloc env bytes align rwx w).2 g' ∧
        Handed w (asAlloc env bytes align rwx w).2 1 v ((bytes + 4095) / 4096)
          (ZeroPage 1 rwx) g g' ∧
        align ∣ v ∧ 0 < bytes ∧ rwxOk rwx = true := by
  have hsame : ∀ {e : Errno}, (∃ e' g', (.error e : Except Errno Nat) = .error e' ∧ w.as = w.as ∧
      SpaceInv env s₀ w g' ∧ Grows (Ahead w.as.next) g g' w.phys w.phys) :=
    ⟨_, g, rfl, rfl, h, Grows.refl _ g w.phys⟩
  rw [Efishell.asAlloc]
  by_cases h₁ : (!w.as.used) = true ∨ bytes = 0 ∨ power2 align = false ∨ 0x40000000 < align ∨
    rwxOk rwx = false
  · rw [if_pos h₁]
    exact Or.inl hsame
  rw [if_neg h₁]
  by_cases h₂ : (!env.nx) = true
  · rw [if_pos h₂]
    exact Or.inl hsame
  rw [if_neg h₂]
  by_cases h₃ : 4096 * maxUserPages < bytes
  · rw [if_pos h₃]
    exact Or.inl hsame
  rw [if_neg h₃]
  simp only [not_or, Bool.not_eq_false, not_lt] at h₁ h₃
  obtain ⟨-, hb, ha, hale, hr⟩ := h₁
  obtain ⟨hd₁, hd₂, hge⟩ := h.alignUp_next 4096 ha (by decide) hale (by omega)
  rw [alignUp_pages h₃, Nat.mul_div_cancel _ (show 0 < 4096 by omega)]
  generalize alignUp 64 w.as.next (max align 4096) = v at hd₁ hd₂ hge ⊢
  dsimp only
  by_cases h₄ : (2 ^ 32 + maxUserPages - w.as.pages) % 2 ^ 32 < (bytes + 4095) / 4096 ∨
    kUserLimit ≤ v ∨
      kUserLimit - v < 4096 * ((bytes + 4095) / 4096) + 4096
  · rw [if_pos h₄]
    exact Or.inl hsame
  rw [if_neg h₄]
  generalize hn : (bytes + 4095) / 4096 = n at h₄ ⊢
  simp only [not_or, not_le, not_lt] at h₄
  obtain ⟨hroom, hv, hfit⟩ := h₄
  have hbase := h.base_le_next
  obtain ⟨g', ht, hh, hf, hall⟩ := PtInv.mapPages (S := Ahead w.as.next) (N := n) hk hr hd₂
    (fun i hi => ⟨by omega, by omega⟩) (fun i hi => h.no_huge (by omega)) n h.tables (h.hand 0)
    (by omega) (Filled.zero (Grows.refl _ g w.phys))
  generalize mapPages env w.as.root (leafFlags rwx) v n 0 w.phys = r at ht hf hall ⊢
  obtain ⟨done, err, s⟩ := r
  cases err with
  | some e =>
      -- the pages that were made are given back
      obtain ⟨g'', ht', hh', hg⟩ := PtInv.unmapPages hd₂ done ht hh (j := 0) hf
      exact Or.inl ⟨e, g'', rfl, rfl, h.grow rfl h.used rfl rfl ht' hh' hg (fun _ => id)
        (fun _ => h.ahead) h.not_kernel, hg⟩
  | none =>
      have hdone : done = n := by
        have := hall rfl
        simp only at this
        omega
      simp only [hdone] at hf
      refine Or.inr ⟨v, g', rfl, ?_, ⟨hf, hd₂, hge, ?_, ?_, rfl⟩, hd₁, by omega, hr⟩
      · refine h.fill (z := ⟨_, s⟩) rfl h.used ht hh hf (Or.inl rfl) (fun _ => id)
          (fun _ => h.ahead) h.not_kernel ?_ (by omega) ?_ ?_ ?_
        · simp only
          omega
        · simp only
          omega
        · simp only
          omega
        · exact h.pages_room (by omega)
      · rfl
      · simp only [show ptSpan 1 / 4096 = 1 from rfl, Nat.one_mul]

/-- The same of `x86_64_as_alloc_ex`, for each of its options. -/
theorem asAllocOption (h : SpaceInv env s₀ w g) (hk : KernelOk env s₀) (bytes align rwx : Nat)
    (o : VmOption) :
    (∃ e g', (asAllocOption env bytes align rwx o w).1 = .error e ∧
        (asAllocOption env bytes align rwx o w).2.as = w.as ∧
        SpaceInv env s₀ (asAllocOption env bytes align rwx o w).2 g' ∧
        Grows (Ahead w.as.next) g g' w.phys (asAllocOption env bytes align rwx o w).2.phys) ∨
      ∃ v n g', (asAllocOption env bytes align rwx o w).1 = .ok v ∧
        SpaceInv env s₀ (asAllocOption env bytes align rwx o w).2 g' ∧
        Handed w (asAllocOption env bytes align rwx o w).2 o.level v n (o.Kind rwx) g g' ∧
        align ∣ v ∧ rwxOk rwx = true := by
  have hsame : ∀ {e : Errno}, (∃ e' g', (.error e : Except Errno Nat) = .error e' ∧ w.as = w.as ∧
      SpaceInv env s₀ w g' ∧ Grows (Ahead w.as.next) g g' w.phys w.phys) :=
    ⟨_, g, rfl, rfl, h, Grows.refl _ g w.phys⟩
  rw [Efishell.asAllocOption]
  by_cases h₁ : (!w.as.used) = true ∨ bytes = 0 ∨ 4096 * maxUserPages < bytes ∨
    power2 align = false ∨
      0x40000000 < align ∨ rwxOk rwx = false
  · rw [if_pos h₁]
    exact Or.inl hsame
  rw [if_neg h₁]
  by_cases h₂ : (!env.nx) = true
  · rw [if_pos h₂]
    exact Or.inl hsame
  rw [if_neg h₂]
  by_cases h₃ : o = .lazy ∧ regionX rwx = true
  · rw [if_pos h₃]
    exact Or.inl hsame
  rw [if_neg h₃]
  by_cases h₄ : o = .huge ∧ bytes % o.unit ≠ 0
  · rw [if_pos h₄]
    exact Or.inl hsame
  rw [if_neg h₄]
  simp only [not_or, Bool.not_eq_false, not_lt] at h₁
  obtain ⟨-, hb, hmax, ha, hale, hr⟩ := h₁
  have hu : power2 o.unit = true ∧ o.unit ≤ 0x40000000 := by
    cases o <;> decide
  obtain ⟨hd₁, hd₂, hge⟩ := h.alignUp_next o.unit ha hu.1 hale hu.2
  rw [alignUp_pages hmax]
  -- the range is a whole number of units
  obtain ⟨n, hn⟩ : ∃ n, (bytes + 4095) / 4096 * 4096 = o.unit * n := by
    cases o with
    | lazy => exact ⟨_, Nat.mul_comm _ _⟩
    | huge =>
        have hz : bytes % 0x200000 = 0 := by
          by_contra hne
          exact h₄ ⟨rfl, hne⟩
        obtain ⟨k, hk⟩ := Nat.dvd_of_mod_eq_zero hz
        refine ⟨k, ?_⟩
        rw [hk]
        show _ = 0x200000 * k
        omega
  generalize hv : alignUp 64 w.as.next (max align o.unit) = v at hd₁ hd₂ hge ⊢
  rw [hn]
  dsimp only
  by_cases h₅ : (2 ^ 32 + maxUserPages - w.as.pages) % 2 ^ 32 < o.unit * n / 4096 ∨ kUserLimit ≤ v ∨
      kUserLimit - v < o.unit * n + 4096
  · rw [if_pos h₅]
    exact Or.inl hsame
  rw [if_neg h₅]
  simp only [not_or, not_le, not_lt] at h₅
  obtain ⟨hroom, hvl, hfit⟩ := h₅
  have hbase := h.base_le_next
  have hpos := o.unit_pos
  have hin : ∀ i < n, Ahead w.as.next (v + o.unit * i) := by
    intro i hi
    have := Nat.mul_lt_mul_of_pos_left hi hpos
    exact ⟨by omega, by omega⟩
  rw [Nat.mul_div_cancel_left n hpos]
  obtain ⟨g', ht, hh, hf, hall⟩ := PtInv.mapUnits (S := Ahead w.as.next) (N := n) o hr hd₂ hin
    (fun i hi => (hin i hi).2.trans (by decide))
    (fun i hi => by
      rw [slot_of_window (hbase.trans (hin i hi).1) (hin i hi).2]
      exact hk.window)
    (fun i hi => h.no_huge (hin i hi).1) n h.tables (h.hand 0) (by omega)
    (Filled.zero (Grows.refl _ g w.phys))
  generalize mapUnits o w.as.root (leafFlags rwx) v n 0 w.phys = r at ht hf hall ⊢
  obtain ⟨done, err, s⟩ := r
  cases err with
  | some e =>
      obtain ⟨g'', ht', hh', hg⟩ := PtInv.unmapUnits o hd₂ done ht hh hf
      exact Or.inl ⟨e, g'', rfl, rfl, h.grow rfl h.used rfl rfl ht' hh' hg (fun _ => id)
        (fun _ => h.ahead) h.not_kernel, hg⟩
  | none =>
      have hdone : done = n := by
        have := hall rfl
        simp only at this
        omega
      simp only [hdone] at hf
      have hspan := o.ptSpan_level
      have h4096 : 4096 ∣ o.unit := by
        cases o <;> decide
      refine Or.inr ⟨v, n, g', rfl, ?_, ⟨?_, ?_, hge, ?_, ?_, rfl⟩, hd₁, hr⟩
      · refine h.fill (z := ⟨_, s⟩) rfl h.used ht hh hf (by cases o <;> decide) (fun _ => id)
          (fun _ => h.ahead) h.not_kernel ?_ ?_ ?_ ?_ ?_
        · simp only
          omega
        · intro hl
          rw [hl] at hspan
          rw [hspan, Nat.add_mul, Nat.div_mul_cancel hd₂, Nat.mul_comm n]
          simp only
          omega
        · have h₁ := h4096.trans hd₂
          have h₂ := h4096.trans (Nat.dvd_mul_right o.unit n)
          simp only
          omega
        · simp only
          omega
        · exact h.pages_room (by omega)
      · rw [hspan]
        exact hf
      · rw [hspan]
        exact hd₂
      · rw [hspan]
      · rw [hspan, Nat.div_mul_right_comm h4096]

/-- The addresses of a slot of the root. -/
def InSlot (slot v : Nat) : Prop := v / ptSpan 4 = slot

/-- `x86_64_as_map_at`: on failure only tables were added; on success the pages are promised. -/
theorem asMapAt (h : SpaceInv env s₀ w g) (hk : KernelOk env s₀) (address bytes rwx : Nat) :
    (∃ e g', (asMapAt env address bytes rwx w).1 = .error e ∧
        (asMapAt env address bytes rwx w).2.as.next = w.as.next ∧
        SpaceInv env s₀ (asMapAt env address bytes rwx w).2 g' ∧
        Grows (InSlot (address / 2 ^ 39)) g g' w.phys (asMapAt env address bytes rwx w).2.phys) ∨
      ∃ n g', (asMapAt env address bytes rwx w).1 = .ok () ∧
        (asMapAt env address bytes rwx w).2.as.next = w.as.next ∧
        SpaceInv env s₀ (asMapAt env address bytes rwx w).2 g' ∧
        Filled (InSlot (address / 2 ^ 39)) 1 (address / 4096) n (ZeroPage 1 rwx) g g' w.phys
          (asMapAt env address bytes rwx w).2.phys := by
  have hsame : ∀ {e : Errno}, (∃ e' g', (.error e : Except Errno Unit) = .error e' ∧
      w.as.next = w.as.next ∧ SpaceInv env s₀ w g' ∧
      Grows (InSlot (address / 2 ^ 39)) g g' w.phys w.phys) :=
    ⟨_, g, rfl, rfl, h, Grows.refl _ g w.phys⟩
  rw [Efishell.asMapAt]
  by_cases h₁ : bytes = 0 ∨ 4096 * maxUserPages < bytes ∨ address % 4096 ≠ 0 ∨ address < 0x10000 ∨
      kUserCanonLimit ≤ address ∨ kUserCanonLimit - address < bytes ∨ rwxOk rwx = false ∨
        (!env.nx) = true
  · rw [if_pos h₁]
    exact Or.inl hsame
  rw [if_neg h₁]
  simp only [not_or, Bool.not_eq_false, not_lt, not_le, kUserCanonLimit] at h₁
  obtain ⟨hb, hmax, hal, hlow, hcan, hfit, hr, -⟩ := h₁
  generalize hcount : (bytes + 4095) / 4096 = count
  generalize hslot : address / 2 ^ 39 = slot
  dsimp only
  by_cases h₂ : (address + 4096 * count - 1) / 2 ^ 39 ≠ slot
  · rw [if_pos h₂]
    exact Or.inl (hslot ▸ hsame)
  rw [if_neg h₂]
  by_cases h₃ : Pte.present (ptRead w.phys.mem env.kernelPml4 slot) = true
  · rw [if_pos h₃]
    exact Or.inl (hslot ▸ hsame)
  rw [if_neg h₃]
  by_cases h₄ : (2 ^ 32 + maxUserPages - w.as.pages) % 2 ^ 32 < count
  · rw [if_pos h₄]
    exact Or.inl (hslot ▸ hsame)
  rw [if_neg h₄]
  by_cases h₅ : allUnmapped w.phys.mem w.as.root address count = false
  · rw [if_pos h₅]
    exact Or.inl (hslot ▸ hsame)
  rw [if_neg h₅]
  have hs256 : slot < 256 := by omega
  have hks : kernelSlot env s₀ slot = false := by
    rw [h.tables.kernelPml4_read hk (by omega)] at h₃
    exact Bool.eq_false_iff.mpr h₃
  have hin : ∀ i < count, InSlot slot (address + 4096 * i) := by
    intro i hi
    rw [InSlot, show ptSpan 4 = 2 ^ 39 from rfl]
    omega
  have hnone : ∀ i < count, ∀ p r, g (2, (address + 4096 * i) / ptSpan 2) ≠ .page p r := by
    intro i hi p r hx
    rw [Bool.not_eq_false, allUnmapped, List.all_eq_true] at h₅
    have := h₅ i (List.mem_range.mpr hi)
    rw [h.tables.translate (by omega) (by rw [hin i hi]; exact hks), Option.isNone_iff_eq_none,
      Option.map_eq_none_iff] at this
    rw [PageMap.view, hx] at this
    split at this <;> cases this
  obtain ⟨g', ht, hh, hf, hall⟩ := PtInv.mapPages (S := InSlot slot) (N := count) hk hr
    (Nat.dvd_of_mod_eq_zero (by omega)) hin hnone count h.tables (h.hand 0) (by omega)
    (Filled.zero (Grows.refl _ g w.phys))
  generalize mapPages env w.as.root (leafFlags rwx) address count 0 w.phys = r at ht hf hall ⊢
  obtain ⟨done, err, s⟩ := r
  -- the slot is owned from now on
  have hsub : ∀ sl, w.as.owned sl = true → Function.update w.as.owned slot true sl = true := by
    intro sl hsl
    rcases eq_or_ne sl slot with rfl | hne
    · exact Function.update_self _ _ _
    · rw [Function.update_of_ne hne]
      exact hsl
  have hS : ∀ v, InSlot slot v →
      v / ptSpan 4 < 256 ∧ Function.update w.as.owned slot true (v / ptSpan 4) = true := by
    intro v hv
    rw [show v / ptSpan 4 = slot from hv]
    exact ⟨hs256, Function.update_self _ _ _⟩
  have hnk : ∀ sl < 256, Function.update w.as.owned slot true sl = true →
      kernelSlot env s₀ sl = false := by
    intro sl hsl ho
    rcases eq_or_ne sl slot with rfl | hne
    · exact hks
    · rw [Function.update_of_ne hne] at ho
      exact h.not_kernel sl hsl ho
  cases err with
  | some e =>
      obtain ⟨g'', ht', hh', hg⟩ :=
        PtInv.unmapPages (Nat.dvd_of_mod_eq_zero (by omega)) done ht hh (j := 0) hf
      refine Or.inl
        ⟨e, g'', rfl, rfl, h.grow (z := ⟨_, _⟩) rfl h.used rfl rfl ht' hh' hg hsub hS hnk, hg⟩
  | none =>
      refine Or.inr ⟨done, g', rfl, rfl, ?_, hf⟩
      exact h.fill (z := ⟨_, s⟩) rfl h.used ht hh hf (Or.inl rfl) hsub hS hnk
        (Nat.le_refl _) (by omega)
        h.next_aligned h.next_le (h.pages_room h₄)

/-! ### Faults, copies and rollback -/

/-- Pages were made on demand. -/
theorem fault (h : SpaceInv env s₀ w g) {w' : Vm} (has : w'.as = w.as)
    (ht : PtInv env s₀ w.as.root w'.phys g') (hhigh : ∀ x, x.1 ≠ 1 → g' x = g x) :
    SpaceInv env s₀ w' g' where
  tables := by
    rw [has]
    exact ht
  hand q := (hhigh _ (by simp)).trans (h.hand q)
  used := by
    rw [has]
    exact h.used
  owned slot hs := by
    rw [hhigh _ (by simp)] at hs
    rw [has]
    exact h.owned slot hs
  not_kernel := by
    rw [has]
    exact h.not_kernel
  next_aligned := by
    rw [has]
    exact h.next_aligned
  next_ge := by
    rw [has]
    exact h.next_ge
  next_le := by
    rw [has]
    exact h.next_le
  pages_le := by
    rw [has]
    exact h.pages_le
  window := by
    rw [has]
    exact h.window
  huge q p rwx hx := by
    rw [hhigh _ (by simp)] at hx
    rw [has]
    exact h.huge q p rwx hx

/-- `x86_64_as_rollback` keeps the invariant of the space. -/
theorem asRollback (h : SpaceInv env s₀ w g) (hk : KernelOk env s₀) {oldNext oldPages : Nat}
    (hal : 4096 ∣ oldNext) (hge : kUserBase + 0x200000 ≤ oldNext) (hle : oldNext ≤ w.as.next)
    (hpages : oldPages ≤ maxUserPages) (hhuge : HugeApart oldNext g) :
    ∃ g', SpaceInv env s₀ (asRollback oldNext oldPages w) g' ∧
      RolledBack oldNext g g' w.phys (asRollback oldNext oldPages w).phys := by
  obtain ⟨g', ht, hr⟩ := h.tables.asRollback hk oldPages hal hhuge
  refine ⟨g', ?_, hr⟩
  refine
    { tables := ht
      hand := fun q => ?_
      used := h.used
      owned := fun slot hs => ?_
      not_kernel := h.not_kernel
      next_aligned := hal
      next_ge := hge
      next_le := hle.trans h.next_le
      pages_le := hpages
      window := h.window
      huge := fun q p rwx hx => ?_ }
  · rw [hr.rest fun hu => absurd hu.1 (by simp)]
    exact h.hand q
  · exact h.owned slot ((hr.stays hs) ▸ hs)
  · -- a large page that is left ends before
    have hx' : g (2, q) = .page p rwx := (hr.stays (by rw [hx]; simp)).symm.trans hx
    refine (hhuge q p rwx hx').resolve_left fun hfrom => ?_
    have hspan : (q + 1) * ptSpan 2 ≤ w.as.next := h.huge q p rwx hx'
    have hlim := h.next_le
    have hu : Under 4 userSlot (2, q) := by
      refine ⟨by simp, by simp, ?_⟩
      rw [show ptSpan 2 = 2097152 from rfl] at hfrom hspan
      simp only [kUserBase, kUserLimit] at hge hlim
      show q / 512 ^ 2 = 128
      omega
    have hgone := ((hr.rolled hu (by simp)).leaf (by rw [hx']; exact ⟨by simp, by simp⟩)).mpr hfrom
    rw [hx] at hgone
    cases hgone

end SpaceInv

end Efishell
