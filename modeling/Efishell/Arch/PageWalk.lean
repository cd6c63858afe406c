import Efishell.Arch.PageMap

/-!
# Paging — walks over the tables

What `x86_64_vmm_translate` finds is what the map shows (`translate`), and in the slots of the
kernel it is what the kernel's own tables show.  A walk that creates tables adds them to the map and
changes nothing else (`Grows`); mapping, unmapping and copying each change what they are for.

* `PtInv.translate`: `x86_64_vmm_translate` finds what the map shows.
* `PtInv.ptChild`, `PtInv.mapPageRaw`: a walk that makes tables adds them and changes nothing else.
-/

namespace Efishell

/-! ### The kernel's tables -/

/-- The tables below a table of the kernel are not free. -/
def KernelTree (s₀ : Phys) : Nat → Nat → Prop
  | 0, _ => True
  | l + 1, t => s₀.pmm.free (t / 4096) = false ∧ 4096 ∣ t ∧
      ∀ i < 512, Pte.present (ptRead s₀.mem t i) = true →
        ¬ ((l = 1 ∨ l = 2) ∧ Pte.large (ptRead s₀.mem t i) = true) →
        KernelTree s₀ l (Pte.phys (ptRead s₀.mem t i))

/-- What `x86_64_vmm_init` leaves behind: the kernel's tables are taken, its entries of the root are
not for the user, and the slot of the user window is empty. -/
structure KernelOk (env : MmuEnv) (s₀ : Phys) : Prop where
  pmm : PmmOk s₀.pmm
  root_ne : env.kernelPml4 ≠ 0
  root_aligned : 4096 ∣ env.kernelPml4
  root_held : s₀.pmm.free (env.kernelPml4 / 4096) = false
  supervisor : ∀ slot < 512, kernelSlot env s₀ slot = true →
    Pte.user (ptRead s₀.mem env.kernelPml4 slot) = false
  vacant : ∀ slot < 512, kernelSlot env s₀ slot = false → ptRead s₀.mem env.kernelPml4 slot = 0
  window : kernelSlot env s₀ userSlot = false
  tree : ∀ slot < 512, kernelSlot env s₀ slot = true →
    KernelTree s₀ 3 (Pte.phys (ptRead s₀.mem env.kernelPml4 slot))

/-- An entry depends on the bytes of its table only. -/
theorem ptRead_congr {mem mem' : Bytes} {t i : Nat} (ht : 4096 ∣ t) (hi : i < 512)
    (h : ∀ a, a / 4096 = t / 4096 → mem' a = mem a) : ptRead mem' t i = ptRead mem t i := by
  refine rd64_congr fun j hj => h _ ?_
  obtain ⟨k, rfl⟩ := ht
  omega

theorem ptIndex_lt (v l : Nat) : ptIndex v l < 512 := Nat.mod_lt _ (by omega)

/-- Memory that keeps the pages taken at the start keeps the walks of the kernel. -/
theorem vmmWalk_kernel {s₀ : Phys} {mem : Bytes}
    (hm : ∀ a, s₀.pmm.free (a / 4096) = false → mem a = s₀.mem a) (v : Nat) (l : Nat) :
    ∀ {t : Nat} {user rw nx : Bool}, KernelTree s₀ l t →
      vmmWalk mem v l t user rw nx = vmmWalk s₀.mem v l t user rw nx := by
  induction l with
  | zero =>
      intro t user rw nx _
      rfl
  | succ l ih =>
      intro t user rw nx ht
      obtain ⟨hfree, hal, hsub⟩ := ht
      have hread : ptRead mem t (ptIndex v (l + 1)) = ptRead s₀.mem t (ptIndex v (l + 1)) :=
        ptRead_congr hal (ptIndex_lt v (l + 1)) fun a ha => hm a (by rw [ha]; exact hfree)
      rw [vmmWalk, vmmWalk, hread]
      dsimp only
      split
      · rfl
      · rename_i hp
        split
        · rfl
        · rename_i hleaf
          refine ih (hsub _ (ptIndex_lt v (l + 1)) (by simpa using hp) fun hc => hleaf ?_)
          exact Or.inr hc

/-- A walk that met an entry without `PAGE_USER` stays without it. -/
theorem vmmWalk_supervisor {mem : Bytes} {v : Nat} (l : Nat) : ∀ {t : Nat} {rw nx : Bool}
    {r : Nat × Bool × Bool × Bool}, vmmWalk mem v l t false rw nx = some r → r.2.1 = false := by
  induction l with
  | zero =>
      intro t rw nx r hr
      cases hr
  | succ l ih =>
      intro t rw nx r hr
      rw [vmmWalk] at hr
      dsimp only at hr
      split at hr
      · cases hr
      · split at hr
        · cases hr
          rfl
        · exact ih hr

namespace PtInv

variable {env : MmuEnv} {s₀ s : Phys} {root : Nat} {g : PageMap}

/-- The root is not at address zero. -/
theorem root_ne_zero (h : PtInv env s₀ root s g) : root ≠ 0 := h.table_ne_zero h.root_eq

/-- The walk from a slot of the kernel. -/
theorem vmmWalk_kernelSlot (h : PtInv env s₀ root s g) (hk : KernelOk env s₀) {v : Nat}
    (hs : kernelSlot env s₀ (ptIndex v 4) = true) :
    vmmWalk s.mem v 4 root true true false = vmmWalk s₀.mem v 4 env.kernelPml4 true true false := by
  rw [vmmWalk, vmmWalk, h.kernel _ (ptIndex_lt v 4) hs]
  dsimp only
  have hp : Pte.present (ptRead s₀.mem env.kernelPml4 (ptIndex v 4)) = true := hs
  rw [hp]
  simp only [Bool.not_true, Bool.false_eq_true, if_false, Nat.reduceEqDiff, or_self, false_and]
  exact vmmWalk_kernel h.frame v 3 (hk.tree _ (ptIndex_lt v 4) hs)

/-! ### The map -/

/-- A region without a table above it is empty. -/
theorem empty_of_parent (h : PtInv env s₀ root s g) {v l : Nat} (hl : 0 < l) (hl' : l < 5)
    (hp : ∀ t, g (l + 1, v / ptSpan (l + 1)) ≠ .table t) : g (l, v / ptSpan l) = .empty := by
  refine h.rep.orphan hl hl' fun t ht => hp t ?_
  rwa [region_div hl] at ht

/-- Above a table there are tables. -/
theorem table_above (h : PtInv env s₀ root s g) {v k t : Nat} (hk : 0 < k)
    (ht : g (k, v / ptSpan k) = .table t) (l : Nat) (hkl : k ≤ l) (hl : l < 5) :
    ∃ p, g (l, v / ptSpan l) = .table p := by
  induction l, hkl using Nat.le_induction with
  | base => exact ⟨t, ht⟩
  | succ l hkl ih =>
      obtain ⟨p, hp⟩ := ih (by omega)
      by_contra hno
      rw [h.empty_of_parent (by omega) (by omega) fun t' ht' => hno ⟨t', ht'⟩] at hp
      cases hp

/-- The slot of the root that `v` lies in. -/
theorem root_of_lt (h : PtInv env s₀ root s g) {v : Nat} (hv : v < 2 ^ 48) :
    g (4 + 1, v / ptSpan (4 + 1)) = .table root := by
  rw [show v / ptSpan (4 + 1) = 0 from Nat.div_eq_of_lt hv]
  exact h.root_eq

/-- `x86_64_vmm_translate` finds what the map shows. -/
theorem translate (h : PtInv env s₀ root s g) {v : Nat} (hv : v < 2 ^ 47)
    (hk : kernelSlot env s₀ (v / ptSpan 4) = false) :
    vmmTranslate s.mem root v =
      (g.view v).map fun r => ⟨r.1, true, regionW r.2, !regionX r.2⟩ := by
  have hc : canonical v = true := by
    rw [canonical, Nat.div_eq_of_lt hv]
    rfl
  rw [vmmTranslate, if_neg (by rw [hc]; simp [h.root_ne_zero]), PageMap.view]
  rw [h.vmmWalk_step (by omega) (by omega) (h.root_of_lt (by omega)) fun _ => hk]
  have hok := fun l => h.rep.ok (l, v / ptSpan l)
  -- below an entry that is no table the map has nothing
  have hnone : ∀ {l}, 2 < l → l < 5 → (∀ t, g (l, v / ptSpan l) ≠ .table t) →
      g (1, v / ptSpan 1) = .empty ∧ g (2, v / ptSpan 2) = .empty := by
    have h₂ : g (2, v / ptSpan 2) = .empty → g (1, v / ptSpan 1) = .empty := by
      intro e
      exact h.empty_of_parent (by omega) (by omega) fun t ht => by rw [e] at ht; cases ht
    have h₃ : (∀ t, g (3, v / ptSpan 3) ≠ .table t) → g (2, v / ptSpan 2) = .empty :=
      h.empty_of_parent (by omega) (by omega)
    intro l hl hl' hnt
    rcases Nat.lt_or_ge 3 l with e | e
    · obtain rfl : l = 4 := by omega
      have e₃ : g (3, v / ptSpan 3) = .empty := h.empty_of_parent (by omega) (by omega) hnt
      have e₂ := h₃ fun t ht => by rw [e₃] at ht; cases ht
      exact ⟨h₂ e₂, e₂⟩
    · obtain rfl : l = 3 := by omega
      exact ⟨h₂ (h₃ hnt), h₃ hnt⟩
  cases h4 : g (4, v / ptSpan 4) with
  | empty =>
      obtain ⟨e₁, e₂⟩ := hnone (l := 4) (by omega) (by omega) (by simp [h4])
      simp only [e₁, e₂, Option.map_none]
  | page p rwx =>
      have := hok 4
      rw [h4] at this
      exact absurd this.2.2.2.1 (by simp)
  | lazy rwx =>
      have := hok 4
      rw [h4] at this
      exact absurd this.2 (by simp)
  | table t₃ =>
      dsimp only
      rw [h.vmmWalk_step (by omega) (by omega) h4 (by omega)]
      cases h3 : g (3, v / ptSpan 3) with
      | empty =>
          obtain ⟨e₁, e₂⟩ := hnone (l := 3) (by omega) (by omega) (by simp [h3])
          simp only [e₁, e₂, Option.map_none]
      | page p rwx =>
          have := hok 3
          rw [h3] at this
          exact absurd this.2.2.2.1 (by simp)
      | lazy rwx =>
          have := hok 3
          rw [h3] at this
          exact absurd this.2 (by simp)
      | table t₂ =>
          dsimp only
          rw [h.vmmWalk_step (by omega) (by omega) h3 (by omega)]
          cases h2 : g (2, v / ptSpan 2) with
          | empty =>
              have e₁ : g (1, v / ptSpan 1) = .empty :=
                h.empty_of_parent (by omega) (by omega) (by simp [h2])
              simp only [e₁, Option.map_none]
          | page p rwx =>
              have e₁ : g (1, v / ptSpan 1) = .empty :=
                h.empty_of_parent (by omega) (by omega) (by simp [h2])
              simp only [e₁, Option.map_some, Bool.true_and, Bool.false_or]
          | lazy rwx =>
              have := hok 2
              rw [h2] at this
              exact absurd this.2 (by simp)
          | table t₁ =>
              dsimp only
              rw [h.vmmWalk_step (by omega) (by omega) h2 (by omega)]
              cases h1 : g (1, v / ptSpan 1) with
              | empty => simp only [Option.map_none]
              | page p rwx => simp only [Option.map_some, Bool.true_and, Bool.false_or]
              | lazy rwx => simp only [Option.map_none]
              | table p =>
                  have := hok 1
                  rw [h1] at this
                  exact absurd this.2.2 (by simp)

end PtInv

/-! ### Walks that create tables -/

/-- The bytes of the pages of the map are the same. -/
def DataEq (g : PageMap) (s s' : Phys) : Prop :=
  ∀ {x p rwx}, g x = .page p rwx → ∀ a, p ≤ a → a < p + 4096 * g.pages x → s'.mem a = s.mem a

/-- Tables were added on the way to addresses in `S`; nothing else changed, and no byte of a
page. -/
structure Grows (S : Nat → Prop) (g g' : PageMap) (s s' : Phys) : Prop where
  entries : ∀ x, g' x = g x ∨ g x = .empty ∧ (∃ p, g' x = .table p) ∧ 2 ≤ x.1 ∧ x.1 ≤ 4 ∧
    ∃ v, S v ∧ x.2 = v / ptSpan x.1
  data : DataEq g s s'

namespace Grows

variable {S S' : Nat → Prop} {g g' g'' : PageMap} {s s' s'' : Phys}

theorem refl (S : Nat → Prop) (g : PageMap) (s : Phys) : Grows S g g s s :=
  ⟨fun _ => Or.inl rfl, fun _ _ _ _ => rfl⟩

/-- Everything but an empty entry stays. -/
theorem stays (h : Grows S g g' s s') {x : Nat × Nat} (hx : g x ≠ .empty) : g' x = g x :=
  (h.entries x).elim id fun e => absurd e.1 hx

/-- Growth adds tables only, which are above the level of pages. -/
theorem low (h : Grows S g g' s s') {x : Nat × Nat} (hx : x.1 < 2) : g' x = g x :=
  (h.entries x).elim id fun e => absurd e.2.2.1 (by omega)

/-- No page is added. -/
theorem page (h : Grows S g g' s s') {x : Nat × Nat} {p rwx : Nat} (hx : g' x = .page p rwx) :
    g x = .page p rwx := by
  rcases h.entries x with e | ⟨-, ⟨q, e⟩, -⟩
  · exact e ▸ hx
  · rw [e] at hx
    cases hx

/-- Growth in two stages. -/
theorem trans (h : Grows S g g' s s') (h' : Grows S g' g'' s' s'') : Grows S g g'' s s'' := by
  refine ⟨fun x => ?_, fun {x p rwx} hx a h₁ h₂ => ?_⟩
  · rcases h'.entries x with e | ⟨e, hp, hx⟩
    · rw [e]
      exact h.entries x
    · rcases h.entries x with e' | ⟨-, ⟨p, e'⟩, -⟩
      · exact Or.inr ⟨e' ▸ e, hp, hx⟩
      · rw [e'] at e
        cases e
  · have hx' : g' x = .page p rwx := (h.stays (by rw [hx]; simp)).trans hx
    rw [← h.data hx a h₁ h₂]
    refine h'.data hx' a h₁ ?_
    rwa [PageMap.pages, hx', ← hx]

end Grows

/-- The allocator hands out a free page or fails. -/
theorem pmmAllocPage_cases (s : Phys) :
    pmmAllocPage s = (0, s) ∨ ∃ start, pmmAllocPage s = (4096 * start, s.claim start 1) ∧
      FreeRun s.pmm.free 1 1 start := by
  rcases kPmmAllocAligned_cases 1 1 0 s with e | ⟨start, e, -, hrun, -⟩
  · exact Or.inl e
  · exact Or.inr ⟨start, e, hrun⟩

namespace PtInv

variable {env : MmuEnv} {s₀ s : Phys} {root : Nat} {g : PageMap} {S : Nat → Prop}

/-- No page stands at address zero. -/
theorem page_ne_zero (h : PtInv env s₀ root s g) {x : Nat × Nat} {p rwx : Nat}
    (hx : g x = .page p rwx) : p ≠ 0 := by
  have := h.rep.ok x
  rw [hx] at this
  exact this.1

/-- Writing an entry changes no byte of a page. -/
theorem write_data (h : PtInv env s₀ root s g) {x : Nat × Nat} {t i e : Nat} (hx : g x = .table t)
    (hi : i < 512) (m : Pmm) : DataEq g s (ptWrite t i e { s with pmm := m }) := by
  intro y p rwx hy a h₁ h₂
  have hne : y ≠ x := by
    rintro rfl
    rw [hx] at hy
    cases hy
  have hb : g.base y = p := congrArg Ent.base hy
  have := h.ledger.apart y x hne (by rw [hb]; exact h.page_ne_zero hy)
    (by rw [base_table hx]; exact h.table_ne_zero hx)
  rw [hb, base_table hx, pages_table hx] at this
  show wr64 s.mem _ _ a = s.mem a
  rw [wr64, wrBytes, if_neg (by omega)]

/-- Taking free pages changes no byte of a page. -/
theorem claim_data (h : PtInv env s₀ root s g) {start n alignment : Nat}
    (hrun : FreeRun s.pmm.free n alignment start) : DataEq g s (s.claim start n) := by
  intro y p rwx hy a h₁ h₂
  have hb : g.base y = p := congrArg Ent.base hy
  have hpz := h.page_ne_zero hy
  have hd := Nat.mul_div_cancel' (h.ledger.aligned y (by rw [hb]; exact hpz))
  rw [hb] at hd
  show memZero s.mem _ _ a = s.mem a
  rw [memZero, if_neg]
  intro hin
  have hnf := h.not_free_of_held (x := y) (p := a / 4096) (by rw [hb]; exact hpz)
    (by rw [hb]; omega) (by rw [hb]; omega)
  have := hrun.2 (a / 4096 - start) (by omega)
  rw [show start + (a / 4096 - start) = a / 4096 by omega, hnf] at this
  cases this

/-- New pages are zero, and the old ones as they were, also after their entry is written. -/
theorem alloc_data (h : PtInv env s₀ root s g) {x : Nat × Nat} {t i e start n alignment : Nat}
    (hx : g x = .table t) (hi : i < 512) (hrun : FreeRun s.pmm.free n alignment start) :
    DataEq g s (ptWrite t i e (s.claim start n)) ∧
      ∀ a, 4096 * start ≤ a → a < 4096 * start + 4096 * n →
        (ptWrite t i e (s.claim start n)).mem a = 0 := by
  constructor
  · intro y p rwx hy a h₁ h₂
    rw [← h.claim_data hrun hy a h₁ h₂]
    exact (h.zeroed hrun).write_data hx hi (s.claim start n).pmm hy a h₁ h₂
  · intro a h₁ h₂
    have htz := h.table_ne_zero hx
    have hd := Nat.mul_div_cancel' (h.ledger.aligned x (by rw [base_table hx]; exact htz))
    rw [base_table hx] at hd
    have hnf := h.not_free_of_held (x := x) (p := t / 4096) (by rw [base_table hx]; exact htz)
      (by rw [base_table hx]) (by rw [base_table hx, pages_table hx]; omega)
    have hout : ¬ (t + 8 * i ≤ a ∧ a < t + 8 * i + 8) := by
      intro hin
      have := hrun.2 (t / 4096 - start) (by omega)
      rw [show start + (t / 4096 - start) = t / 4096 by omega, hnf] at this
      cases this
    show wr64 (memZero s.mem _ _) _ _ a = 0
    rw [wr64, wrBytes, if_neg hout, memZero, if_pos ⟨h₁, h₂⟩]

/-- `x86_64_pt_child` for the user finds the table below or adds one. -/
theorem ptChild (h : PtInv env s₀ root s g) {v l t : Nat} (hS : S v) (hl : 2 ≤ l) (hl' : l < 5)
    (ht : g (l + 1, v / ptSpan (l + 1)) = .table t)
    (hk : l = 4 → kernelSlot env s₀ (v / ptSpan 4) = false)
    (hp : ∀ p rwx, g (l, v / ptSpan l) ≠ .page p rwx) :
    ∃ g', PtInv env s₀ root (ptChild t (ptIndex v l) l true s).2 g' ∧
      Grows S g g' s (ptChild t (ptIndex v l) l true s).2 ∧
      ∀ t', (ptChild t (ptIndex v l) l true s).1 = .ok t' → g' (l, v / ptSpan l) = .table t' := by
  have htq : g (l + 1, v / ptSpan l / 512) = .table t := by rwa [region_div (by omega)]
  have hkq : l = 4 → kernelSlot env s₀ (v / ptSpan l) = false := by
    intro e
    rw [e]
    exact hk e
  have hread : ptRead s.mem t (ptIndex v l) = (g (l, v / ptSpan l)).enc l := h.rep.entry htq hkq
  have hok := h.rep.ok (l, v / ptSpan l)
  rw [Efishell.ptChild]
  dsimp only
  rw [hread]
  cases hg : g (l, v / ptSpan l) with
  | page p rwx => exact absurd hg (hp p rwx)
  | lazy rwx =>
      rw [hg] at hok
      exact absurd hok.2 (by simp only; omega)
  | table p =>
      rw [hg] at hok hread
      obtain ⟨e₁, e₂, e₃, -, -, e₆⟩ := Ent.enc_table l hok.2.1
      simp only [e₁, e₂, Bool.not_true, Bool.false_eq_true, if_false, e₃, Bool.and_false, e₆]
      exact ⟨g, h, Grows.refl S g s, fun t' e => by cases e; exact hg⟩
  | empty =>
      have hpr : Pte.present (Ent.enc l .empty) = false := Nat.zero_testBit 0
      rw [hpr]
      simp only [Bool.not_false, if_true]
      rcases pmmAllocPage_cases s with e | ⟨start, e, hrun⟩
      · rw [e]
        simp only [if_true]
        exact ⟨g, h, Grows.refl S g s, fun t' e => by cases e⟩
      · rw [e]
        -- a page of zeros becomes the table, and is read back as one
        obtain ⟨hz, hf⟩ := frameOk h.ledger.ok Nat.one_pos hrun.2
        have hw :=
          h.allocWrite (l := l) (q := v / ptSpan l) (e := .table (4096 * start)) Nat.one_pos
          hrun (congrArg Ent.base hg) (by simp [hg]) rfl rfl htq (by omega) hl' hkq ⟨hz, hf, hl⟩
        have hread' : ptRead (ptWrite t (ptIndex v l) (4096 * start ||| pagePresent ||| pageRw |||
            pageUser) (s.claim start 1)).mem t (ptIndex v l) = Ent.enc l
              (.table (4096 * start)) := by
          have := hw.rep.entry (l := l) (q := v / ptSpan l) (t := t)
            (by rw [Function.update_of_ne (by simp)]; exact htq) hkq
          rwa [Function.update_self] at this
        obtain ⟨-, -, e₃, -, -, e₆⟩ := Ent.enc_table l hf
        simp only [hz, if_false, hread', e₃, Bool.not_true, Bool.and_false, Bool.false_eq_true, e₆]
        refine ⟨Function.update g (l, v / ptSpan l) (.table (4096 * start)), hw,
          ⟨fun x => ?_, (h.alloc_data ht (ptIndex_lt v l) hrun).1⟩, fun t' ht' => ?_⟩
        · rcases eq_or_ne x (l, v / ptSpan l) with rfl | hne
          · exact Or.inr ⟨hg, ⟨_, Function.update_self _ _ _⟩, hl, by simp only; omega, v, hS, rfl⟩
          · exact Or.inl (Function.update_of_ne hne _ _)
        · rw [Function.update_self, Except.ok.inj ht']

/-- `leaf_for` with `create`: the way to the entry of `v` at `level`. -/
theorem leafFor {v level : Nat} (hS : S v) (hk : kernelSlot env s₀ (v / ptSpan 4) = false)
    (h₁ : 1 ≤ level) (l : Nat) : ∀ {t : Nat} {s : Phys} {g : PageMap}, PtInv env s₀ root s g →
    level ≤ l → l < 5 → g (l + 1, v / ptSpan (l + 1)) = .table t →
    (∀ p rwx, level < 2 → g (2, v / ptSpan 2) ≠ .page p rwx) →
    ∃ g', PtInv env s₀ root (leafFor v level true l t s).2 g' ∧
      Grows S g g' s (leafFor v level true l t s).2 ∧
      ∀ t', (leafFor v level true l t s).1 = .ok t' →
        g' (level + 1, v / ptSpan (level + 1)) = .table t' := by
  induction l with
  | zero =>
      intro t s g _ hle
      omega
  | succ l ih =>
      intro t s g h hle hl ht hp
      rw [Efishell.leafFor]
      by_cases hstop : l + 1 ≤ level
      · rw [if_pos hstop]
        obtain rfl : level = l + 1 := by omega
        exact ⟨g, h, Grows.refl S g s, fun t' e => by cases e; exact ht⟩
      · rw [if_neg hstop]
        simp only [Bool.not_true, Bool.false_and, Bool.false_eq_true, if_false]
        have hnp : ∀ p rwx, g (l + 1, v / ptSpan (l + 1)) ≠ .page p rwx := by
          intro p rwx e
          have hok := h.rep.ok (l + 1, v / ptSpan (l + 1))
          rw [e] at hok
          have hl2 : l + 1 ≤ 2 := hok.2.2.2.1
          obtain rfl : l = 1 := by omega
          exact hp p rwx (by omega) e
        obtain ⟨g', h', hgrow, hok⟩ := h.ptChild (l := l + 1) hS (by omega) hl ht (fun _ => hk) hnp
        split
        · rename_i e s' he
          rw [he] at h' hgrow
          exact ⟨g', h', hgrow, fun t' e => by cases e⟩
        · rename_i t' s' he
          rw [he] at h' hgrow hok
          obtain ⟨g'', h'', hgrow', hok'⟩ :=
            ih h' (by omega) (by omega) (hok t' rfl) fun p rwx hlv e =>
            hp p rwx hlv (hgrow.page e)
          exact ⟨g'', h'', hgrow.trans hgrow', hok'⟩

/-- `leaf_for` without `create` finds tables or fails, and changes nothing. -/
theorem leafFor_find (h : PtInv env s₀ root s g) {v level : Nat}
    (hk : kernelSlot env s₀ (v / ptSpan 4) = false) (h₁ : 1 ≤ level) (l : Nat) : ∀ {t : Nat},
    level ≤ l → l < 5 → g (l + 1, v / ptSpan (l + 1)) = .table t →
    (∃ e, Efishell.leafFor v level false l t s = (.error e, s) ∧
        ∀ t', g (level + 1, v / ptSpan (level + 1)) ≠ .table t') ∨
      ∃ t', Efishell.leafFor v level false l t s = (.ok t', s) ∧
        g (level + 1, v / ptSpan (level + 1)) = .table t' := by
  induction l with
  | zero =>
      intro t hle
      omega
  | succ l ih =>
      intro t hle hl ht
      rw [Efishell.leafFor]
      by_cases hstop : l + 1 ≤ level
      · rw [if_pos hstop]
        obtain rfl : level = l + 1 := by omega
        exact Or.inr ⟨t, rfl, ht⟩
      · rw [if_neg hstop]
        have htq : g (l + 1 + 1, v / ptSpan (l + 1) / 512) = .table t := by
          rwa [region_div (by omega)]
        have hread : ptRead s.mem t (ptIndex v (l + 1)) =
            (g (l + 1, v / ptSpan (l + 1))).enc (l + 1) :=
          h.rep.entry htq fun e => by rw [e]; exact hk
        have hok := h.rep.ok (l + 1, v / ptSpan (l + 1))
        -- without a table here there is none below
        have hnone : (∀ p, g (l + 1, v / ptSpan (l + 1)) ≠ .table p) →
            ∀ t', g (level + 1, v / ptSpan (level + 1)) ≠ .table t' := by
          intro hnt t' ht'
          obtain ⟨p, hp⟩ := h.table_above (by omega) ht' (l + 1) (by omega) hl
          exact hnt p hp
        simp only [Bool.not_false, Bool.true_and, hread]
        by_cases hbad : (!Pte.present ((g (l + 1, v / ptSpan (l + 1))).enc (l + 1)) ||
            Pte.large ((g (l + 1, v / ptSpan (l + 1))).enc (l + 1))) = true
        · rw [if_pos hbad]
          refine Or.inl ⟨.efault, rfl, hnone fun p hp => ?_⟩
          rw [hp] at hok hbad
          obtain ⟨e₁, e₂, -⟩ := Ent.enc_table (l + 1) hok.2.1
          rw [e₁, e₂] at hbad
          cases hbad
        · rw [if_neg hbad]
          cases hg : g (l + 1, v / ptSpan (l + 1)) with
          | empty =>
              have hpr : Pte.present (Ent.enc (l + 1) .empty) = false := Nat.zero_testBit 0
              rw [hg, hpr] at hbad
              exact absurd rfl hbad
          | lazy rwx =>
              rw [hg] at hok
              exact absurd hok.2 (by simp only; omega)
          | page p rwx =>
              rw [hg] at hok hbad
              obtain ⟨e₁, e₂, -⟩ := Ent.enc_page (l + 1) rwx hok.2.1
              have hl2 : l + 1 ≤ 2 := hok.2.2.2.1
              rw [e₁, e₂] at hbad
              exact absurd (by simp; omega) hbad
          | table p =>
              rw [hg] at hok hread
              obtain ⟨e₁, e₂, e₃, -, -, e₆⟩ := Ent.enc_table (l + 1) hok.2.1
              have hchild : Efishell.ptChild t (ptIndex v (l + 1)) (l + 1) true s = (.ok p, s) := by
                simp only [Efishell.ptChild, hread, e₁, e₂, e₃, e₆, Bool.not_true,
                  Bool.false_eq_true, if_false, Bool.and_false]
              rw [hchild]
              exact ih (by omega) (by omega) hg

/-- The walk of `x86_64_map_page_raw` is that of `leaf_for`. -/
theorem ptWalk_eq (v : Nat) (l : Nat) : ∀ {t : Nat} {s : Phys}, 0 < l →
    ptWalk v true l t s = Efishell.leafFor v 1 true l t s := by
  induction l with
  | zero =>
      intro t s hl
      omega
  | succ l ih =>
      intro t s _
      cases l with
      | zero => rfl
      | succ l =>
          rw [ptWalk, Efishell.leafFor, if_neg (by omega)]
          simp only [Bool.not_true, Bool.false_and, Bool.false_eq_true, if_false]
          rw [show l + 2 = l + 1 + 1 from rfl]
          split
          · rfl
          · exact ih (Nat.succ_pos l)

/-- The entries of the kernel's root are as they were. -/
theorem kernelPml4_read (h : PtInv env s₀ root s g) (hk : KernelOk env s₀) {slot : Nat}
    (hs : slot < 512) : ptRead s.mem env.kernelPml4 slot = ptRead s₀.mem env.kernelPml4 slot :=
  ptRead_congr hk.root_aligned hs fun a ha => h.frame a (by rw [ha]; exact hk.root_held)

/-- `x86_64_map_page_raw` with the page in hand: it maps the page, or fails with the page still in
hand. -/
theorem mapPageRaw (h : PtInv env s₀ root s g) (hk : KernelOk env s₀) {v p r rwx : Nat} (hS : S v)
    (hh : g (0, 0) = .page p r) (hr : rwxOk rwx = true)
    (hp : ∀ p rwx, g (2, v / ptSpan 2) ≠ .page p rwx) :
    (∃ e g', (mapPageRaw env root v p (leafFlags rwx) false s).1 = .error e ∧
        PtInv env s₀ root (mapPageRaw env root v p (leafFlags rwx) false s).2 g' ∧
        Grows S g g' s (mapPageRaw env root v p (leafFlags rwx) false s).2) ∨
      ∃ g₁ s₁ g', (mapPageRaw env root v p (leafFlags rwx) false s).1 = .ok () ∧
        PtInv env s₀ root (mapPageRaw env root v p (leafFlags rwx) false s).2 g' ∧
        Grows S g g₁ s s₁ ∧ DataEq g₁ s₁ (mapPageRaw env root v p (leafFlags rwx) false s).2 ∧
        g (1, v / ptSpan 1) = .empty ∧ v % 4096 = 0 ∧ v < 2 ^ 47 ∧
        g' = Function.update (Function.update g₁ (0, 0) .empty) (1, v / ptSpan 1)
          (.page p rwx) := by
  have hf : Pte.user (leafFlags rwx) = true := (leafFlags_testBit rwx).2.2.1
  rw [Efishell.mapPageRaw]
  split
  · exact Or.inl ⟨_, g, rfl, h, Grows.refl S g s⟩
  · rename_i harg
    dsimp only
    rw [hf]
    by_cases hperm : True ∧ (v < 0x10000 ∨ kUserCanonLimit ≤ v ∨ (env.kernelPml4 ≠ 0 ∧
        Pte.present (ptRead s.mem env.kernelPml4 (v / 2 ^ 39)) = true))
    · rw [if_pos (by simpa using hperm)]
      exact Or.inl ⟨_, g, rfl, h, Grows.refl S g s⟩
    · rw [if_neg (by simpa using hperm)]
      have hv : v < 2 ^ 47 := by
        simp only [kUserCanonLimit] at hperm
        by_contra hge
        exact hperm ⟨trivial, Or.inr (Or.inl (by omega))⟩
      have hslot : v / ptSpan 4 < 512 := by
        rw [show ptSpan 4 = 2 ^ 39 from rfl]
        omega
      have hks : kernelSlot env s₀ (v / ptSpan 4) = false := by
        rw [kernelSlot, ← h.kernelPml4_read hk hslot]
        by_contra hne
        exact hperm ⟨trivial, Or.inr (Or.inr ⟨hk.root_ne, Bool.not_eq_false _ ▸ hne⟩)⟩
      rw [ptWalk_eq v 4 (by omega)]
      obtain ⟨g₁, h₁, hgrow, hok⟩ := leafFor hS hks (Nat.le_refl 1) 4 h (by omega) (by omega)
        (h.root_of_lt (by omega)) fun p rwx _ => hp p rwx
      split
      · rename_i e s' he
        rw [he] at h₁ hgrow
        exact Or.inl ⟨e, g₁, rfl, h₁, hgrow⟩
      · rename_i t s' he
        rw [he] at h₁ hgrow hok
        have ht : g₁ (2, v / ptSpan 1 / 512) = .table t := by
          rw [region_div (by omega)]
          exact hok t rfl
        have hread : ptRead s'.mem t (ptIndex v 1) = (g₁ (1, v / ptSpan 1)).enc 1 :=
          h₁.rep.entry ht (by omega)
        have hsame : g₁ (1, v / ptSpan 1) = g (1, v / ptSpan 1) := hgrow.low (by simp)
        rw [hread]
        by_cases hz : (g₁ (1, v / ptSpan 1)).enc 1 = 0
        · rw [if_neg (by rw [hz]; decide)]
          have hempty := (Ent.enc_eq_zero (h₁.rep.ok (1, v / ptSpan 1))).mp hz
          have hh₁ : g₁ (0, 0) = .page p r := (hgrow.low (by simp)).trans hh
          exact Or.inr ⟨g₁, s', _, rfl, h₁.fromHand hh₁ hempty ht hr, hgrow,
            h₁.write_data ht (ptIndex_lt v 1) s'.pmm, hsame ▸ hempty, by omega, hv, rfl⟩
        · rw [if_pos (by simpa using hz)]
          exact Or.inl ⟨_, g₁, rfl, h₁, hgrow⟩

end PtInv

end Efishell
