import Efishell.Arch.PageWalk

/-!
# Paging — mapping, unmapping, faults and copies

The loops of `x86_64_as_alloc`, `x86_64_as_alloc_ex` and `x86_64_as_map_at` with their undo paths,
the demand fault, and `x86_64_as_copy`.  Each lemma says how the map and the bytes of its pages
change: mapping adds zeroed pages to an empty range (`Mapped`), a failed call leaves tables at most
(`Grows`), a fault makes a page of zeros, a copy changes the bytes it names.

* `PtInv.mapUnits`, `PtInv.unmapUnits`: the loops of `x86_64_as_alloc_ex` and of its undo path.
* `PtInv.demandFault`: a fault that is accepted makes its page, and any other changes nothing.
-/

namespace Efishell

namespace PtInv

variable {env : MmuEnv} {s₀ s : Phys} {root : Nat} {g : PageMap} {l q t : Nat} {S : Nat → Prop}

/-- An entry lies in a table. -/
theorem parent_table (h : PtInv env s₀ root s g) {v l : Nat} (hl : 0 < l) (hl' : l < 5)
    (hx : g (l, v / ptSpan l) ≠ .empty) : ∃ t, g (l + 1, v / ptSpan (l + 1)) = .table t := by
  by_contra hno
  exact hx (h.empty_of_parent hl hl' fun t ht => hno ⟨t, ht⟩)

/-- An entry lies in a slot of the root that is not the kernel's. -/
theorem inside (h : PtInv env s₀ root s g) {v l : Nat} (hl : 0 < l) (hl' : l < 5)
    (hx : g (l, v / ptSpan l) ≠ .empty) :
    v < 2 ^ 48 ∧ kernelSlot env s₀ (v / ptSpan 4) = false := by
  have hslot : g (4, v / ptSpan 4) ≠ .empty := by
    rcases Nat.lt_or_ge l 4 with e | e
    · obtain ⟨t, ht⟩ := h.parent_table hl hl' hx
      obtain ⟨p, hp⟩ := h.table_above (by omega) ht 4 (by omega) (by omega)
      rw [hp]
      simp
    · obtain rfl : l = 4 := by omega
      exact hx
  constructor
  · obtain ⟨t, ht⟩ := h.parent_table (by omega) (by omega) hslot
    by_contra hge
    have hne : (4 + 1, v / ptSpan (4 + 1)) ≠ (5, 0) := by
      intro e
      have hq : v / ptSpan (4 + 1) = 0 := (Prod.mk.inj e).2
      rw [show ptSpan (4 + 1) = 2 ^ 48 from rfl, Nat.div_eq_zero_iff] at hq
      omega
    rw [h.rep.top _ (by simp) hne] at ht
    cases ht
  · by_contra hne
    exact hslot (h.rep.kernel _ (Bool.not_eq_false _ ▸ hne))

/-! ### Clearing entries -/

/-- A region gives back its pages, and its entry is cleared. -/
theorem clear (h : PtInv env s₀ root s g) (hb : g.base (l, q) ≠ 0)
    (ht : g (l + 1, q / 512) = .table t) (hl : 0 < l) (hl' : l < 5)
    (hk : l = 4 → kernelSlot env s₀ q = false)
    (hkids : ∀ i < 512, 1 < l → g (l - 1, 512 * q + i) = .empty) :
    PtInv env s₀ root (ptWrite t (q % 512) 0
        { s with pmm := kPmmFreePages (g.base (l, q)) (g.pages (l, q)) s.pmm })
      (Function.update g (l, q) .empty) := by
  exact h.write (e := .empty) (h.ledger.clearEntry hb) ht hl hl' hk trivial
    (fun p hp => by cases hp)
    fun _ => hkids

/-- An entry without pages is replaced by one without pages. -/
theorem setBare (h : PtInv env s₀ root s g) {e : Ent} (hb : g.base (l, q) = 0) (hb' : e.base = 0)
    (he : e.Ok l) (ht : g (l + 1, q / 512) = .table t) (hl : 0 < l) (hl' : l < 5)
    (hk : l = 4 → kernelSlot env s₀ q = false) (hnt : ∀ p, g (l, q) ≠ .table p) :
    PtInv env s₀ root (ptWrite t (q % 512) (e.enc l) s) (Function.update g (l, q) e) := by
  refine h.write (m := s.pmm) ?_ ht hl hl' hk he (fun p hp => ?_) fun _ => h.below_empty hl' hnt
  · refine h.ledger.congr (fun y => ?_) fun y hy => ?_
    · rw [PageMap.base_update]
      rcases eq_or_ne y (l, q) with rfl | hne
      · rw [Function.update_self, hb, hb']
      · rw [Function.update_of_ne hne]
    · rw [PageMap.pages_update]
      rcases eq_or_ne y (l, q) with rfl | hne
      · exact absurd hb hy
      · rw [Function.update_of_ne hne]
  · subst hp
    exact absurd hb' he.1

/-- The table that the raw walk finds. -/
theorem rawTable_eq (h : PtInv env s₀ root s g) {v t' : Nat}
    (hk : kernelSlot env s₀ (v / ptSpan 4) = false) (ht' : g (2, v / ptSpan 2) = .table t')
    (l : Nat) : ∀ {t : Nat}, 0 < l → l < 5 → g (l + 1, v / ptSpan (l + 1)) = .table t →
    rawTable s.mem v l t = t' := by
  induction l with
  | zero =>
      intro t hl
      omega
  | succ l ih =>
      intro t _ hl ht
      cases l with
      | zero =>
          rw [ht'] at ht
          exact (Ent.table.inj ht).symm
      | succ l =>
          have htq : g (l + 2 + 1, v / ptSpan (l + 2) / 512) = .table t := by
            rwa [region_div (by omega)]
          have hread : ptRead s.mem t (ptIndex v (l + 2)) =
              (g (l + 2, v / ptSpan (l + 2))).enc (l + 2) :=
            h.rep.entry htq fun e => by rw [e]; exact hk
          obtain ⟨p, hp⟩ := h.table_above (by omega) ht' (l + 2) (by omega) (by omega)
          have hok := h.rep.ok (l + 2, v / ptSpan (l + 2))
          rw [hp] at hok
          rw [rawTable, hread, hp, (Ent.enc_table (l + 2) hok.2.1).2.2.2.2.2]
          exact ih (by omega) (by omega) hp

/-- The page at `v` is unmapped. -/
theorem unmapPage (h : PtInv env s₀ root s g) {v p rwx : Nat}
    (hp : g (1, v / ptSpan 1) = .page p rwx) :
    PtInv env s₀ root (unmapPage root v s) (Function.update g (1, v / ptSpan 1) .empty) ∧
      DataEq g s (unmapPage root v s) := by
  obtain ⟨hv, hk⟩ := h.inside (v := v) (l := 1) (by omega) (by omega) (by rw [hp]; simp)
  obtain ⟨t, ht⟩ : ∃ t, g (2, v / ptSpan 2) = .table t :=
    h.parent_table (by omega) (by omega) (by rw [hp]; simp)
  have hraw : rawTable s.mem v 4 root = t :=
    h.rawTable_eq hk ht 4 (by omega) (by omega) (h.root_of_lt hv)
  have htq : g (2, v / ptSpan 1 / 512) = .table t := by rwa [region_div (by omega)]
  have hread : ptRead s.mem t (ptIndex v 1) = (g (1, v / ptSpan 1)).enc 1 :=
    h.rep.entry htq (by omega)
  have hok := h.rep.ok (1, v / ptSpan 1)
  rw [hp] at hok
  have hphys : Pte.phys (ptRead s.mem t (ptIndex v 1)) = p := by
    rw [hread, hp, (Ent.enc_page 1 rwx hok.2.1).2.2.2.2.2]
  have hb : g.base (1, v / ptSpan 1) = p := congrArg Ent.base hp
  have hpg : g.pages (1, v / ptSpan 1) = 1 := by
    rw [PageMap.pages, hp]
    rfl
  rw [Efishell.unmapPage, hraw, hphys]
  have hc :=
    h.clear (l := 1) (q := v / ptSpan 1) (by rw [hb]; exact hok.1) htq (by omega) (by omega)
    (by omega) fun i _ h1 => by omega
  rw [hb, hpg] at hc
  exact ⟨hc, h.write_data ht (ptIndex_lt v 1) _⟩

end PtInv

/-! ### Ranges of new entries -/

/-- A page of zeros with the permissions `rwx`. -/
def ZeroPage (level rwx : Nat) (s : Phys) (e : Ent) : Prop :=
  ∃ p, e = .page p rwx ∧ ∀ a, p ≤ a → a < p + 4096 * e.pages level → s.mem a = 0

/-- A page of zeros to be made on demand. -/
def LazyPage (rwx : Nat) (_ : Phys) (e : Ent) : Prop := e = .lazy rwx

/-- The regions `q₀, …, q₀ + n - 1` of `level` were empty and have entries of the kind `K`.
Besides, tables were added on the way to addresses in `S`. -/
structure Filled (S : Nat → Prop) (level q₀ n : Nat) (K : Phys → Ent → Prop) (g g' : PageMap)
    (s s' : Phys) : Prop where
  made : ∀ q, q₀ ≤ q → q < q₀ + n → g (level, q) = .empty ∧ K s' (g' (level, q))
  rest : ∀ x, ¬ (x.1 = level ∧ q₀ ≤ x.2 ∧ x.2 < q₀ + n) →
    g' x = g x ∨ g x = .empty ∧ (∃ p, g' x = .table p) ∧ 2 ≤ x.1 ∧ x.1 ≤ 4 ∧
      ∃ v, S v ∧ x.2 = v / ptSpan x.1
  data : DataEq g s s'

/-- A kind of entries depends on the bytes of the entry's pages only. -/
def Stable (level : Nat) (K : Phys → Ent → Prop) : Prop :=
  ∀ {g : PageMap} {s s' : Phys} {q : Nat}, DataEq g s s' → K s (g (level, q)) → K s' (g (level, q))

/-- A zeroed page stays one while the map grows elsewhere. -/
theorem ZeroPage.stable (level rwx : Nat) : Stable level (ZeroPage level rwx) := by
  intro g s s' q hd ⟨p, hp, hz⟩
  refine ⟨p, hp, fun a h₁ h₂ => ?_⟩
  rw [hd hp a h₁ h₂]
  exact hz a h₁ h₂

/-- A lazy page stays one. -/
theorem LazyPage.stable (level rwx : Nat) : Stable level (LazyPage rwx) := fun _ h => h

namespace Filled

variable {S : Nat → Prop} {level q₀ n : Nat} {K : Phys → Ent → Prop} {g g' g'' : PageMap}
  {s s' s'' : Phys}

/-- Nothing has been filled yet. -/
theorem zero (h : Grows S g g' s s') : Filled S level q₀ 0 K g g' s s' :=
  ⟨fun q h₁ h₂ => by omega, fun x _ => h.entries x, h.data⟩

/-- With nothing filled, the map has only grown. -/
theorem grows_of_zero (h : Filled S level q₀ 0 K g g' s s') : Grows S g g' s s' :=
  ⟨fun x => h.rest x (by omega), h.data⟩

/-- What was there before the loop is there after it. -/
theorem stays (h : Filled S level q₀ n K g g' s s') {x : Nat × Nat} (hx : g x ≠ .empty) :
    g' x = g x := by
  by_cases hin : x.1 = level ∧ q₀ ≤ x.2 ∧ x.2 < q₀ + n
  · obtain ⟨rfl, h₁, h₂⟩ := hin
    exact absurd (h.made x.2 h₁ h₂).1 hx
  · exact (h.rest x hin).elim id fun e => absurd e.1 hx

/-- The bytes of the old pages stay when those of the new ones do. -/
theorem data_trans (h : Filled S level q₀ n K g g' s s') (hd : DataEq g' s' s'') :
    DataEq g s s'' := by
  intro x p rwx hx a h₁ h₂
  have hx' : g' x = .page p rwx := (h.stays (by rw [hx]; simp)).trans hx
  rw [← h.data hx a h₁ h₂]
  refine hd hx' a h₁ ?_
  rwa [PageMap.pages, hx', ← hx]

/-- Growth after some entries have been filled. -/
theorem grow (h : Filled S level q₀ n K g g' s s') (hK : Stable level K)
    (hne : ∀ s, ¬ K s .empty) (h' : Grows S g' g'' s' s'') : Filled S level q₀ n K g g'' s s'' := by
  refine ⟨fun q h₁ h₂ => ?_, fun x hx => ?_, h.data_trans h'.data⟩
  · obtain ⟨e₁, e₂⟩ := h.made q h₁ h₂
    have hst : g'' (level, q) = g' (level, q) := by
      refine h'.stays fun e => hne s' ?_
      rwa [e] at e₂
    exact ⟨e₁, hst ▸ hK h'.data e₂⟩
  · rcases h'.entries x with e | ⟨e, hp, hx'⟩
    · rw [e]
      exact h.rest x hx
    · rcases h.rest x hx with e' | ⟨-, ⟨p, e'⟩, -⟩
      · exact Or.inr ⟨e' ▸ e, hp, hx'⟩
      · rw [e'] at e
        cases e

/-- The next region is filled. -/
theorem put (h : Filled S level q₀ n K g g' s s') (hK : Stable level K) {e : Ent}
    (he : g (level, q₀ + n) = .empty) (hk : K s'' e) (hd : DataEq g' s' s'') :
    Filled S level q₀ (n + 1) K g (Function.update g' (level, q₀ + n) e) s s'' := by
  refine ⟨fun q h₁ h₂ => ?_, fun x hx => ?_, h.data_trans hd⟩
  · rcases Nat.lt_or_ge q (q₀ + n) with hq | hq
    · obtain ⟨e₁, e₂⟩ := h.made q h₁ hq
      rw [Function.update_of_ne (by simp only [ne_eq, Prod.mk.injEq, true_and]; omega)]
      exact ⟨e₁, hK hd e₂⟩
    · obtain rfl : q = q₀ + n := by omega
      rw [Function.update_self]
      exact ⟨he, hk⟩
  · have hne : x ≠ (level, q₀ + n) := by
      rintro rfl
      exact hx ⟨rfl, by simp only; omega, by simp only; omega⟩
    rw [Function.update_of_ne hne]
    exact h.rest x (by omega)

/-- The last region is cleared. -/
theorem dropLast (h : Filled S level q₀ (n + 1) K g g' s s') (hK : Stable level K)
    (hd : DataEq g' s' s'') :
    Filled S level q₀ n K g (Function.update g' (level, q₀ + n) .empty) s s'' := by
  refine ⟨fun q h₁ h₂ => ?_, fun x hx => ?_, h.data_trans hd⟩
  · obtain ⟨e₁, e₂⟩ := h.made q h₁ (by omega)
    rw [Function.update_of_ne (by simp only [ne_eq, Prod.mk.injEq, true_and]; omega)]
    exact ⟨e₁, hK hd e₂⟩
  · rcases eq_or_ne x (level, q₀ + n) with rfl | hne
    · rw [Function.update_self]
      exact Or.inl (h.made (q₀ + n) (by omega) (by omega)).1.symm
    · rw [Function.update_of_ne hne]
      refine h.rest x fun hin => hx ⟨hin.1, hin.2.1, ?_⟩
      have : x.2 ≠ q₀ + n := fun e => hne (Prod.ext hin.1 e)
      omega

/-- The first region is cleared. -/
theorem dropFirst (h : Filled S level q₀ (n + 1) K g g' s s') (hK : Stable level K)
    (hd : DataEq g' s' s'') :
    Filled S level (q₀ + 1) n K g (Function.update g' (level, q₀) .empty) s s'' := by
  refine ⟨fun q h₁ h₂ => ?_, fun x hx => ?_, h.data_trans hd⟩
  · obtain ⟨e₁, e₂⟩ := h.made q (by omega) (by omega)
    rw [Function.update_of_ne (by simp only [ne_eq, Prod.mk.injEq, true_and]; omega)]
    exact ⟨e₁, hK hd e₂⟩
  · rcases eq_or_ne x (level, q₀) with rfl | hne
    · rw [Function.update_self]
      exact Or.inl (h.made q₀ (by omega) (by omega)).1.symm
    · rw [Function.update_of_ne hne]
      refine h.rest x fun hin => hx ⟨hin.1, ?_, by omega⟩
      have : x.2 ≠ q₀ := fun e => hne (Prod.ext hin.1 e)
      omega

end Filled

/-! ### Mapping pages -/

theorem ptSpan_one : ptSpan 1 = 4096 := rfl

theorem zeroPage_empty (level rwx : Nat) (s : Phys) : ¬ ZeroPage level rwx s .empty := by
  rintro ⟨p, hp, -⟩
  cases hp

/-- Claimed pages are zero. -/
theorem claim_mem_zero {s : Phys} {start n a : Nat} (h₁ : 4096 * start ≤ a)
    (h₂ : a < 4096 * start + 4096 * n) : (s.claim start n).mem a = 0 := by
  show memZero s.mem _ _ a = 0
  rw [memZero, if_pos ⟨h₁, h₂⟩]

namespace PtInv

variable {env : MmuEnv} {s₀ s s₁ : Phys} {root : Nat} {g g₀ : PageMap} {S : Nat → Prop}

/-- The loop of `x86_64_as_alloc` and `x86_64_as_map_at`. -/
theorem mapPages (hk : KernelOk env s₀) {v rwx N : Nat} (hr : rwxOk rwx = true) (hv : 4096 ∣ v)
    (hS : ∀ i < N, S (v + 4096 * i))
    (hp : ∀ i < N, ∀ p r, g₀ (2, (v + 4096 * i) / ptSpan 2) ≠ .page p r) (count : Nat) :
    ∀ {done : Nat} {s : Phys} {g : PageMap}, PtInv env s₀ root s g → g (0, 0) = .empty →
      done + count ≤ N → Filled S 1 (v / 4096) done (ZeroPage 1 rwx) g₀ g s₁ s →
      ∃ g', PtInv env s₀ root (mapPages env root (leafFlags rwx) v count done s).2.2 g' ∧
        g' (0, 0) = .empty ∧
        Filled S 1 (v / 4096) (mapPages env root (leafFlags rwx) v count done s).1 (ZeroPage 1 rwx)
          g₀ g' s₁ (mapPages env root (leafFlags rwx) v count done s).2.2 ∧
        ((mapPages env root (leafFlags rwx) v count done s).2.1 = none →
          (mapPages env root (leafFlags rwx) v count done s).1 = done + count) := by
  induction count with
  | zero =>
      intro done s g h hh _ hf
      exact ⟨g, h, hh, hf, fun _ => rfl⟩
  | succ count ih =>
      intro done s g h hh hN hf
      rw [Efishell.mapPages]
      rcases pmmAllocPage_cases s with e | ⟨start, e, hrun⟩
      · rw [e]
        simp only [if_true]
        exact ⟨g, h, hh, hf, fun e => by cases e⟩
      · rw [e]
        obtain ⟨hz, -⟩ := frameOk h.ledger.ok Nat.one_pos hrun.2
        simp only [hz, if_false]
        generalize hgh : Function.update g (0, 0) (.page (4096 * start) 1) = gh
        have hhand : PtInv env s₀ root (s.claim start 1) gh := hgh ▸ h.toHand hrun hh
        have hgh0 : gh (0, 0) = .page (4096 * start) 1 := by
          rw [← hgh, Function.update_self]
        have hghne : ∀ {x : Nat × Nat}, x ≠ (0, 0) → gh x = g x := by
          intro x hx
          rw [← hgh, Function.update_of_ne hx]
        have hclaim : DataEq g s (s.claim start 1) := h.claim_data hrun
        -- tables that were added with the page in hand were added to the map
        have hback : ∀ {g₂ : PageMap} {s₂ : Phys}, Grows S gh g₂ (s.claim start 1) s₂ →
            Grows S g (Function.update g₂ (0, 0) .empty) s s₂ := by
          intro g₂ s₂ hgrow
          refine ⟨fun x => ?_, fun {x p r} hx a h₁ h₂ => ?_⟩
          · rcases eq_or_ne x (0, 0) with rfl | hx
            · rw [Function.update_self, hh]
              exact Or.inl rfl
            · rw [Function.update_of_ne hx, ← hghne hx]
              exact hgrow.entries x
          · have hx0 : x ≠ (0, 0) := by
              rintro rfl
              rw [hh] at hx
              cases hx
            have hxg : gh x = .page p r := (hghne hx0).trans hx
            rw [← hclaim hx a h₁ h₂]
            refine hgrow.data hxg a h₁ ?_
            rwa [PageMap.pages, hxg, ← hx]
        have hq : (v + 4096 * done) / ptSpan 1 = v / 4096 + done := by
          rw [ptSpan_one]
          omega
        -- a large page at this address would be one of the map at the start
        have hnp : ∀ p r, gh (2, (v + 4096 * done) / ptSpan 2) ≠ .page p r := by
          intro p r hpg
          rw [hghne (by simp)] at hpg
          rcases hf.rest (2, (v + 4096 * done) / ptSpan 2) (by simp) with e | ⟨-, ⟨q, e⟩, -⟩
          · exact hp done (by omega) p r (e ▸ hpg)
          · rw [e] at hpg
            cases hpg
        rcases hhand.mapPageRaw hk (v := v + 4096 * done) (hS done (by omega)) hgh0 hr hnp with
          ⟨err, g', hm, h', hgrow⟩ | ⟨g₂, s₂, g', hm, h', hgrow, hd, hempty, -, -, hg'⟩
        · -- the page goes back
          generalize Efishell.mapPageRaw env root (v + 4096 * done) (4096 * start) (leafFlags rwx)
            false (s.claim start 1) = r at hm h' hgrow ⊢
          obtain ⟨r₁, s'⟩ := r
          obtain rfl : r₁ = .error err := hm
          have hg0' : g' (0, 0) = .page (4096 * start) 1 := (hgrow.low (by simp)).trans hgh0
          have hf' := hf.grow (ZeroPage.stable 1 rwx) (zeroPage_empty 1 rwx) (hback hgrow)
          refine ⟨Function.update g' (0, 0) .empty, h'.dropHand hg0', Function.update_self _ _ _,
            ⟨hf'.made, hf'.rest, hf'.data⟩, fun e => by cases e⟩
        · -- the page is mapped
          generalize Efishell.mapPageRaw env root (v + 4096 * done) (4096 * start) (leafFlags rwx)
            false (s.claim start 1) = r at hm h' hd ⊢
          obtain ⟨r₁, s'⟩ := r
          obtain rfl : r₁ = .ok () := hm
          rw [hq] at hempty hg'
          rw [hghne (by simp)] at hempty
          have hd' : DataEq (Function.update g₂ (0, 0) .empty) s₂ s' := by
            intro x p r hx a h₁ h₂
            have hx0 : x ≠ (0, 0) := by
              rintro rfl
              rw [Function.update_self] at hx
              cases hx
            have hx' := hx
            rw [Function.update_of_ne hx0] at hx'
            refine hd hx' a h₁ ?_
            rwa [PageMap.pages, hx', ← hx]
          have hzero : ZeroPage 1 rwx s' (.page (4096 * start) rwx) := by
            refine ⟨4096 * start, rfl, fun a h₁ h₂ => ?_⟩
            have h₂' : a < 4096 * start + 4096 * 1 := h₂
            have hg₂ : g₂ (0, 0) = .page (4096 * start) 1 := (hgrow.low (by simp)).trans hgh0
            rw [hd hg₂ a h₁ (by rw [PageMap.pages, hg₂]; exact h₂'),
              hgrow.data hgh0 a h₁ (by rw [PageMap.pages, hgh0]; exact h₂'),
              claim_mem_zero h₁ h₂']
          have hg0 : g₀ (1, v / 4096 + done) = .empty := by
            rcases hf.rest (1, v / 4096 + done) (by simp only; omega) with e | ⟨e, -⟩
            · rw [← e]
              exact hempty
            · exact e
          have hf' := (hf.grow (ZeroPage.stable 1 rwx) (zeroPage_empty 1 rwx) (hback hgrow)).put
            (ZeroPage.stable 1 rwx) hg0 hzero hd'
          rw [← hg'] at hf'
          obtain ⟨g'', h'', hh'', hf'', hall⟩ := ih h' (by
            rw [hg', Function.update_of_ne (by simp), Function.update_self]) (by omega) hf'
          exact ⟨g'', h'', hh'', hf'', fun e => by rw [hall e]; omega⟩

/-- The undo loop of `x86_64_as_alloc` and `x86_64_as_map_at`. -/
theorem unmapPages {v rwx : Nat} (hv : 4096 ∣ v) (left : Nat) :
    ∀ {j : Nat} {s : Phys} {g : PageMap}, PtInv env s₀ root s g → g (0, 0) = .empty →
      Filled S 1 (v / 4096 + j) left (ZeroPage 1 rwx) g₀ g s₁ s →
      ∃ g', PtInv env s₀ root (unmapPages root v left j s) g' ∧ g' (0, 0) = .empty ∧
        Grows S g₀ g' s₁ (unmapPages root v left j s) := by
  induction left with
  | zero =>
      intro j s g h hh hf
      exact ⟨g, h, hh, hf.grows_of_zero⟩
  | succ left ih =>
      intro j s g h hh hf
      rw [Efishell.unmapPages]
      have hq : (v + 4096 * j) / ptSpan 1 = v / 4096 + j := by
        rw [ptSpan_one]
        omega
      obtain ⟨-, p, hp, -⟩ := hf.made (v / 4096 + j) (Nat.le_refl _) (by omega)
      obtain ⟨h', hd⟩ := h.unmapPage (v := v + 4096 * j) (by rw [hq]; exact hp)
      rw [hq] at h'
      have hf' := hf.dropFirst (ZeroPage.stable 1 rwx) hd
      exact ih h' (by rw [Function.update_of_ne (by simp)]; exact hh) hf'

end PtInv

/-! ### Demand-zero and large mappings -/

/-- The entries that an option makes. -/
def VmOption.Kind (rwx : Nat) : VmOption → Phys → Ent → Prop
  | .lazy => LazyPage rwx
  | .huge => ZeroPage 2 rwx

namespace VmOption

variable (o : VmOption) (rwx : Nat)

theorem kind_stable : Stable o.level (o.Kind rwx) := by
  cases o with
  | lazy => exact LazyPage.stable 1 rwx
  | huge => exact ZeroPage.stable 2 rwx

theorem kind_empty (s : Phys) : ¬ o.Kind rwx s .empty := by
  cases o with
  | lazy => exact fun h => by cases h
  | huge => exact zeroPage_empty 2 rwx s

theorem level_pos : 0 < o.level := by
  cases o <;> decide

theorem level_le : o.level ≤ 2 := by
  cases o <;> decide

/-- The option's unit is what its entries span. -/
theorem ptSpan_level : ptSpan o.level = o.unit := by
  cases o <;> rfl

theorem unit_pos : 0 < o.unit := by
  cases o <;> decide

end VmOption

namespace PtInv

variable {env : MmuEnv} {s₀ s s₁ : Phys} {root : Nat} {g g₀ : PageMap} {S : Nat → Prop}

/-- Pages aligned to a unit start on its boundary. -/
theorem span_aligned {start : Nat} (h : start &&& (512 - 1) = 0) : 2 ^ 21 ∣ 4096 * start := by
  rw [and_sub_one_eq_mod (by decide)] at h
  obtain ⟨k, rfl⟩ := Nat.dvd_of_mod_eq_zero h
  exact ⟨k, by omega⟩

/-- The loop of `x86_64_as_alloc_ex`. -/
theorem mapUnits (o : VmOption) {v rwx N : Nat} (hr : rwxOk rwx = true) (hv : o.unit ∣ v)
    (hS : ∀ i < N, S (v + o.unit * i)) (hlt : ∀ i < N, v + o.unit * i < 2 ^ 48)
    (hk : ∀ i < N, kernelSlot env s₀ ((v + o.unit * i) / ptSpan 4) = false)
    (hp : ∀ i < N, ∀ p r, g₀ (2, (v + o.unit * i) / ptSpan 2) ≠ .page p r) (left : Nat) :
    ∀ {done : Nat} {s : Phys} {g : PageMap}, PtInv env s₀ root s g → g (0, 0) = .empty →
      done + left ≤ N → Filled S o.level (v / o.unit) done (o.Kind rwx) g₀ g s₁ s →
      ∃ g', PtInv env s₀ root (mapUnits o root (leafFlags rwx) v left done s).2.2 g' ∧
        g' (0, 0) = .empty ∧
        Filled S o.level (v / o.unit) (mapUnits o root (leafFlags rwx) v left done s).1 (o.Kind rwx)
          g₀ g' s₁ (mapUnits o root (leafFlags rwx) v left done s).2.2 ∧
        ((mapUnits o root (leafFlags rwx) v left done s).2.1 = none →
          (mapUnits o root (leafFlags rwx) v left done s).1 = done + left) := by
  induction left with
  | zero =>
      intro done s g h hh _ hf
      exact ⟨g, h, hh, hf, fun _ => rfl⟩
  | succ left ih =>
      intro done s g h hh hN hf
      have hq : (v + o.unit * done) / ptSpan o.level = v / o.unit + done := by
        rw [o.ptSpan_level, Nat.add_mul_div_left _ _ o.unit_pos]
      -- at level 1 a large page would be one of the map at the start
      have hnp : ∀ p r, o.level < 2 → g (2, (v + o.unit * done) / ptSpan 2) ≠ .page p r := by
        intro p r hlv hpg
        rcases hf.rest (2, (v + o.unit * done) / ptSpan 2) (by simp only; omega) with
          e | ⟨-, ⟨q, e⟩, -⟩
        · exact hp done (by omega) p r (e ▸ hpg)
        · rw [e] at hpg
          cases hpg
      obtain ⟨g₁, h₁, hgrow, hok⟩ :=
        leafFor (hS done (by omega)) (hk done (by omega)) o.level_pos 4 h
        (by have := o.level_le; omega) (by omega) (h.root_of_lt (hlt done (by omega))) hnp
      rw [Efishell.mapUnits]
      dsimp only
      have hh₁ : g₁ (0, 0) = .empty := (hgrow.low (by simp)).trans hh
      have hf₁ := hf.grow (o.kind_stable rwx) (o.kind_empty rwx) hgrow
      generalize Efishell.leafFor
          (v + o.unit * done) o.level true 4 root s = r at h₁ hgrow hok hf₁ ⊢
      obtain ⟨r₁, s'⟩ := r
      cases r₁ with
      | error e => exact ⟨g₁, h₁, hh₁, hf₁, fun e => by cases e⟩
      | ok t =>
          have ht : g₁ (o.level + 1, (v / o.unit + done) / 512) = .table t := by
            rw [← hq, region_div o.level_pos]
            exact hok t rfl
          have hl4 : o.level = 4 → kernelSlot env s₀ (v / o.unit + done) = false := by
            have := o.level_le
            omega
          have hread : ptRead s'.mem t (ptIndex (v + o.unit * done) o.level) =
              (g₁ (o.level, v / o.unit + done)).enc o.level := by
            rw [ptIndex, hq]
            exact h₁.rep.entry ht hl4
          dsimp only
          rw [hread]
          by_cases hz : (g₁ (o.level, v / o.unit + done)).enc o.level = 0
          · rw [if_neg (by rw [hz]; simp)]
            have hempty := (Ent.enc_eq_zero (h₁.rep.ok (o.level, v / o.unit + done))).mp hz
            have hg0 : g₀ (o.level, v / o.unit + done) = .empty := by
              rcases hf₁.rest (o.level, v / o.unit + done) (by simp only; omega) with e | ⟨e, -⟩
              · rw [← e]
                exact hempty
              · exact e
            have hnt : ∀ p, g₁ (o.level, v / o.unit + done) ≠ .table p := by simp [hempty]
            rw [show ptIndex (v + o.unit * done) o.level = (v / o.unit + done) % 512 by
              rw [ptIndex, hq]]
            have hidx : (v / o.unit + done) % 512 < 512 := Nat.mod_lt _ (by omega)
            have hhand : ∀ e :
                Ent, Function.update g₁ (o.level, v / o.unit + done) e (0, 0) = .empty := by
              intro e
              rw [Function.update_of_ne (by
                have := o.level_pos
                simp only [ne_eq, Prod.mk.injEq, not_and]
                omega)]
              exact hh₁
            cases o with
            | lazy =>
                have h₂ := h₁.setBare (e := .lazy rwx) (congrArg Ent.base hempty) rfl ⟨hr, rfl⟩ ht
                  (by decide) (by decide) hl4 hnt
                have hf₂ := hf₁.put (VmOption.kind_stable .lazy rwx) hg0 (e := .lazy rwx) rfl
                  (h₁.write_data (e := Ent.enc 1 (.lazy rwx)) ht hidx s'.pmm)
                obtain ⟨g'', h'', hh'', hf'', hall⟩ := ih h₂ (hhand _) (by omega) hf₂
                exact ⟨g'', h'', hh'', hf'', fun e => (hall e).trans (by omega)⟩
            | huge =>
                dsimp only
                rcases kPmmAllocAligned_cases 512 512 0 s' with e | ⟨start, e, -, hrun, -⟩
                · rw [e]
                  simp only [if_true]
                  exact ⟨g₁, h₁, hh₁, hf₁, fun e => by cases e⟩
                · rw [e]
                  obtain ⟨hz', hfr⟩ := frameOk h₁.ledger.ok (show 0 < 512 by omega) hrun.2
                  simp only [hz', if_false]
                  have h₂ := h₁.allocWrite (e := .page (4096 * start) rwx) (by omega) hrun
                    (congrArg Ent.base hempty) hnt rfl rfl ht (by decide) (by decide) hl4
                    ⟨hz', hfr, hr, by decide, fun _ => span_aligned hrun.1⟩
                  obtain ⟨hd, hzero⟩ := h₁.alloc_data (e := Ent.enc 2 (.page (4096 * start) rwx))
                    ht hidx hrun
                  have hf₂ := hf₁.put (VmOption.kind_stable .huge rwx) hg0
                    (e := .page (4096 * start) rwx) ⟨4096 * start, rfl, hzero⟩ hd
                  obtain ⟨g'', h'', hh'', hf'', hall⟩ := ih h₂ (hhand _) (by omega) hf₂
                  exact ⟨g'', h'', hh'', hf'', fun e => (hall e).trans (by omega)⟩
          · rw [if_pos hz]
            exact ⟨g₁, h₁, hh₁, hf₁, fun e => by cases e⟩

/-- The undo loop of `x86_64_as_alloc_ex`. -/
theorem unmapUnits (o : VmOption) {v rwx : Nat} (hv : o.unit ∣ v) (done : Nat) :
    ∀ {s : Phys} {g : PageMap}, PtInv env s₀ root s g → g (0, 0) = .empty →
      Filled S o.level (v / o.unit) done (o.Kind rwx) g₀ g s₁ s →
      ∃ g', PtInv env s₀ root (unmapUnits o root v done s) g' ∧ g' (0, 0) = .empty ∧
        Grows S g₀ g' s₁ (unmapUnits o root v done s) := by
  induction done with
  | zero =>
      intro s g h hh hf
      exact ⟨g, h, hh, hf.grows_of_zero⟩
  | succ done ih =>
      intro s g h hh hf
      have hq : (v + o.unit * done) / ptSpan o.level = v / o.unit + done := by
        rw [o.ptSpan_level, Nat.add_mul_div_left _ _ o.unit_pos]
      obtain ⟨-, hkind⟩ := hf.made (v / o.unit + done) (by omega) (by omega)
      have hne : g (o.level, (v + o.unit * done) / ptSpan o.level) ≠ .empty := by
        rw [hq]
        intro e
        rw [e] at hkind
        exact o.kind_empty rwx s hkind
      have hlv := o.level_le
      obtain ⟨hlt, hk⟩ := h.inside o.level_pos (by omega) hne
      obtain ⟨t, ht⟩ := h.parent_table o.level_pos (by omega) hne
      -- the walk finds the table that the unit was made in
      have hfind : Efishell.leafFor (v + o.unit * done) o.level false 4 root s = (.ok t, s) := by
        rcases h.leafFor_find hk o.level_pos 4 (by omega) (by omega) (h.root_of_lt hlt) with
          ⟨e, -, hno⟩ | ⟨t', e, ht'⟩
        · exact absurd ht (hno t)
        · rw [ht] at ht'
          rw [e, Ent.table.inj ht']
      have htq : g (o.level + 1, (v / o.unit + done) / 512) = .table t := by
        rwa [← hq, region_div o.level_pos]
      have hl4 : o.level = 4 → kernelSlot env s₀ (v / o.unit + done) = false := by omega
      have hread : ptRead s.mem t (ptIndex (v + o.unit * done) o.level) =
          (g (o.level, v / o.unit + done)).enc o.level := by
        rw [ptIndex, hq]
        exact h.rep.entry htq hl4
      have hidx : (v / o.unit + done) % 512 < 512 := Nat.mod_lt _ (by omega)
      have hhand : Function.update g (o.level, v / o.unit + done) .empty (0, 0) = .empty := by
        rw [Function.update_of_ne (by
          have := o.level_pos
          simp only [ne_eq, Prod.mk.injEq, not_and]
          omega)]
        exact hh
      rw [Efishell.unmapUnits]
      dsimp only
      rw [hfind]
      dsimp only
      rw [hread, show ptIndex (v + o.unit * done) o.level = (v / o.unit + done) % 512 by
        rw [ptIndex, hq]]
      cases o with
      | lazy =>
          have he : g (1, v / VmOption.lazy.unit + done) = .lazy rwx := hkind
          have he' : g (VmOption.lazy.level, v / VmOption.lazy.unit + done) = .lazy rwx := he
          rw [he', (Ent.enc_lazy _ rwx).1]
          simp only [Bool.false_eq_true, if_false]
          have h' := h.setBare (e := .empty) (congrArg Ent.base he') rfl trivial htq (by decide)
            (by decide) hl4 (by simp [he'])
          exact ih h' hhand
            (hf.dropLast (VmOption.kind_stable .lazy rwx) (h.write_data htq hidx s.pmm))
      | huge =>
          obtain ⟨p, he, -⟩ := hkind
          have he' : g (VmOption.huge.level, v / VmOption.huge.unit + done) = .page p rwx := he
          have hok := h.rep.ok (2, v / VmOption.huge.unit + done)
          have he₂ : g (2, v / VmOption.huge.unit + done) = .page p rwx := he
          rw [he₂] at hok
          obtain ⟨e₁, -, -, -, -, e₆⟩ := Ent.enc_page VmOption.huge.level rwx hok.2.1
          rw [he', e₁, e₆]
          simp only [if_true]
          have hb : g.base (2, v / VmOption.huge.unit + done) = p := congrArg Ent.base he₂
          have hpg : g.pages (2, v / VmOption.huge.unit + done) = 512 := by
            rw [PageMap.pages, he₂]
            rfl
          have h' :=
            h.clear (l := 2) (q := v / VmOption.huge.unit + done) (by rw [hb]; exact hok.1) htq
            (by decide) (by decide) (fun e => absurd e (by decide))
            (h.below_empty (by decide) (by simp [he₂]))
          rw [hb, hpg] at h'
          exact ih h' hhand
            (hf.dropLast (VmOption.kind_stable .huge rwx) (h.write_data htq hidx _))

end PtInv

/-! ### Demand faults -/

/-- Pages to be made on demand were made. -/
structure Faulted (g g' : PageMap) (s s' : Phys) : Prop where
  entries : ∀ x, g' x = g x ∨ ∃ rwx, x.1 = 1 ∧ g x = .lazy rwx ∧ ZeroPage 1 rwx s' (g' x)
  data : DataEq g s s'

namespace Faulted

variable {g g' g'' : PageMap} {s s' s'' : Phys}

theorem refl (g : PageMap) (s : Phys) : Faulted g g s s := ⟨fun _ => Or.inl rfl, fun _ _ _ _ => rfl⟩

/-- A page stays as it is. -/
theorem page (h : Faulted g g' s s') {x : Nat × Nat} {p rwx : Nat} (hx : g x = .page p rwx) :
    g' x = .page p rwx := by
  rcases h.entries x with e | ⟨r, -, e, -⟩
  · rw [e]
    exact hx
  · rw [hx] at e
    cases e

/-- Only entries of the last level change. -/
theorem high (h : Faulted g g' s s') {x : Nat × Nat} (hx : x.1 ≠ 1) : g' x = g x :=
  (h.entries x).elim id fun ⟨_, e, _⟩ => absurd e hx

/-- One fault after another. -/
theorem trans (h : Faulted g g' s s') (h' : Faulted g' g'' s' s'') : Faulted g g'' s s'' := by
  refine ⟨fun x => ?_, fun {x p rwx} hx a h₁ h₂ => ?_⟩
  · rcases h.entries x with e | ⟨rwx, e₁, e₂, p, e₃, hz⟩
    · rw [← e]
      exact h'.entries x
    · refine Or.inr ⟨rwx, e₁, e₂, p, ?_, fun a h₁ h₂ => ?_⟩
      · exact h'.page e₃
      · rw [h'.page e₃, ← e₃] at h₂
        rw [h'.data e₃ a h₁ (by rwa [PageMap.pages, e₁])]
        exact hz a h₁ h₂
  · rw [← h.data hx a h₁ h₂]
    refine h'.data (h.page hx) a h₁ ?_
    rwa [PageMap.pages, h.page hx, ← hx]

end Faulted

namespace PtInv

variable {env : MmuEnv} {s₀ : Phys} {w : Vm} {g : PageMap}

/-- `x86_64_demand_fault` makes the page of a fault it accepts, or changes nothing. -/
theorem demandFault (h : PtInv env s₀ w.as.root w.phys g) (hk : KernelOk env s₀)
    (address error : Nat) : (∃ e, Efishell.demandFault address error w = (.error e, w)) ∨
      ∃ g' rwx, (Efishell.demandFault address error w).1 = .ok () ∧
        (Efishell.demandFault address error w).2.as = w.as ∧
        PtInv env s₀ w.as.root (Efishell.demandFault address error w).2.phys g' ∧
        Faulted g g' w.phys (Efishell.demandFault address error w).2.phys ∧
        g (1, address / ptSpan 1) = .lazy rwx ∧ (error.testBit 1 = true → regionW rwx = true) ∧
        (∃ p, g' (1, address / ptSpan 1) = .page p rwx) ∧
        ∀ x, x ≠ (1, address / ptSpan 1) → g' x = g x := by
  rw [Efishell.demandFault]
  split
  · exact Or.inl ⟨_, rfl⟩
  · rename_i harg
    simp only [kUserBase, kUserLimit, not_or, not_lt, not_le] at harg
    have hslot : address / ptSpan 4 = userSlot := by
      rw [show ptSpan 4 = 2 ^ 39 from rfl, show userSlot = 128 from rfl]
      omega
    have hks : kernelSlot env s₀ (address / ptSpan 4) = false := by
      rw [hslot]
      exact hk.window
    rcases h.leafFor_find hks (Nat.le_refl 1) 4 (by omega) (by omega) (h.root_of_lt (by omega)) with
      ⟨e, he, -⟩ | ⟨t, he, ht⟩
    · rw [he]
      exact Or.inl ⟨e, rfl⟩
    · rw [he]
      dsimp only
      have htq : g (2, address / ptSpan 1 / 512) = .table t := by
        rw [region_div (by omega)]
        exact ht
      have hread : ptRead w.phys.mem t (ptIndex address 1) = (g (1, address / ptSpan 1)).enc 1 :=
        h.rep.entry htq (by omega)
      rw [hread]
      split
      · exact Or.inl ⟨_, rfl⟩
      · rename_i hentry
        -- only an entry to be made on demand comes this far
        obtain ⟨rwx, hlazy⟩ : ∃ rwx, g (1, address / ptSpan 1) = .lazy rwx := by
          have hok := h.rep.ok (1, address / ptSpan 1)
          cases hg : g (1, address / ptSpan 1) with
          | empty =>
              have hl : Pte.lazy (Ent.enc 1 .empty) = false := Nat.zero_testBit 9
              rw [hg, hl] at hentry
              exact absurd rfl hentry
          | table p =>
              rw [hg] at hok
              exact absurd hok.2.2 (by simp)
          | page p rwx =>
              rw [hg] at hok hentry
              rw [(Ent.enc_page 1 rwx hok.2.1).1] at hentry
              simp at hentry
          | lazy rwx => exact ⟨rwx, rfl⟩
        obtain ⟨-, -, -, e₄, -, e₆⟩ := Ent.enc_lazy 1 rwx
        have hok := h.rep.ok (1, address / ptSpan 1)
        rw [hlazy] at hok hentry
        rw [hlazy]
        rcases pmmAllocPage_cases w.phys with e | ⟨start, e, hrun⟩
        · rw [e]
          simp only [if_true]
          exact Or.inl ⟨_, rfl⟩
        · obtain ⟨hz, hf⟩ := frameOk h.ledger.ok Nat.one_pos hrun.2
          have hw := h.allocWrite (l := 1) (q := address / ptSpan 1) (e := .page (4096 * start) rwx)
            Nat.one_pos hrun (congrArg Ent.base hlazy) (by simp [hlazy]) rfl rfl htq (by omega)
            (by omega) (by omega) ⟨hz, hf, hok.1, by omega, by omega⟩
          obtain ⟨hd, hzero⟩ := h.alloc_data (i := ptIndex address 1)
            (e := Ent.enc 1 (.page (4096 * start) rwx)) ht (ptIndex_lt address 1) hrun
          rw [e]
          simp only [hz, if_false, e₆]
          refine Or.inr ⟨_, rwx, trivial, trivial, hw, ⟨fun x => ?_, hd⟩, rfl, fun hb => ?_,
            ⟨4096 * start, Function.update_self _ _ _⟩, fun x hx => Function.update_of_ne hx _ _⟩
          · rcases eq_or_ne x (1, address / ptSpan 1) with rfl | hne
            · exact Or.inr ⟨rwx, rfl, hlazy, 4096 * start, Function.update_self _ _ _, by
                rw [Function.update_self]
                exact hzero⟩
            · exact Or.inl (Function.update_of_ne hne _ _)
          · rw [e₄, hb] at hentry
            by_contra hw'
            simp only [Bool.not_eq_true] at hw'
            rw [hw'] at hentry
            simp at hentry

/-- What the map shows of an address. -/
theorem view_iff {v : Nat} {r : Nat × Nat} (hr : g.view v = some r) :
    ∃ l p, (l = 1 ∨ l = 2) ∧ g (l, v / ptSpan l) = .page p r.2 ∧ r.1 = p + v % ptSpan l := by
  rw [PageMap.view] at hr
  split at hr
  · rename_i p rwx hg
    cases hr
    exact ⟨1, p, Or.inl rfl, hg, rfl⟩
  · split at hr
    · rename_i p rwx hg
      cases hr
      exact ⟨2, p, Or.inr rfl, hg, rfl⟩
    · cases hr

end PtInv

end Efishell
