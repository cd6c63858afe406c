import Efishell.Arch.UserCopy

/-!
# Paging — freeing and rolling back whole trees

`free_user_tree` gives back every page below a table, `rollback_tree` those from an address on.
Both recurse over the levels and loop over the entries of each table; the lemmas follow that
recursion. A region lies under another (`Under`) if its entry is reached through it.

* `PtInv.freeUserTree_freed`: every page below an entry of the user's is given back.
* `PtInv.rollbackTree`, `PtInv.asRollback`: what lies from an address on is given back, and no more.
-/

namespace Efishell

/-! ### Regions under a region -/

/-- The entry of `x` is the entry of `(level, q)` or lies in a table below it. -/
def Under (level q : Nat) (x : Nat × Nat) : Prop :=
  1 ≤ x.1 ∧ x.1 ≤ level ∧ x.2 / 512 ^ (level - x.1) = q

namespace Under

variable {level q : Nat} {x : Nat × Nat}

/-- An entry lies under one entry of a level. -/
theorem unique {q' : Nat} (h : Under level q x) (h' : Under level q' x) : q = q' :=
  h.2.2.symm.trans h'.2.2

/-- An entry lies under itself. -/
theorem self (hl : 1 ≤ level) : Under level q (level, q) :=
  ⟨hl, Nat.le_refl _, by rw [Nat.sub_self, Nat.pow_zero, Nat.div_one]⟩

/-- At its own level nothing else lies under it. -/
theorem eq_self (h : Under level q x) (hl : x.1 = level) : x = (level, q) := by
  refine Prod.ext hl ?_
  rw [← h.2.2, hl, Nat.sub_self, Nat.pow_zero, Nat.div_one]

/-- What lies under an entry of the table of `(level + 1, q)`. -/
theorem up (h : Under (level + 1) q x) (hl : x.1 ≤ level) :
    Under level (x.2 / 512 ^ (level - x.1)) x ∧ x.2 / 512 ^ (level - x.1) / 512 = q := by
  refine ⟨⟨h.1, hl, rfl⟩, ?_⟩
  rw [Nat.div_div_eq_div_mul, ← Nat.pow_succ, show (level - x.1).succ = level + 1 - x.1 by omega]
  exact h.2.2

/-- What lies under a child lies under its parent. -/
theorem down {i : Nat} (h : Under level (512 * q + i) x) (hi : i < 512) :
    Under (level + 1) q x := by
  obtain ⟨h₁, h₂, h₃⟩ := h
  refine ⟨h₁, by omega, ?_⟩
  rw [show level + 1 - x.1 = level - x.1 + 1 by omega, Nat.pow_succ, ← Nat.div_div_eq_div_mul, h₃]
  omega

/-- The entries right below one under `q` lie under `q`. -/
theorem kid {i : Nat} (h : Under level q x) (h2 : 2 ≤ x.1) (hi : i < 512) :
    Under level q (x.1 - 1, 512 * x.2 + i) := by
  obtain ⟨h₁, h₂, h₃⟩ := h
  refine ⟨by simp only; omega, by simp only; omega, ?_⟩
  simp only
  rw [show level - (x.1 - 1) = 1 + (level - x.1) by omega, Nat.pow_add, Nat.pow_one,
    ← Nat.div_div_eq_div_mul, show (512 * x.2 + i) / 512 = x.2 by omega]
  exact h₃

/-- The part of the address space that a region under another covers. -/
theorem address (h : Under level q x) : q * ptSpan level ≤ x.2 * ptSpan x.1 ∧
    (x.2 + 1) * ptSpan x.1 ≤ (q + 1) * ptSpan level := by
  obtain ⟨h₁, h₂, h₃⟩ := h
  have hspan : ptSpan level = 512 ^ (level - x.1) * ptSpan x.1 := by
    rw [ptSpan, ptSpan, show (512 : Nat) = 2 ^ 9 from rfl, ← Nat.pow_mul, ← Nat.pow_add]
    congr 1
    omega
  have hpos : 0 < 512 ^ (level - x.1) := Nat.pow_pos (by omega)
  have hle : q * 512 ^ (level - x.1) ≤ x.2 := by
    rw [← h₃]
    exact Nat.div_mul_le_self _ _
  have hlt : x.2 < (q + 1) * 512 ^ (level - x.1) := by
    rw [← Nat.div_lt_iff_lt_mul hpos, h₃]
    exact Nat.lt_succ_self q
  rw [hspan, ← Nat.mul_assoc, ← Nat.mul_assoc]
  exact ⟨Nat.mul_le_mul_right _ hle, Nat.mul_le_mul_right _ hlt⟩

end Under

namespace Rep

variable {ks : Nat → Bool} {mem : Bytes} {g : PageMap}

/-- Below an entry that is no table everything is empty. -/
theorem empty_under (h : Rep ks mem g) {level q : Nat} (hnt : ∀ p, g (level, q) ≠ .table p)
    (k : Nat) : ∀ {x : Nat × Nat}, Under level q x → x.1 + k + 1 = level → level < 6 →
      g x = .empty := by
  induction k with
  | zero =>
      intro x hx hk hl
      refine h.orphan (l := x.1) (q := x.2) hx.1 (by omega) fun t ht => hnt t ?_
      have h₃ := hx.2.2
      rw [show level - x.1 = 1 by omega, Nat.pow_one] at h₃
      rwa [h₃, show x.1 + 1 = level by omega] at ht
  | succ k ih =>
      intro x hx hk hl
      refine h.orphan (l := x.1) (q := x.2) hx.1 (by omega) fun t ht => ?_
      have h₃ := hx.2.2
      have hup : Under level q (x.1 + 1, x.2 / 512) := by
        refine ⟨by omega, by simp only; omega, ?_⟩
        simp only
        rw [Nat.div_div_eq_div_mul, ← Nat.pow_succ',
          show (level - (x.1 + 1)).succ = level - x.1 by omega]
        exact h₃
      rw [ih hup (by simp only; omega) hl] at ht
      cases ht

end Rep

/-! ### `free_user_tree` -/

theorem foldl_range_succ {α : Type} (f : α → Nat → α) (a : α) (n : Nat) :
    (List.range (n + 1)).foldl f a = f ((List.range n).foldl f a) n := by
  rw [List.range_succ, List.foldl_append]
  rfl

/-- Everything under the regions in `Q` is given back. -/
structure Freed (Q : Nat → Prop) (level : Nat) (free₀ : Nat → Bool) (g : PageMap) (m : Pmm)
    (g' : PageMap) : Prop where
  ledger : Ledger free₀ m g'.base g'.pages
  gone : ∀ {x q}, Q q → Under level q x → g' x = .empty
  rest : ∀ {x}, (∀ q, Q q → ¬ Under level q x) → g' x = g x

namespace Freed

variable {ks : Nat → Bool} {mem : Bytes} {level q : Nat} {free₀ : Nat → Bool} {m m' : Pmm}
  {g g₁ g₂ : PageMap} {Q Q' : Nat → Prop}

/-- The entries freed may be named by an equivalent condition. -/
theorem mono (h : Freed Q level free₀ g m g₁) (hQ : ∀ q, Q q ↔ Q' q) :
    Freed Q' level free₀ g m g₁ :=
  ⟨h.ledger, fun {_ q} hq => h.gone ((hQ q).mpr hq), fun hx =>
    h.rest fun q hq => hx q ((hQ q).mp hq)⟩

/-- First some regions, then others. -/
theorem trans (h : Freed Q level free₀ g m g₁) (h' : Freed Q' level free₀ g₁ m' g₂)
    (hd : ∀ q, Q q → ¬ Q' q) : Freed (fun q => Q q ∨ Q' q) level free₀ g m' g₂ := by
  refine ⟨h'.ledger, fun {x q} hq hx => ?_, fun {x} hx => ?_⟩
  · rcases hq with hq | hq
    · rw [h'.rest fun q' hq' hx' => hd q hq (by rwa [hx.unique hx'])]
      exact h.gone hq hx
    · exact h'.gone hq hx
  · rw [h'.rest fun q hq => hx q (Or.inr hq), h.rest fun q hq => hx q (Or.inl hq)]

/-- An entry that is no table has nothing below it. -/
theorem leafEntry (hrep : Rep ks mem g) (h₁ : 1 ≤ level) (hl : level < 6)
    (hnt : ∀ p, g (level, q) ≠ .table p) (hg : ∀ {x}, Under level q x → g₁ x = g x)
    (hledger : Ledger free₀ m (PageMap.base (Function.update g₁ (level, q) .empty))
      (PageMap.pages (Function.update g₁ (level, q) .empty))) :
    Freed (fun q' => q' = q) level free₀ g₁ m (Function.update g₁ (level, q) .empty) := by
  refine ⟨hledger, fun {x q'} hq hx => ?_, fun {x} hx => ?_⟩
  · rw [hq] at hx
    rcases eq_or_ne x (level, q) with rfl | hne
    · exact Function.update_self _ _ _
    · have hlt : x.1 ≠ level := fun e => hne (hx.eq_self e)
      have hle := hx.2.1
      rw [Function.update_of_ne hne, hg hx]
      exact hrep.empty_under hnt (level - x.1 - 1) hx (by omega) hl
  · refine Function.update_of_ne ?_ _ _
    rintro rfl
    exact hx _ rfl (Under.self h₁)

/-- A table, after everything below it. -/
theorem tableEntry {p : Nat} (h : Freed (fun q' => q' / 512 = q) level free₀ g m g₁)
    (hp : g (level + 1, q) = .table p) (hpz : p ≠ 0) :
    Freed (fun q' => q' = q) (level + 1) free₀ g (pmmFreePage p m)
      (Function.update g₁ (level + 1, q) .empty) := by
  have hself : g₁ (level + 1, q) = .table p := by
    rw [h.rest fun q _ hx => by have := hx.2.1; simp only at this; omega]
    exact hp
  have hb : g₁.base (level + 1, q) = p := congrArg Ent.base hself
  have hcl := h.ledger.clearEntry (by rw [hb]; exact hpz)
  rw [hb, PageMap.pages, hself] at hcl
  refine ⟨hcl, fun {x q'} hq hx => ?_, fun {x} hx => ?_⟩
  · rw [hq] at hx
    rcases eq_or_ne x (level + 1, q) with rfl | hne
    · exact Function.update_self _ _ _
    · rw [Function.update_of_ne hne]
      have hlt : x.1 ≠ level + 1 := fun e => hne (hx.eq_self e)
      have hle := hx.2.1
      obtain ⟨h₁, h₂⟩ := hx.up (by omega)
      exact h.gone h₂ h₁
  · have hne : x ≠ (level + 1, q) := by
      rintro rfl
      exact hx _ rfl (Under.self (by omega))
    rw [Function.update_of_ne hne]
    refine h.rest fun q' hq hx' => hx _ rfl ?_
    rw [show q' = 512 * (q' / 512) + q' % 512 by omega, hq] at hx'
    exact hx'.down (by omega)

end Freed

variable {ks : Nat → Bool} {mem : Bytes} {g : PageMap} {free₀ : Nat → Bool}

/-- `free_user_tree` gives back everything below the table of `(level + 1, Q)`. -/
theorem freeUserTree_freed (hrep : Rep ks mem g) (level : Nat) :
    ∀ {Q t : Nat} {m : Pmm} {gc : PageMap},
    level < 4 → g (level + 1, Q) = .table t → Ledger free₀ m gc.base gc.pages →
    (∀ {x}, x.1 ≤ level → Under (level + 1) Q x → gc x = g x) →
    ∃ g', Freed (fun q => q / 512 = Q) level free₀ gc (freeUserTree mem level t m) g' := by
  induction level with
  | zero =>
      intro Q t m gc _ _ hledger _
      refine ⟨gc, hledger, fun {x q} _ hx => ?_, fun _ => rfl⟩
      have := hx.1
      have := hx.2.1
      omega
  | succ level ih =>
      intro Q t m gc hl ht hledger hgc
      have hread : ∀ i < 512, ptRead mem t i = (g (level + 1, 512 * Q + i)).enc (level + 1) := by
        intro i hi
        have := hrep.entry (l := level + 1) (q := 512 * Q + i) (t := t)
          (by rw [show (512 * Q + i) / 512 = Q by omega]; exact ht) (by omega)
        rwa [show (512 * Q + i) % 512 = i by omega] at this
      -- the loop, entry by entry
      have hloop :
          ∀ n ≤ 512, ∃ g', Freed (fun q => 512 * Q ≤ q ∧ q < 512 * Q + n) (level + 1) free₀ gc
          ((List.range n).foldl (freeEntry mem (freeUserTree mem level) (level + 1) t) m) g' := by
        intro n
        induction n with
        | zero =>
            intro _
            exact ⟨gc, hledger, fun {x q} hq _ => by omega, fun _ => rfl⟩
        | succ n ihn =>
            intro hn
            obtain ⟨gn, hfr⟩ := ihn (by omega)
            rw [foldl_range_succ]
            generalize (List.range n).foldl
                (freeEntry mem (freeUserTree mem level) (level + 1) t) m = mn
              at hfr ⊢
            have hfresh : ∀ {x}, Under (level + 1) (512 * Q + n) x → gn x = g x := by
              intro x hx
              rw [hfr.rest fun q hq hx' => by have := hx.unique hx'; omega]
              exact hgc hx.2.1 (hx.down (by omega))
            have hself : gn (level + 1, 512 * Q + n) = g (level + 1, 512 * Q + n) :=
              hfresh (Under.self (by omega))
            have hok := hrep.ok (level + 1, 512 * Q + n)
            -- it is enough to give back what lies under this entry
            have hstep : ∀ {m' g'}, Freed (fun q => q = 512 * Q + n) (level + 1) free₀ gn m' g' →
                ∃ g', Freed (fun q => 512 * Q ≤ q ∧ q < 512 * Q + (n + 1))
                  (level + 1) free₀ gc m' g' :=
              fun h' => ⟨_, (hfr.trans h' fun q hq e => by omega).mono fun q => by omega⟩
            rw [freeEntry, hread n (by omega)]
            cases hg : g (level + 1, 512 * Q + n) with
            | empty =>
                have hp : Pte.present (Ent.enc (level + 1) .empty) = false := Nat.zero_testBit 0
                rw [hp, if_neg (by simp)]
                exact hstep (Freed.leafEntry hrep (by omega) (by omega) (by simp [hg]) hfresh
                  (hfr.ledger.forget (congrArg Ent.base (hself.trans hg))))
            | lazy rwx =>
                rw [(Ent.enc_lazy (level + 1) rwx).1, if_neg (by simp)]
                exact hstep (Freed.leafEntry hrep (by omega) (by omega) (by simp [hg]) hfresh
                  (hfr.ledger.forget (congrArg Ent.base (hself.trans hg))))
            | page p rwx =>
                rw [hg] at hok
                obtain ⟨e₁, e₂, -, -, -, e₆⟩ := Ent.enc_page (level + 1) rwx hok.2.1
                have hle : level + 1 ≤ 2 := hok.2.2.2.1
                have hb : gn.base (level + 1, 512 * Q + n) = p := congrArg Ent.base (hself.trans hg)
                have hcl := hfr.ledger.clearEntry (by rw [hb]; exact hok.1)
                rw [hb, PageMap.pages, hself, hg] at hcl
                rw [e₁, e₂, e₆, if_pos rfl]
                refine hstep (Freed.leafEntry hrep (by omega) (by omega) (by simp [hg]) hfresh ?_)
                by_cases hlv : level + 1 = 2
                · rw [if_pos ⟨hlv, by simpa using hlv⟩]
                  rwa [show Ent.pages (level + 1) (.page p rwx) = 512 from if_pos hlv] at hcl
                · rw [if_neg fun e => hlv e.1, if_neg (by omega)]
                  rwa [show Ent.pages (level + 1) (.page p rwx) = 1 from if_neg hlv] at hcl
            | table p =>
                rw [hg] at hok
                obtain ⟨e₁, e₂, -, -, -, e₆⟩ := Ent.enc_table (level + 1) hok.2.1
                have hle : 2 ≤ level + 1 := hok.2.2
                rw [e₁, e₂, e₆, if_pos rfl, if_neg (by simp), if_pos (by omega)]
                obtain ⟨g', hsub⟩ := ih (Q := 512 * Q + n) (m := mn) (by omega) hg hfr.ledger
                  fun {x} _ hx => hfresh hx
                exact hstep (hsub.tableEntry (hself.trans hg) hok.1)
      obtain ⟨g', hfr⟩ := hloop 512 (Nat.le_refl _)
      exact ⟨g', hfr.mono fun q => by omega⟩

/-! ### `rollback_tree` -/

/-- A page, made or to be made on demand. -/
def Ent.Leaf (e : Ent) : Prop := e ≠ .empty ∧ ∀ p, e ≠ .table p

/-- The entry of `x` after the rollback to `oldNext`: a leaf goes if it starts from there on, a
table if it reaches beyond and nothing is left below it. -/
structure Rolled (oldNext : Nat) (g g' : PageMap) (x : Nat × Nat) : Prop where
  sub : g' x = g x ∨ g' x = .empty
  leaf : (g x).Leaf → (g' x = .empty ↔ oldNext ≤ x.2 * ptSpan x.1)
  table : (∃ p, g x = .table p) → (g' x = .empty ↔ oldNext < (x.2 + 1) * ptSpan x.1 ∧
    ∀ i < 512, g' (x.1 - 1, 512 * x.2 + i) = .empty)

/-- An entry cleared leaves the bytes of the pages. -/
theorem DataEq.clear {g : PageMap} {s s' : Phys} (h : DataEq g s s') {x : Nat × Nat} :
    DataEq (Function.update g x .empty) s s' := by
  intro y p rwx hy a h₁ h₂
  have hne : y ≠ x := by
    rintro rfl
    rw [Function.update_self] at hy
    cases hy
  rw [Function.update_of_ne hne] at hy
  refine h hy a h₁ ?_
  rwa [PageMap.pages, Function.update_of_ne hne] at h₂

theorem DataEq.trans {g : PageMap} {s s' s'' : Phys} (h : DataEq g s s') (h' : DataEq g s' s'') :
    DataEq g s s'' := by
  intro x p rwx hx a h₁ h₂
  rw [h' hx a h₁ h₂]
  exact h hx a h₁ h₂

/-- What lies under the regions in `Q` is rolled back, and the bytes of what is left are the
same. -/
structure Swept (oldNext level : Nat) (Q : Nat → Prop) (g g' : PageMap) (s s' : Phys) : Prop where
  data : DataEq g' s s'
  rest : ∀ {x}, (∀ q, Q q → ¬ Under level q x) → g' x = g x
  rolled : ∀ {x q}, Q q → Under level q x → Rolled oldNext g g' x

namespace Rolled

variable {oldNext : Nat} {g g₁ g₂ : PageMap} {x : Nat × Nat}

/-- Only the entry and those right below it matter. -/
theorem congr (h : Rolled oldNext g g₁ x) {g' : PageMap} (hx : g' x = g x) (hx₂ : g₂ x = g₁ x)
    (hkids : 2 ≤ x.1 → ∀ i < 512, g₂ (x.1 - 1, 512 * x.2 + i) = g₁ (x.1 - 1, 512 * x.2 + i))
    (hok : (g x).Ok x.1) : Rolled oldNext g' g₂ x := by
  refine ⟨by rw [hx, hx₂]; exact h.sub, by rw [hx, hx₂]; exact h.leaf, fun ⟨p, hp⟩ => ?_⟩
  rw [hx] at hp
  rw [hx₂, h.table ⟨p, hp⟩]
  rw [hp] at hok
  refine and_congr_right fun _ => forall_congr' fun i => imp_congr_right fun hi => ?_
  rw [hkids hok.2.2 i hi]

/-- An entry that stays, with everything that lies below it before the end. -/
theorem stay (hx : g₁ x = g x) (hend : (x.2 + 1) * ptSpan x.1 ≤ oldNext) (hne : g x ≠ .empty) :
    Rolled oldNext g g₁ x := by
  have hlt : x.2 * ptSpan x.1 < oldNext :=
    Nat.lt_of_lt_of_le (Nat.mul_lt_mul_of_pos_right (Nat.lt_succ_self _) (ptSpan_pos _)) hend
  refine ⟨Or.inl hx, fun _ => ?_, fun _ => ?_⟩
  · rw [hx]
    exact ⟨fun e => absurd e hne, fun e => by omega⟩
  · rw [hx]
    exact ⟨fun e => absurd e hne, fun e => by omega⟩

/-- Nothing comes of nothing. -/
theorem empty (hx : g x = .empty) (hx₁ : g₁ x = .empty) : Rolled oldNext g g₁ x :=
  ⟨Or.inr hx₁, fun hl => absurd hx hl.1, fun ⟨p, hp⟩ => by rw [hx] at hp; cases hp⟩

end Rolled

namespace Swept

variable {oldNext level : Nat} {Q Q' : Nat → Prop} {g g₁ g₂ : PageMap} {s s₁ s₂ : Phys}

/-- What is left was there. -/
theorem stays (h : Swept oldNext level Q g g₁ s s₁) {x : Nat × Nat} (hx : g₁ x ≠ .empty) :
    g₁ x = g x := by
  by_cases hu : ∃ q, Q q ∧ Under level q x
  · obtain ⟨q, hq, hxq⟩ := hu
    exact (h.rolled hq hxq).sub.resolve_right hx
  · exact h.rest fun q hq hxq => hu ⟨q, hq, hxq⟩

theorem mono (h : Swept oldNext level Q g g₁ s s₁) (hQ : ∀ q, Q q ↔ Q' q) :
    Swept oldNext level Q' g g₁ s s₁ :=
  ⟨h.data, fun hx => h.rest fun q hq => hx q ((hQ q).mp hq), fun {_ q} hq =>
    h.rolled ((hQ q).mpr hq)⟩

/-- Two sweeps of different regions, one after the other. -/
theorem trans (h : Swept oldNext level Q g g₁ s s₁) (h' : Swept oldNext level Q' g₁ g₂ s₁ s₂)
    (hok : ∀ x, (g x).Ok x.1) (hd : ∀ q, Q q → ¬ Q' q) :
    Swept oldNext level (fun q => Q q ∨ Q' q) g g₂ s s₂ := by
  refine ⟨fun {x p rwx} hx a h₁ h₂ => ?_, fun {x} hx => ?_, fun {x q} hq hx => ?_⟩
  · have hx₁ : g₁ x = .page p rwx := (h'.stays (by rw [hx]; simp)).symm.trans hx
    rw [h'.data hx a h₁ h₂]
    refine h.data hx₁ a h₁ ?_
    rwa [PageMap.pages, hx₁, ← hx]
  · rw [h'.rest fun q hq => hx q (Or.inr hq), h.rest fun q hq => hx q (Or.inl hq)]
  · have hout : ∀ {P P' : Nat → Prop} {y}, P q → (∀ q, P q → ¬ P' q) → Under level q y →
        ∀ q', P' q' → ¬ Under level q' y := by
      intro P P' y hP hPP' hy q' hq' hy'
      rw [← hy.unique hy'] at hq'
      exact hPP' q hP hq'
    rcases hq with hq | hq
    · refine (h.rolled hq hx).congr rfl (h'.rest (hout hq hd hx)) (fun h2 i hi => ?_) (hok x)
      exact h'.rest (hout hq hd (hx.kid h2 hi))
    · have hg : g x = g₁ x := (h.rest (hout hq (fun q e e' => hd q e' e) hx)).symm
      exact (h'.rolled hq hx).congr hg rfl (fun _ _ _ => rfl) (by rw [← hg]; exact hok x)

/-- An entry that is no table has nothing below it. -/
theorem leafEntry {ks : Nat → Bool} {mem : Bytes} {q : Nat} (hrep : Rep ks mem g) (h₁ : 1 ≤ level)
    (hl : level < 6)
    (hnt : ∀ p, g (level, q) ≠ .table p) (hrest : ∀ x, x ≠ (level, q) → g₁ x = g x)
    (hx : Rolled oldNext g g₁ (level, q)) (hd : DataEq g₁ s s₁) :
    Swept oldNext level (fun q' => q' = q) g g₁ s s₁ := by
  refine ⟨hd, fun {x} hno => hrest x ?_, fun {x q'} hq hxq => ?_⟩
  · rintro rfl
    exact hno q rfl (Under.self h₁)
  · rw [hq] at hxq
    rcases eq_or_ne x (level, q) with rfl | hne
    · exact hx
    · have hlt : x.1 ≠ level := fun e => hne (hxq.eq_self e)
      have hle := hxq.2.1
      have he := hrep.empty_under hnt (level - x.1 - 1) hxq (by omega) hl
      exact Rolled.empty he ((hrest x hne).trans he)

/-- A table, after everything below it. -/
theorem tableEntry {q p : Nat} (h : Swept oldNext level (fun q' => q' / 512 = q) g g₁ s s₁)
    (hp : g (level + 1, q) = .table p) (hrest : ∀ x, x ≠ (level + 1, q) → g₂ x = g₁ x)
    (hx : g₂ (level + 1, q) = .table p ∨ g₂ (level + 1, q) = .empty)
    (hiff : g₂ (level + 1, q) = .empty ↔ oldNext < (q + 1) * ptSpan (level + 1) ∧
      ∀ i < 512, g₁ (level, 512 * q + i) = .empty)
    (hok : ∀ x, (g x).Ok x.1) (hd : DataEq g₂ s₁ s₂) :
    Swept oldNext (level + 1) (fun q' => q' = q) g g₂ s s₂ := by
  have hself : g₁ (level + 1, q) = .table p := by
    rw [h.rest fun q' _ hu => by have := hu.2.1; simp only at this; omega]
    exact hp
  have hstay : ∀ {x}, g₂ x ≠ .empty → g₂ x = g₁ x := by
    intro x hne
    rcases eq_or_ne x (level + 1, q) with rfl | hx'
    · rw [hself]
      exact hx.resolve_right hne
    · exact hrest x hx'
  refine ⟨fun {x p' rwx} hx a h₁ h₂ => ?_, fun {x} hno => ?_, fun {x q'} hq hxq => ?_⟩
  · have hx₁ : g₁ x = .page p' rwx := (hstay (by rw [hx]; simp)).symm.trans hx
    rw [hd hx a h₁ h₂]
    refine h.data hx₁ a h₁ ?_
    rwa [PageMap.pages, hx₁, ← hx]
  · have hne : x ≠ (level + 1, q) := by
      rintro rfl
      exact hno q rfl (Under.self (by omega))
    rw [hrest x hne]
    refine h.rest fun q' hq' hu => hno q rfl ?_
    rw [show q' = 512 * (q' / 512) + q' % 512 by omega, hq'] at hu
    exact hu.down (by omega)
  · rw [hq] at hxq
    rcases eq_or_ne x (level + 1, q) with rfl | hne
    · refine ⟨by rw [hp]; exact hx, fun hl => absurd hp (hl.2 p), fun _ => ?_⟩
      rw [hiff]
      refine and_congr_right fun _ => forall_congr' fun i => imp_congr_right fun hi => ?_
      simp only [Nat.add_sub_cancel]
      rw [hrest _ (by simp)]
    · have hlt : x.1 ≠ level + 1 := fun e => hne (hxq.eq_self e)
      have hle := hxq.2.1
      obtain ⟨h₁, h₂⟩ := hxq.up (by omega)
      refine (h.rolled h₂ h₁).congr rfl (hrest x hne) (fun h2 i hi => hrest _ ?_) (hok x)
      intro e
      have := (Prod.mk.inj e).1
      omega

end Swept

/-- No large page has `oldNext` in its middle. -/
def HugeApart (oldNext : Nat) (g : PageMap) : Prop :=
  ∀ q p rwx, g (2, q) = .page p rwx → oldNext ≤ q * ptSpan 2 ∨ (q + 1) * ptSpan 2 ≤ oldNext

/-- A sweep maps no large page. -/
theorem Swept.hugeApart {oldNext level : Nat} {Q : Nat → Prop} {g g' : PageMap} {s s' : Phys}
    (h : Swept oldNext level Q g g' s s') {n : Nat} (ha : HugeApart n g) : HugeApart n g' := by
  intro q p rwx hx
  exact ha q p rwx ((h.stays (by rw [hx]; simp)).symm.trans hx)

namespace PtInv

variable {env : MmuEnv} {s₀ s : Phys} {root : Nat} {g : PageMap} {oldNext : Nat}

/-- One entry of the table of `(level + 1, Q)`. -/
theorem rollbackEntry {level Q t i : Nat} (b : Bool) (descend : Nat → Nat → Phys → Bool × Phys)
    (hdescend : ∀ {q p : Nat}, 2 ≤ level → g (level, q) = .table p →
      ∃ g', PtInv env s₀ root (descend p (q * ptSpan level) s).2 g' ∧
        Swept oldNext (level - 1) (fun q' => q' / 512 = q) g g' s
          (descend p (q * ptSpan level) s).2 ∧
        ((descend p (q * ptSpan level) s).1 = true ↔
          ∀ i < 512, g' (level - 1, 512 * q + i) = .empty))
    (h : PtInv env s₀ root s g) (hl : 1 ≤ level) (hl' : level < 4) (hal : 4096 ∣ oldNext)
    (hhuge : HugeApart oldNext g) (ht : g (level + 1, Q) = .table t) (hi : i < 512) :
    ∃ g', PtInv env s₀ root
        (Efishell.rollbackEntry descend level t (Q * ptSpan (level + 1)) oldNext (b, s) i).2 g' ∧
      Swept oldNext level (fun q => q = 512 * Q + i) g g' s
        (Efishell.rollbackEntry descend level t (Q * ptSpan (level + 1)) oldNext (b, s) i).2 ∧
      ((Efishell.rollbackEntry descend level t (Q * ptSpan (level + 1)) oldNext (b, s) i).1 = true ↔
        b = true ∧ g' (level, 512 * Q + i) = .empty) := by
  have hq : (512 * Q + i) / 512 = Q := by omega
  have hqi : (512 * Q + i) % 512 = i := by omega
  have htq : g (level + 1, (512 * Q + i) / 512) = .table t := by rw [hq]; exact ht
  have hread : ptRead s.mem t i = (g (level, 512 * Q + i)).enc level := by
    have := h.rep.entry htq (by omega)
    rwa [hqi] at this
  have haddr : Q * ptSpan (level + 1) + i * ptSpan level = (512 * Q + i) * ptSpan level := by
    rw [ptSpan_succ hl, Nat.add_mul, Nat.mul_comm (ptSpan level) 512, ← Nat.mul_assoc,
      Nat.mul_comm Q 512]
  have hend : (512 * Q + i) * ptSpan level + ptSpan level = (512 * Q + i + 1) * ptSpan level :=
    (Nat.succ_mul _ _).symm
  have hok := h.rep.ok (level, 512 * Q + i)
  -- an entry that is kept, and one that is cleared
  have hkeep : g (level, 512 * Q + i) ≠ .empty → (∀ p, g (level, 512 * Q + i) ≠ .table p) →
      ¬ oldNext ≤ (512 * Q + i) * ptSpan level →
      Swept oldNext level (fun q => q = 512 * Q + i) g g s s := by
    intro hne hnt hlt
    refine Swept.leafEntry h.rep hl (by omega) hnt (fun _ _ => rfl)
      ⟨Or.inl rfl, fun _ => ?_, fun ⟨p, hp⟩ => absurd hp (hnt p)⟩ fun _ _ _ _ => rfl
    exact ⟨fun e => absurd e hne, fun e => absurd e hlt⟩
  have hdrop : ∀ {s'}, (∀ p, g (level, 512 * Q + i) ≠ .table p) →
      oldNext ≤ (512 * Q + i) * ptSpan level → DataEq g s s' →
      Swept oldNext level (fun q => q = 512 * Q + i) g
        (Function.update g (level, 512 * Q + i) .empty) s s' := by
    intro s' hnt hle hd
    refine Swept.leafEntry h.rep hl (by omega) hnt (fun x hx => Function.update_of_ne hx _ _)
      ⟨Or.inr (Function.update_self _ _ _), fun _ => ?_, fun ⟨p, hp⟩ => absurd hp (hnt p)⟩ ?_
    · exact ⟨fun _ => hle, fun _ => Function.update_self _ _ _⟩
    · exact DataEq.clear hd
  rw [Efishell.rollbackEntry]
  simp only [hread, haddr, hend]
  cases hg : g (level, 512 * Q + i) with
  | empty =>
      have hp : Pte.present (Ent.enc level .empty) = false := Nat.zero_testBit 0
      have hz : Pte.lazy (Ent.enc level .empty) = false := Nat.zero_testBit 9
      have h0 : ¬ Ent.enc level .empty ≠ 0 := fun e => e rfl
      simp only [hp, hz, Bool.not_false, if_true, Bool.false_and, Bool.false_eq_true, if_false, h0]
      refine ⟨g, h, Swept.leafEntry h.rep hl (by omega) (by simp [hg]) (fun _ _ => rfl)
        (Rolled.empty hg hg) fun _ _ _ _ => rfl, by simp [hg]⟩
  | lazy rwx =>
      rw [hg] at hok
      obtain ⟨e₁, e₂, -, -, e₅, -⟩ := Ent.enc_lazy level rwx
      simp only [e₁, e₂, Bool.not_false, if_true, Bool.true_and, decide_eq_true_eq]
      by_cases hle : oldNext ≤ (512 * Q + i) * ptSpan level
      · rw [if_pos hle]
        have hset := h.setBare (e := .empty) (congrArg Ent.base hg) rfl trivial htq hl (by omega)
          (by omega) (by simp [hg])
        rw [hqi] at hset
        exact ⟨_, hset, hdrop (by simp [hg]) hle (h.write_data ht hi s.pmm), by simp⟩
      · rw [if_neg hle, if_pos e₅]
        exact ⟨g, h, hkeep (by simp [hg]) (by simp [hg]) hle, by simp [hg]⟩
  | page p rwx =>
      rw [hg] at hok
      obtain ⟨e₁, e₂, -, -, -, e₆⟩ := Ent.enc_page level rwx hok.2.1
      have hle2 : level ≤ 2 := hok.2.2.2.1
      have hb : g.base (level, 512 * Q + i) = p := congrArg Ent.base hg
      have hclear :=
        h.clear (l := level) (q := 512 * Q + i) (by rw [hb]; exact hok.1) htq hl (by omega)
        (by omega) (h.below_empty (by omega) (by simp [hg]))
      have hpages : g.pages (level, 512 * Q + i) = if level = 2 then 512 else 1 := by
        rw [PageMap.pages, hg]
        rfl
      rw [hb, hqi, hpages] at hclear
      simp only [e₁, e₂, e₆, Bool.not_true, Bool.false_eq_true, if_false, decide_eq_true_eq]
      -- an address from `oldNext` on, seen from the end of the page
      have hfrom : oldNext < (512 * Q + i + 1) * ptSpan level ↔
          oldNext ≤ (512 * Q + i) * ptSpan level := by
        rw [← hend]
        have hpos := ptSpan_pos level
        refine ⟨fun hlt => ?_, fun hle => by omega⟩
        by_cases hlv : level = 2
        · subst hlv
          rcases hhuge _ p rwx hg with e | e
          · exact e
          · rw [← hend] at e
            omega
        · obtain rfl : level = 1 := by omega
          rw [ptSpan_one] at hlt ⊢
          omega
      by_cases hle : oldNext ≤ (512 * Q + i) * ptSpan level
      · rw [if_pos (hfrom.mpr hle)]
        have hsw := fun m => hdrop (by simp [hg]) hle (h.write_data (e := 0) ht hi m)
        by_cases hlv : level = 2
        · rw [if_pos ⟨hlv, hlv, hle⟩]
          rw [if_pos hlv] at hclear
          exact ⟨_, hclear, hsw _, by simp⟩
        · rw [if_neg fun e => hlv e.1, if_pos (by omega)]
          rw [if_neg hlv] at hclear
          exact ⟨_, hclear, hsw _, by simp⟩
      · rw [if_neg fun e => hle (hfrom.mp e)]
        exact ⟨g, h, hkeep (by simp [hg]) (by simp [hg]) hle, by simp [hg]⟩
  | table p =>
      rw [hg] at hok
      obtain ⟨e₁, e₂, -, -, -, e₆⟩ := Ent.enc_table level hok.2.1
      have hle2 : 2 ≤ level := hok.2.2
      simp only [e₁, e₂, e₆, Bool.not_true, Bool.false_eq_true, if_false, false_and, and_false]
      by_cases hlt : oldNext < (512 * Q + i + 1) * ptSpan level
      · rw [if_pos hlt, if_neg (by omega)]
        obtain ⟨g₁, h₁, hsw, hall⟩ := hdescend hle2 hg
        obtain ⟨k, rfl⟩ : ∃ k, level = k + 1 := ⟨level - 1, by omega⟩
        rw [Nat.add_sub_cancel] at hsw hall
        have hself : g₁ (k + 1, 512 * Q + i) = .table p := by
          rw [hsw.rest fun q' _ hu => by have := hu.2.1; simp only at this; omega]
          exact hg
        have hup : g₁ (k + 1 + 1, Q) = .table t := by
          rw [hsw.rest fun q' _ hu => by have := hu.2.1; simp only at this; omega]
          exact ht
        have hb : g₁.base (k + 1, 512 * Q + i) = p := congrArg Ent.base hself
        split
        · rename_i s₁ he
          rw [he] at h₁ hsw hall
          have hkids := hall.mp rfl
          have hclear := h₁.clear (l := k + 1) (q := 512 * Q + i) (by rw [hb]; exact hok.1)
            (by rw [hq]; exact hup) hl (by omega) (by omega) fun i hi _ => hkids i hi
          rw [hb, hqi, pages_table hself] at hclear
          refine ⟨_, hclear, hsw.tableEntry hg (fun x hx => Function.update_of_ne hx _ _)
            (Or.inr (Function.update_self _ _ _)) ?_ h.rep.ok
            (DataEq.clear (h₁.write_data hup hi _)), by simp⟩
          exact ⟨fun _ => ⟨hlt, hkids⟩, fun _ => Function.update_self _ _ _⟩
        · rename_i s₁ he
          rw [he] at h₁ hsw hall
          refine ⟨g₁, h₁, hsw.tableEntry hg (fun _ _ => rfl) (Or.inl hself) ?_ h.rep.ok
            fun _ _ _ _ => rfl, by simp [hself]⟩
          rw [hself]
          exact ⟨fun e => (by cases e), fun e => absurd (hall.mpr e.2) (by simp)⟩
      · rw [if_neg hlt]
        refine ⟨g, h, ⟨fun _ _ _ _ => rfl, fun _ => rfl, fun {x q'} hq' hx => ?_⟩, by simp [hg]⟩
        rw [hq'] at hx
        by_cases he : g x = .empty
        · exact Rolled.empty he he
        · exact Rolled.stay rfl (hx.address.2.trans (by omega)) he

/-- `rollback_tree` rolls back everything below the table of `(level + 1, Q)`, and says whether
nothing is left in it. -/
theorem rollbackTree (hal : 4096 ∣ oldNext) (level : Nat) : ∀ {Q t : Nat} {s : Phys} {g : PageMap},
    PtInv env s₀ root s g → 1 ≤ level → level < 4 → HugeApart oldNext g →
      g (level + 1, Q) = .table t →
    ∃ g', PtInv env s₀ root (rollbackTree oldNext level t (Q * ptSpan (level + 1)) s).2 g' ∧
      Swept oldNext level (fun q => q / 512 = Q) g g' s
        (rollbackTree oldNext level t (Q * ptSpan (level + 1)) s).2 ∧
      ((rollbackTree oldNext level t (Q * ptSpan (level + 1)) s).1 = true ↔
        ∀ i < 512, g' (level, 512 * Q + i) = .empty) := by
  induction level with
  | zero =>
      intro Q t s g _ hl
      omega
  | succ level ih =>
      intro Q t s g h hl hl' hhuge ht
      -- the loop, entry by entry
      have hloop : ∀ n ≤ 512, ∃ g', PtInv env s₀ root
            ((List.range n).foldl
              (Efishell.rollbackEntry (Efishell.rollbackTree oldNext level) (level + 1) t
              (Q * ptSpan (level + 1 + 1)) oldNext) (true, s)).2 g' ∧
          Swept oldNext (level + 1) (fun q => 512 * Q ≤ q ∧ q < 512 * Q + n) g g' s
            ((List.range n).foldl
              (Efishell.rollbackEntry (Efishell.rollbackTree oldNext level) (level + 1) t
              (Q * ptSpan (level + 1 + 1)) oldNext) (true, s)).2 ∧
          (((List.range n).foldl
            (Efishell.rollbackEntry (Efishell.rollbackTree oldNext level) (level + 1) t
              (Q * ptSpan (level + 1 + 1)) oldNext) (true, s)).1 = true ↔
            ∀ i < n, g' (level + 1, 512 * Q + i) = .empty) := by
        intro n
        induction n with
        | zero =>
            intro _
            refine ⟨g, h, ⟨fun _ _ _ _ => rfl, fun _ => rfl, fun {x q} hq _ => by omega⟩, ?_⟩
            exact ⟨fun _ i hi => by omega, fun _ => rfl⟩
        | succ n ihn =>
            intro hn
            obtain ⟨gn, hinv, hsw, hall⟩ := ihn (by omega)
            rw [foldl_range_succ]
            generalize (List.range n).foldl
                (Efishell.rollbackEntry (Efishell.rollbackTree oldNext level)
              (level + 1) t (Q * ptSpan (level + 1 + 1)) oldNext) (true, s) = acc at hinv hsw hall ⊢
            obtain ⟨b, sn⟩ := acc
            have htn : gn (level + 1 + 1, Q) = .table t := by
              rw [hsw.rest fun q _ hu => by have := hu.2.1; simp only at this; omega]
              exact ht
            have hhn := hsw.hugeApart hhuge
            obtain ⟨g', h', hsw', hall'⟩ :=
              hinv.rollbackEntry b (Efishell.rollbackTree oldNext level)
              (fun {q p} h2 hp => ih hinv (by omega) (by omega) hhn hp) hl hl' hal hhn htn
              (show n < 512 by omega)
            refine ⟨g', h', ?_, ?_⟩
            · refine Swept.mono (hsw.trans hsw' h.rep.ok fun q hq e => by omega) fun q => ?_
              omega
            · have hold : ∀ i < n, g' (level + 1, 512 * Q + i) = gn (level + 1, 512 * Q + i) := by
                intro i hi
                refine hsw'.rest fun q hq hu => ?_
                have := hu.unique (Under.self (Nat.succ_pos level))
                omega
              rw [hall', hall]
              refine ⟨fun ⟨h₁, h₂⟩ i hi => ?_, fun hi => ⟨fun i hin => ?_, hi n (by omega)⟩⟩
              · rcases Nat.lt_or_ge i n with hin | hin
                · rw [hold i hin]
                  exact h₁ i hin
                · rwa [show i = n by omega]
              · rw [← hold i hin]
                exact hi i (by omega)
      obtain ⟨g', h', hsw, hall⟩ := hloop 512 (Nat.le_refl _)
      refine ⟨g', h', hsw.mono fun q => by omega, hall⟩

end PtInv

/-! ### Rolling back a space -/

/-- The window of the user is rolled back to `oldNext`. -/
structure RolledBack (oldNext : Nat) (g g' : PageMap) (s s' : Phys) : Prop where
  data : DataEq g' s s'
  rest : ∀ {x}, ¬ Under 4 userSlot x → g' x = g x
  rolled : ∀ {x}, Under 4 userSlot x → x.1 ≤ 3 → Rolled oldNext g g' x
  slot : g' (4, userSlot) = g (4, userSlot) ∧
      (g (4, userSlot) ≠ .empty → ∃ i < 512, g' (3, 512 * userSlot + i) ≠ .empty) ∨
    g' (4, userSlot) = .empty ∧ ∀ i < 512, g' (3, 512 * userSlot + i) = .empty

/-- What is left was there. -/
theorem RolledBack.stays {oldNext : Nat} {g g' : PageMap} {s s' : Phys}
    (h : RolledBack oldNext g g' s s') {x : Nat × Nat} (hx : g' x ≠ .empty) : g' x = g x := by
  by_cases hu : Under 4 userSlot x
  · rcases Nat.lt_or_ge 3 x.1 with e | e
    · have he := hu.eq_self (by have := hu.2.1; omega)
      rw [he] at hx ⊢
      exact h.slot.elim And.left fun e => absurd e.1 hx
    · exact (h.rolled hu e).sub.resolve_right hx
  · exact h.rest hu

namespace PtInv

variable {env : MmuEnv} {s₀ : Phys} {g : PageMap} {w : Vm}

/-- `x86_64_as_rollback` keeps the invariant of the tables, and clears what lies at or above
`oldNext`. -/
theorem asRollback (h : PtInv env s₀ w.as.root w.phys g) (hk : KernelOk env s₀) {oldNext : Nat}
    (oldPages : Nat) (hal : 4096 ∣ oldNext) (hhuge : HugeApart oldNext g) :
    ∃ g', PtInv env s₀ w.as.root (asRollback oldNext oldPages w).phys g' ∧
      RolledBack oldNext g g' w.phys (asRollback oldNext oldPages w).phys := by
  have hroot : g (4 + 1, userSlot / 512) = .table w.as.root := h.root_eq
  have hread : ptRead w.phys.mem w.as.root userSlot = (g (4, userSlot)).enc 4 :=
    h.rep.entry hroot fun _ => hk.window
  have hok := h.rep.ok (4, userSlot)
  rw [Efishell.asRollback, hread]
  dsimp only
  cases hg : g (4, userSlot) with
  | empty =>
      have hp : Pte.present (Ent.enc 4 .empty) = false := Nat.zero_testBit 0
      rw [hp, if_neg (by simp)]
      have hbelow : ∀ {x}, Under 4 userSlot x → x.1 ≤ 3 → g x = .empty := fun {x} hu hx =>
        h.rep.empty_under (by simp [hg]) (3 - x.1) hu (by omega) (by omega)
      refine ⟨g, h, fun _ _ _ _ => rfl, fun _ => rfl, fun hu hx => Rolled.empty (hbelow hu hx)
        (hbelow hu hx), Or.inl ⟨rfl, by simp [hg]⟩⟩
  | lazy rwx =>
      rw [hg] at hok
      exact absurd hok.2 (by simp)
  | page p rwx =>
      rw [hg] at hok
      exact absurd hok.2.2.2.1 (by simp)
  | table p =>
      rw [hg] at hok
      obtain ⟨e₁, -, -, -, -, e₆⟩ := Ent.enc_table 4 hok.2.1
      rw [e₁, e₆, if_pos rfl, show kUserBase = userSlot * ptSpan (3 + 1) from rfl]
      -- the tree is swept, and its root goes if nothing is left in it
      obtain ⟨g₁, h₁, hsw, hall⟩ := h.rollbackTree hal 3 (by omega) (by omega) hhuge hg
      have hself : g₁ (4, userSlot) = .table p := by
        rw [hsw.rest fun q' _ hu => by have := hu.2.1; simp only at this; omega]
        exact hg
      have hrest : ∀ {x}, ¬ Under 4 userSlot x → g₁ x = g x := by
        intro x hx
        refine hsw.rest fun q hq hu => hx ?_
        rw [show q = 512 * (q / 512) + q % 512 by omega, hq] at hu
        exact hu.down (by omega)
      have hrolled : ∀ {x}, Under 4 userSlot x → x.1 ≤ 3 → Rolled oldNext g g₁ x := by
        intro x hu hx
        obtain ⟨h₁, h₂⟩ := hu.up hx
        exact hsw.rolled h₂ h₁
      split
      · rename_i s₁ he
        rw [he] at h₁ hsw hall
        have hkids := hall.mp rfl
        have hb : g₁.base (4, userSlot) = p := congrArg Ent.base hself
        have hclear :=
          h₁.clear (l := 4) (q := userSlot) (by rw [hb]; exact hok.1) h₁.root_eq (by omega)
          (by omega) (fun _ => hk.window) fun i hi _ => hkids i hi
        rw [hb, pages_table hself] at hclear
        have hne : ∀ {x : Nat × Nat}, x.1 ≤ 3 → x ≠ (4, userSlot) := by
          rintro x hx rfl
          omega
        refine ⟨_, hclear, DataEq.clear (DataEq.trans hsw.data (h₁.write_data h₁.root_eq
          (show userSlot < 512 by decide) (pmmFreePage p s₁.pmm))), fun {x} hx => ?_,
            fun {x} hu hx => ?_, Or.inr
          ⟨Function.update_self _ _ _, fun i hi => ?_⟩⟩
        · rw [Function.update_of_ne]
          · exact hrest hx
          · rintro rfl
            exact hx (Under.self (by omega))
        · refine (hrolled hu hx).congr rfl (Function.update_of_ne (hne hx) _ _)
            (fun _ i _ => ?_) (h.rep.ok x)
          exact Function.update_of_ne (hne (by simp only; omega)) _ _
        · rw [Function.update_of_ne (hne (by simp))]
          exact hkids i hi
      · rename_i s₁ he
        rw [he] at h₁ hsw hall
        refine ⟨g₁, h₁, hsw.data, hrest, hrolled, Or.inl ⟨hself.trans hg.symm, fun _ => ?_⟩⟩
        by_contra hno
        refine absurd (hall.mpr fun i hi => ?_) (by simp)
        by_contra hne
        exact hno ⟨i, hi, hne⟩

/-- What `x86_64_as_destroy` frees is what the space held: afterwards the same pages are free as
when the space was created. -/
theorem asDestroy (h : PtInv env s₀ w.as.root w.phys g) (hh : ∀ q, g (0, q) = .empty)
    (howned : ∀ slot, g (4, slot) ≠ .empty → slot < 256 ∧ w.as.owned slot = true)
    (hks : ∀ slot < 256, w.as.owned slot = true → kernelSlot env s₀ slot = false) {running : Bool}
    (hok : (asDestroy running w).1 = .ok ()) (p : Nat) :
    (asDestroy running w).2.phys.pmm.free p = s₀.pmm.free p := by
  -- the loop, slot by slot
  have hloop : ∀ n ≤ 256, ∃ g', Freed (fun q => q < n) 4 s₀.pmm.free g
      ((List.range n).foldl (destroySlot w.phys.mem w.as) w.phys.pmm) g' := by
    intro n
    induction n with
    | zero =>
        intro _
        exact ⟨g, h.ledger, fun {x q} hq _ => by omega, fun _ => rfl⟩
    | succ n ih =>
        intro hn
        obtain ⟨gn, hfr⟩ := ih (by omega)
        rw [foldl_range_succ]
        generalize (List.range n).foldl (destroySlot w.phys.mem w.as) w.phys.pmm = mn at hfr ⊢
        have hfresh : ∀ {x}, Under 4 n x → gn x = g x := fun hx =>
          hfr.rest fun q hq hx' => by have := hx.unique hx'; omega
        have hself : gn (4, n) = g (4, n) := hfresh (Under.self (by omega))
        have hstep : ∀ {m' g'}, Freed (fun q => q = n) 4 s₀.pmm.free gn m' g' →
            ∃ g', Freed (fun q => q < n + 1) 4 s₀.pmm.free g m' g' :=
          fun h' => ⟨_, (hfr.trans h' fun q hq e => by omega).mono fun q => by omega⟩
        have hempty : g (4, n) = .empty → ∃ g', Freed (fun q => q < n + 1) 4 s₀.pmm.free g mn g' :=
          fun he => hstep (Freed.leafEntry h.rep (by omega) (by omega) (by simp [he]) hfresh
            (hfr.ledger.forget (congrArg Ent.base (hself.trans he))))
        rw [destroySlot]
        by_cases ho : w.as.owned n = true
        · have hread : ptRead w.phys.mem w.as.root n = (g (4, n)).enc 4 := by
            have := h.rep.entry (l := 4) (q := n) (t := w.as.root)
              (by rw [show n / 512 = 0 by omega]; exact h.root_eq) fun _ => hks n (by omega) ho
            rwa [show n % 512 = n by omega] at this
          have hokn := h.rep.ok (4, n)
          rw [hread, ho, Bool.true_and]
          cases hg : g (4, n) with
          | empty =>
              rw [show Pte.present (Ent.enc 4 .empty) = false from Nat.zero_testBit 0,
                if_neg (by simp)]
              exact hempty hg
          | lazy rwx =>
              rw [hg] at hokn
              exact absurd hokn.2 (by simp)
          | page p rwx =>
              rw [hg] at hokn
              exact absurd hokn.2.2.2.1 (by simp)
          | table p =>
              rw [hg] at hokn
              obtain ⟨e₁, -, -, -, -, e₆⟩ := Ent.enc_table 4 hokn.2.1
              rw [e₁, e₆, if_pos rfl]
              obtain ⟨g', hsub⟩ := freeUserTree_freed h.rep 3 (by omega) hg hfr.ledger
                fun {x} _ hx => hfresh hx
              exact hstep (hsub.tableEntry (hself.trans hg) hokn.1)
        · rw [if_neg (by simp [ho])]
          refine hempty ?_
          by_contra hne
          exact ho (howned n hne).2
  obtain ⟨g', hfr⟩ := hloop 256 (Nat.le_refl _)
  have hroot : g' (5, 0) = .table w.as.root := by
    rw [hfr.rest fun q _ hx => by have := hx.2.1; simp only at this; omega]
    exact h.root_eq
  have hb : g'.base (5, 0) = w.as.root := congrArg Ent.base hroot
  have hcl := hfr.ledger.clearEntry (x := (5, 0)) (by rw [hb]; exact h.root_ne_zero)
  rw [hb, pages_table hroot] at hcl
  have hnone : ∀ x, PageMap.base (Function.update g' (5, 0) .empty) x = 0 := by
    intro x
    have he : Function.update g' (5, 0) .empty x = .empty := by
      rcases eq_or_ne x (5, 0) with rfl | hne
      · exact Function.update_self _ _ _
      · rw [Function.update_of_ne hne]
        obtain ⟨l, q⟩ := x
        rcases Nat.eq_zero_or_pos l with rfl | hl
        · rw [hfr.rest fun q' _ hx => by have := hx.1; simp only at this; omega]
          exact hh q
        · rcases Nat.lt_or_ge 4 l with hl' | hl'
          · rw [hfr.rest fun q' _ hx => by have := hx.2.1; simp only at this; omega]
            exact h.rep.top _ hl' hne
          · have hu : Under 4 (q / 512 ^ (4 - l)) (l, q) := ⟨hl, hl', rfl⟩
            by_cases hs : q / 512 ^ (4 - l) < 256
            · exact hfr.gone hs hu
            · have h4 : g (4, q / 512 ^ (4 - l)) = .empty := by
                by_contra hne4
                exact hs (howned _ hne4).1
              rw [hfr.rest fun q' hq' hx' => hs (by rwa [hu.unique hx'])]
              rcases Nat.eq_or_lt_of_le hl' with rfl | hlt
              · rwa [Nat.sub_self, Nat.pow_zero, Nat.div_one] at h4
              · exact h.rep.empty_under (by simp [h4]) (3 - l) hu (by simp only; omega) (by omega)
    exact congrArg Ent.base he
  have hzero : Ledger s₀.pmm.free _ (fun _ : Nat × Nat => 0) _ :=
    hcl.congr (fun x => (hnone x).symm) fun _ _ => rfl
  rw [Efishell.asDestroy] at hok ⊢
  split at hok
  · cases hok
  · split at hok
    · cases hok
    · split at hok
      · cases hok
      · rename_i h₁ h₂ h₃
        rw [if_neg h₁, if_neg h₂, if_neg h₃]
        exact congrFun hzero.settled p

end PtInv

end Efishell
