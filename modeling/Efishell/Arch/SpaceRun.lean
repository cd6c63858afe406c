import Efishell.Arch.Space

/-!
# Paging — the life of an address space

A space is created by `x86_64_as_create`, lives through any calls of `k_as_alloc`, `k_as_alloc_ex`,
`arch_as_map_at`, `x86_64_demand_fault` and `as_copy`, whether they succeed or fail, and through
rollbacks to where it was at an earlier point (`Run`), and ends with `x86_64_as_destroy`.

`space_isolation` is what holds between the user and the kernel at every point of such a life, and
`space_lifetime` says that no page is lost and none is given away twice.
-/

namespace Efishell

/-! ### Runs -/

/-- A call on an address space. -/
inductive VmCall where
  | alloc (bytes align rwx : Nat)
  | allocEx (bytes align rwx options : Nat)
  | mapAt (address bytes rwx : Nat)
  | demandFault (address error : Nat)
  | copy (u : Nat) (buf : Bytes) (n : Nat) (toUser loader : Bool)

/-- The space after the call. -/
def VmCall.run (env : MmuEnv) : VmCall → Vm → Vm
  | .alloc bytes align rwx, w => (asAlloc env bytes align rwx w).2
  | .allocEx bytes align rwx options, w => (asAllocEx env bytes align rwx options w).2
  | .mapAt address bytes rwx, w => (asMapAt env address bytes rwx w).2
  | .demandFault address error, w => (Efishell.demandFault address error w).2
  | .copy u buf n toUser loader, w => (asCopy u buf n toUser loader w).2.2

/-- `w'` comes from `w` by calls and by rollbacks.  `rief_load_locked` notes `next` and `pages` when
it starts and rolls back to them when it fails, whatever was done in between. -/
inductive Run (env : MmuEnv) : Vm → Vm → Prop where
  | refl {w : Vm} : Run env w w
  | call {w w' : Vm} (c : VmCall) : Run env w w' → Run env w (c.run env w')
  | rollback {w w' w'' : Vm} : Run env w w' → Run env w' w'' →
      Run env w (asRollback w'.as.next w'.as.pages w'')

/-! ### Creation -/

/-- The map of a new space. -/
def PageMap.bare (root : Nat) : PageMap := fun x => if x = (5, 0) then .table root else .empty

theorem PageMap.bare_root (root : Nat) : PageMap.bare root (5, 0) = .table root := if_pos rfl

theorem PageMap.bare_empty {root : Nat} {x : Nat × Nat} (hx : x ≠ (5, 0)) :
    PageMap.bare root x = .empty := if_neg hx

/-- A bare map has no table but the root. -/
theorem PageMap.bare_table {root t : Nat} {x : Nat × Nat} (hx : PageMap.bare root x = .table t) :
    x = (5, 0) ∧ t = root := by
  by_cases e : x = (5, 0)
  · rw [e, PageMap.bare_root] at hx
    exact ⟨e, (Ent.table.inj hx).symm⟩
  · rw [PageMap.bare_empty e] at hx
    cases hx

variable {env : MmuEnv} {s₀ : Phys} {w w₀ : Vm}

/-- A new space satisfies the invariant. -/
theorem asCreate_inv (hk : KernelOk env s₀) (hc : asCreate env s₀ = some w) :
    SpaceInv env s₀ w (PageMap.bare w.as.root) := by
  rw [asCreate] at hc
  rcases pmmAllocPage_cases s₀ with e | ⟨start, e, hrun⟩
  · rw [e, if_pos rfl] at hc
    cases hc
  obtain ⟨hz, hf⟩ := PtInv.frameOk hk.pmm Nat.one_pos hrun.2
  rw [e, if_neg hz] at hc
  cases hc
  have hks := hk.window
  have hfree : s₀.pmm.free start = true := hrun.2 0 Nat.one_pos
  have hpml4 : env.kernelPml4 / 4096 ≠ start := by
    intro e
    rw [← e, hk.root_held] at hfree
    cases hfree
  have hal := Nat.mul_div_cancel' hk.root_aligned
  -- outside the new root nothing changes
  have hout : ∀ a, a / 4096 ≠ start → wr64 (memCopy (s₀.claim start 1).mem (4096 * start)
      (s₀.claim start 1).mem env.kernelPml4 4096) (4096 * start + 8 * userSlot) 0 a = s₀.mem a := by
    intro a ha
    rw [show userSlot = 128 from rfl, wr64, wrBytes, if_neg (by omega), memCopy, if_neg (by omega)]
    show memZero s₀.mem _ _ a = s₀.mem a
    rw [memZero, if_neg (by omega)]
  -- the new root is a copy of the kernel's
  have hcopy : ∀ slot < 512, slot ≠ userSlot →
      ptRead (wr64 (memCopy (s₀.claim start 1).mem (4096 * start)
      (s₀.claim start 1).mem env.kernelPml4 4096) (4096 * start + 8 * userSlot) 0)
        (4096 * start) slot =
      ptRead s₀.mem env.kernelPml4 slot := by
    intro slot hs hne
    rw [ptRead, rd64_wr64_ne (by omega)]
    refine rd64_congr fun i hi => ?_
    rw [memCopy, if_pos (by omega)]
    show memZero s₀.mem _ _ _ = _
    rw [memZero, if_neg (by omega)]
    congr 1
    omega
  have hclear : ptRead (wr64 (memCopy (s₀.claim start 1).mem (4096 * start)
      (s₀.claim start 1).mem env.kernelPml4 4096) (4096 * start + 8 * userSlot) 0)
        (4096 * start) userSlot =
      0 := rd64_wr64 (Nat.two_pow_pos 64)
  refine
    { tables := ⟨⟨fun x => ?_, fun {l q t} ht hq => ?_, fun {l q} _ hl _ => ?_, fun q _ => ?_,
      fun x _ hx => ?_⟩,
        ?_, fun a ha => ?_, PageMap.bare_root _, fun slot hs hslot => ?_⟩
      hand := fun q => PageMap.bare_empty (by simp)
      used := rfl
      owned := fun slot hs => absurd (PageMap.bare_empty (by simp)) hs
      not_kernel := fun slot _ hs => ?_
      next_aligned := show 4096 ∣ kUserBase + 0x200000 by decide
      next_ge := Nat.le_refl _
      next_le := show kUserBase + 0x200000 ≤ kUserLimit by decide
      pages_le := Nat.zero_le _
      window := rfl
      huge := fun q p rwx hx => ?_ }
  · by_cases e : x = (5, 0)
    · rw [e, PageMap.bare_root]
      exact ⟨hz, hf, by decide⟩
    · rw [PageMap.bare_empty e]
      trivial
  · obtain ⟨e, rfl⟩ := PageMap.bare_table ht
    obtain ⟨e₁, e₂⟩ := Prod.mk.inj e
    obtain rfl : l = 4 := by omega
    rw [PageMap.bare_empty (by simp), show q % 512 = q by omega]
    by_cases hu : q = userSlot
    · rw [hu]
      exact hclear
    · exact (hcopy q (by omega) hu).trans (hk.vacant q (by omega) (hq rfl))
  · exact PageMap.bare_empty (by simp; omega)
  · exact PageMap.bare_empty (by simp)
  · exact PageMap.bare_empty hx
  · have hstart : Ledger s₀.pmm.free s₀.pmm (fun _ : Nat × Nat => 0) fun _ => 1 :=
      Ledger.start hk.pmm
    refine (hstart.claim (x := (5, 0)) rfl Nat.one_pos hrun (by omega)).congr (fun x => ?_)
      fun x hx => ?_
    · by_cases e : x = (5, 0)
      · rw [e, Function.update_self]
        exact congrArg Ent.base (PageMap.bare_root _)
      · rw [Function.update_of_ne e]
        exact congrArg Ent.base (PageMap.bare_empty e)
    · by_cases e : x = (5, 0)
      · rw [e, Function.update_self]
        exact PtInv.pages_table (PageMap.bare_root _)
      · rw [Function.update_of_ne e] at hx
        exact absurd rfl hx
  · refine hout a fun e => ?_
    rw [e, hfree] at ha
    cases ha
  · refine hcopy slot hs ?_
    rintro rfl
    rw [hks] at hslot
    cases hslot
  · rw [beq_iff_eq.mp hs]
    exact hks
  · rw [PageMap.bare_empty (by simp)] at hx
    cases hx

/-! ### Steps -/

/-- Every large page lies before `n` or from there on, and `n` is no further than `next`. -/
def Behind (n : Nat) (w : Vm) (g : PageMap) : Prop := n ≤ w.as.next ∧ HugeApart n g

/-- The large pages of a space lie behind its next address. -/
theorem SpaceInv.behind {g : PageMap} (h : SpaceInv env s₀ w g) : Behind w.as.next w g :=
  ⟨Nat.le_refl _, h.hugeApart⟩

namespace Behind

variable {n : Nat} {g g' : PageMap} {w' : Vm}

/-- Large pages are added ahead only. -/
theorem of_page (h : Behind n w g) (hn : w.as.next ≤ w'.as.next)
    (hp : ∀ q p rwx, g' (2, q) = .page p rwx → g (2, q) = .page p rwx ∨ w.as.next ≤ q * ptSpan 2) :
    Behind n w' g' := by
  refine ⟨h.1.trans hn, fun q p rwx hx => ?_⟩
  rcases hp q p rwx hx with e | e
  · exact h.2 q p rwx e
  · exact Or.inl (h.1.trans e)

/-- Tables added do not matter. -/
theorem grows {S : Nat → Prop} {s s' : Phys} (h : Behind n w g) (hn : w'.as.next = w.as.next)
    (hg : Grows S g g' s s') : Behind n w' g' :=
  h.of_page hn.ge fun _ _ _ hx => Or.inl (hg.page hx)

/-- Pages filled at the next address. -/
theorem filled {S : Nat → Prop} {s s' : Phys} {level q₀ k : Nat} {K : Phys → Ent → Prop}
    (h : Behind n w g) (hn : w.as.next ≤ w'.as.next) (hf : Filled S level q₀ k K g g' s s')
    (hq : level = 2 → w.as.next ≤ q₀ * ptSpan 2) : Behind n w' g' := by
  refine h.of_page hn fun q p rwx hx => ?_
  by_cases hin : level = 2 ∧ q₀ ≤ q ∧ q < q₀ + k
  · exact Or.inr ((hq hin.1).trans (Nat.mul_le_mul_right _ hin.2.1))
  · rcases hf.rest (2, q) (by simp only; omega) with e | ⟨-, ⟨p', e⟩, -⟩
    · exact Or.inl (e ▸ hx)
    · rw [hx] at e
      cases e

/-- A region handed out. -/
theorem handed {level v k : Nat} {K : Phys → Ent → Prop} (h : Behind n w g)
    (hh : SpaceInv.Handed w w' level v k K g g') : Behind n w' g' := by
  refine h.filled ?_ hh.filled fun hl => ?_
  · rw [hh.next]
    exact hh.ge.trans (by omega)
  · subst hl
    rw [Nat.div_mul_cancel hh.aligned]
    exact hh.ge

end Behind

/-- Every call keeps the invariant, and what was behind stays behind. -/
theorem VmCall.run_inv {g : PageMap} (hk : KernelOk env s₀) (h : SpaceInv env s₀ w g) (c : VmCall) :
    ∃ g', SpaceInv env s₀ (c.run env w) g' ∧ ∀ n, Behind n w g → Behind n (c.run env w) g' := by
  have halloc : ∀ bytes align rwx, ∃ g', SpaceInv env s₀ (asAlloc env bytes align rwx w).2 g' ∧
      ∀ n, Behind n w g → Behind n (asAlloc env bytes align rwx w).2 g' := by
    intro bytes align rwx
    rcases h.asAlloc hk bytes align rwx with ⟨-, g', -, has, hinv, hg⟩ | ⟨v, g', -, hinv, hh, -⟩
    · exact ⟨g', hinv, fun n hn => hn.grows (by rw [has]) hg⟩
    · exact ⟨g', hinv, fun n hn => hn.handed hh⟩
  have hoption :
      ∀ bytes align rwx o, ∃ g', SpaceInv env s₀ (asAllocOption env bytes align rwx o w).2 g' ∧
      ∀ n, Behind n w g → Behind n (asAllocOption env bytes align rwx o w).2 g' := by
    intro bytes align rwx o
    rcases h.asAllocOption hk bytes align rwx o with ⟨-, g', -, has, hinv, hg⟩
      | ⟨v, n, g', -, hinv, hh, -⟩
    · exact ⟨g', hinv, fun n hn => hn.grows (by rw [has]) hg⟩
    · exact ⟨g', hinv, fun n hn => hn.handed hh⟩
  -- a copy changes the map by faults alone
  have hfault : ∀ {w' g' s}, w'.as = w.as → PtInv env s₀ w.as.root w'.phys g' →
      Faulted g g' w.phys s →
      ∃ g', SpaceInv env s₀ w' g' ∧ ∀ n, Behind n w g → Behind n w' g' := by
    intro w' g' s has ht hf
    refine ⟨g', h.fault has ht fun x hx => hf.high hx, fun n hn => hn.of_page (by rw [has]) ?_⟩
    intro q p rwx hx
    rw [hf.high (by simp)] at hx
    exact Or.inl hx
  cases c with
  | alloc bytes align rwx => exact halloc bytes align rwx
  | allocEx bytes align rwx options =>
      rw [VmCall.run, asAllocEx]
      split
      · exact halloc bytes align rwx
      · split
        · exact hoption bytes align rwx .lazy
        · split
          · exact hoption bytes align rwx .huge
          · exact ⟨g, h, fun _ => id⟩
  | mapAt address bytes rwx =>
      rcases h.asMapAt hk address bytes rwx with ⟨-, g', -, hn, hinv, hg⟩ | ⟨k, g', -, hn, hinv, hf⟩
      · exact ⟨g', hinv, fun n h => h.grows hn hg⟩
      · exact ⟨g', hinv, fun n h => h.filled hn.ge hf (by omega)⟩
  | demandFault address error =>
      rcases h.tables.demandFault hk address error with ⟨e, he⟩ | ⟨g', rwx, -, has, ht, hf, -⟩
      · rw [VmCall.run, he]
        exact ⟨g, h, fun _ => id⟩
      · exact hfault has ht hf
  | copy u buf n toUser loader =>
      cases toUser with
      | true =>
          obtain ⟨has, g', s₁, ht, hf, -⟩ := h.tables.asCopy_to hk u buf n loader
          exact hfault has ht hf
      | false =>
          obtain ⟨has, g', ht, hf, -⟩ := h.tables.asCopy_from hk u buf n loader
          exact hfault has ht hf

/-- The invariant holds along every run, and what is behind at the start stays behind. -/
theorem Run.inv (hk : KernelOk env s₀) {w w' : Vm} (hr : Run env w w') : ∀ {g : PageMap},
    SpaceInv env s₀ w g →
    ∃ g', SpaceInv env s₀ w' g' ∧ ∀ n, Behind n w g → Behind n w' g' := by
  induction hr with
  | refl =>
      intro g h
      exact ⟨g, h, fun _ => id⟩
  | call c _ ih =>
      intro g h
      obtain ⟨g₁, h₁, hb₁⟩ := ih h
      obtain ⟨g₂, h₂, hb₂⟩ := c.run_inv hk h₁
      exact ⟨g₂, h₂, fun n hn => hb₂ n (hb₁ n hn)⟩
  | rollback _ _ ih₁ ih₂ =>
      intro g h
      obtain ⟨g₁, h₁, hb₁⟩ := ih₁ h
      obtain ⟨g₂, h₂, hb₂⟩ := ih₂ h₁
      obtain ⟨hle, hapart⟩ := hb₂ _ h₁.behind
      obtain ⟨g₃, h₃, hroll⟩ := h₂.asRollback hk h₁.next_aligned h₁.next_ge hle h₁.pages_le hapart
      refine ⟨g₃, h₃, fun n hn => ⟨(hb₁ n hn).1, fun q p rwx hx => ?_⟩⟩
      exact (hb₂ n (hb₁ n hn)).2 q p rwx ((hroll.stays (by rw [hx]; simp)).symm.trans hx)

/-! ### What the tables show -/

/-- Whether the walk to `v` ends in a leaf that the user may access, present or to be made on
demand. -/
def userLeaf (mem : Bytes) (v : Nat) : (level : Nat) → (table : Nat) → Bool
  | 0, _ => false
  | level + 1, table =>
      let e := ptRead mem table (ptIndex v (level + 1))
      if !Pte.user e then false
      else if !Pte.present e then Pte.lazy e
      else if level = 0 ∨ ((level = 1 ∨ level = 2) ∧ Pte.large e) then true
      else userLeaf mem v level (Pte.phys e)

/-- The table that the walk to `v` reaches after `depth` steps from a table of `level`. -/
def tableAt (mem : Bytes) (v : Nat) : (depth level table : Nat) → Option Nat
  | 0, _, table => some table
  | _ + 1, 0, _ => none
  | depth + 1, level + 1, table =>
      let e := ptRead mem table (ptIndex v (level + 1))
      if !Pte.present e ∨ level = 0 ∨ ((level = 1 ∨ level = 2) ∧ Pte.large e) then none
      else tableAt mem v depth level (Pte.phys e)

/-- The walk does not look at the bits above 48. -/
theorem ptIndex_low (v : Nat) {level : Nat} (hl : level < 4) :
    ptIndex v (level + 1) = v % 2 ^ 48 / ptSpan (level + 1) % 512 := by
  rw [ptIndex]
  obtain rfl | rfl | rfl | rfl : level = 0 ∨ level = 1 ∨ level = 2 ∨ level = 3 := by omega
  · rw [show ptSpan (0 + 1) = 2 ^ 12 from rfl]
    omega
  · rw [show ptSpan (1 + 1) = 2 ^ 21 from rfl]
    omega
  · rw [show ptSpan (2 + 1) = 2 ^ 30 from rfl]
    omega
  · rw [show ptSpan (3 + 1) = 2 ^ 39 from rfl]
    omega

namespace SpaceInv

variable {g : PageMap}

/-- A translation for the user lies in the lower half and is one of the map. -/
theorem translate_user (h : SpaceInv env s₀ w g) (hk : KernelOk env s₀) {v : Nat} {t : Translation}
    (ht : vmmTranslate w.phys.mem w.as.root v = some t) (hu : t.user = true) :
    v < 2 ^ 47 ∧ ∃ r, g.view v = some r ∧ t = ⟨r.1, true, regionW r.2, !regionX r.2⟩ := by
  have hks := h.tables.not_kernelSlot hk ht hu
  have hv : v < 2 ^ 47 := by
    by_contra hge
    rw [vmmTranslate] at ht
    split at ht
    · cases ht
    · rename_i hc
      have hcan : canonical v = true := by
        simp only [not_or, Bool.not_eq_false] at hc
        exact hc.2
      simp only [canonical, Bool.or_eq_true, beq_iff_eq] at hcan
      -- the slots of the upper half are not the user's
      have hidx : 256 ≤ ptIndex v 4 := by
        rw [ptIndex, show ptSpan 4 = 2 ^ 39 from rfl]
        omega
      have hlt := ptIndex_lt v 4
      have hempty : g (4, ptIndex v 4) = .empty := by
        by_contra hne
        have := (h.owned _ hne).1
        omega
      have hread : ptRead w.phys.mem w.as.root (ptIndex v 4) = (g (4, ptIndex v 4)).enc 4 := by
        have := h.tables.rep.entry (l := 4) (q := ptIndex v 4) (t := w.as.root)
          (by rw [Nat.div_eq_of_lt hlt]; exact h.tables.root_eq) fun _ => hks
        rwa [Nat.mod_eq_of_lt hlt] at this
      rw [vmmWalk, hread, hempty] at ht
      have hp : Pte.present (Ent.enc 4 .empty) = false := Nat.zero_testBit 0
      simp [hp] at ht
  exact ⟨hv, (h.tables.translate_user hk hv ht hu).2⟩

/-- What was taken when the space was created is still taken. -/
theorem not_free (h : SpaceInv env s₀ w g) {p : Nat} (hp : s₀.pmm.free p = false) :
    w.phys.pmm.free p = false := by
  by_contra hne
  rw [(h.tables.ledger.account p).mpr (Or.inl (Bool.not_eq_false _ ▸ hne))] at hp
  cases hp

/-- A table of the space is not free. -/
theorem table_taken (h : SpaceInv env s₀ w g) {x : Nat × Nat} {t : Nat} (hx : g x = .table t) :
    w.phys.pmm.free (t / 4096) = false := by
  have hb := PtInv.base_table hx
  refine h.tables.not_free_of_held (x := x) ?_ ?_ ?_
  · rw [hb]
    exact h.tables.table_ne_zero hx
  · rw [hb]
  · rw [hb, PtInv.pages_table hx]
    omega

/-- No table below a kernel entry is free. -/
theorem tableAt_kernel (h : SpaceInv env s₀ w g) (v : Nat) (depth : Nat) : ∀ {level t t' : Nat},
    KernelTree s₀ (level + 1) t → tableAt w.phys.mem v depth (level + 1) t = some t' →
    w.phys.pmm.free (t' / 4096) = false := by
  induction depth with
  | zero =>
      intro level t t' ht e
      cases e
      exact h.not_free ht.1
  | succ depth ih =>
      intro level t t' ht e
      obtain ⟨hfree, hal, hsub⟩ := ht
      have hread :
          ptRead w.phys.mem t (ptIndex v (level + 1)) = ptRead s₀.mem t (ptIndex v (level + 1)) :=
        ptRead_congr hal (ptIndex_lt v (level + 1)) fun a ha =>
          h.tables.frame a (by rw [ha]; exact hfree)
      rw [tableAt, hread] at e
      split at e
      · cases e
      · rename_i hcond
        simp only [Bool.not_eq_true', not_or, Bool.not_eq_false] at hcond
        obtain ⟨k, rfl⟩ : ∃ k, level = k + 1 := ⟨level - 1, by omega⟩
        exact ih (hsub _ (ptIndex_lt v (k + 1 + 1)) hcond.1 hcond.2.2) e

/-- No table below a user entry is free. -/
theorem tableAt_user (h : SpaceInv env s₀ w g) {v : Nat}
    (hks : kernelSlot env s₀ (ptIndex v 4) = false) (depth : Nat) : ∀ {level t t' : Nat},
    level < 5 → g (level + 1, v % 2 ^ 48 / ptSpan (level + 1)) = .table t →
    tableAt w.phys.mem v depth level t = some t' → w.phys.pmm.free (t' / 4096) = false := by
  induction depth with
  | zero =>
      intro level t t' _ ht e
      cases e
      exact h.table_taken ht
  | succ depth ih =>
      intro level t t' hl ht e
      cases level with
      | zero => cases e
      | succ level =>
          have hidx := ptIndex_low v (show level < 4 by omega)
          have hread : ptRead w.phys.mem t (ptIndex v (level + 1)) =
              (g (level + 1, v % 2 ^ 48 / ptSpan (level + 1))).enc (level + 1) := by
            rw [hidx]
            rw [← region_div (by omega)] at ht
            refine h.tables.rep.entry ht fun e => ?_
            rw [e, ← hks, ptIndex_low v (show 3 < 4 by omega)]
            congr 1
            rw [show ptSpan (3 + 1) = 2 ^ 39 from rfl]
            omega
          have hok := h.tables.rep.ok (level + 1, v % 2 ^ 48 / ptSpan (level + 1))
          rw [tableAt, hread] at e
          split at e
          · cases e
          · rename_i hcond
            simp only [Bool.not_eq_true', not_or, Bool.not_eq_false] at hcond
            rcases (Ent.present_enc hok).mp hcond.1 with ⟨p, hp⟩ | ⟨p, rwx, hp⟩
            · rw [hp] at hok e
              rw [(Ent.enc_table _ hok.2.1).2.2.2.2.2] at e
              exact ih (by omega) hp e
            · rw [hp] at hok hcond
              have hle : level + 1 ≤ 2 := hok.2.2.2.1
              rw [(Ent.enc_page _ rwx hok.2.1).2.1] at hcond
              exact absurd ⟨Or.inl (by omega), by simp; omega⟩ hcond.2.2

/-- No table that a walk reaches is free. -/
theorem tableAt_taken (h : SpaceInv env s₀ w g) (hk : KernelOk env s₀) {v depth t : Nat}
    (ht : tableAt w.phys.mem v depth 4 w.as.root = some t) :
    w.phys.pmm.free (t / 4096) = false := by
  have hroot : g (4 + 1, v % 2 ^ 48 / ptSpan (4 + 1)) = .table w.as.root :=
    h.tables.root_of_lt (Nat.mod_lt _ (by omega))
  cases hks : kernelSlot env s₀ (ptIndex v 4) with
  | false => exact h.tableAt_user hks depth (by omega) hroot ht
  | true =>
      cases depth with
      | zero =>
          cases ht
          exact h.table_taken h.tables.root_eq
      | succ depth =>
          rw [tableAt, h.tables.kernel _ (ptIndex_lt v 4) hks] at ht
          split at ht
          · cases ht
          · exact h.tableAt_kernel v depth (hk.tree _ (ptIndex_lt v 4) hks) ht

end SpaceInv

/-! ### The guarantees -/

/-- **Isolation.**  At every point of the life of a space: nothing is at once the user's, writable
and executable; where the kernel has a slot of the root the user has no leaf, and every translation
there is the one of the new space. -/
theorem space_isolation (hk : KernelOk env s₀) (hc : asCreate env s₀ = some w₀) (hr : Run env w₀ w)
    (v : Nat) :
    (∀ t, vmmTranslate w.phys.mem w.as.root v = some t →
      ¬ (t.user = true ∧ t.rw = true ∧ t.nx = false)) ∧
      (Pte.present (ptRead w.phys.mem env.kernelPml4 (ptIndex v 4)) = true →
        userLeaf w.phys.mem v 4 w.as.root = false ∧
        vmmTranslate w.phys.mem w.as.root v = vmmTranslate w₀.phys.mem w₀.as.root v) := by
  have h₀ := asCreate_inv hk hc
  obtain ⟨g, h, -⟩ := hr.inv hk h₀
  refine ⟨fun t ht ⟨hu, hw, hx⟩ => ?_, fun hp => ?_⟩
  · obtain ⟨-, r, hview, rfl⟩ := h.translate_user hk ht hu
    obtain ⟨l, p, -, hg, -⟩ := PtInv.view_iff hview
    have hok := h.tables.rep.ok (l, v / ptSpan l)
    rw [hg] at hok
    have hrwx : rwxOk r.2 = true := hok.2.2.1
    simp only at hw hx
    rw [rwxOk, hw, show regionX r.2 = true by simpa using hx] at hrwx
    simp at hrwx
  · rw [h.tables.kernelPml4_read hk (ptIndex_lt v 4)] at hp
    have hs : kernelSlot env s₀ (ptIndex v 4) = true := hp
    constructor
    · rw [userLeaf, h.tables.kernel _ (ptIndex_lt v 4) hs]
      simp [hk.supervisor _ (ptIndex_lt v 4) hs]
    · rw [vmmTranslate, vmmTranslate, h.tables.vmmWalk_kernelSlot hk hs,
        h₀.tables.vmmWalk_kernelSlot hk hs]
      simp only [h.tables.root_ne_zero, h₀.tables.root_ne_zero, false_or]

/-! A machine with fourteen free pages, whose kernel has one slot with one large page. -/

/-- A root table at `0x100000` whose first entry leads to a table with one large page. -/
def bootMem : Bytes := fun a =>
  if a = 0x100000 then 3 else if a = 0x100001 then 0x10 else if a = 0x100002 then 0x10
  else if a = 0x101000 then 0x83 else 0

/-- The allocator over sixteen pages, with the two boot tables claimed. -/
def bootPhys : Phys where
  pmm :=
    (Phys.claim ⟨pmmSeedFromEfiMap [⟨efiConventionalMemory, 0x100000, 16⟩], fun _ => 0⟩ 256 2).pmm
  mem := bootMem

/-- The boot root, on a processor with the no-execute bit. -/
def bootEnv : MmuEnv := ⟨0x100000, true⟩

/-- The other entries of the boot tables are empty. -/
theorem bootMem_read {t i : Nat} (ht : t = 0x100000 ∨ t = 0x101000) (hi : 0 < i) (hi' : i < 512) :
    ptRead bootMem t i = 0 := by
  have hz : ptRead bootMem t i = rd64 (fun _ => 0) 0 := by
    refine rd64_congr fun j hj => ?_
    rw [bootMem, if_neg (by omega), if_neg (by omega), if_neg (by omega), if_neg (by omega)]
  rw [hz]
  rfl

/-- The kernel's tables are in that memory, whatever else is free. -/
theorem kernelOk_bootMem {s : Phys} (hpmm : PmmOk s.pmm) (hmem : s.mem = bootMem)
    (hheld : ∀ p, p = 256 ∨ p = 257 → s.pmm.free p = false) : KernelOk bootEnv s := by
  have hroot : ptRead s.mem bootEnv.kernelPml4 0 = 0x101003 := by
    rw [hmem]
    decide +kernel
  have hpdpt : ptRead s.mem 0x101000 0 = 0x83 := by
    rw [hmem]
    decide +kernel
  have hread : ∀ {t i : Nat}, t = 0x100000 ∨ t = 0x101000 → 0 < i → i < 512 →
      ptRead s.mem t i = 0 := by
    rw [hmem]
    exact bootMem_read
  have hslot : ∀ slot < 512, kernelSlot bootEnv s slot = true → slot = 0 := by
    intro slot hs h
    by_contra hne
    have hz : ptRead s.mem bootEnv.kernelPml4 slot = 0 := hread (Or.inl rfl) (by omega) hs
    rw [kernelSlot, hz] at h
    cases h
  refine ⟨hpmm, by decide, by
    decide, hheld _ (Or.inl rfl), fun slot hs h => ?_, fun slot hs h => ?_, ?_, fun slot hs h => ?_⟩
  · rw [hslot slot hs h, hroot]
    decide
  · refine hread (Or.inl rfl) (Nat.pos_of_ne_zero ?_) hs
    rintro rfl
    rw [kernelSlot, hroot] at h
    exact absurd h (by decide)
  · have hz : ptRead s.mem bootEnv.kernelPml4 userSlot = 0 :=
      hread (Or.inl rfl) (by decide) (by decide)
    rw [kernelSlot, hz]
    decide
  · rw [hslot slot hs h, hroot, show Pte.phys 0x101003 = 0x101000 by decide]
    refine ⟨hheld _ (Or.inr rfl), by decide, fun i hi hp hl => ?_⟩
    rcases Nat.eq_zero_or_pos i with rfl | hpos
    · rw [hpdpt] at hl
      exact absurd ⟨Or.inr rfl, by decide⟩ hl
    · rw [hread (Or.inr rfl) hpos hi] at hp
      exact absurd hp (by decide)

/-- The boot tables are a kernel's. -/
theorem kernelOk_boot : KernelOk bootEnv bootPhys :=
  kernelOk_bootMem ((pmmOk_seed _).claim 256 2) rfl (by rintro p (rfl | rfl) <;> decide +kernel)

/-- A page is mapped, and two that are made on demand. -/
def VmCall.filled (env : MmuEnv) (w : Vm) : Vm :=
  VmCall.run env (.allocEx 8192 4096 3 1) (VmCall.run env (.alloc 100 16 3) w)

/-- The calls are a run. -/
theorem Run.filled (env : MmuEnv) (w : Vm) : Run env w (VmCall.filled env w) :=
  .call _ (.call _ .refl)

theorem asCreate_boot : ∃ w₀, asCreate bootEnv bootPhys = some w₀ :=
  Option.isSome_iff_exists.mp (by decide +kernel)

/-- The pages of `VmCall.filled` are there, and the space can be destroyed. -/
theorem filled_boot : ((asCreate bootEnv bootPhys).map fun w₀ =>
    let w := VmCall.filled bootEnv w₀
    ((vmmTranslate w.phys.mem w.as.root 0x400000200000).map fun t => (t.user, t.rw, t.nx),
      userLeaf w.phys.mem 0x400000202000 4 w.as.root,
      (vmmTranslate w.phys.mem w.as.root 0x400000202000).isSome, (asDestroy false w).1.isOk)) =
    some (some (true, true, true), true, false, true) := by
  decide +kernel

theorem space_isolation_boot : ∃ w₀, asCreate bootEnv bootPhys = some w₀ ∧
    ((vmmTranslate (VmCall.filled bootEnv w₀).phys.mem
      (VmCall.filled bootEnv w₀).as.root 0x400000200000).map
      fun t => (t.user, t.rw, t.nx)) = some (true, true, true) ∧
    userLeaf (VmCall.filled bootEnv w₀).phys.mem 0x400000202000 4
      (VmCall.filled bootEnv w₀).as.root = true ∧
    (∀ v t, vmmTranslate (VmCall.filled bootEnv w₀).phys.mem (VmCall.filled bootEnv w₀).as.root v =
      some t → ¬ (t.user = true ∧ t.rw = true ∧ t.nx = false)) ∧
    userLeaf (VmCall.filled bootEnv w₀).phys.mem 0 4
      (VmCall.filled bootEnv w₀).as.root = false := by
  obtain ⟨w₀, hc⟩ := asCreate_boot
  have hr := Run.filled bootEnv w₀
  have hfilled := filled_boot
  rw [hc, Option.map_some, Option.some_inj] at hfilled
  simp only [Prod.mk.injEq] at hfilled
  refine ⟨w₀, hc, hfilled.1, hfilled.2.1, fun v => (space_isolation kernelOk_boot hc hr v).1,
    ((space_isolation kernelOk_boot hc hr 0).2 ?_).1⟩
  obtain ⟨g, h, -⟩ := hr.inv kernelOk_boot (asCreate_inv kernelOk_boot hc)
  rw [h.tables.kernelPml4_read kernelOk_boot (ptIndex_lt 0 4)]
  decide +kernel

/-- **No leak, no double use.**  When the space is destroyed the same pages are free as before it
was created; until then no page is mapped at two user pages, and no page that is mapped or is a
table on any walk is free. -/
theorem space_lifetime (hk : KernelOk env s₀) (hc : asCreate env s₀ = some w₀) (hr : Run env w₀ w) :
    (∀ running, (asDestroy running w).1 = .ok () →
        (asDestroy running w).2.phys.pmm.free = s₀.pmm.free) ∧
      (∀ v v' t t', vmmTranslate w.phys.mem w.as.root v = some t →
        vmmTranslate w.phys.mem w.as.root v' = some t' → t.user = true → t'.user = true →
        t.phys / 4096 = t'.phys / 4096 → v / 4096 = v' / 4096) ∧
      (∀ v t, vmmTranslate w.phys.mem w.as.root v = some t → t.user = true →
        w.phys.pmm.free (t.phys / 4096) = false) ∧
      ∀ v depth t, tableAt w.phys.mem v depth 4 w.as.root = some t →
        w.phys.pmm.free (t / 4096) = false := by
  obtain ⟨g, h, -⟩ := hr.inv hk (asCreate_inv hk hc)
  refine ⟨fun running hok => ?_, fun v v' t t' ht ht' hu hu' e => ?_, fun v t ht hu => ?_,
    fun v depth t ht => ?_⟩
  · funext p
    exact h.tables.asDestroy h.hand h.owned h.not_kernel hok p
  · obtain ⟨-, r, hr, rfl⟩ := h.translate_user hk ht hu
    obtain ⟨-, r', hr', rfl⟩ := h.translate_user hk ht' hu'
    exact h.tables.view_page_inj hr hr' e
  · obtain ⟨-, r, hr, rfl⟩ := h.translate_user hk ht hu
    exact h.tables.view_taken hr
  · exact h.tableAt_taken hk ht

/-- A mapped page, its tables and the lazy ones are given back. -/
theorem space_lifetime_boot : ∃ w₀, asCreate bootEnv bootPhys = some w₀ ∧
    ((vmmTranslate (VmCall.filled bootEnv w₀).phys.mem
      (VmCall.filled bootEnv w₀).as.root 0x400000200000).map
      fun t => (t.user, t.rw, t.nx)) = some (true, true, true) ∧
    (asDestroy false (VmCall.filled bootEnv w₀)).2.phys.pmm.free = bootPhys.pmm.free := by
  obtain ⟨w₀, hc⟩ := asCreate_boot
  have hfilled := filled_boot
  rw [hc, Option.map_some, Option.some_inj] at hfilled
  simp only [Prod.mk.injEq] at hfilled
  refine ⟨w₀, hc, hfilled.1, (space_lifetime kernelOk_boot hc (Run.filled bootEnv w₀)).1 false ?_⟩
  cases hd : (asDestroy false (VmCall.filled bootEnv w₀)).1 with
  | ok _ => rfl
  | error e =>
      have hok := hfilled.2.2.2
      rw [hd] at hok
      cases hok

end Efishell
