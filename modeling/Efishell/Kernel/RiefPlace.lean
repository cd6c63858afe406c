import Efishell.Arch.CopyExact
import Efishell.Kernel.RiefCheck

/-!
# Kernel — what the steps of a load do to a space

A load allocates, copies and probes.  Each of these steps is told here by what the user of the space
sees: the bytes (`userByte`) and the pages of the map.  `Kept S` says that a step changed the bytes
at the addresses in `S` at most and moved no page.

A rollback takes what the user sees from `oldNext` on away and leaves the rest (`RolledBack.byte`).

* `SpaceInv.allocated`, `SpaceInv.copied`: what an allocation and a copy did to the bytes.
* `RolledBack.byte`: a rollback takes the window from an address on away, and nothing else.
-/

namespace Efishell

variable {env : MmuEnv} {s₀ : Phys} {w w' w'' : Vm} {g g' g'' : PageMap} {S S' : Nat → Prop}

/-- The space is sound after the step, its pages stay, and so do the bytes outside `S` and what is
behind. -/
structure Kept (env : MmuEnv) (s₀ : Phys) (S : Nat → Prop) (w w' : Vm) (g g' : PageMap) : Prop where
  inv : SpaceInv env s₀ w' g'
  page : ∀ {x p rwx}, g x = .page p rwx → g' x = .page p rwx
  bytes : ∀ v, ¬ S v → userByte w' v = userByte w v
  behind : ∀ n, Behind n w g → Behind n w' g'

namespace Kept

theorem refl (h : SpaceInv env s₀ w g) (S : Nat → Prop) : Kept env s₀ S w w g g :=
  ⟨h, fun hx => hx, fun _ _ => rfl, fun _ hn => hn⟩

theorem trans (h : Kept env s₀ S w w' g g') (h' : Kept env s₀ S w' w'' g' g'') :
    Kept env s₀ S w w'' g g'' :=
  ⟨h'.inv, fun hx => h'.page (h.page hx), fun v hv => (h'.bytes v hv).trans (h.bytes v hv),
    fun n hn => h'.behind n (h.behind n hn)⟩

theorem mono (h : Kept env s₀ S w w' g g') (hS : ∀ v, S v → S' v) : Kept env s₀ S' w w' g g' :=
  ⟨h.inv, h.page, fun v hv => h.bytes v fun hs => hv (hS v hs), h.behind⟩

/-- What the user could translate outside `S` it still can, to the same place. -/
theorem translate (h : Kept env s₀ S w w' g g') (hi : SpaceInv env s₀ w g) (hk : KernelOk env s₀)
    {v : Nat} {t : Translation} (ht : vmmTranslate w.phys.mem w.as.root v = some t)
    (hu : t.user = true) : vmmTranslate w'.phys.mem w'.as.root v = some t := by
  obtain ⟨hv, r, hr, rfl⟩ := hi.translate_user hk ht hu
  have hks : kernelSlot env s₀ (v / ptSpan 4) = false := (hi.tables.translate_user hk hv ht hu).1
  rw [h.inv.tables.translate hv hks, h.inv.tables.view_mono h.page hr]
  rfl

end Kept

/-! ### Probes and copies -/

/-- A fault adds no large page. -/
theorem Behind.faulted {n : Nat} {s : Phys} (h : Behind n w g) (has : w'.as = w.as)
    (hf : Faulted g g' w.phys s) : Behind n w' g' := by
  refine h.of_page (by rw [has]) fun q p rwx hx => Or.inl ?_
  rw [← hf.high (by simp : (2, q).1 ≠ 1)]
  exact hx

/-- A check of pages that the user sees changes nothing. -/
theorem PtInv.checkPages_present {write : Bool} (h : PtInv env s₀ w.as.root w.phys g) (left : Nat) :
    ∀ {v : Nat},
    (∀ i < left, UserAt env s₀ g write (v + 4096 * i)) →
    Efishell.checkPages write left v w = (.ok (), w) := by
  induction left with
  | zero => exact fun _ => rfl
  | succ left ih =>
      intro v hu
      obtain ⟨hv, hks, r, hr, hw⟩ := hu 0 (Nat.succ_pos left)
      rw [Nat.mul_zero, Nat.add_zero] at hv hks hr
      have ht :
          vmmTranslate w.phys.mem w.as.root v = some ⟨r.1, true, regionW r.2, !regionX r.2⟩ := by
        rw [h.translate hv hks, hr]
        rfl
      have hwrite : (write && !regionW r.2) = false := by
        cases write with
        | false => rfl
        | true => rw [hw rfl]; rfl
      simp only [Efishell.checkPages, ht, Option.isSome_some, if_true, Bool.not_true,
        Bool.false_or, hwrite, Bool.false_eq_true, if_false]
      refine ih fun i hi => ?_
      have := hu (i + 1) (by omega)
      rwa [show v + 4096 * (i + 1) = v + 4096 + 4096 * i by omega] at this

namespace SpaceInv

/-- A probe keeps every byte of the space. -/
theorem probed (h : SpaceInv env s₀ w g) (hk : KernelOk env s₀) (a : Nat) :
    ∃ g', Kept env s₀ (fun _ => False) w (asCheck a 1 false w).2 g g' := by
  obtain ⟨has, g', ht, hf, -⟩ := h.tables.asCheck hk a 1 false
  rw [← has] at ht
  have h' : SpaceInv env s₀ (asCheck a 1 false w).2 g' :=
    h.fault has (has ▸ ht) fun x hx => hf.high hx
  refine ⟨g', h', hf.page, fun v _ => ?_, fun n hn => hn.faulted has hf⟩
  rw [h'.userByte_eq hk, h.userByte_eq hk, hf.byte ht]

theorem probes (h : SpaceInv env s₀ w g) (hk : KernelOk env s₀) (hp : Probes w w') :
    ∃ g', Kept env s₀ (fun _ => False) w w' g g' ∧ w'.as = w.as := by
  induction hp with
  | refl => exact ⟨g, .refl h _, rfl⟩
  | tail _ hstep ih =>
      obtain ⟨a, rfl⟩ := hstep
      obtain ⟨g₁, h₁, has⟩ := ih
      obtain ⟨g₂, h₂⟩ := h₁.inv.probed hk a
      exact ⟨g₂, h₁.trans h₂, (h₁.inv.tables.asCheck hk a 1 false).1.trans has⟩

/-- A copy into the space, whether it succeeds or not. -/
theorem copied (h : SpaceInv env s₀ w g) (hk : KernelOk env s₀) (u : Nat) (buf : Bytes) (n : Nat)
    (loader : Bool) :
    (asCopy u buf n true loader w).2.2.as = w.as ∧
    ∃ g', Kept env s₀ (fun v => u ≤ v ∧ v < u + n) w (asCopy u buf n true loader w).2.2 g g' ∧
      ((asCopy u buf n true loader w).1 = .ok () → ∀ i < n,
        userByte (asCopy u buf n true loader w).2.2 (u + i) = some (buf i)) := by
  obtain ⟨r, buf', w', he⟩ : ∃ r buf' w', asCopy u buf n true loader w = (r, buf', w') :=
    ⟨_, _, _, rfl⟩
  have hx := h.copyExact hk u buf n true loader he
  obtain ⟨has, g', s₁, ht, hf, -, -, -⟩ := h.tables.asCopy_to hk u buf n loader
  rw [he] at has ht ⊢
  dsimp only at has ht ⊢
  have h' : SpaceInv env s₀ w' g' := h.fault has ht fun x hx => hf.high hx
  refine ⟨has, g', ⟨h', hf.page, fun v hv => ?_, fun n hn => hn.faulted has hf⟩, fun hok i hi => ?_⟩
  · cases hr : r with
    | ok _ =>
        rw [(hx.written hr rfl).2.1, if_neg hv]
    | error e => exact (hx.failed e hr).1 v
  · rw [(hx.written hok rfl).2.1, if_pos (by omega), Nat.add_sub_cancel_left]

/-- The user may read, and write if so, where a page is mapped with the permissions. -/
theorem userAt_page (h : SpaceInv env s₀ w g) {v q rwx : Nat} {write : Bool}
    (hv : kUserBase ≤ v ∧ v < kUserLimit)
    (hg : g (1, v / ptSpan 1) = .page q rwx) (hw : write = true → regionW rwx = true) :
    UserAt env s₀ g write v := by
  refine ⟨?_, ?_, (q + v % ptSpan 1, rwx), by rw [PageMap.view, hg], hw⟩
  · have hlim := hv.2
    simp only [kUserLimit] at hlim
    omega
  · rw [slot_of_window hv.1 hv.2]
    exact h.not_kernel userSlot (by decide) h.window

/-- A copy to where the user may write, or the loader, succeeds. -/
theorem copy_ok (h : SpaceInv env s₀ w g) {u n : Nat} {loader : Bool}
    (hu : kUserBase ≤ u ∧ u + n ≤ kUserLimit)
    (hat : ∀ v, u / 4096 * 4096 ≤ v → v < u + n → UserAt env s₀ g (!loader) v) (buf : Bytes) :
    (asCopy u buf n true loader w).1 = .ok () := by
  have hlow := hu.1
  have hhigh := hu.2
  simp only [kUserBase, kUserLimit] at hlow hhigh
  have hcheck : asCheck u n (true && !loader) w = (.ok (), w) := by
    rw [asCheck, if_neg (by simp [h.used, kUserCanonLimit]; omega)]
    split
    · rfl
    · exact h.tables.checkPages_present _ fun j hj => hat _ (by omega) (by omega)
  obtain ⟨s', he, -⟩ := h.tables.copyLoop_to buf n u 0 n (Nat.le_refl n) fun v h₁ h₂ => by
    obtain ⟨hv, hks, r, hr, -⟩ := hat v (by omega) h₂
    exact ⟨hv, hks, r, hr, fun hno => by cases hno⟩
  rw [asCopy, hcheck]
  dsimp only
  rw [he]

end SpaceInv

/-! ### Allocation -/

/-- Where tables or nothing were added the user sees the same. -/
theorem PageMap.byte_same {s s' : Phys} {v : Nat} (hd : DataEq g s s')
    (h₁ : g' (1, v / ptSpan 1) = g (1, v / ptSpan 1))
    (h₂ : g' (2, v / ptSpan 2) = g (2, v / ptSpan 2) ∨
      g (2, v / ptSpan 2) = .empty ∧ ∃ p, g' (2, v / ptSpan 2) = .table p) :
    g'.byte s'.mem v = g.byte s.mem v := by
  have hview : g'.view v = g.view v := by
    rw [PageMap.view, PageMap.view, h₁]
    rcases h₂ with e | ⟨e, p, e'⟩
    · rw [e]
    · rw [e, e']
  rw [PageMap.byte, PageMap.byte, hview, h₁]
  cases hr : g.view v with
  | none => rfl
  | some r =>
      dsimp only
      rw [DataEq.view hd hr]

/-- The bytes beside a filled region stay. -/
theorem Filled.byte_outside {q₀ n : Nat} {K : Phys → Ent → Prop} {s s' : Phys}
    (hf : Filled S 1 q₀ n K g g' s s') {v : Nat}
    (hv : ¬ (q₀ ≤ v / ptSpan 1 ∧ v / ptSpan 1 < q₀ + n)) :
    g'.byte s'.mem v = g.byte s.mem v := by
  refine PageMap.byte_same hf.data ?_ ?_
  · rcases hf.rest (1, v / ptSpan 1) (by simpa using hv) with e | ⟨-, -, hl, -⟩
    · exact e
    · exact absurd hl (by simp)
  · exact (hf.rest (2, v / ptSpan 2) (by simp)).imp_right fun e => ⟨e.1, e.2.1⟩

theorem Filled.byte_inside {q₀ n rwx : Nat} {s s' : Phys}
    (hf : Filled S 1 q₀ n (ZeroPage 1 rwx) g g' s s')
    {v : Nat} (h₁ : q₀ ≤ v / ptSpan 1) (h₂ : v / ptSpan 1 < q₀ + n) :
    g'.byte s'.mem v = some 0 := by
  obtain ⟨-, p, hp, hz⟩ := hf.made _ h₁ h₂
  have hm := Nat.mod_lt v (ptSpan_pos 1)
  have hzero : s'.mem (p + v % ptSpan 1) = 0 := by
    refine hz _ (by omega) ?_
    rw [hp, show 4096 * Ent.pages 1 (.page p rwx) = ptSpan 1 from rfl]
    omega
  rw [PageMap.byte, PageMap.view, hp]
  simp only [hzero]

/-- The pages of a range that starts at a page. -/
theorem page_range {v n x : Nat} (hv : 4096 ∣ v) :
    v / ptSpan 1 ≤ x / ptSpan 1 ∧ x / ptSpan 1 < v / ptSpan 1 + n ↔ v ≤ x ∧ x < v + 4096 * n := by
  rw [show ptSpan 1 = 4096 from rfl]
  omega

/-- What an allocation did: it failed, or the range from `v` on is new, zero, and has the
permissions. -/
theorem SpaceInv.allocated (h : SpaceInv env s₀ w g) (hk : KernelOk env s₀)
    (bytes align rwx : Nat) : (∃ e g', (Efishell.asAlloc env bytes align rwx w).1 = .error e ∧
        (Efishell.asAlloc env bytes align rwx w).2.as = w.as ∧
        Kept env s₀ (fun _ => False) w (Efishell.asAlloc env bytes align rwx w).2 g g') ∨
      ∃ v g', (Efishell.asAlloc env bytes align rwx w).1 = .ok v ∧
        Kept env s₀ (fun x => v ≤ x ∧ x < v + 4096 * ((bytes + 4095) / 4096)) w
          (Efishell.asAlloc env bytes align rwx w).2 g g' ∧
        align ∣ v ∧ 4096 ∣ v ∧ w.as.next ≤ v ∧
        (Efishell.asAlloc env bytes align rwx
          w).2.as.next = v + 4096 * ((bytes + 4095) / 4096) + 4096 ∧
        ∀ x, v ≤ x → x < v + 4096 * ((bytes + 4095) / 4096) →
          userByte (Efishell.asAlloc env bytes align rwx w).2 x = some 0 ∧
          ∃ p, g' (1, x / ptSpan 1) = .page p rwx := by
  rcases h.asAlloc hk bytes align rwx with ⟨e, g', he, has, h', hg⟩
    | ⟨v, g', hok, h', hh, hal, -, -⟩
  · refine Or.inl ⟨e, g', he, has, h', fun hx => ?_, fun v _ => ?_, fun n hn =>
      hn.grows (by rw [has]) hg⟩
    · exact (hg.stays (by rw [hx]; simp)).trans hx
    · rw [h'.userByte_eq hk, h.userByte_eq hk]
      exact PageMap.byte_same hg.data (hg.low (by simp))
        ((hg.entries (2, v / ptSpan 2)).imp_right fun e => ⟨e.1, e.2.1⟩)
  · have hv : 4096 ∣ v := hh.aligned
    refine Or.inr
      ⟨v, g', hok, ⟨h', fun hx => ?_, fun x hx => ?_, fun n hn => hn.handed hh⟩, hal, hv,
      hh.ge, hh.next, fun x h₁ h₂ => ⟨?_, ?_⟩⟩
    · exact (hh.filled.stays (by rw [hx]; simp)).trans hx
    · rw [h'.userByte_eq hk, h.userByte_eq hk]
      exact hh.filled.byte_outside fun hin => hx ((page_range hv).mp hin)
    · obtain ⟨h₃, h₄⟩ := (page_range hv).mpr ⟨h₁, h₂⟩
      rw [h'.userByte_eq hk]
      exact hh.filled.byte_inside h₃ h₄
    · obtain ⟨h₃, h₄⟩ := (page_range hv).mpr ⟨h₁, h₂⟩
      obtain ⟨-, p, hp, -⟩ := hh.filled.made _ h₃ h₄
      exact ⟨p, hp⟩

/-! ### Rollback -/

namespace RolledBack

variable {oldNext : Nat} {s s' : Phys}

/-- A leaf of the window is taken away when it starts from `oldNext` on. -/
theorem leaf (h : RolledBack oldNext g g' s s') {l v : Nat} (hl : l = 1 ∨ l = 2)
    (hx : (g (l, v / ptSpan l)).Leaf) (hstart : oldNext ≤ v / ptSpan l * ptSpan l ↔ oldNext ≤ v) :
    g' (l, v / ptSpan l) =
      if oldNext ≤ v ∧ v / ptSpan 4 = userSlot then .empty else g (l, v / ptSpan l) := by
  have hu : Under 4 userSlot (l, v / ptSpan l) ↔ v / ptSpan 4 = userSlot := by
    rw [Under]
    rcases hl with rfl | rfl
    · simp only [Nat.div_div_eq_div_mul, show ptSpan 1 * 512 ^ (4 - 1) = ptSpan 4 from rfl]
      simp
    · simp only [Nat.div_div_eq_div_mul, show ptSpan 2 * 512 ^ (4 - 2) = ptSpan 4 from rfl]
      simp
  by_cases hin : v / ptSpan 4 = userSlot
  · have hr := h.rolled (hu.mpr hin) (by rcases hl with rfl | rfl <;> simp)
    by_cases hfrom : oldNext ≤ v
    · rw [if_pos ⟨hfrom, hin⟩]
      exact (hr.leaf hx).mpr (hstart.mpr hfrom)
    · rw [if_neg fun e => hfrom e.1]
      exact hr.sub.resolve_right fun e => hfrom (hstart.mp ((hr.leaf hx).mp e))
  · rw [if_neg fun e => hin e.2]
    exact h.rest fun e => hin (hu.mp e)

/-- Where a page starts relative to `oldNext`. -/
theorem page_start (hal : 4096 ∣ oldNext) (hhuge : HugeApart oldNext g) {l v p rwx : Nat}
    (hl : l = 1 ∨ l = 2) (hx : g (l, v / ptSpan l) = .page p rwx) :
    oldNext ≤ v / ptSpan l * ptSpan l ↔ oldNext ≤ v := by
  rcases hl with rfl | rfl
  · rw [show ptSpan 1 = 4096 from rfl]
    omega
  · have hm := Nat.mod_lt v (ptSpan_pos 2)
    have hd := Nat.div_add_mod' v (ptSpan 2)
    have := hhuge _ _ _ hx
    rw [Nat.add_mul, Nat.one_mul] at this
    omega

/-- What is seen outside the window from `oldNext` on stays. -/
theorem view (h : RolledBack oldNext g g' s s') {root : Nat} (ht : PtInv env s₀ root s g)
    (hal : 4096 ∣ oldNext) (hhuge : HugeApart oldNext g) {v : Nat}
    (hv : ¬ (oldNext ≤ v ∧ v / ptSpan 4 = userSlot)) {r : Nat × Nat} (hr : g.view v = some r) :
    g'.view v = some r := by
  obtain ⟨l, p, hl, hx, hp⟩ := PtInv.view_iff hr
  have hstay : g' (l, v / ptSpan l) = .page p r.2 := by
    rw [h.leaf hl (by rw [hx]; exact ⟨by simp, by simp⟩) (page_start hal hhuge hl hx),
      if_neg hv, hx]
  have hrr : r = (p + v % ptSpan l, r.2) := by rw [← hp]
  rw [hrr, PageMap.view]
  rcases hl with rfl | rfl
  · rw [hstay]
  · have hbelow : g (1, v / ptSpan 1) = .empty :=
      ht.empty_of_parent (by omega) (by omega) (by simp [hx])
    have hempty : g' (1, v / ptSpan 1) = .empty := by
      by_contra hne
      exact hne ((h.stays hne).trans hbelow)
    rw [hempty, hstay]

/-- **A rollback takes the window from `oldNext` on away**, and nothing else. -/
theorem byte (h : RolledBack oldNext g g' s s') {root : Nat} (ht : PtInv env s₀ root s g)
    (hal : 4096 ∣ oldNext) (hhuge : HugeApart oldNext g) (v : Nat) :
    g'.byte s'.mem v = if oldNext ≤ v ∧ v / ptSpan 4 = userSlot then none else g.byte s.mem v := by
  have hspan : ptSpan 1 = 4096 := rfl
  have hstays : ∀ {x}, g x = .empty → g' x = .empty := by
    intro x hx
    by_contra hne
    exact hne ((h.stays hne).trans hx)
  have hbelow : g (1, v / ptSpan 1) ≠ .empty → ∀ p rwx, g' (2, v / ptSpan 2) ≠ .page p rwx := by
    intro hne p rwx hx
    have hx' := (h.stays (by rw [hx]; simp)).symm.trans hx
    exact hne (ht.empty_of_parent (by omega) (by omega) (by simp [hx']))
  have hone : oldNext ≤ v / ptSpan 1 * ptSpan 1 ↔ oldNext ≤ v := by
    rw [hspan]
    omega
  -- a page that stays keeps its bytes
  have hdata : ∀ {r}, g'.view v = some r → s'.mem r.1 = s.mem r.1 := fun hr => DataEq.view h.data hr
  cases h1 : g (1, v / ptSpan 1) with
  | table p =>
      have hok := ht.rep.ok (1, v / ptSpan 1)
      rw [h1] at hok
      exact absurd hok.2.2 (by simp)
  | page p rwx =>
      have hl := h.leaf (v := v) (Or.inl rfl) (by rw [h1]; exact ⟨by simp, by simp⟩) hone
      rw [h1] at hl
      by_cases hin : oldNext ≤ v ∧ v / ptSpan 4 = userSlot
      · rw [if_pos hin] at hl ⊢
        have hno := hbelow (by rw [h1]; simp)
        rw [PageMap.byte, PageMap.view, hl]
        cases h2 : g' (2, v / ptSpan 2) with
        | page q rwx' => exact absurd h2 (hno q rwx')
        | _ => rfl
      · rw [if_neg hin] at hl ⊢
        have hv : g'.view v = some (p + v % ptSpan 1, rwx) := by rw [PageMap.view, hl]
        have hv' : g.view v = some (p + v % ptSpan 1, rwx) := by rw [PageMap.view, h1]
        rw [PageMap.byte, PageMap.byte, hv, hv']
        exact congrArg some (hdata hv)
  | lazy rwx =>
      have hl := h.leaf (v := v) (Or.inl rfl) (by rw [h1]; exact ⟨by simp, by simp⟩) hone
      rw [h1] at hl
      have hno := hbelow (by rw [h1]; simp)
      have hold : g.byte s.mem v = some 0 := by
        rw [PageMap.byte, PageMap.view, h1]
        cases h2 : g (2, v / ptSpan 2) with
        | page q rwx' =>
            have := ht.empty_of_parent (v := v) (l := 1) (by omega) (by omega) (by simp [h2])
            rw [h1] at this
            cases this
        | _ => rfl
      rw [hold, PageMap.byte, PageMap.view, hl]
      by_cases hin : oldNext ≤ v ∧ v / ptSpan 4 = userSlot
      · rw [if_pos hin, if_pos hin]
        cases h2 : g' (2, v / ptSpan 2) with
        | page q rwx' => exact absurd h2 (hno q rwx')
        | _ => rfl
      · rw [if_neg hin, if_neg hin]
        cases h2 : g' (2, v / ptSpan 2) with
        | page q rwx' => exact absurd h2 (hno q rwx')
        | _ => rfl
  | empty =>
      have h1' := hstays h1
      cases h2 : g (2, v / ptSpan 2) with
      | page p rwx =>
          have hl := h.leaf (v := v) (Or.inr rfl) (by rw [h2]; exact ⟨by simp, by simp⟩)
            (page_start hal hhuge (Or.inr rfl) h2)
          rw [h2] at hl
          by_cases hin : oldNext ≤ v ∧ v / ptSpan 4 = userSlot
          · rw [if_pos hin] at hl ⊢
            rw [PageMap.byte, PageMap.view, h1', hl]
            rfl
          · rw [if_neg hin] at hl ⊢
            have hv : g'.view v = some (p + v % ptSpan 2, rwx) := by rw [PageMap.view, h1', hl]
            have hv' : g.view v = some (p + v % ptSpan 2, rwx) := by rw [PageMap.view, h1, h2]
            rw [PageMap.byte, PageMap.byte, hv, hv']
            exact congrArg some (hdata hv)
      | _ =>
          have hold : g.byte s.mem v = none := by
            rw [PageMap.byte, PageMap.view, h1, h2]
            rfl
          rw [hold, ite_self, PageMap.byte, PageMap.view, h1']
          cases h2' : g' (2, v / ptSpan 2) with
          | page q rwx' =>
              have := (h.stays (by rw [h2']; simp)).symm.trans h2'
              rw [h2] at this
              cases this
          | _ => rfl

end RolledBack

end Efishell
