import Efishell.Arch.PageOps

/-!
# Paging — the bytes of user memory

`x86_64_as_check` and `x86_64_as_copy`.  A check makes the pages it needs; a copy that passed the
check succeeds, and changes exactly the user bytes it names, because no physical byte is seen at two
addresses (`view_inj`).

* `SpaceInv.asCheck`: what a check accepts is seen by the user.
* `SpaceInv.asCopy_to`, `SpaceInv.asCopy_from`: a copy that passed its check moves the bytes it
  names.
-/

namespace Efishell

namespace PtInv

variable {env : MmuEnv} {s₀ s : Phys} {root : Nat} {g : PageMap}

/-! ### What the map shows -/

/-- The pages of an entry fill what it spans. -/
theorem pages_span {l q p rwx : Nat} (hl : l = 1 ∨ l = 2) (hx : g (l, q) = .page p rwx) :
    4096 * g.pages (l, q) = ptSpan l := by
  rcases hl with rfl | rfl <;> rw [PageMap.pages, hx] <;> rfl

/-- An address keeps its place in its page. -/
theorem view_offset (h : PtInv env s₀ root s g) {v : Nat} {r : Nat × Nat} (hr : g.view v = some r) :
    r.1 % 4096 = v % 4096 := by
  obtain ⟨l, p, hl, hx, hp⟩ := view_iff hr
  have hal :=
    h.ledger.aligned _
      (by rw [show g.base _ = p from congrArg Ent.base hx]; exact h.page_ne_zero hx)
  rw [show g.base _ = p from congrArg Ent.base hx] at hal
  rcases hl with rfl | rfl
  · rw [hp, ptSpan_one]
    omega
  · rw [hp, show ptSpan 2 = 2097152 from rfl]
    omega

/-- No physical page is seen at two pages. -/
theorem view_page_inj (h : PtInv env s₀ root s g) {v v' : Nat} {r r' : Nat × Nat}
    (hr : g.view v = some r) (hr' : g.view v' = some r') (he : r.1 / 4096 = r'.1 / 4096) :
    v / 4096 = v' / 4096 := by
  have ho := h.view_offset hr
  have ho' := h.view_offset hr'
  obtain ⟨l, p, hl, hx, hp⟩ := view_iff hr
  obtain ⟨l', p', hl', hx', hp'⟩ := view_iff hr'
  have hm := Nat.mod_lt v (ptSpan_pos l)
  have hm' := Nat.mod_lt v' (ptSpan_pos l')
  by_cases hne : (l, v / ptSpan l) = (l', v' / ptSpan l')
  · obtain ⟨rfl, hq⟩ := Prod.mk.inj hne
    rw [← hne, hx] at hx'
    have hpp : p = p' := (Ent.page.inj hx').1
    have hd := Nat.div_add_mod v (ptSpan l)
    have hd' := Nat.div_add_mod v' (ptSpan l)
    rw [← hq] at hd'
    omega
  · have hb : g.base (l, v / ptSpan l) = p := congrArg Ent.base hx
    have hb' : g.base (l', v' / ptSpan l') = p' := congrArg Ent.base hx'
    have hz : g.base (l, v / ptSpan l) ≠ 0 := by
      rw [hb]
      exact h.page_ne_zero hx
    have hz' : g.base (l', v' / ptSpan l') ≠ 0 := by
      rw [hb']
      exact h.page_ne_zero hx'
    have hal := h.ledger.aligned _ hz
    have hal' := h.ledger.aligned _ hz'
    have := h.ledger.apart _ _ hne hz hz'
    have h4 : 4096 ∣ ptSpan l ∧ 4096 ∣ ptSpan l' := by
      rcases hl with rfl | rfl <;> rcases hl' with rfl | rfl <;> decide
    rw [hb, hb', pages_span hl hx, pages_span hl' hx'] at this
    rw [hb] at hal
    rw [hb'] at hal'
    omega

/-- No physical byte is seen at two addresses. -/
theorem view_inj (h : PtInv env s₀ root s g) {v v' : Nat} {r r' : Nat × Nat}
    (hr : g.view v = some r) (hr' : g.view v' = some r') (he : r.1 = r'.1) : v = v' := by
  have := h.view_page_inj hr hr' (by rw [he])
  have := h.view_offset hr
  have := h.view_offset hr'
  omega

/-- What is seen is held. -/
theorem view_taken (h : PtInv env s₀ root s g) {v : Nat} {r : Nat × Nat} (hr : g.view v = some r) :
    s.pmm.free (r.1 / 4096) = false := by
  obtain ⟨l, p, hl, hx, hp⟩ := view_iff hr
  have hb : g.base (l, v / ptSpan l) = p := congrArg Ent.base hx
  have hpages := pages_span hl hx
  have hm := Nat.mod_lt v (ptSpan_pos l)
  have hz := h.page_ne_zero hx
  have hal := h.ledger.aligned (l, v / ptSpan l) (by rw [hb]; exact hz)
  rw [hb] at hal
  exact h.not_free_of_held (x := (l, v / ptSpan l)) (by rw [hb]; exact hz) (by rw [hb]; omega)
    (by rw [hb]; omega)

/-- The bytes of one page lie together. -/
theorem view_add {v k : Nat} {r : Nat × Nat} (hr : g.view v = some r) (hk : v % 4096 + k < 4096) :
    g.view (v + k) = some (r.1 + k, r.2) := by
  have h₁ : (v + k) / ptSpan 1 = v / ptSpan 1 := by
    rw [ptSpan_one]
    omega
  have h₂ : (v + k) / ptSpan 2 = v / ptSpan 2 := by
    rw [show ptSpan 2 = 2097152 from rfl]
    omega
  have m₁ : (v + k) % ptSpan 1 = v % ptSpan 1 + k := by
    rw [ptSpan_one]
    omega
  have m₂ : (v + k) % ptSpan 2 = v % ptSpan 2 + k := by
    rw [show ptSpan 2 = 2097152 from rfl]
    omega
  have hmap : g.view (v + k) = (g.view v).map fun r => (r.1 + k, r.2) := by
    rw [PageMap.view, PageMap.view, h₁, h₂, m₁, m₂]
    cases g (1, v / ptSpan 1) with
    | page p rwx => simp only [Option.map_some, Nat.add_assoc]
    | _ =>
        cases g (2, v / ptSpan 2) with
        | page p rwx => simp only [Option.map_some, Nat.add_assoc]
        | _ => rfl
  rw [hmap, hr, Option.map_some]

/-- Where the pages stay, what is seen stays. -/
theorem view_mono (h : PtInv env s₀ root s g) {g₀ : PageMap}
    (hp : ∀ {x p rwx}, g₀ x = .page p rwx → g x = .page p rwx) {v : Nat} {r : Nat × Nat}
    (hr : g₀.view v = some r) : g.view v = some r := by
  obtain ⟨l, p, hl, hx, hp'⟩ := view_iff hr
  have hx' := hp hx
  have hrr : r = (p + v % ptSpan l, r.2) := by rw [← hp']
  rw [hrr, PageMap.view]
  rcases hl with rfl | rfl
  · rw [hx']
  · rw [h.empty_of_parent (v := v) (l := 1) (by omega) (by omega) (by simp [hx']), hx']

/-- Bytes of one page are written. -/
theorem pokes (h : PtInv env s₀ root s g) (buf : Bytes) (off : Nat) {v n : Nat} {r : Nat × Nat}
    (hr : g.view v = some r) (hn : v % 4096 + n ≤ 4096) :
    PtInv env s₀ root { s with mem := memCopy s.mem r.1 buf off n } g ∧
      ∀ {v' r'}, g.view v' = some r' → memCopy s.mem r.1 buf off n r'.1 =
        if v ≤ v' ∧ v' < v + n then buf (off + (v' - v)) else s.mem r'.1 := by
  obtain ⟨l, p, hl, hx, hp⟩ := view_iff hr
  have hspan : v % ptSpan l + n ≤ ptSpan l := by
    rcases hl with rfl | rfl
    · rw [ptSpan_one]
      omega
    · rw [show ptSpan 2 = 2097152 from rfl]
      omega
  constructor
  · refine h.data hx fun a ha => ?_
    rw [pages_span hl hx] at ha
    rw [memCopy, if_neg (by omega)]
  · intro v' r' hr'
    rw [memCopy]
    by_cases hin : v ≤ v' ∧ v' < v + n
    · have := view_add (k := v' - v) hr (by omega)
      rw [show v + (v' - v) = v' by omega, hr'] at this
      have hr1 : r'.1 = r.1 + (v' - v) := by rw [Option.some.inj this]
      rw [if_pos hin, if_pos (by omega), hr1]
      congr 1
      omega
    · rw [if_neg hin, if_neg]
      intro hin'
      have := view_add (k := r'.1 - r.1) hr (by omega)
      have := h.view_inj this hr' (by simp only; omega)
      omega

end PtInv

/-! ### Checks -/

/-- The address is one the user may have. -/
def UserAt (env : MmuEnv) (s₀ : Phys) (g : PageMap) (write : Bool) (v : Nat) : Prop :=
  v < 2 ^ 47 ∧ kernelSlot env s₀ (v / ptSpan 4) = false ∧
    ∃ r, g.view v = some r ∧ (write = true → regionW r.2 = true)

namespace PtInv

variable {env : MmuEnv} {s₀ : Phys} {w : Vm} {g : PageMap}

/-- In a slot of the kernel no translation is for the user. -/
theorem not_kernelSlot (h : PtInv env s₀ w.as.root w.phys g) (hk : KernelOk env s₀) {v : Nat}
    {t : Translation} (ht : vmmTranslate w.phys.mem w.as.root v = some t) (hu : t.user = true) :
    kernelSlot env s₀ (ptIndex v 4) = false := by
  by_contra hne
  have hs : kernelSlot env s₀ (ptIndex v 4) = true := Bool.not_eq_false _ ▸ hne
  rw [vmmTranslate] at ht
  split at ht
  · cases ht
  · rw [h.vmmWalk_kernelSlot hk hs, vmmWalk] at ht
    have hp : Pte.present (ptRead s₀.mem env.kernelPml4 (ptIndex v 4)) = true := hs
    simp only [hp, hk.supervisor _ (ptIndex_lt v 4) hs, Bool.not_true, Bool.false_eq_true, if_false,
      Nat.reduceEqDiff, or_self, false_and, Bool.and_false, Bool.true_and, Bool.false_or] at ht
    obtain ⟨r, hr, rfl⟩ := Option.map_eq_some_iff.mp ht
    rw [vmmWalk_supervisor 3 hr] at hu
    cases hu

/-- A translation for the user is one of the map. -/
theorem translate_user (h : PtInv env s₀ w.as.root w.phys g) (hk : KernelOk env s₀) {v : Nat}
    (hv : v < 2 ^ 47) {t : Translation} (ht : vmmTranslate w.phys.mem w.as.root v = some t)
    (hu : t.user = true) : kernelSlot env s₀ (v / ptSpan 4) = false ∧
      ∃ r, g.view v = some r ∧ t = ⟨r.1, true, regionW r.2, !regionX r.2⟩ := by
  have hks : kernelSlot env s₀ (v / ptSpan 4) = false := by
    have hslot : v / ptSpan 4 < 512 := by
      rw [show ptSpan 4 = 2 ^ 39 from rfl]
      omega
    have := h.not_kernelSlot hk ht hu
    rwa [ptIndex, Nat.mod_eq_of_lt hslot] at this
  rw [h.translate hv hks] at ht
  obtain ⟨r, hr, rfl⟩ := Option.map_eq_some_iff.mp ht
  exact ⟨hks, r, hr, rfl⟩

/-- The loop of `x86_64_as_check`. -/
theorem checkPages (hk : KernelOk env s₀) (write : Bool) (left : Nat) :
    ∀ {v : Nat} {w : Vm} {g : PageMap}, PtInv env s₀ w.as.root w.phys g →
      v + 4096 * left ≤ 2 ^ 47 →
      (checkPages write left v w).2.as = w.as ∧
      ∃ g', PtInv env s₀ w.as.root (checkPages write left v w).2.phys g' ∧
        Faulted g g' w.phys (checkPages write left v w).2.phys ∧
        ((checkPages write left v w).1 = .ok () → ∀ i < left,
          UserAt env s₀ g' write (v + 4096 * i)) := by
  induction left with
  | zero =>
      intro v w g h _
      exact ⟨rfl, g, h, Faulted.refl g w.phys, fun _ i hi => by omega⟩
  | succ left ih =>
      intro v w g h hv
      rw [Efishell.checkPages]
      -- the fault, if there is one
      obtain ⟨r, w₁, hr, has, g₁, h₁, hf₁⟩ : ∃ r w₁,
          (if (vmmTranslate w.phys.mem w.as.root v).isSome = true then
            ((.ok () : Except Errno Unit), w)
            else Efishell.demandFault v (if write = true then 2 else 0) w) = (r, w₁) ∧
              w₁.as = w.as ∧
          ∃ g₁, PtInv env s₀ w.as.root w₁.phys g₁ ∧ Faulted g g₁ w.phys w₁.phys := by
        split
        · exact ⟨_, _, rfl, rfl, g, h, Faulted.refl g w.phys⟩
        · rcases h.demandFault hk v (if write = true then 2 else 0) with
            ⟨e, he⟩ | ⟨g', rwx, -, has, h', hf, -⟩
          · exact ⟨_, _, he, rfl, g, h, Faulted.refl g w.phys⟩
          · exact ⟨_, _, rfl, has, g', h', hf⟩
      rw [hr]
      cases r with
      | error e => exact ⟨has, g₁, h₁, hf₁, fun e => by cases e⟩
      | ok u =>
          dsimp only
          rw [← has] at h₁
          split
          · exact ⟨has, g₁, has ▸ h₁, hf₁, fun e => by cases e⟩
          · rename_i t ht
            split
            · exact ⟨has, g₁, has ▸ h₁, hf₁, fun e => by cases e⟩
            · rename_i hflags
              simp only [Bool.or_eq_true, Bool.not_eq_true', Bool.and_eq_true, not_or,
                Bool.not_eq_false, not_and] at hflags
              obtain ⟨hks, r, hview, rfl⟩ := h₁.translate_user hk (by omega) ht hflags.1
              obtain ⟨has', g', h', hf', hok⟩ := ih h₁ (v := v + 4096) (by omega)
              refine ⟨has'.trans has, g', has ▸ h', hf₁.trans hf', fun e i hi => ?_⟩
              rcases Nat.eq_zero_or_pos i with rfl | hi'
              · refine ⟨by omega, by simpa using hks, r, ?_, fun hw => ?_⟩
                · rw [Nat.mul_zero, Nat.add_zero]
                  exact h'.view_mono hf'.page hview
                · exact hflags.2 hw
              · have := hok e (i - 1) (by omega)
                rwa [show v + 4096 + 4096 * (i - 1) = v + 4096 * i by omega] at this

/-- `x86_64_as_check`: what it accepts is seen by the user, and on failure some pages may have been
made. -/
theorem asCheck (h : PtInv env s₀ w.as.root w.phys g) (hk : KernelOk env s₀) (address bytes : Nat)
    (write : Bool) :
    (asCheck address bytes write w).2.as = w.as ∧
      ∃ g', PtInv env s₀ w.as.root (asCheck address bytes write w).2.phys g' ∧
        Faulted g g' w.phys (asCheck address bytes write w).2.phys ∧
        ((asCheck address bytes write w).1 = .ok () →
          ∀ v, address ≤ v → v < address + bytes → UserAt env s₀ g' write v) := by
  rw [Efishell.asCheck]
  split
  · exact ⟨rfl, g, h, Faulted.refl g w.phys, fun e => by cases e⟩
  · rename_i harg
    simp only [kUserCanonLimit, not_or, not_lt, not_le] at harg
    split
    · exact ⟨rfl, g, h, Faulted.refl g w.phys, fun _ v h₁ h₂ => by omega⟩
    · dsimp only
      generalize hleft : (address + bytes - address / 4096 * 4096 + 4095) / 4096 = left
      obtain ⟨has, g', h', hf, hok⟩ := checkPages hk write left h
        (v := address / 4096 * 4096) (by omega)
      refine ⟨has, g', h', hf, fun e v h₁ h₂ => ?_⟩
      obtain ⟨hv, hks, r, hr, hw⟩ := hok e (v / 4096 - address / 4096) (by omega)
      rw [show address / 4096 * 4096 + 4096 * (v / 4096 - address / 4096) = v / 4096 * 4096 by
        omega]
        at hv hks hr
      have hv' := view_add (k := v % 4096) hr (by omega)
      rw [show v / 4096 * 4096 + v % 4096 = v by omega] at hv'
      refine ⟨by omega, ?_, _, hv', hw⟩
      rw [show v / ptSpan 4 = v / 4096 * 4096 / ptSpan 4 by
        rw [show ptSpan 4 = 2 ^ 39 from rfl]
        omega]
      exact hks

/-! ### Copies -/

/-- The loop of `x86_64_as_copy` to the user. -/
theorem copyLoop_to {root : Nat} {g : PageMap} (buf : Bytes) (fuel : Nat) :
    ∀ (u off n : Nat) {s : Phys}, PtInv env s₀ root s g → n ≤ fuel →
    (∀ v, u ≤ v → v < u + n → UserAt env s₀ g false v) →
    ∃ s', copyLoop root true fuel u off n buf s = (.ok (), buf, s') ∧ s'.pmm = s.pmm ∧
      PtInv env s₀ root s' g ∧
      ∀ {v r}, g.view v = some r → s'.mem r.1 =
        if u ≤ v ∧ v < u + n then buf (off + (v - u)) else s.mem r.1 := by
  induction fuel with
  | zero =>
      intro u off n s h hn _
      refine ⟨s, rfl, rfl, h, fun {v r} _ => ?_⟩
      rw [if_neg (by omega)]
  | succ fuel ih =>
      intro u off n s h hn hu
      rw [copyLoop]
      by_cases hz : n = 0
      · rw [if_pos hz]
        refine ⟨s, rfl, rfl, h, fun {v r} _ => ?_⟩
        rw [if_neg (by omega)]
      · rw [if_neg hz]
        obtain ⟨hv, hks, r, hr, -⟩ := hu u (Nat.le_refl u) (by omega)
        rw [h.translate hv hks, hr]
        simp only [Option.map_some, if_true]
        generalize hc : min n (4096 - u % 4096) = chunk
        obtain ⟨h', hmem⟩ := h.pokes buf off (n := chunk) hr (by omega)
        obtain ⟨s', e, hpmm, h'', hmem'⟩ := ih (u + chunk) (off + chunk) (n - chunk) h' (by omega)
          fun v h₁ h₂ => hu v (by omega) (by omega)
        refine ⟨s', e, hpmm, h'', fun {v r'} hr' => ?_⟩
        rw [hmem' hr']
        by_cases h₁ : u + chunk ≤ v ∧ v < u + chunk + (n - chunk)
        · rw [if_pos h₁, if_pos (by omega)]
          congr 1
          omega
        · rw [if_neg h₁]
          show memCopy s.mem r.1 buf off chunk r'.1 = _
          rw [hmem hr']
          by_cases h₂ : u ≤ v ∧ v < u + chunk
          · rw [if_pos h₂, if_pos (by omega)]
          · rw [if_neg h₂, if_neg (by omega)]

/-- The loop of `x86_64_as_copy` from the user. -/
theorem copyLoop_from {root : Nat} {s : Phys} {g : PageMap} (h : PtInv env s₀ root s g)
    (fuel : Nat) :
    ∀ (u off n : Nat) (buf : Bytes), n ≤ fuel →
    (∀ v, u ≤ v → v < u + n → UserAt env s₀ g false v) →
    ∃ buf', copyLoop root false fuel u off n buf s = (.ok (), buf', s) ∧
      ∀ i, if off ≤ i ∧ i < off + n then
          ∃ r, g.view (u + (i - off)) = some r ∧ buf' i = s.mem r.1
        else buf' i = buf i := by
  induction fuel with
  | zero =>
      intro u off n buf hn _
      refine ⟨buf, rfl, fun i => ?_⟩
      rw [if_neg (by omega)]
  | succ fuel ih =>
      intro u off n buf hn hu
      rw [copyLoop]
      by_cases hz : n = 0
      · rw [if_pos hz]
        refine ⟨buf, rfl, fun i => ?_⟩
        rw [if_neg (by omega)]
      · rw [if_neg hz]
        obtain ⟨hv, hks, r, hr, -⟩ := hu u (Nat.le_refl u) (by omega)
        rw [h.translate hv hks, hr]
        simp only [Option.map_some, Bool.false_eq_true, if_false]
        generalize hc : min n (4096 - u % 4096) = chunk
        obtain ⟨buf', e, hbuf⟩ := ih (u + chunk) (off + chunk) (n - chunk)
          (memCopy buf off s.mem r.1 chunk) (by omega) fun v h₁ h₂ => hu v (by omega) (by omega)
        refine ⟨buf', e, fun i => ?_⟩
        have hi := hbuf i
        by_cases h₁ : off + chunk ≤ i ∧ i < off + chunk + (n - chunk)
        · rw [if_pos h₁] at hi
          rw [if_pos (by omega)]
          rwa [show u + chunk + (i - (off + chunk)) = u + (i - off) by omega] at hi
        · rw [if_neg h₁, memCopy] at hi
          by_cases h₂ : off ≤ i ∧ i < off + chunk
          · rw [if_pos h₂] at hi
            rw [if_pos (by omega)]
            exact ⟨_, view_add (k := i - off) hr (by omega), hi⟩
          · rw [if_neg h₂] at hi
            rw [if_neg (by omega)]
            exact hi

/-- `x86_64_as_copy` to the user. -/
theorem asCopy_to (h : PtInv env s₀ w.as.root w.phys g) (hk : KernelOk env s₀)
    (u : Nat) (buf : Bytes) (n : Nat) (loader : Bool) :
    (asCopy u buf n true loader w).2.2.as = w.as ∧
      ∃ g' s₁, PtInv env s₀ w.as.root (asCopy u buf n true loader w).2.2.phys g' ∧
        Faulted g g' w.phys s₁ ∧ (asCopy u buf n true loader w).2.2.phys.pmm = s₁.pmm ∧
        (asCopy u buf n true loader w).2.1 = buf ∧
        ((asCopy u buf n true loader w).1 = .ok () ∧
            (∀ v, u ≤ v → v < u + n → UserAt env s₀ g' (!loader) v) ∧
            (∀ {v r}, g'.view v = some r → (asCopy u buf n true loader w).2.2.phys.mem r.1 =
              if u ≤ v ∧ v < u + n then buf (v - u) else s₁.mem r.1) ∨
          (∃ e, (asCopy u buf n true loader w).1 = .error e) ∧
            (asCopy u buf n true loader w).2.2.phys = s₁) := by
  obtain ⟨has, g', h', hf, hok⟩ := h.asCheck hk u n (true && !loader)
  rw [asCopy]
  generalize Efishell.asCheck u n (true && !loader) w = r at has h' hf hok
  obtain ⟨r, w'⟩ := r
  cases r with
  | error e => exact ⟨has, g', w'.phys, h', hf, rfl, rfl, Or.inr ⟨⟨e, rfl⟩, rfl⟩⟩
  | ok a =>
      have hu := hok rfl
      have has' : w'.as = w.as := has
      dsimp only at h' hf ⊢
      rw [has']
      obtain ⟨s', e, hpmm, h'', hmem⟩ := copyLoop_to buf n u 0 n h' (Nat.le_refl n) fun v h₁ h₂ =>
        let ⟨e₁, e₂, r, e₃, _⟩ := hu v h₁ h₂
        ⟨e₁, e₂, r, e₃, fun e => by cases e⟩
      rw [e]
      refine ⟨rfl, g', w'.phys, h'', hf, hpmm, rfl, Or.inl ⟨rfl, hu, fun {v r} hr => ?_⟩⟩
      have := hmem hr
      rwa [Nat.zero_add] at this

/-- `x86_64_as_copy` from the user. -/
theorem asCopy_from (h : PtInv env s₀ w.as.root w.phys g) (hk : KernelOk env s₀)
    (u : Nat) (buf : Bytes) (n : Nat) (loader : Bool) :
    (asCopy u buf n false loader w).2.2.as = w.as ∧
      ∃ g', PtInv env s₀ w.as.root (asCopy u buf n false loader w).2.2.phys g' ∧
        Faulted g g' w.phys (asCopy u buf n false loader w).2.2.phys ∧
        ((asCopy u buf n false loader w).1 = .ok () ∧
            (∀ v, u ≤ v → v < u + n → UserAt env s₀ g' false v) ∧
            (∀ i, if i < n then ∃ r, g'.view (u + i) = some r ∧
                (asCopy u buf n false loader w).2.1
                  i = (asCopy u buf n false loader w).2.2.phys.mem r.1
              else (asCopy u buf n false loader w).2.1 i = buf i) ∨
          (∃ e, (asCopy u buf n false loader w).1 = .error e) ∧
            (asCopy u buf n false loader w).2.1 = buf) := by
  obtain ⟨has, g', h', hf, hok⟩ := h.asCheck hk u n (false && !loader)
  rw [asCopy]
  generalize Efishell.asCheck u n (false && !loader) w = r at has h' hf hok
  obtain ⟨r, w'⟩ := r
  cases r with
  | error e => exact ⟨has, g', h', hf, Or.inr ⟨⟨e, rfl⟩, rfl⟩⟩
  | ok a =>
      have hu := hok rfl
      have has' : w'.as = w.as := has
      dsimp only at h' hf ⊢
      rw [has']
      obtain ⟨buf', e, hbuf⟩ := copyLoop_from h' n u 0 n buf (Nat.le_refl n) hu
      rw [e]
      refine ⟨rfl, g', h', hf, Or.inl ⟨rfl, hu, fun i => ?_⟩⟩
      have := hbuf i
      simpa using this

end PtInv

end Efishell
