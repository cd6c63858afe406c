import Efishell.Arch.Mmu

/-!
# Paging — the map behind the tables

A page map says, for each level and each region of that level, what the entry is: nothing, a table,
a page with its permissions, or a page to be made on demand.  Region `q` of level `l` is the part of
the address space from `q * ptSpan l` on; its entry lies in the table of region `q / 512` one level
up.  The root is the entry of level 5, and level 0 is the page in hand that no table has yet.

`Rep` relates a map to the tables in memory.  `PtInv` adds the books: every table and every page of
the map is held from the allocator, no page has two holders, and what was not free when the space
was created is as it was.

* `PtInv.write`: one entry written, with the map changed alike, keeps the invariant.
* `Ent.enc_table`, `Ent.enc_page`, `Ent.enc_lazy`: what a walk reads in each kind of entry.
-/

namespace Efishell

/-! ### Entries -/

/-- What an entry of a table says. -/
inductive Ent where
  | empty
  | table (p : Nat)
  | page (p rwx : Nat)
  | lazy (rwx : Nat)
  deriving DecidableEq, Repr

namespace Ent

/-- The entry in memory. -/
def enc (level : Nat) : Ent → Nat
  | .empty => 0
  | .table p => p ||| pagePresent ||| pageRw ||| pageUser
  | .page p rwx =>
      if level = 2 then p ||| leafFlags rwx ||| pagePresent ||| pageLarge
      else p ||| leafFlags rwx ||| pagePresent
  | .lazy rwx => leafFlags rwx ||| x86Lazy

/-- Where the pages of an entry start. -/
def base : Ent → Nat
  | .table p => p
  | .page p _ => p
  | _ => 0

/-- The 4 KiB pages an entry stands for at its level. -/
def pages (level : Nat) : Ent → Nat
  | .page _ _ => if level = 2 then 512 else 1
  | _ => 1

end Ent

/-- A frame number that fits an entry. -/
def FrameOk (p : Nat) : Prop := 4096 ∣ p ∧ p < 2 ^ 52

/-- The twelve low bits of a frame's address are clear. -/
theorem FrameOk.testBit_low {p : Nat} (h : FrameOk p) {i : Nat} (hi : i < 12) :
    p.testBit i = false := by
  obtain ⟨k, rfl⟩ := h.1
  rw [show (4096 : Nat) = 2 ^ 12 from rfl, Nat.testBit_two_pow_mul]
  simp only [show ¬ i ≥ 12 by omega, decide_false, Bool.false_and]

theorem FrameOk.testBit_high {p : Nat} (h : FrameOk p) {i : Nat} (hi : 52 ≤ i) :
    p.testBit i = false :=
  Nat.testBit_lt_two_pow (h.2.trans_le (Nat.pow_le_pow_right (by omega) hi))

theorem testBit_physMask (i : Nat) : physMask.testBit i = (decide (12 ≤ i) && decide (i < 52)) := by
  rw [show physMask = 2 ^ 12 * (2 ^ 40 - 1) from rfl, Nat.testBit_two_pow_mul,
    Nat.testBit_two_pow_sub_one]
  by_cases h : 12 ≤ i
  · simp only [h, decide_true, Bool.true_and, decide_eq_decide]
    omega
  · simp only [h, decide_false, Bool.false_and]

/-- The mask keeps a frame's address. -/
theorem FrameOk.and_physMask {p : Nat} (h : FrameOk p) : p &&& physMask = p := by
  refine Nat.eq_of_testBit_eq fun i => ?_
  rw [Nat.testBit_and, testBit_physMask]
  by_cases h₁ : i < 12
  · rw [h.testBit_low h₁, Bool.false_and]
  · by_cases h₂ : 52 ≤ i
    · rw [h.testBit_high h₂, Bool.false_and]
    · have hin : 12 ≤ i ∧ i < 52 := by omega
      simp only [hin, decide_true, Bool.and_true]

/-- The flags of a leaf lie outside the address. -/
theorem leafFlags_and_physMask (rwx : Nat) : leafFlags rwx &&& physMask = 0 := by
  rw [leafFlags]
  cases regionW rwx <;> cases regionX rwx <;> decide

/-- The flags of a leaf, bit by bit. -/
theorem leafFlags_testBit (rwx : Nat) :
    (leafFlags rwx).testBit 0 = false ∧ (leafFlags rwx).testBit 1 = regionW rwx ∧
      (leafFlags rwx).testBit 2 = true ∧ (leafFlags rwx).testBit 7 = false ∧
      (leafFlags rwx).testBit 9 = false ∧ (leafFlags rwx).testBit 63 = !regionX rwx := by
  rw [leafFlags]
  cases regionW rwx <;> cases regionX rwx <;> decide

theorem leafFlags_lt (rwx : Nat) : leafFlags rwx < 2 ^ 64 := by
  rw [leafFlags]
  cases regionW rwx <;> cases regionX rwx <;> decide

/-- What an entry of the level may be. -/
def Ent.Ok (level : Nat) : Ent → Prop
  | .empty => True
  | .table p => p ≠ 0 ∧ FrameOk p ∧ 2 ≤ level
  | .page p rwx => p ≠ 0 ∧ FrameOk p ∧ rwxOk rwx = true ∧ level ≤ 2 ∧ (level = 2 → 2 ^ 21 ∣ p)
  | .lazy rwx => rwxOk rwx = true ∧ level = 1

namespace Ent

variable {level p rwx : Nat}

/-- What the walk reads in the entry of a table. -/
theorem enc_table (level : Nat) (h : FrameOk p) :
    Pte.present (enc level (.table p)) = true ∧ Pte.large (enc level (.table p)) = false ∧
      Pte.user (enc level (.table p)) = true ∧ Pte.rw (enc level (.table p)) = true ∧
      Pte.nx (enc level (.table p)) = false ∧ Pte.phys (enc level (.table p)) = p := by
  refine ⟨?_, ?_, ?_, ?_, ?_, ?_⟩
  · simp only [Pte.present, enc, Nat.testBit_or, h.testBit_low (show 0 < 12 by omega)]
    decide
  · simp only [Pte.large, enc, Nat.testBit_or, h.testBit_low (show 7 < 12 by omega)]
    decide
  · simp only [Pte.user, enc, Nat.testBit_or, h.testBit_low (show 2 < 12 by omega)]
    decide
  · simp only [Pte.rw, enc, Nat.testBit_or, h.testBit_low (show 1 < 12 by omega)]
    decide
  · simp only [Pte.nx, enc, Nat.testBit_or, h.testBit_high (show 52 ≤ 63 by omega)]
    decide
  · simp only [Pte.phys, enc, Nat.and_or_distrib_right, h.and_physMask]
    rw [show pagePresent &&& physMask = 0 by decide, show pageRw &&& physMask = 0 by decide,
      show pageUser &&& physMask = 0 by decide]
    simp only [Nat.or_zero]

/-- What the walk reads in the entry of a page. -/
theorem enc_page (level rwx : Nat) (h : FrameOk p) :
    Pte.present (enc level (.page p rwx)) = true ∧
      Pte.large (enc level (.page p rwx)) = decide (level = 2) ∧
      Pte.user (enc level (.page p rwx)) = true ∧
      Pte.rw (enc level (.page p rwx)) = regionW rwx ∧
      Pte.nx (enc level (.page p rwx)) = !regionX rwx ∧
      Pte.phys (enc level (.page p rwx)) = p := by
  obtain ⟨f₀, f₁, f₂, f₇, -, f₆₃⟩ := leafFlags_testBit rwx
  rw [enc]
  refine ⟨?_, ?_, ?_, ?_, ?_, ?_⟩
  · split <;> simp only [Pte.present, Nat.testBit_or, h.testBit_low (show 0 < 12 by omega), f₀] <;>
      decide
  · split <;> rename_i e <;>
      simp only [Pte.large, Nat.testBit_or, h.testBit_low (show 7 < 12 by omega), f₇, e] <;> decide
  · split <;> simp only [Pte.user, Nat.testBit_or, h.testBit_low (show 2 < 12 by omega), f₂] <;>
      decide
  · split <;> simp only [Pte.rw, Nat.testBit_or, h.testBit_low (show 1 < 12 by omega), f₁] <;>
      cases regionW rwx <;> decide
  · split <;> simp only [Pte.nx, Nat.testBit_or, h.testBit_high (show 52 ≤ 63 by omega), f₆₃] <;>
      cases regionX rwx <;> decide
  · have hp : pagePresent &&& physMask = 0 := by decide
    have hl : pageLarge &&& physMask = 0 := by decide
    split <;> simp only [Pte.phys, Nat.and_or_distrib_right, h.and_physMask,
      leafFlags_and_physMask, hp, hl, Nat.or_zero]

/-- What the walk reads in the entry of a lazy page. -/
theorem enc_lazy (level rwx : Nat) :
    Pte.present (enc level (.lazy rwx)) = false ∧ Pte.lazy (enc level (.lazy rwx)) = true ∧
      Pte.user (enc level (.lazy rwx)) = true ∧ Pte.rw (enc level (.lazy rwx)) = regionW rwx ∧
      enc level (.lazy rwx) ≠ 0 ∧ enc level (.lazy rwx) - x86Lazy = leafFlags rwx := by
  rw [enc, leafFlags]
  cases regionW rwx <;> cases regionX rwx <;> decide

/-- An entry is a 64-bit word. -/
theorem enc_lt {e : Ent} (h : e.Ok level) : e.enc level < 2 ^ 64 := by
  have hframe : ∀ {p}, FrameOk p → p < 2 ^ 64 := fun h => h.2.trans (by decide)
  cases e with
  | empty => exact Nat.two_pow_pos 64
  | table p =>
      have hp := hframe h.2.1
      exact Nat.or_lt_two_pow (Nat.or_lt_two_pow (Nat.or_lt_two_pow hp (by decide)) (by decide))
        (by decide)
  | page p rwx =>
      have hp := hframe h.2.1
      have hf := Nat.or_lt_two_pow hp (leafFlags_lt rwx)
      rw [enc]
      split
      · exact Nat.or_lt_two_pow (Nat.or_lt_two_pow hf (by decide)) (by decide)
      · exact Nat.or_lt_two_pow hf (by decide)
  | lazy rwx => exact Nat.or_lt_two_pow (leafFlags_lt rwx) (by decide)

/-- Only tables and pages are present. -/
theorem present_enc {e : Ent} (h : e.Ok level) :
    Pte.present (e.enc level) = true ↔ (∃ p, e = .table p) ∨ ∃ p rwx, e = .page p rwx := by
  cases e with
  | empty =>
      simp only [enc, Pte.present, Nat.zero_testBit]
      simp
  | table p => simp [(enc_table level h.2.1).1]
  | page p rwx => simp [(enc_page level rwx h.2.1).1]
  | lazy rwx => simp [(enc_lazy level rwx).1]

/-- Only the empty entry is zero. -/
theorem enc_eq_zero {e : Ent} (h : e.Ok level) : e.enc level = 0 ↔ e = .empty := by
  cases e with
  | empty => simp [enc]
  | table p =>
      refine ⟨fun e => ?_, fun e => by cases e⟩
      have hp : Pte.present (enc level (.table p)) = true := (enc_table level h.2.1).1
      rw [e] at hp
      cases hp
  | page p rwx =>
      refine ⟨fun e => ?_, fun e => by cases e⟩
      have hp : Pte.present (enc level (.page p rwx)) = true := (enc_page level rwx h.2.1).1
      rw [e] at hp
      cases hp
  | lazy rwx =>
      refine ⟨fun e => ?_, fun e => by cases e⟩
      exact absurd e (enc_lazy level rwx).2.2.2.2.1

end Ent

/-! ### Maps -/

/-- The entry of each level and region. -/
abbrev PageMap := Nat × Nat → Ent

namespace PageMap

/-- The page an entry of the map points at. -/
def base (g : PageMap) (x : Nat × Nat) : Nat := (g x).base

/-- The 4 KiB pages an entry stands for at its level. -/
def pages (g : PageMap) (x : Nat × Nat) : Nat := (g x).pages x.1

theorem base_update (g : PageMap) (x : Nat × Nat) (e : Ent) :
    base (Function.update g x e) = Function.update g.base x e.base := by
  funext y
  rcases eq_or_ne y x with rfl | hne
  · simp only [base, Function.update_self]
  · simp only [base, Function.update_of_ne hne]

theorem pages_update (g : PageMap) (x : Nat × Nat) (e : Ent) :
    pages (Function.update g x e) = Function.update g.pages x (e.pages x.1) := by
  funext y
  rcases eq_or_ne y x with rfl | hne
  · simp only [pages, Function.update_self]
  · simp only [pages, Function.update_of_ne hne]

end PageMap

/-- An entry gives back its pages. -/
theorem Ledger.clearEntry {free₀ : Nat → Bool} {m : Pmm} {g : PageMap}
    (h : Ledger free₀ m g.base g.pages) {x : Nat × Nat} (hb : g.base x ≠ 0) :
    Ledger free₀ (kPmmFreePages (g.base x) (g.pages x) m)
      (PageMap.base (Function.update g x .empty)) (PageMap.pages (Function.update g x .empty)) := by
  refine (h.release hb).congr (fun y => by rw [PageMap.base_update]; rfl) fun y hy => ?_
  rw [PageMap.pages_update]
  rcases eq_or_ne y x with rfl | hne
  · rw [Function.update_self] at hy
    exact absurd rfl hy
  · rw [Function.update_of_ne hne]

/-- An entry without pages is forgotten. -/
theorem Ledger.forget {free₀ : Nat → Bool} {m : Pmm} {g : PageMap}
    (h : Ledger free₀ m g.base g.pages) {x : Nat × Nat} (hb : g.base x = 0) :
    Ledger free₀ m (PageMap.base (Function.update g x .empty))
      (PageMap.pages (Function.update g x .empty)) := by
  refine h.congr (fun y => ?_) fun y hy => ?_
  · rw [PageMap.base_update]
    rcases eq_or_ne y x with rfl | hne
    · rw [Function.update_self, hb]
      rfl
    · rw [Function.update_of_ne hne]
  · rw [PageMap.pages_update]
    rcases eq_or_ne y x with rfl | hne
    · exact absurd hb hy
    · rw [Function.update_of_ne hne]

/-- The tables in memory show the map.  In the slots `ks` of the root the entries are the
kernel's. -/
structure Rep (ks : Nat → Bool) (mem : Bytes) (g : PageMap) : Prop where
  ok : ∀ x, (g x).Ok x.1
  entry : ∀ {l q t}, g (l + 1, q / 512) = .table t → (l = 4 → ks q = false) →
    ptRead mem t (q % 512) = (g (l, q)).enc l
  orphan : ∀ {l q}, 0 < l → l < 5 → (∀ t, g (l + 1, q / 512) ≠ .table t) → g (l, q) = .empty
  kernel : ∀ q, ks q = true → g (4, q) = .empty
  top : ∀ x, 5 ≤ x.1 → x ≠ (5, 0) → g x = .empty

namespace Rep

variable {ks : Nat → Bool} {mem : Bytes} {g : PageMap} {m : Pmm} {l q t : Nat} {e : Ent}

/-- Only the tables matter. -/
theorem congr (h : Rep ks mem g) {mem' : Bytes}
    (hm : ∀ {x p}, g x = .table p → ∀ a, p ≤ a → a < p + 4096 → mem' a = mem a) :
    Rep ks mem' g := by
  refine ⟨h.ok, fun {l q t} ht hk => ?_, h.orphan, h.kernel, h.top⟩
  rw [← h.entry ht hk]
  refine rd64_congr fun i hi => hm ht _ (by omega) ?_
  have := Nat.mod_lt q (show 0 < 512 by omega)
  omega

/-- Two tables of a map lie apart. -/
theorem tables_apart (hheld : PagesHeld m g.base g.pages) {x y : Nat × Nat} {t t' : Nat}
    (hx : g x = .table t) (hy : g y = .table t') (hne : x ≠ y) (h : t ≠ 0) (h' : t' ≠ 0) :
    t + 4096 ≤ t' ∨ t' + 4096 ≤ t := by
  have hbx : g.base x = t := congrArg Ent.base hx
  have hby : g.base y = t' := congrArg Ent.base hy
  have hpx : g.pages x = 1 := by
    rw [PageMap.pages, hx]
    rfl
  have hpy : g.pages y = 1 := by
    rw [PageMap.pages, hy]
    rfl
  have := hheld.apart x y hne (by omega) (by omega)
  omega

/-- Level 0 is no part of the tables. -/
theorem setHand (h : Rep ks mem g) (he : e.Ok 0) : Rep ks mem (Function.update g (0, 0) e) := by
  have hne : ∀ {l' q' : Nat}, 0 < l' → (l', q') ≠ (0, 0) := by
    intro l' q' hl e
    rw [(Prod.mk.inj e).1] at hl
    exact absurd hl (Nat.lt_irrefl 0)
  refine ⟨fun x => ?_, fun {l q t} ht hk => ?_, fun {l q} h₀ h₅ hnt => ?_, fun q hq => ?_,
    fun x hx hx' => ?_⟩
  · rcases eq_or_ne x (0, 0) with rfl | hx
    · rw [Function.update_self]
      exact he
    · rw [Function.update_of_ne hx]
      exact h.ok x
  · rw [Function.update_of_ne (hne (Nat.succ_pos l))] at ht
    rcases Nat.eq_zero_or_pos l with rfl | hl
    · have := h.ok (1, q / 512)
      rw [ht] at this
      exact absurd this.2.2 (by simp)
    · rw [Function.update_of_ne (hne hl)]
      exact h.entry ht hk
  · rw [Function.update_of_ne (hne h₀)]
    refine h.orphan h₀ h₅ fun t ht => hnt t ?_
    rwa [Function.update_of_ne (hne (Nat.succ_pos l))]
  · rw [Function.update_of_ne (hne (by omega))]
    exact h.kernel q hq
  · rw [Function.update_of_ne (by rintro rfl; simp at hx)]
    exact h.top x hx hx'

/-- The entry of one region is written. -/
theorem write (h : Rep ks mem g) (hheld : PagesHeld m (PageMap.base (Function.update g (l, q) e))
      (PageMap.pages (Function.update g (l, q) e)))
    (ht : g (l + 1, q / 512) = .table t) (hl : 0 < l) (hl' : l < 5) (hk : l = 4 → ks q = false)
    (he : e.Ok l)
    (hkids : ∀ p, e = .table p → ∀ i < 512, ptRead mem p i = (g (l - 1, 512 * q + i)).enc (l - 1))
    (hclear : (∀ p, e ≠ .table p) → ∀ i < 512, 1 < l → g (l - 1, 512 * q + i) = .empty) :
    Rep ks (wr64 mem (t + 8 * (q % 512)) (e.enc l)) (Function.update g (l, q) e) := by
  -- an entry's place is told by its table and its index, and tables lie apart
  have hmod : ∀ q, q % 512 < 512 := fun q => Nat.mod_lt q (by omega)
  have hself : Function.update g (l, q) e (l + 1, q / 512) = .table t := by
    rw [Function.update_of_ne (by simp)]
    exact ht
  have hok : ∀ x, (Function.update g (l, q) e x).Ok x.1 := by
    intro x
    rcases eq_or_ne x (l, q) with rfl | hne
    · rw [Function.update_self]
      exact he
    · rw [Function.update_of_ne hne]
      exact h.ok x
  have hnz : ∀ {x p}, Function.update g (l, q) e x = .table p → p ≠ 0 := by
    intro x p hx
    have := hok x
    rw [hx] at this
    exact this.1
  refine ⟨hok, fun {l' q' t'} ht' hk' => ?_, fun {l' q'} h₀ h₅ hnt => ?_, fun s hs => ?_,
    fun x hx hne => ?_⟩
  · by_cases hxy : (l', q') = (l, q)
    · -- the entry that was written
      obtain ⟨rfl, rfl⟩ := Prod.mk.inj hxy
      have htt : t' = t := by
        rw [hself] at ht'
        exact (Ent.table.inj ht').symm
      rw [htt, Function.update_self, ptRead, rd64_wr64 (Ent.enc_lt he)]
    · -- another entry: it is somewhere else
      have hfar : t + 8 * (q % 512) + 8 ≤ t' + 8 * (q' % 512) ∨
          t' + 8 * (q' % 512) + 8 ≤ t + 8 * (q % 512) := by
        have h₁ := hmod q
        have h₂ := hmod q'
        by_cases hpar : (l' + 1, q' / 512) = (l + 1, q / 512)
        · rw [hpar, hself] at ht'
          have htt : t' = t := (Ent.table.inj ht').symm
          obtain ⟨e₁, e₂⟩ := Prod.mk.inj hpar
          have hl : l' = l := by omega
          have hq : q' ≠ q := fun e => hxy (by rw [hl, e])
          omega
        · have := tables_apart hheld ht' hself hpar (hnz ht') (hnz hself)
          omega
      rw [ptRead, rd64_wr64_ne hfar, Function.update_of_ne hxy]
      by_cases hpar : (l' + 1, q' / 512) = (l, q)
      · obtain ⟨rfl, rfl⟩ := Prod.mk.inj hpar
        rw [Function.update_self] at ht'
        have := hkids t' ht' (q' % 512) (hmod q')
        rw [Nat.div_add_mod, Nat.add_sub_cancel] at this
        exact this
      · rw [Function.update_of_ne hpar] at ht'
        exact h.entry ht' hk'
  · by_cases hxy : (l', q') = (l, q)
    · obtain ⟨rfl, rfl⟩ := Prod.mk.inj hxy
      exact absurd hself (hnt t)
    · rw [Function.update_of_ne hxy]
      by_cases hpar : (l' + 1, q' / 512) = (l, q)
      · obtain ⟨rfl, rfl⟩ := Prod.mk.inj hpar
        rw [Function.update_self] at hnt
        have := hclear hnt (q' % 512) (hmod q') (by omega)
        rw [Nat.div_add_mod, Nat.add_sub_cancel] at this
        exact this
      · rw [Function.update_of_ne hpar] at hnt
        exact h.orphan h₀ h₅ hnt
  · have hne : (4, s) ≠ (l, q) := by
      intro e
      obtain ⟨rfl, rfl⟩ := Prod.mk.inj e
      have := hk rfl
      rw [hs] at this
      cases this
    rw [Function.update_of_ne hne]
    exact h.kernel s hs
  · have hne' : x ≠ (l, q) := by
      rintro rfl
      exact absurd hx (by simp only; omega)
    rw [Function.update_of_ne hne']
    exact h.top x hx hne

end Rep

/-! ### The invariant of the tables -/

/-- The slots of the root that belong to the kernel. -/
def kernelSlot (env : MmuEnv) (s₀ : Phys) (slot : Nat) : Bool :=
  Pte.present (ptRead s₀.mem env.kernelPml4 slot)

/-- The tables of a space that was created in `s₀`. -/
structure PtInv (env : MmuEnv) (s₀ : Phys) (root : Nat) (s : Phys) (g : PageMap) : Prop where
  rep : Rep (kernelSlot env s₀) s.mem g
  ledger : Ledger s₀.pmm.free s.pmm g.base g.pages
  frame : ∀ a, s₀.pmm.free (a / 4096) = false → s.mem a = s₀.mem a
  root_eq : g (5, 0) = .table root
  kernel : ∀ slot < 512, kernelSlot env s₀ slot = true →
    ptRead s.mem root slot = ptRead s₀.mem env.kernelPml4 slot

namespace PtInv

variable {env : MmuEnv} {s₀ s : Phys} {root : Nat} {g : PageMap} {l q t : Nat} {e : Ent}

/-- What a holder has was free at the start. -/
theorem free_of_held (h : PtInv env s₀ root s g) {x : Nat × Nat} (hx : g.base x ≠ 0) {a : Nat}
    (h₁ : g.base x ≤ a) (h₂ : a < g.base x + 4096 * g.pages x) : s₀.pmm.free (a / 4096) = true := by
  have hd := Nat.mul_div_cancel' (h.ledger.aligned x hx)
  exact (h.ledger.account _).mpr (Or.inr ⟨x, hx, by omega, by omega⟩)

/-- The pages an entry holds are not free. -/
theorem not_free_of_held (h : PtInv env s₀ root s g) {x : Nat × Nat} (hx : g.base x ≠ 0) {p : Nat}
    (h₁ : g.base x / 4096 ≤ p) (h₂ : p < g.base x / 4096 + g.pages x) : s.pmm.free p = false :=
  (Pmm.held_iff.mp (h.ledger.held x hx) p h₁ h₂).2

/-- No table stands at address zero. -/
theorem table_ne_zero (h : PtInv env s₀ root s g) {x : Nat × Nat} (hx : g x = .table t) :
    t ≠ 0 := by
  have := h.rep.ok x
  rw [hx] at this
  exact this.1

theorem base_table {x : Nat × Nat} (hx : g x = .table t) : g.base x = t := congrArg Ent.base hx

theorem pages_table {x : Nat × Nat} (hx : g x = .table t) : g.pages x = 1 := by
  rw [PageMap.pages, hx]
  rfl

/-- The frame of a page that was free fits an entry. -/
theorem frameOk {start n : Nat} (hm : PmmOk s.pmm) (hn : 0 < n)
    (hrun : ∀ i < n, s.pmm.free (start + i) = true) : 4096 * start ≠ 0 ∧
      FrameOk (4096 * start) := by
  have hf := hm.free_eligible start (hrun 0 hn)
  have h₁ := hm.eligible_ge start hf
  have h₂ := hm.eligible_lt start hf
  simp only [pmmMaxPages] at h₂
  exact ⟨by omega, Nat.dvd_mul_right _ _, by omega⟩

/-- The entry of one region is written, and the books are right again.  The page for it may come
from level 0, where `g₁` differs from `g`. -/
theorem writeFrom (h : PtInv env s₀ root s g) {g₁ : PageMap} (hg : ∀ x, 0 < x.1 → g₁ x = g x)
    (hrep : Rep (kernelSlot env s₀) s.mem g₁) {m : Pmm}
    (hledger : Ledger s₀.pmm.free m (PageMap.base (Function.update g₁ (l, q) e))
      (PageMap.pages (Function.update g₁ (l, q) e)))
    (ht : g (l + 1, q / 512) = .table t) (hl : 0 < l) (hl' : l < 5)
    (hk : l = 4 → kernelSlot env s₀ q = false) (he : e.Ok l)
    (hkids : ∀ p, e = .table p → ∀ i < 512,
      ptRead s.mem p i = (g₁ (l - 1, 512 * q + i)).enc (l - 1))
    (hclear : (∀ p, e ≠ .table p) → ∀ i < 512, 1 < l → g₁ (l - 1, 512 * q + i) = .empty) :
    PtInv env s₀ root (ptWrite t (q % 512) (e.enc l) { s with pmm := m })
      (Function.update g₁ (l, q) e) := by
  have hmod := Nat.mod_lt q (show 0 < 512 by omega)
  have hroot : Function.update g₁ (l, q) e (5, 0) = .table root := by
    rw [Function.update_of_ne (by simp only [ne_eq, Prod.mk.injEq, not_and]; omega),
      hg _ (by simp)]
    exact h.root_eq
  have ht₁ : g₁ (l + 1, q / 512) = .table t := (hg _ (by simp)).trans ht
  refine ⟨hrep.write hledger.toPagesHeld ht₁ hl hl' hk he hkids hclear, hledger, fun a ha => ?_,
    hroot, fun slot hs hks => ?_⟩
  · -- the table is not a page that was taken at the start
    have hout : ¬ (t + 8 * (q % 512) ≤ a ∧ a < t + 8 * (q % 512) + 8) := by
      intro hin
      have htz := h.table_ne_zero ht
      have := h.free_of_held (x := (l + 1, q / 512)) (a := a) (by rw [base_table ht]; exact htz)
        (by rw [base_table ht]; omega) (by rw [base_table ht, pages_table ht]; omega)
      rw [ha] at this
      cases this
    show wr64 s.mem _ _ a = s₀.mem a
    rw [wr64, wrBytes, if_neg hout]
    exact h.frame a ha
  · -- the kernel's entries of the root are in other slots
    rw [← h.kernel slot hs hks]
    refine rd64_wr64_ne ?_
    by_cases hx : (l + 1, q / 512) = (5, 0)
    · obtain ⟨e₁, e₂⟩ := Prod.mk.inj hx
      obtain rfl : l = 4 := by omega
      rw [hx, h.root_eq] at ht
      have htr : root = t := Ent.table.inj ht
      have hne : slot ≠ q := by
        rintro rfl
        rw [hk rfl] at hks
        cases hks
      omega
    · have := Rep.tables_apart h.ledger.toPagesHeld ht h.root_eq hx (h.table_ne_zero ht)
        (h.table_ne_zero h.root_eq)
      omega

/-- One entry of a table of the map written, and the map changed with it, keeps the invariant. -/
theorem write (h : PtInv env s₀ root s g) {m : Pmm}
    (hledger : Ledger s₀.pmm.free m (PageMap.base (Function.update g (l, q) e))
      (PageMap.pages (Function.update g (l, q) e)))
    (ht : g (l + 1, q / 512) = .table t) (hl : 0 < l) (hl' : l < 5)
    (hk : l = 4 → kernelSlot env s₀ q = false) (he : e.Ok l)
    (hkids : ∀ p, e = .table p → ∀ i < 512, ptRead s.mem p i = (g (l - 1, 512 * q + i)).enc (l - 1))
    (hclear : (∀ p, e ≠ .table p) → ∀ i < 512, 1 < l → g (l - 1, 512 * q + i) = .empty) :
    PtInv env s₀ root (ptWrite t (q % 512) (e.enc l) { s with pmm := m })
      (Function.update g (l, q) e) :=
  h.writeFrom (fun _ _ => rfl) h.rep hledger ht hl hl' hk he hkids hclear

/-- Free pages are no part of the map, so they may be zeroed. -/
theorem zeroed (h : PtInv env s₀ root s g) {start n alignment : Nat}
    (hrun : FreeRun s.pmm.free n alignment start) :
    PtInv env s₀ root { s with mem := (s.claim start n).mem } g := by
  have hfree : ∀ p, start ≤ p → p < start + n → s.pmm.free p = true := by
    intro p h₁ h₂
    have := hrun.2 (p - start) (by omega)
    rwa [show start + (p - start) = p by omega] at this
  have hapart : ∀ {x p}, g x = .table p → ∀ a, p ≤ a → a < p + 4096 →
      (s.claim start n).mem a = s.mem a := by
    intro x p hx a h₁ h₂
    have hpz := h.table_ne_zero hx
    have hd := Nat.mul_div_cancel' (h.ledger.aligned x (by rw [base_table hx]; exact hpz))
    rw [base_table hx] at hd
    have hnf := h.not_free_of_held (x := x) (p := p / 4096) (by rw [base_table hx]; exact hpz)
      (by rw [base_table hx]) (by rw [base_table hx, pages_table hx]; omega)
    show memZero s.mem _ _ a = s.mem a
    rw [memZero, if_neg]
    intro hin
    rw [hfree (p / 4096) (by omega) (by omega)] at hnf
    cases hnf
  refine ⟨h.rep.congr hapart, h.ledger, fun a ha => ?_, h.root_eq, fun slot hs hks => ?_⟩
  · show memZero s.mem _ _ a = s₀.mem a
    rw [memZero, if_neg]
    · exact h.frame a ha
    · intro hin
      rw [(h.ledger.account _).mpr (Or.inl (hfree (a / 4096) (by omega) (by omega)))] at ha
      cases ha
  · rw [← h.kernel slot hs hks]
    exact rd64_congr fun i hi => hapart h.root_eq _ (by omega) (by omega)

/-- A run the allocator gives out does not start at page zero. -/
theorem start_ne_zero (h : PtInv env s₀ root s g) {start n alignment : Nat} (hn : 0 < n)
    (hrun : FreeRun s.pmm.free n alignment start) : start ≠ 0 := by
  have := (frameOk h.ledger.ok hn hrun.2).1
  omega

/-- Nothing lies below an entry that is no table. -/
theorem below_empty (h : PtInv env s₀ root s g) (hl' : l < 5) (hnt : ∀ p, g (l, q) ≠ .table p) :
    ∀ i < 512, 1 < l → g (l - 1, 512 * q + i) = .empty := by
  intro i hi h1
  refine h.rep.orphan (by omega) (by omega) fun p hp => hnt p ?_
  rwa [show l - 1 + 1 = l by omega, show (512 * q + i) / 512 = q by omega] at hp

/-- Pages are taken from the allocator for a region, and its entry is written. -/
theorem allocWrite (h : PtInv env s₀ root s g) {start n alignment : Nat} (hn : 0 < n)
    (hrun : FreeRun s.pmm.free n alignment start) (hb : g.base (l, q) = 0)
    (hnt : ∀ p, g (l, q) ≠ .table p) (heb : e.base = 4096 * start) (hep : e.pages l = n)
    (ht : g (l + 1, q / 512) = .table t) (hl : 0 < l) (hl' : l < 5)
    (hk : l = 4 → kernelSlot env s₀ q = false) (he : e.Ok l) :
    PtInv env s₀ root (ptWrite t (q % 512) (e.enc l) (s.claim start n))
      (Function.update g (l, q) e) := by
  have hledger : Ledger s₀.pmm.free (s.claim start n).pmm
      (PageMap.base (Function.update g (l, q) e)) (PageMap.pages (Function.update g (l, q) e)) := by
    rw [PageMap.base_update, PageMap.pages_update, heb, hep]
    exact h.ledger.claim hb hn hrun (h.start_ne_zero hn hrun)
  refine (h.zeroed hrun).write hledger ht hl hl' hk he (fun p hp i hi => ?_)
    fun _ => h.below_empty hl' hnt
  -- a new table is all zero
  subst hp
  have hp : p = 4096 * start := heb
  have hl1 : 1 < l := he.2.2
  rw [h.below_empty hl' hnt i hi hl1, ptRead]
  have hz : rd64 (s.claim start n).mem (p + 8 * i) = rd64 (fun _ => 0) 0 := by
    refine rd64_congr fun j hj => ?_
    show memZero s.mem _ _ _ = 0
    rw [memZero, if_pos (by omega)]
  rw [hz]
  rfl

/-! ### The page in hand -/

/-- One page is taken from the allocator. -/
theorem toHand (h : PtInv env s₀ root s g) {start alignment : Nat}
    (hrun : FreeRun s.pmm.free 1 alignment start) (hh : g (0, 0) = .empty) :
    PtInv env s₀ root (s.claim start 1) (Function.update g (0, 0) (.page (4096 * start) 1)) := by
  obtain ⟨hz, hf⟩ := frameOk h.ledger.ok Nat.one_pos hrun.2
  have hb : g.base (0, 0) = 0 := congrArg Ent.base hh
  have h₁ := h.zeroed hrun
  refine ⟨h₁.rep.setHand ⟨hz, hf, rfl, by omega, by omega⟩, ?_, h₁.frame, ?_, h₁.kernel⟩
  · rw [PageMap.base_update, PageMap.pages_update]
    exact h.ledger.claim hb Nat.one_pos hrun (h.start_ne_zero Nat.one_pos hrun)
  · rw [Function.update_of_ne (by simp)]
    exact h.root_eq

/-- The page in hand goes back. -/
theorem dropHand (h : PtInv env s₀ root s g) {p rwx : Nat} (hh : g (0, 0) = .page p rwx) :
    PtInv env s₀ root { s with pmm := pmmFreePage p s.pmm } (Function.update g (0, 0) .empty) := by
  have hb : g.base (0, 0) = p := congrArg Ent.base hh
  have hp : g.pages (0, 0) = 1 := by
    rw [PageMap.pages, hh]
    rfl
  have hpz : p ≠ 0 := by
    have := h.rep.ok (0, 0)
    rw [hh] at this
    exact this.1
  refine ⟨h.rep.setHand trivial, ?_, h.frame, ?_, h.kernel⟩
  · have := h.ledger.clearEntry (x := (0, 0)) (by rw [hb]; exact hpz)
    rwa [hb, hp] at this
  · rw [Function.update_of_ne (by simp)]
    exact h.root_eq

/-- The page in hand is mapped. -/
theorem fromHand (h : PtInv env s₀ root s g) {p r rwx : Nat} (hh : g (0, 0) = .page p r)
    (he : g (1, q) = .empty) (ht : g (2, q / 512) = .table t) (hr : rwxOk rwx = true) :
    PtInv env s₀ root (ptWrite t (q % 512) (p ||| leafFlags rwx ||| pagePresent) s)
      (Function.update (Function.update g (0, 0) .empty) (1, q) (.page p rwx)) := by
  have hok := h.rep.ok (0, 0)
  rw [hh] at hok
  have hb : g.base (0, 0) = p := congrArg Ent.base hh
  have hp : g.pages (0, 0) = 1 := by
    rw [PageMap.pages, hh]
    rfl
  have hledger : Ledger s₀.pmm.free s.pmm
      (PageMap.base (Function.update (Function.update g (0, 0) .empty) (1, q) (.page p rwx)))
      (PageMap.pages (Function.update (Function.update g (0, 0) .empty) (1, q) (.page p rwx))) := by
    have := h.ledger.move (x := (0, 0)) (y := (1, q)) (congrArg Ent.base he)
      (by rw [hb]; exact hok.1)
    rw [hb, hp] at this
    refine this.congr (fun y => by rw [PageMap.base_update, PageMap.base_update]; rfl)
      fun y hy => ?_
    rw [PageMap.pages_update, PageMap.pages_update]
    rcases eq_or_ne y (1, q) with rfl | hne
    · simp only [Function.update_self]
      rfl
    · rw [Function.update_of_ne hne] at hy
      simp only [Function.update_of_ne hne]
      rcases eq_or_ne y (0, 0) with rfl | hne'
      · rw [Function.update_self] at hy
        exact absurd rfl hy
      · rw [Function.update_of_ne hne']
  refine h.writeFrom (e := .page p rwx) (fun x hx => ?_)
    (h.rep.setHand (e := .empty) trivial) hledger ht
    Nat.one_pos (by omega) (by omega) ⟨hok.1, hok.2.1, hr, by omega, by omega⟩
    (fun p hp => by cases hp) fun _ i _ h1 => by omega
  exact Function.update_of_ne (by rintro rfl; exact absurd hx (by simp)) _ _

/-! ### Data -/

/-- The bytes of a page are no part of the tables. -/
theorem data (h : PtInv env s₀ root s g) {x : Nat × Nat} {p rwx : Nat} (hx : g x = .page p rwx)
    {mem : Bytes} (hm : ∀ a, ¬ (p ≤ a ∧ a < p + 4096 * g.pages x) → mem a = s.mem a) :
    PtInv env s₀ root { s with mem := mem } g := by
  have hpz : g.base x ≠ 0 := by
    have := h.rep.ok x
    rw [hx] at this
    rw [show g.base x = p from congrArg Ent.base hx]
    exact this.1
  have hb : g.base x = p := congrArg Ent.base hx
  have htab : ∀ {y t}, g y = .table t → ∀ a, t ≤ a → a < t + 4096 → mem a = s.mem a := by
    intro y t hy a h₁ h₂
    have hne : y ≠ x := by
      rintro rfl
      rw [hx] at hy
      cases hy
    have := h.ledger.apart y x hne (by rw [base_table hy]; exact h.table_ne_zero hy) hpz
    rw [base_table hy, pages_table hy, hb] at this
    exact hm a (by omega)
  refine ⟨h.rep.congr htab, h.ledger, fun a ha => ?_, h.root_eq, fun slot hs hks => ?_⟩
  · rw [← h.frame a ha]
    refine hm a fun hin => ?_
    rw [h.free_of_held hpz (by rw [hb]; exact hin.1) (by rw [hb]; exact hin.2)] at ha
    cases ha
  · rw [← h.kernel slot hs hks]
    exact rd64_congr fun i hi => htab h.root_eq _ (by omega) (by omega)

end PtInv

/-! ### Regions -/

theorem ptSpan_pos (l : Nat) : 0 < ptSpan l := Nat.two_pow_pos _

/-- An entry spans the 512 below it. -/
theorem ptSpan_succ {l : Nat} (hl : 0 < l) : ptSpan (l + 1) = ptSpan l * 512 := by
  rw [ptSpan, ptSpan, show (512 : Nat) = 2 ^ 9 from rfl, ← Nat.pow_add]
  congr 1
  omega

/-- The region of `v` one level up. -/
theorem region_div {v l : Nat} (hl : 0 < l) : v / ptSpan l / 512 = v / ptSpan (l + 1) := by
  rw [ptSpan_succ hl, Nat.div_div_eq_div_mul]

/-! ### Translation -/

/-- The physical address and the permissions of `v`. -/
def PageMap.view (g : PageMap) (v : Nat) : Option (Nat × Nat) :=
  match g (1, v / ptSpan 1) with
  | .page p rwx => some (p + v % ptSpan 1, rwx)
  | _ =>
      match g (2, v / ptSpan 2) with
      | .page p rwx => some (p + v % ptSpan 2, rwx)
      | _ => none

namespace PtInv

variable {env : MmuEnv} {s₀ s : Phys} {root : Nat} {g : PageMap}

/-- The walk below a table, one level at a time. -/
theorem vmmWalk_step (h : PtInv env s₀ root s g) {l v t : Nat} (hl : 0 < l) (hl' : l < 5)
    (ht : g (l + 1, v / ptSpan (l + 1)) = .table t)
    (hk : l = 4 → kernelSlot env s₀ (v / ptSpan 4) = false) {user rw nx : Bool} :
    vmmWalk s.mem v l t user rw nx =
      match g (l, v / ptSpan l) with
      | .table p => vmmWalk s.mem v (l - 1) p user rw nx
      | .page p rwx => some (p + v % ptSpan l, user, rw && regionW rwx, nx || !regionX rwx)
      | _ => none := by
  obtain ⟨k, rfl⟩ : ∃ k, l = k + 1 := ⟨l - 1, by omega⟩
  have hread :
      ptRead s.mem t (ptIndex v (k + 1)) = (g (k + 1, v / ptSpan (k + 1))).enc (k + 1) := by
    rw [← region_div hl] at ht
    refine h.rep.entry ht fun e => ?_
    rw [e]
    exact hk e
  have hok := h.rep.ok (k + 1, v / ptSpan (k + 1))
  rw [vmmWalk, hread]
  cases hg : g (k + 1, v / ptSpan (k + 1)) with
  | empty =>
      have hp : Pte.present (Ent.enc (k + 1) .empty) = false := Nat.zero_testBit 0
      simp only [hp, Bool.not_false, if_true]
  | table p =>
      rw [hg] at hok
      obtain ⟨e₁, e₂, e₃, e₄, e₅, e₆⟩ := Ent.enc_table (k + 1) hok.2.1
      have hk0 : k ≠ 0 := by
        have : 2 ≤ k + 1 := hok.2.2
        omega
      simp only [e₁, e₂, e₃, e₄, e₅, e₆, Bool.not_true, Bool.false_eq_true, if_false,
        hk0, and_false, or_false, Bool.and_true, Bool.or_false, Nat.add_sub_cancel]
  | page p rwx =>
      rw [hg] at hok
      obtain ⟨e₁, e₂, e₃, e₄, e₅, e₆⟩ := Ent.enc_page (k + 1) rwx hok.2.1
      have hle : k + 1 ≤ 2 := hok.2.2.2.1
      have hstop : k = 0 ∨ (k = 1 ∨ k = 2) ∧ decide (k + 1 = 2) = true := by
        rcases Nat.eq_zero_or_pos k with e | e
        · exact Or.inl e
        · have : k = 1 := by omega
          subst this
          exact Or.inr ⟨Or.inl rfl, rfl⟩
      have hal : p / ptSpan (k + 1) * ptSpan (k + 1) = p := by
        refine Nat.div_mul_cancel ?_
        rcases Nat.eq_zero_or_pos k with rfl | e
        · exact hok.2.1.1
        · have : k = 1 := by omega
          subst this
          exact hok.2.2.2.2 rfl
      simp only [e₁, e₂, e₃, e₄, e₅, e₆, Bool.not_true, Bool.false_eq_true, if_false,
        hstop, if_true, Bool.and_true, hal]
  | lazy rwx =>
      simp only [(Ent.enc_lazy (k + 1) rwx).1, Bool.not_false, if_true]

end PtInv

end Efishell
