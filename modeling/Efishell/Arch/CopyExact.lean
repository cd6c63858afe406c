import Efishell.Arch.SpaceRun

/-!
# Paging — user copies are all or nothing

What a user sees at an address (`userByte`) is the byte its page tables lead to, or zero where a
page is still to be made on demand.

Main results:

* `SpaceInv.copyExact`: a copy that fails changes nothing that a user sees, and one that succeeds
  moves exactly the bytes it names.
* `SpaceInv.checkedRange`: what `x86_64_as_check` lets through.
* `user_copies`: both, at any point of the life of a space.
-/

namespace Efishell

/-- The byte a user reads at `v`. -/
def userByte (w : Vm) (v : Nat) : Option UInt8 :=
  match vmmTranslate w.phys.mem w.as.root v with
  | some t => if t.user then some (w.phys.mem t.phys) else none
  | none => if canonical v && userLeaf w.phys.mem v 4 w.as.root then some 0 else none

namespace Ent

/-- Whether the entry is one of a page to be made on demand. -/
def isLazy : Ent → Bool
  | .lazy _ => true
  | _ => false

end Ent

/-- The byte that the map shows at `v`. -/
def PageMap.byte (g : PageMap) (mem : Bytes) (v : Nat) : Option UInt8 :=
  match g.view v with
  | some r => some (mem r.1)
  | none => if (g (1, v / ptSpan 1)).isLazy then some 0 else none

variable {env : MmuEnv} {s₀ : Phys} {w w₀ : Vm} {g : PageMap}

/-! ### The tables and the map -/

namespace PtInv

variable {root : Nat} {s : Phys}

/-- The walk of `userLeaf` below a table, one level at a time. -/
theorem userLeaf_step (h : PtInv env s₀ root s g) {l v t : Nat} (hl : 0 < l) (hl' : l < 5)
    (ht : g (l + 1, v / ptSpan (l + 1)) = .table t)
    (hk : l = 4 → kernelSlot env s₀ (v / ptSpan 4) = false) :
    userLeaf s.mem v l t =
      match g (l, v / ptSpan l) with
      | .table p => userLeaf s.mem v (l - 1) p
      | .empty => false
      | _ => true := by
  obtain ⟨k, rfl⟩ : ∃ k, l = k + 1 := ⟨l - 1, by omega⟩
  have hread :
      ptRead s.mem t (ptIndex v (k + 1)) = (g (k + 1, v / ptSpan (k + 1))).enc (k + 1) := by
    rw [← region_div hl] at ht
    refine h.rep.entry ht fun e => ?_
    rw [e]
    exact hk e
  have hok := h.rep.ok (k + 1, v / ptSpan (k + 1))
  rw [userLeaf, hread]
  cases hg : g (k + 1, v / ptSpan (k + 1)) with
  | empty =>
      have hu : Pte.user (Ent.enc (k + 1) .empty) = false := Nat.zero_testBit 2
      simp only [hu, Bool.not_false, if_true]
  | table p =>
      rw [hg] at hok
      obtain ⟨e₁, e₂, e₃, -, -, e₆⟩ := Ent.enc_table (k + 1) hok.2.1
      have hk0 : k ≠ 0 := by
        have : 2 ≤ k + 1 := hok.2.2
        omega
      simp only [e₁, e₂, e₃, e₆, Bool.not_true, Bool.false_eq_true, if_false, hk0, and_false,
        or_false, Nat.add_sub_cancel]
  | page p rwx =>
      rw [hg] at hok
      obtain ⟨e₁, e₂, e₃, -, -, -⟩ := Ent.enc_page (k + 1) rwx hok.2.1
      have hle : k + 1 ≤ 2 := hok.2.2.2.1
      have hstop : k = 0 ∨ (k = 1 ∨ k = 2) ∧ decide (k + 1 = 2) = true := by
        rcases Nat.eq_zero_or_pos k with e | e
        · exact Or.inl e
        · have : k = 1 := by omega
          subst this
          exact Or.inr ⟨Or.inl rfl, rfl⟩
      simp only [e₁, e₂, e₃, Bool.not_true, Bool.false_eq_true, if_false, hstop, if_true]
  | lazy rwx =>
      obtain ⟨e₁, e₂, e₃, -⟩ := Ent.enc_lazy (k + 1) rwx
      simp only [e₁, e₂, e₃, Bool.not_true, Bool.not_false, Bool.false_eq_true, if_false, if_true]

/-- Where nothing is shown the walk finds a leaf for the user only if one is to be made. -/
theorem userLeaf_lazy (h : PtInv env s₀ root s g) {v : Nat} (hv : v < 2 ^ 47)
    (hk : kernelSlot env s₀ (v / ptSpan 4) = false) (hnone : g.view v = none) :
    userLeaf s.mem v 4 root = (g (1, v / ptSpan 1)).isLazy := by
  have hup : ∀ l, 0 < l → l < 4 → (∀ t, g (l + 1, v / ptSpan (l + 1)) ≠ .table t) →
      g (l, v / ptSpan l) = .empty := fun l h₀ h₄ => h.empty_of_parent h₀ (by omega)
  -- an entry above the leaves is a table or there is nothing below it
  have hhigh : ∀ l, 3 ≤ l → l ≤ 4 → (∃ p, g (l, v / ptSpan l) = .table p) ∨
      g (l, v / ptSpan l) = .empty := by
    intro l h₃ h₄
    have hok := h.rep.ok (l, v / ptSpan l)
    cases hg : g (l, v / ptSpan l) with
    | empty => exact Or.inr rfl
    | table p => exact Or.inl ⟨p, rfl⟩
    | page p rwx =>
        rw [hg] at hok
        have : l ≤ 2 := hok.2.2.2.1
        omega
    | lazy rwx =>
        rw [hg] at hok
        have : l = 1 := hok.2
        omega
  have hbelow : ∀ l, 1 < l → l ≤ 4 → g (l, v / ptSpan l) = .empty →
      g (1, v / ptSpan 1) = .empty := by
    intro l h₁ h₄
    induction l, h₁ using Nat.le_induction with
    | base => exact fun e => hup 1 (by omega) (by omega) (by simp [e])
    | succ l hl ih =>
        intro e
        exact ih (by omega) (hup l (by omega) (by omega) (by simp [e]))
  rw [h.userLeaf_step (by omega) (by omega) (h.root_of_lt (by omega)) fun _ => hk]
  rcases hhigh 4 (by omega) (by omega) with ⟨t₃, h4⟩ | h4
  · rw [h4]
    dsimp only
    rw [h.userLeaf_step (by omega) (by omega) h4 (by omega)]
    rcases hhigh 3 (by omega) (by omega) with ⟨t₂, h3⟩ | h3
    · rw [h3]
      dsimp only
      rw [h.userLeaf_step (by omega) (by omega) h3 (by omega)]
      have hok := h.rep.ok (2, v / ptSpan 2)
      cases h2 : g (2, v / ptSpan 2) with
      | empty =>
          rw [hbelow 2 (by omega) (by omega) h2]
          rfl
      | page p rwx =>
          rw [PageMap.view, hup 1 (by omega) (by omega) (by simp [h2]), h2] at hnone
          cases hnone
      | lazy rwx =>
          rw [h2] at hok
          exact absurd hok.2 (by simp)
      | table t₁ =>
          dsimp only
          rw [h.userLeaf_step (by omega) (by omega) h2 (by omega)]
          have hok := h.rep.ok (1, v / ptSpan 1)
          cases h1 : g (1, v / ptSpan 1) with
          | empty => rfl
          | table p =>
              rw [h1] at hok
              exact absurd hok.2.2 (by simp)
          | page p rwx =>
              rw [PageMap.view, h1] at hnone
              cases hnone
          | lazy rwx => rfl
    · rw [h3, hbelow 3 (by omega) (by omega) h3]
      rfl
  · rw [h4, hbelow 4 (by omega) (by omega) h4]
    rfl

end PtInv

namespace SpaceInv

/-- Below a slot of the root that the space does not have, the map is empty. -/
theorem byte_none (h : SpaceInv env s₀ w g) {v : Nat} (h4 : g (4, v / ptSpan 4) = .empty)
    (mem : Bytes) :
    g.byte mem v = none := by
  have h3 : g (3, v / ptSpan 3) = .empty :=
    h.tables.empty_of_parent (by omega) (by omega) (by simp [h4])
  have h2 : g (2, v / ptSpan 2) = .empty :=
    h.tables.empty_of_parent (by omega) (by omega) (by simp [h3])
  have h1 : g (1, v / ptSpan 1) = .empty :=
    h.tables.empty_of_parent (by omega) (by omega) (by simp [h2])
  simp [PageMap.byte, PageMap.view, h1, h2, Ent.isLazy]

/-- Outside the slots of the space no walk ends in a leaf of the user. -/
theorem userLeaf_outside (h : SpaceInv env s₀ w g) (hk : KernelOk env s₀) {v : Nat}
    (hc : canonical v = true) (h4 : g (4, v / ptSpan 4) = .empty) :
    userLeaf w.phys.mem v 4 w.as.root = false := by
  have hlt := ptIndex_lt v 4
  by_cases hs : kernelSlot env s₀ (ptIndex v 4) = true
  · rw [userLeaf, h.tables.kernel _ hlt hs]
    simp [hk.supervisor _ hlt hs]
  · have hempty : g (4, ptIndex v 4) = .empty := by
      by_cases hv : v < 2 ^ 47
      · rw [ptIndex, Nat.mod_eq_of_lt]
        · exact h4
        · rw [show ptSpan 4 = 2 ^ 39 from rfl]
          omega
      · by_contra hne
        have := (h.owned _ hne).1
        simp only [canonical, Bool.or_eq_true, beq_iff_eq] at hc
        rw [ptIndex, show ptSpan 4 = 2 ^ 39 from rfl] at this
        omega
    have hread : ptRead w.phys.mem w.as.root (ptIndex v 4) = (g (4, ptIndex v 4)).enc 4 := by
      have := h.tables.rep.entry (l := 4) (q := ptIndex v 4) (t := w.as.root)
        (by rw [Nat.div_eq_of_lt hlt]; exact h.tables.root_eq) fun _ => by simpa using hs
      rwa [Nat.mod_eq_of_lt hlt] at this
    have hu : Pte.user (Ent.enc 4 .empty) = false := Nat.zero_testBit 2
    rw [userLeaf, hread, hempty, hu]
    rfl

/-- **What the user sees is what the map shows.** -/
theorem userByte_eq (h : SpaceInv env s₀ w g) (hk : KernelOk env s₀) (v : Nat) :
    userByte w v = g.byte w.phys.mem v := by
  by_cases h4 : g (4, v / ptSpan 4) = .empty
  · rw [h.byte_none h4, userByte]
    cases ht : vmmTranslate w.phys.mem w.as.root v with
    | none =>
        by_cases hc : canonical v = true
        · simp [h.userLeaf_outside hk hc h4]
        · simp [hc]
    | some t =>
        have hu : t.user = false := by
          by_contra hne
          obtain ⟨-, r, hr, -⟩ := h.translate_user hk ht (by simpa using hne)
          have hb := h.byte_none h4 w.phys.mem
          rw [PageMap.byte, hr] at hb
          cases hb
        simp [hu]
  · obtain ⟨hslot, howned⟩ := h.owned _ h4
    have hks := h.not_kernel _ hslot howned
    have hv : v < 2 ^ 47 := by
      rw [show ptSpan 4 = 2 ^ 39 from rfl] at hslot
      omega
    have hc : canonical v = true := by
      rw [canonical, Nat.div_eq_of_lt hv]
      rfl
    rw [userByte, h.tables.translate hv hks, PageMap.byte]
    cases hview : g.view v with
    | some r => simp
    | none => simp [hc, h.tables.userLeaf_lazy hv hks hview]

end SpaceInv

/-! ### Faults and copies in terms of bytes -/

/-- The bytes of a page stay when pages are made on demand. -/
theorem DataEq.view {s s' : Phys} (hd : DataEq g s s') {v : Nat} {r : Nat × Nat}
    (hr : g.view v = some r) : s'.mem r.1 = s.mem r.1 := by
  obtain ⟨l, p, hl, hx, hp⟩ := PtInv.view_iff hr
  have hm := Nat.mod_lt v (ptSpan_pos l)
  refine hd hx _ (by omega) ?_
  rw [PtInv.pages_span hl hx]
  omega

/-- Pages that are made on demand read as before. -/
theorem Faulted.byte {g' : PageMap} {s s' s'' : Phys} {root : Nat} (hf : Faulted g g' s s')
    (h' : PtInv env s₀ root s'' g') (v : Nat) :
    g'.byte s'.mem v = g.byte s.mem v := by
  cases hview : g.view v with
  | some r =>
      rw [PageMap.byte, PageMap.byte, h'.view_mono hf.page hview, hview]
      dsimp only
      rw [DataEq.view hf.data hview]
  | none =>
      rcases hf.entries (1, v / ptSpan 1) with e | ⟨rwx, -, hlazy, p, hp, hz⟩
      · -- nothing happened here
        have hview' : g'.view v = none := by
          rw [PageMap.view, e, hf.high (by simp : (2, v / ptSpan 2).1 ≠ 1)]
          exact hview
        rw [PageMap.byte, PageMap.byte, hview', hview, e]
      · -- the page was made, and it is zero
        have hm := Nat.mod_lt v (ptSpan_pos 1)
        have hzero : s'.mem (p + v % ptSpan 1) = 0 := by
          refine hz _ (by omega) ?_
          rw [hp, show 4096 * Ent.pages 1 (.page p rwx) = ptSpan 1 from rfl]
          omega
        rw [PageMap.byte, PageMap.byte, hview, PageMap.view, hp, hlazy]
        simp only [hzero, Ent.isLazy, if_true]

/-- A byte a user page holds can be read. -/
theorem UserAt.byte {write : Bool} {v : Nat} (h : UserAt env s₀ g write v) (mem : Bytes) :
    g.byte mem v ≠ none := by
  obtain ⟨-, -, r, hr, -⟩ := h
  rw [PageMap.byte, hr]
  simp

/-- What a check accepts, it finds in the tables. -/
theorem UserAt.translate {write : Bool} {v : Nat} (h : UserAt env s₀ g write v)
    (ht : PtInv env s₀ w.as.root w.phys g) :
    ∃ t, vmmTranslate w.phys.mem w.as.root v = some t ∧ t.user = true ∧
      (write = true → t.rw = true) := by
  obtain ⟨hv, hks, r, hr, hw⟩ := h
  rw [ht.translate hv hks, hr]
  exact ⟨_, rfl, rfl, hw⟩

/-! ### The guarantees -/

/-- What a call of `x86_64_as_copy` did, from `w` to `w'`.  If it failed, what the user sees and the
buffer are as before.  If it succeeded, the bytes it names were moved and no other; without the
loader's right a write is to pages that the user may write.  What was in use when the space was
created stays as it is. -/
structure CopyExact (s₀ : Phys) (u : Nat) (buf : Bytes) (n : Nat) (toUser loader : Bool) (w : Vm)
    (r : Except Errno Unit) (buf' : Bytes) (w' : Vm) : Prop where
  failed : ∀ e, r = .error e → (∀ v, userByte w' v = userByte w v) ∧ buf' = buf
  written : r = .ok () → toUser = true → buf' = buf ∧
    (∀ v, userByte w' v = if u ≤ v ∧ v < u + n then some (buf (v - u)) else userByte w v) ∧
    ∀ v, u ≤ v → v < u + n → ∃ t, vmmTranslate w'.phys.mem w'.as.root v = some t ∧
      t.user = true ∧ (loader = false → t.rw = true)
  read : r = .ok () → toUser = false → (∀ v, userByte w' v = userByte w v) ∧
    ∀ i, if i < n then userByte w (u + i) = some (buf' i) else buf' i = buf i
  rest : ∀ a, s₀.pmm.free (a / 4096) = false → w'.phys.mem a = w.phys.mem a

/-- `as_copy` in a space that satisfies its invariant. -/
theorem SpaceInv.copyExact (h : SpaceInv env s₀ w g) (hk : KernelOk env s₀) (u : Nat) (buf : Bytes)
    (n : Nat) (toUser loader : Bool) {r : Except Errno Unit} {buf' : Bytes} {w' : Vm}
    (he : asCopy u buf n toUser loader w = (r, buf', w')) :
    CopyExact s₀ u buf n toUser loader w r buf' w' := by
  cases toUser with
  | true =>
      -- to the user: the pages may have been faulted in, and then only the named bytes change
      obtain ⟨has, g', s₁, ht, hf, -, hbuf, hres⟩ := h.tables.asCopy_to hk u buf n loader
      rw [he] at has ht hbuf hres
      dsimp only at has ht hbuf hres
      have h' : SpaceInv env s₀ w' g' := h.fault has ht fun x hx => hf.high hx
      refine ⟨fun e hre => ?_, fun hre _ => ?_, (fun _ hto => nomatch hto), fun a ha => ?_⟩
      · rcases hres with ⟨hok, -⟩ | ⟨-, hs⟩
        · rw [hre] at hok
          cases hok
        · refine ⟨fun v => ?_, hbuf⟩
          rw [← hs] at hf
          rw [h'.userByte_eq hk, h.userByte_eq hk, hf.byte ht]
      · rcases hres with ⟨-, huser, hmem⟩ | ⟨⟨e, hne⟩, -⟩
        · refine ⟨hbuf, fun v => ?_, fun v h₁ h₂ => ?_⟩
          · rw [h'.userByte_eq hk, h.userByte_eq hk, ← hf.byte ht, PageMap.byte, PageMap.byte]
            cases hview : g'.view v with
            | some r' =>
                dsimp only
                rw [hmem hview]
                split <;> rfl
            | none =>
                have hout : ¬ (u ≤ v ∧ v < u + n) := by
                  rintro ⟨h₁, h₂⟩
                  obtain ⟨-, -, r', hr', -⟩ := huser v h₁ h₂
                  rw [hview] at hr'
                  cases hr'
                rw [if_neg hout]
          · obtain ⟨t, e₁, e₂, e₃⟩ := (huser v h₁ h₂).translate h'.tables
            exact ⟨t, e₁, e₂, fun hl => e₃ (by rw [hl]; rfl)⟩
        · rw [hre] at hne
          cases hne
      · rw [ht.frame a ha, h.tables.frame a ha]
  | false =>
      obtain ⟨has, g', ht, hf, hres⟩ := h.tables.asCopy_from hk u buf n loader
      rw [he] at has ht hf hres
      dsimp only at has ht hf hres
      have h' : SpaceInv env s₀ w' g' := h.fault has ht fun x hx => hf.high hx
      -- from the user: what the user sees stays as it is
      have hsame : ∀ v, userByte w' v = userByte w v := fun v => by
        rw [h'.userByte_eq hk, h.userByte_eq hk, hf.byte ht]
      refine ⟨fun e hre => ?_, (fun _ hto => nomatch hto), fun hre _ => ⟨hsame, fun i => ?_⟩,
        fun a ha => ?_⟩
      · rcases hres with ⟨hok, -⟩ | ⟨-, hb⟩
        · rw [hre] at hok
          cases hok
        · exact ⟨hsame, hb⟩
      · rcases hres with ⟨-, -, hbytes⟩ | ⟨⟨e, hne⟩, -⟩
        · have := hbytes i
          by_cases hi : i < n
          · rw [if_pos hi] at this ⊢
            obtain ⟨r', hview, hb⟩ := this
            rw [← hsame, h'.userByte_eq hk, PageMap.byte, hview, hb]
          · rwa [if_neg hi] at this ⊢
        · rw [hre] at hne
          cases hne
      · rw [ht.frame a ha, h.tables.frame a ha]

/-- What `x86_64_as_check` may accept: a range that does not wrap and lies in the user's half, where
the user sees every byte, and for a write has the right to write it. -/
structure CheckedRange (address bytes : Nat) (write : Bool) (w w' : Vm) : Prop where
  low : 0x10000 ≤ address
  high : address + bytes ≤ kUserCanonLimit
  sees : ∀ v, address ≤ v → v < address + bytes → userByte w v ≠ none
  user : ∀ v, address ≤ v → v < address + bytes → ∃ t,
    vmmTranslate w'.phys.mem w'.as.root v = some t ∧ t.user = true ∧ (write = true → t.rw = true)

/-- A range `x86_64_as_check` accepts is mapped, page by page, for the access asked. -/
theorem SpaceInv.checkedRange (h : SpaceInv env s₀ w g) (hk : KernelOk env s₀) (address bytes : Nat)
    (write : Bool) {w' : Vm} (he : asCheck address bytes write w = (.ok (), w')) :
    CheckedRange address bytes write w w' := by
  have hrange : 0x10000 ≤ address ∧ address + bytes ≤ kUserCanonLimit := by
    rw [asCheck] at he
    split at he
    · cases he
    · rename_i harg
      simp only [not_or, not_lt, not_le] at harg
      omega
  obtain ⟨has, g', ht, hf, hok⟩ := h.tables.asCheck hk address bytes write
  rw [he] at has ht hf hok
  refine ⟨hrange.1, hrange.2, fun v h₁ h₂ => ?_, fun v h₁ h₂ => ?_⟩
  · rw [h.userByte_eq hk, ← hf.byte ht]
    exact (hok rfl v h₁ h₂).byte _
  · rw [← has] at ht
    exact (hok rfl v h₁ h₂).translate ht

/-- **User copies are all or nothing, and exact**, at every point of the life of a space; and a
check accepts no more than the user has. -/
theorem user_copies (hk : KernelOk env s₀) (hc : asCreate env s₀ = some w₀) (hr : Run env w₀ w) :
    (∀ u buf n toUser loader r buf' w', asCopy u buf n toUser loader w = (r, buf', w') →
        CopyExact s₀ u buf n toUser loader w r buf' w') ∧
      ∀ address bytes write w', asCheck address bytes write w = (.ok (), w') →
        CheckedRange address bytes write w w' := by
  obtain ⟨g, h, -⟩ := hr.inv hk (asCreate_inv hk hc)
  exact ⟨fun u buf n toUser loader r buf' w' he => h.copyExact hk u buf n toUser loader he,
    fun address bytes write w' he => h.checkedRange hk address bytes write he⟩

/-- Three bytes across the border of two new pages. -/
theorem user_copies_boot : ∃ w₀, asCreate bootEnv bootPhys = some w₀ ∧
    ∃ w',
      asCopy 0x400000200fff (fun _ => 7) 3 true false (VmCall.run bootEnv (.alloc 5000 16 3) w₀) =
        (.ok (), fun _ => 7, w') ∧
      userByte w' 0x400000201001 = some 7 ∧
      userByte w' 0x400000201002 =
        userByte (VmCall.run bootEnv (.alloc 5000 16 3) w₀) 0x400000201002 := by
  obtain ⟨w₀, hc⟩ := asCreate_boot
  have hrun :
      ((asCreate bootEnv bootPhys).map fun w => (asCopy 0x400000200fff (fun _ => 7) 3 true false
      (VmCall.run bootEnv (.alloc 5000 16 3) w)).1.isOk) = some true := by decide +kernel
  rw [hc, Option.map_some] at hrun
  obtain ⟨r, buf', w', he⟩ : ∃ r buf' w', asCopy 0x400000200fff (fun _ => 7) 3 true false
      (VmCall.run bootEnv (.alloc 5000 16 3) w₀) = (r, buf', w') := ⟨_, _, _, rfl⟩
  have hx := (user_copies kernelOk_boot hc (.call (.alloc 5000 16 3) .refl)).1 _ _ _ _ _ _ _ _ he
  rw [he] at hrun
  obtain rfl : r = .ok () := by
    cases r with
    | ok a => rfl
    | error e => cases Option.some.inj hrun
  obtain ⟨rfl, hsees, -⟩ := hx.written rfl rfl
  exact ⟨w₀, hc, w', he, (hsees _).trans (if_pos (by omega)), (hsees _).trans (if_neg (by omega))⟩

end Efishell
