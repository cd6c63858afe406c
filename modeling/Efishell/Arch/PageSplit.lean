import Mathlib.Tactic.Ring
import Efishell.Arch.SpaceRun

/-!
# Paging — large pages are split in place

`x86_64_pt_child` replaces a leaf of 1 GiB or 2 MiB by a table of smaller leaves when a walk has to
go below it.  Nothing about the addresses it covers may change: not where they lead, not what is
allowed there, and not the memory type, whose PAT bit stands at bit 12 of a large leaf and at bit 7
of a small one.

`Seen` is all that a walk tells of an address.  `PageTree` is what the tables of a root have to be
for that: no table is a free page, and each is reached in one place.  `ptChild_spec` is then the one
lemma about a split, and `mapPageRaw` and `vmmUnmapPage` follow by walking.

* `ptChild_spec`: the table below an entry, reached or made, shows what the entry showed.
* `large_page_split`: mapping and unmapping a page changes the translation of that page only.
-/

namespace Efishell

/-! ### What a walk tells -/

namespace Pte

/-- `e & PAGE_PCD`. -/
def pcd (e : Nat) : Bool := e.testBit 4

/-- `e & PAGE_PWT`. -/
def pwt (e : Nat) : Bool := e.testBit 3

/-- The PAT bit of a leaf of the level. -/
def pat (level e : Nat) : Bool := if level = 1 then e.testBit 7 else e.testBit 12

/-- Whether an entry of the level is a leaf, if it is present. -/
def leaf (level e : Nat) : Bool := level == 1 || ((level == 2 || level == 3) && large e)

end Pte

/-- The leaf of `v`: its level and its entry. -/
def vmmLeaf (mem : Bytes) (v : Nat) : (level : Nat) → (table : Nat) → Option (Nat × Nat)
  | 0, _ => none
  | level + 1, table =>
      let e := ptRead mem table (ptIndex v (level + 1))
      if !Pte.present e then none
      else if Pte.leaf (level + 1) e then some (level + 1, e)
      else vmmLeaf mem v level (Pte.phys e)

/-- The bits PAT, PCD and PWT that select the memory type of `v`. -/
def memoryType (mem : Bytes) (root v : Nat) : Option (Bool × Bool × Bool) :=
  if root = 0 ∨ canonical v = false then none
  else (vmmLeaf mem v 4 root).map fun (l, e) => (Pte.pat l e, Pte.pcd e, Pte.pwt e)

/-- What a walk tells of an address. -/
structure Seen where
  phys : Nat
  user : Bool
  rw : Bool
  nx : Bool
  pat : Bool
  pcd : Bool
  pwt : Bool
  deriving DecidableEq, Repr

/-- The walk of `x86_64_vmm_translate`, with the memory type of the leaf. -/
def seeWalk (mem : Bytes) (v : Nat) : (level : Nat) → (table : Nat) →
    (user rw nx : Bool) → Option Seen
  | 0, _, _, _, _ => none
  | level + 1, table, user, rw, nx =>
      let e := ptRead mem table (ptIndex v (level + 1))
      if !Pte.present e then none
      else if Pte.leaf (level + 1) e then
        some
          { phys := Pte.phys e / ptSpan (level + 1) * ptSpan (level + 1) + v % ptSpan (level + 1)
            user := user && Pte.user e
            rw := rw && Pte.rw e
            nx := nx || Pte.nx e
            pat := Pte.pat (level + 1) e
            pcd := Pte.pcd e
            pwt := Pte.pwt e }
      else seeWalk mem v level (Pte.phys e) (user && Pte.user e) (rw && Pte.rw e) (nx || Pte.nx e)

/-- `vmm_translate` together with the flags a large page and a small one share. -/
def see (mem : Bytes) (root v : Nat) : Option Seen :=
  if root = 0 ∨ canonical v = false then none else seeWalk mem v 4 root true true false

/-- Where the walk stops, in one condition. -/
theorem leaf_iff (level e : Nat) : (level = 0 ∨ ((level = 1 ∨ level = 2) ∧ Pte.large e = true)) ↔
    Pte.leaf (level + 1) e = true := by
  simp [Pte.leaf]

/-- `vmm_translate`'s walk is the address and the rights of `seeWalk`. -/
theorem vmmWalk_see (mem : Bytes) (v : Nat) (level : Nat) : ∀ (table : Nat) (user rw nx : Bool),
    vmmWalk mem v level table user rw nx =
      (seeWalk mem v level table user rw nx).map fun x => (x.phys, x.user, x.rw, x.nx) := by
  induction level with
  | zero => exact fun _ _ _ _ => rfl
  | succ level ih =>
      intro table user rw nx
      rw [vmmWalk, seeWalk]
      simp only [leaf_iff, ih]
      split
      · rfl
      · split <;> rfl

/-- The cache flags are those of the same leaf. -/
theorem vmmLeaf_see (mem : Bytes) (v : Nat) (level : Nat) : ∀ (table : Nat) (user rw nx : Bool),
    (vmmLeaf mem v level table).map (fun (l, e) => (Pte.pat l e, Pte.pcd e, Pte.pwt e)) =
      (seeWalk mem v level table user rw nx).map fun x => (x.pat, x.pcd, x.pwt) := by
  induction level with
  | zero => exact fun _ _ _ _ => rfl
  | succ level ih =>
      intro table user rw nx
      rw [vmmLeaf, seeWalk]
      dsimp only
      split
      · rfl
      · split
        · rfl
        · exact ih _ _ _ _

/-- The translation is part of what is seen. -/
theorem vmmTranslate_see (mem : Bytes) (root v : Nat) :
    vmmTranslate mem root v = (see mem root v).map fun x => ⟨x.phys, x.user, x.rw, x.nx⟩ := by
  rw [vmmTranslate, see]
  split
  · rfl
  · rw [vmmWalk_see, Option.map_map]
    rfl

/-- So is the memory type. -/
theorem memoryType_see (mem : Bytes) (root v : Nat) :
    memoryType mem root v = (see mem root v).map fun x => (x.pat, x.pcd, x.pwt) := by
  rw [memoryType, see]
  split
  · rfl
  · exact vmmLeaf_see mem v 4 root true true false

/-! ### The bits of an entry -/

theorem phys_eq (e : Nat) : Pte.phys e = e % 2 ^ 52 / 2 ^ 12 * 2 ^ 12 :=
  and_mask_eq (x := e) (show 12 ≤ 52 by omega)

theorem phys_dvd (e : Nat) : 4096 ∣ Pte.phys e := by
  rw [phys_eq]
  exact Nat.dvd_mul_left _ _

/-- The address of an entry, bit by bit. -/
theorem phys_testBit (e i : Nat) :
    (Pte.phys e).testBit i = (e.testBit i && (decide (12 ≤ i) && decide (i < 52))) := by
  rw [Pte.phys, Nat.testBit_and, testBit_physMask]

/-- The bits outside the address. -/
theorem flags_testBit (e i : Nat) :
    (e - Pte.phys e).testBit i = (e.testBit i && (decide (i < 12) || decide (52 ≤ i))) := by
  have hsplit : e - Pte.phys e = 2 ^ 52 * (e / 2 ^ 52) + e % 2 ^ 12 := by
    rw [phys_eq]
    omega
  rw [hsplit, Nat.testBit_two_pow_mul_add _ (by omega)]
  by_cases h : i < 52
  · rw [if_pos h, Nat.testBit_mod_two_pow]
    simp [Bool.and_comm, show ¬ 52 ≤ i by omega]
  · rw [if_neg h, Nat.testBit_div_two_pow]
    simp [show 52 ≤ i by omega, show i - 52 + 52 = i by omega]

/-- `x & ~PAGE_LARGE`. -/
theorem sub_large_testBit {x : Nat} (h : x.testBit 7 = true) (i : Nat) :
    (x - pageLarge).testBit i = (x.testBit i && decide (i ≠ 7)) := by
  have hbit : x / 128 % 2 = 1 := by
    rw [Nat.testBit_eq_decide_div_mod_eq] at h
    simpa using h
  have hp : pageLarge = 128 := rfl
  rcases lt_trichotomy i 7 with hi | rfl | hi
  · have hmod : (x - 128) % 2 ^ 7 = x % 2 ^ 7 := by omega
    have hbits := congrArg (Nat.testBit · i) hmod
    simp only [Nat.testBit_mod_two_pow, hi, decide_true, Bool.true_and] at hbits
    rw [hp, hbits]
    simp [show i ≠ 7 by omega]
  · rw [hp, Nat.testBit_eq_decide_div_mod_eq]
    simp only [ne_eq, not_true_eq_false, decide_false, Bool.and_false, decide_eq_false_iff_not]
    omega
  · have hdiv : (x - 128) / 2 ^ 8 = x / 2 ^ 8 := by omega
    have hbits := congrArg (Nat.testBit · (i - 8)) hdiv
    simp only [Nat.testBit_div_two_pow, show i - 8 + 8 = i by omega] at hbits
    rw [hp, hbits]
    simp [show i ≠ 7 by omega]

/-- The flags of the leaves that a large leaf splits into. -/
def splitFlags (e level : Nat) : Nat :=
  let flags := e - Pte.phys e
  if e.testBit 12 then flags ||| (if level = 3 then 2 ^ 12 else pageLarge)
  else if level = 2 ∧ Pte.large flags then flags - pageLarge else flags

/-- The PAT bit moves, and every other flag stays. -/
theorem splitFlags_testBit {e level : Nat} (hl : level = 2 ∨ level = 3) (he : Pte.large e = true)
    (i : Nat) : (splitFlags e level).testBit i =
      if (level = 2 ∧ i = 7) ∨ (level = 3 ∧ i = 12) then e.testBit 12
      else (e.testBit i && (decide (i < 12) || decide (52 ≤ i))) := by
  have h7 : (e - Pte.phys e).testBit 7 = true := by
    rw [flags_testBit]
    exact (Bool.and_true _).trans he
  have hlarge : Pte.large (e - Pte.phys e) = true := h7
  have hbit := flags_testBit e i
  rw [splitFlags]
  generalize hflags : e - Pte.phys e = flags at *
  by_cases hp : e.testBit 12 = true
  · rw [if_pos hp, Nat.testBit_or, hbit, hp]
    rcases hl with rfl | rfl
    · rw [if_neg (by omega), pageLarge, Nat.testBit_two_pow]
      by_cases hi : i = 7
      · simp [hi]
      · simp [hi, Ne.symm hi]
    · rw [if_pos rfl, Nat.testBit_two_pow]
      by_cases hi : i = 12
      · simp [hi]
      · simp [hi, Ne.symm hi]
  · rw [if_neg hp]
    rcases hl with rfl | rfl
    · rw [if_pos ⟨rfl, hlarge⟩, sub_large_testBit h7, hbit]
      by_cases hi : i = 7
      · simp [hi, hp]
      · simp [hi]
    · rw [if_neg (by omega), hbit]
      by_cases hi : i = 12
      · simp [hi, hp]
      · simp [hi]

/-- The address of the first of these leaves. -/
def splitBase (e level : Nat) : Nat :=
  let stride := if level = 3 then 0x200000 else 4096
  Pte.phys e / (512 * stride) * (512 * stride)

/-- Leaf number `j` of these. -/
def splitKid (e level j : Nat) : Nat :=
  (splitBase e level + j * (if level = 3 then 0x200000 else 4096)) ||| splitFlags e level

/-- The split writes its 512 entries one after the other. -/
theorem ptSplit_eq (e level child : Nat) (mem : Bytes) : ptSplit e level child mem =
    (List.range 512).foldl (fun m j => wr64 m (child + 8 * j) (splitKid e level j)) mem := rfl

/-- A number whose low bits are the flags and whose high bits are an address. -/
theorem phys_or {k b f : Nat} (hk : 12 ≤ k) (hb : 2 ^ k ∣ b) (hlt : b < 2 ^ 52)
    (hf : ∀ i, k ≤ i → i < 52 → f.testBit i = false) : Pte.phys (b ||| f) / 2 ^ k * 2 ^ k = b := by
  obtain ⟨c, rfl⟩ := hb
  refine Nat.eq_of_testBit_eq fun i => ?_
  rw [Nat.testBit_mul_two_pow, Nat.testBit_div_two_pow, phys_testBit, Nat.testBit_or]
  by_cases hi : k ≤ i
  · rw [show i - k + k = i by omega]
    by_cases h52 : i < 52
    · simp [hi, h52, hf i hi h52, show 12 ≤ i by omega]
    · have hz : (2 ^ k * c).testBit i = false :=
        Nat.testBit_lt_two_pow (hlt.trans_le (Nat.pow_le_pow_right (by omega) (by omega)))
      simp [hz, h52]
  · simp [hi, Nat.testBit_two_pow_mul]

/-- What a leaf of the split is, in terms of the large leaf. -/
structure KidOf (e level j kid : Nat) : Prop where
  lt : kid < 2 ^ 64
  bits : ∀ i, i = 0 ∨ i = 1 ∨ i = 2 ∨ i = 3 ∨ i = 4 ∨ i = 63 → kid.testBit i = e.testBit i
  pat : Pte.pat (level - 1) kid = e.testBit 12
  leaf : Pte.leaf (level - 1) kid = true
  phys : Pte.phys kid / ptSpan (level - 1) * ptSpan (level - 1) =
    Pte.phys e / ptSpan level * ptSpan level + j * ptSpan (level - 1)

/-- Each entry of the new table has the large page's rights and its own part of the address. -/
theorem splitKid_spec {e level : Nat} (hl : level = 2 ∨ level = 3) (he : Pte.large e = true)
    (hlt : e < 2 ^ 64) {j : Nat} (hj : j < 512) : KidOf e level j (splitKid e level j) := by
  have hflags := splitFlags_testBit hl he
  obtain ⟨k, hk, hk', hspan, hspan', hstride⟩ : ∃ k, 12 ≤ k ∧ k ≤ 21 ∧ ptSpan (level - 1) = 2 ^ k ∧
      ptSpan level = 512 * 2 ^ k ∧ (if level = 3 then 0x200000 else 4096) = 2 ^ k := by
    rcases hl with rfl | rfl
    · exact ⟨12, by omega, by omega, rfl, rfl, rfl⟩
    · exact ⟨21, by omega, by omega, rfl, rfl, rfl⟩
  have hkl : (level = 2 ∧ k = 12) ∨ (level = 3 ∧ k = 21) := by
    rcases hl with rfl | rfl
    · refine Or.inl ⟨rfl, Nat.pow_right_injective (le_refl 2) ?_⟩
      exact hstride.symm
    · refine Or.inr ⟨rfl, Nat.pow_right_injective (le_refl 2) ?_⟩
      exact hstride.symm
  have hphys := phys_eq e
  have hbase : splitBase e level + j * 2 ^ k =
      2 ^ k * (Pte.phys e / (512 * 2 ^ k) * 512 + j) := by
    rw [splitBase, hstride]
    ring
  have hb52 : 2 ^ k * (Pte.phys e / (512 * 2 ^ k) * 512 + j) < 2 ^ 52 := by
    rcases hkl with ⟨-, rfl⟩ | ⟨-, rfl⟩ <;> omega
  -- the address of an entry has the bits from `k` to 51, and the flags have the others
  have hlow : ∀ i, i < k → (2 ^ k * (Pte.phys e / (512 * 2 ^ k) * 512 + j)).testBit i = false := by
    intro i hi
    rw [Nat.testBit_two_pow_mul]
    simp [show ¬ k ≤ i by omega]
  have hhigh : ∀ i, 52 ≤ i →
      (2 ^ k * (Pte.phys e / (512 * 2 ^ k) * 512 + j)).testBit i = false := by
    intro i hi
    exact Nat.testBit_lt_two_pow (hb52.trans_le (Nat.pow_le_pow_right (by omega) hi))
  have hkid : splitKid e level j =
      2 ^ k * (Pte.phys e / (512 * 2 ^ k) * 512 + j) ||| splitFlags e level := by
    rw [splitKid, hstride, hbase]
  rw [hkid]
  refine ⟨?_, fun i hi => ?_, ?_, ?_, ?_⟩
  · refine Nat.or_lt_two_pow (hb52.trans (by decide)) ?_
    refine Nat.lt_pow_two_of_testBit _ fun i hi => ?_
    rw [hflags, if_neg (by omega),
      Nat.testBit_lt_two_pow (hlt.trans_le (Nat.pow_le_pow_right (by omega) hi)), Bool.false_and]
  · have hz : (2 ^ k * (Pte.phys e / (512 * 2 ^ k) * 512 + j)).testBit i = false := by
      by_cases h52 : 52 ≤ i
      · exact hhigh i h52
      · exact hlow i (by omega)
    rw [Nat.testBit_or, hz, hflags, if_neg (by omega)]
    simp [show i < 12 ∨ 52 ≤ i by omega]
  · rcases hkl with ⟨rfl, rfl⟩ | ⟨rfl, rfl⟩
    · rw [Pte.pat, if_pos rfl, Nat.testBit_or, hlow 7 (by omega), hflags, if_pos (by omega),
        Bool.false_or]
    · rw [Pte.pat, if_neg (by omega), Nat.testBit_or, hlow 12 (by omega), hflags, if_pos (by omega),
        Bool.false_or]
  · rcases hkl with ⟨rfl, rfl⟩ | ⟨rfl, rfl⟩
    · rfl
    · rw [Pte.leaf, Pte.large, Nat.testBit_or, hlow 7 (by omega), hflags, if_neg (by omega)]
      simpa [Pte.large] using he
  · rw [hspan, hspan', phys_or hk (Nat.dvd_mul_right _ _) hb52]
    · ring
    · intro i h₁ h₂
      rw [hflags, if_neg (by omega)]
      simp [show ¬ i < 12 by omega, show ¬ 52 ≤ i by omega]

/-! ### Trees of tables -/

/-- Whether an entry of the level leads to a table. -/
def Pte.table (level e : Nat) : Bool := present e && !leaf level e

/-- The tables that the walk to `v` comes to, with their levels. -/
inductive Reach (mem : Bytes) (root v : Nat) : Nat → Nat → Prop
  | root : Reach mem root v 4 root
  | down {level t : Nat} : Reach mem root v (level + 1) t →
      Pte.table (level + 1) (ptRead mem t (ptIndex v (level + 1))) = true →
      Reach mem root v level (Pte.phys (ptRead mem t (ptIndex v (level + 1))))

/-- The tables of a root are a tree of pages that are in use: each is reached in one place. -/
structure PageTree (mem : Bytes) (free : Nat → Bool) (root : Nat) : Prop where
  aligned : 4096 ∣ root
  held : ∀ {v l t}, Reach mem root v l t → free (t / 4096) = false
  single : ∀ {v v' l l' t}, Reach mem root v l t → Reach mem root v' l' t →
    l = l' ∧ ∀ k, l < k → k ≤ 4 → ptIndex v k = ptIndex v' k

namespace Reach

variable {mem mem' : Bytes} {root v l t : Nat}

/-- Every table reached is aligned to a page. -/
theorem aligned (h : Reach mem root v l t) (hr : 4096 ∣ root) : 4096 ∣ t := by
  cases h with
  | root => exact hr
  | down _ _ => exact phys_dvd _

end Reach

/-- Memory `mem'` is `mem` but for the page `q`, and for the entry `idx` of the table `t`, which is
`e`. -/
structure Graft (mem mem' : Bytes) (t idx q e : Nat) : Prop where
  entry : ptRead mem' t idx = e
  same : ∀ a, a / 4096 ≠ q / 4096 → ¬ (t + 8 * idx ≤ a ∧ a < t + 8 * idx + 8) → mem' a = mem a

/-- Entries elsewhere stay. -/
theorem Graft.read {mem mem' : Bytes} {t idx q e : Nat} (h : Graft mem mem' t idx q e)
    (ht : 4096 ∣ t) (hidx : idx < 512) {t' i : Nat} (ht' : 4096 ∣ t') (hi : i < 512)
    (hq : t' / 4096 ≠ q / 4096) (hne : (t', i) ≠ (t, idx)) :
    ptRead mem' t' i = ptRead mem t' i := by
  refine rd64_congr fun j hj => h.same _ ?_ ?_
  · obtain ⟨c, rfl⟩ := ht'
    omega
  · intro hin
    obtain ⟨c, rfl⟩ := ht
    obtain ⟨c', rfl⟩ := ht'
    have hc : c = c' := by omega
    subst hc
    exact hne (by rw [show i = idx by omega])

/-- A table is put where there was none: below its entry there are no tables. -/
structure Grafted (mem mem' : Bytes) (level t idx q e : Nat) : Prop extends
    Graft mem mem' t idx q e where
  vacant : Pte.table level (ptRead mem t idx) = false
  isTable : Pte.table level e = true
  leads : Pte.phys e = q
  flat : ∀ i < 512, Pte.table (level - 1) (ptRead mem' q i) = false

namespace Grafted

variable {mem mem' : Bytes} {free : Nat → Bool} {root v₀ level t q e : Nat}

/-- The tables that were there are still there. -/
theorem reach_old (h : Grafted mem mem' level t (ptIndex v₀ level) q e)
    (htree : PageTree mem free root)
    (hr : Reach mem root v₀ level t) (hq : free (q / 4096) = true) {v l t' : Nat}
    (h' : Reach mem root v l t') : Reach mem' root v l t' := by
  induction h' with
  | root => exact .root
  | @down l t' hup htab ih =>
      have hread : ptRead mem' t' (ptIndex v (l + 1)) = ptRead mem t' (ptIndex v (l + 1)) := by
        refine h.read (hr.aligned htree.aligned) (ptIndex_lt _ _) (hup.aligned htree.aligned)
          (ptIndex_lt _ _) ?_ ?_
        · intro e
          rw [← e, htree.held hup] at hq
          cases hq
        · intro he
          obtain ⟨rfl, hi⟩ := Prod.mk.inj he
          obtain ⟨rfl, -⟩ := htree.single hup hr
          rw [hi, h.vacant] at htab
          cases htab
      rw [← hread] at htab ⊢
      exact .down ih htab

/-- Besides these there is only the new one. -/
theorem reach_new (h : Grafted mem mem' level t (ptIndex v₀ level) q e)
    (htree : PageTree mem free root)
    (hr : Reach mem root v₀ level t) (hq : free (q / 4096) = true) {v l t' : Nat}
    (h' : Reach mem' root v l t') : Reach mem root v l t' ∨
      (t' = q ∧ l + 1 = level ∧ Reach mem root v level t ∧ ptIndex v level = ptIndex v₀ level) := by
  induction h' with
  | root => exact Or.inl .root
  | @down l t' hup htab ih =>
      rcases ih with hold | ⟨rfl, hl, -, -⟩
      · by_cases hne : (t', ptIndex v (l + 1)) = (t, ptIndex v₀ level)
        · obtain ⟨rfl, hi⟩ := Prod.mk.inj hne
          obtain ⟨rfl, -⟩ := htree.single hold hr
          have hread : ptRead mem' t' (ptIndex v (l + 1)) = e := by
            rw [hi]
            exact h.entry
          rw [hread, h.leads]
          exact Or.inr ⟨rfl, rfl, hold, hi⟩
        · have hread : ptRead mem' t' (ptIndex v (l + 1)) = ptRead mem t' (ptIndex v (l + 1)) := by
            refine h.read (hr.aligned htree.aligned) (ptIndex_lt _ _) (hold.aligned htree.aligned)
              (ptIndex_lt _ _) (fun e => ?_) hne
            rw [← e, htree.held hold] at hq
            cases hq
          rw [hread] at htab ⊢
          exact Or.inl (.down hold htab)
      · have hflat := h.flat (ptIndex v (l + 1)) (ptIndex_lt _ _)
        rw [← hl, Nat.add_sub_cancel] at hflat
        rw [hflat] at htab
        cases htab

/-- The tree with the new table is a tree. -/
theorem tree (h : Grafted mem mem' level t (ptIndex v₀ level) q e) (htree : PageTree mem free root)
    (hr : Reach mem root v₀ level t) (hq : free (q / 4096) = true) {free' : Nat → Bool}
    (hfree : ∀ p, free' p = (free p && decide (p ≠ q / 4096))) : PageTree mem' free' root := by
  refine ⟨htree.aligned, fun {v l t'} h' => ?_, fun {v v' l l' t'} h₁ h₂ => ?_⟩
  · rw [hfree]
    rcases h.reach_new htree hr hq h' with hold | ⟨rfl, -⟩
    · rw [htree.held hold, Bool.false_and]
    · simp
  · have hnew : ∀ {v l}, ¬ Reach mem root v l q := fun hold => by
      rw [htree.held hold] at hq
      cases hq
    rcases h.reach_new htree hr hq h₁ with hold₁ | ⟨rfl, hl₁, hr₁, hi₁⟩
    · rcases h.reach_new htree hr hq h₂ with hold₂ | ⟨rfl, -⟩
      · exact htree.single hold₁ hold₂
      · exact absurd hold₁ hnew
    · rcases h.reach_new htree hr hq h₂ with hold₂ | ⟨-, hl₂, hr₂, hi₂⟩
      · exact absurd hold₂ hnew
      · refine ⟨by omega, fun k hk hk' => ?_⟩
        rcases eq_or_ne k level with rfl | hne
        · rw [hi₁, hi₂]
        · exact (htree.single hr₁ hr₂).2 k (by omega) hk'

/-- What is seen stays if it stays below the entry. -/
theorem seeWalk_eq (h : Grafted mem mem' level t (ptIndex v₀ level) q e)
    (htree : PageTree mem free root) (hr : Reach mem root v₀ level t) (hq : free (q / 4096) = true)
    (hsame : ∀ v user rw nx, ptIndex v level = ptIndex v₀ level →
      seeWalk mem' v level t user rw nx = seeWalk mem v level t user rw nx) (v : Nat) (l : Nat) :
    ∀ {t' : Nat} {user rw nx : Bool}, Reach mem root v l t' →
      seeWalk mem' v l t' user rw nx = seeWalk mem v l t' user rw nx := by
  induction l with
  | zero => exact fun _ => rfl
  | succ l ih =>
      intro t' user rw nx h'
      by_cases hne : (t', ptIndex v (l + 1)) = (t, ptIndex v₀ level)
      · obtain ⟨rfl, hi⟩ := Prod.mk.inj hne
        obtain ⟨rfl, -⟩ := htree.single h' hr
        exact hsame v user rw nx hi
      · have hread : ptRead mem' t' (ptIndex v (l + 1)) = ptRead mem t' (ptIndex v (l + 1)) := by
          refine h.read (hr.aligned htree.aligned) (ptIndex_lt _ _) (h'.aligned htree.aligned)
            (ptIndex_lt _ _) (fun e => ?_) hne
          rw [← e, htree.held h'] at hq
          cases hq
        rw [seeWalk, seeWalk, hread]
        split
        · rfl
        · split
          · rfl
          · rename_i hp hl
            exact ih (.down h' (by simp_all [Pte.table]))

end Grafted

/-! ### One step of a walk that makes tables -/

/-- A table is filled entry by entry. -/
theorem foldl_wr64 {f : Nat → Nat} (hf : ∀ j < 512, f j < 2 ^ 64) (child : Nat)
    (mem : Bytes) (n : Nat) (hn : n ≤ 512) :
    (∀ i < n,
      ptRead ((List.range n).foldl (fun m j => wr64 m (child + 8 * j) (f j)) mem) child i = f i) ∧
      ∀ a, ¬ (child ≤ a ∧ a < child + 8 * n) →
        (List.range n).foldl (fun m j => wr64 m (child + 8 * j) (f j)) mem a = mem a := by
  induction n with
  | zero => exact ⟨fun i hi => by omega, fun _ _ => rfl⟩
  | succ n ih =>
      obtain ⟨h₁, h₂⟩ := ih (by omega)
      rw [List.range_succ, List.foldl_append, List.foldl_cons, List.foldl_nil]
      refine ⟨fun i hi => ?_, fun a ha => ?_⟩
      · rcases eq_or_ne i n with rfl | hne
        · exact rd64_wr64 (hf i (by omega))
        · rw [ptRead, rd64_wr64_ne (by omega)]
          exact h₁ i (by omega)
      · rw [wr64, wrBytes, if_neg (by omega)]
        exact h₂ a (by omega)

/-- The entry that leads to a new table. -/
def tableEntry (q : Nat) (user : Bool) : Nat :=
  q ||| pagePresent ||| pageRw ||| (if user then pageUser else 0)

/-- What the walk reads in an entry written for a table. -/
theorem tableEntry_spec {q : Nat} (hq : FrameOk q) (user : Bool) :
    tableEntry q user < 2 ^ 64 ∧ Pte.phys (tableEntry q user) = q ∧
      Pte.present (tableEntry q user) = true ∧ Pte.large (tableEntry q user) = false ∧
      Pte.user (tableEntry q user) = user ∧ Pte.rw (tableEntry q user) = true ∧
      Pte.nx (tableEntry q user) = false := by
  have hor : ∀ i, (tableEntry q user).testBit i = (q.testBit i ||
      (pagePresent ||| pageRw ||| (if user then pageUser else 0)).testBit i) := by
    intro i
    rw [tableEntry, Nat.or_assoc, Nat.or_assoc, Nat.testBit_or, Nat.or_assoc]
  have hlow : ∀ i, i < 12 → (tableEntry q user).testBit i =
      (pagePresent ||| pageRw ||| (if user then pageUser else 0)).testBit i := by
    intro i hi
    rw [hor, hq.testBit_low hi, Bool.false_or]
  refine ⟨?_, ?_, ?_, ?_, ?_, ?_, ?_⟩
  · rw [tableEntry, Nat.or_assoc, Nat.or_assoc]
    refine Nat.or_lt_two_pow (hq.2.trans (by decide)) ?_
    cases user <;> decide
  · rw [tableEntry, Nat.or_assoc, Nat.or_assoc, Pte.phys, Nat.and_or_distrib_right, hq.and_physMask]
    cases user <;> exact Nat.or_zero q
  · rw [Pte.present, hlow 0 (by omega)]
    cases user <;> decide
  · rw [Pte.large, hlow 7 (by omega)]
    cases user <;> decide
  · rw [Pte.user, hlow 2 (by omega)]
    cases user <;> decide
  · rw [Pte.rw, hlow 1 (by omega)]
    cases user <;> decide
  · rw [Pte.nx, hor, hq.testBit_high (by omega)]
    cases user <;> decide

/-- An entry with a new table. -/
theorem table_tableEntry {q level : Nat} (hq : FrameOk q) (user : Bool) (hl : 1 < level) :
    Pte.table level (tableEntry q user) = true := by
  obtain ⟨-, -, hp, hlarge, -⟩ := tableEntry_spec hq user
  simp only [Pte.table, Pte.leaf, hp, hlarge, Bool.and_false, Bool.or_false, Bool.true_and]
  simp
  omega

/-- The step from a new entry to the entry below it. -/
theorem seeWalk_tableEntry {mem : Bytes} {q t v level : Nat} {user' : Bool} (hq : FrameOk q)
    (hl : 0 < level) (he : ptRead mem t (ptIndex v (level + 1)) = tableEntry q user')
    (user rw nx : Bool) : seeWalk mem v (level + 1) t user rw nx =
      seeWalk mem v level q (user && user') rw nx := by
  obtain ⟨-, hphys, hp, hlarge, hu, hrw, hnx⟩ := tableEntry_spec hq user'
  have htab : Pte.table (level + 1) _ = true := table_tableEntry hq user' (by omega)
  have hleaf : Pte.leaf (level + 1) (tableEntry q user') = false := by
    simpa [Pte.table, hp] using htab
  rw [seeWalk, he]
  simp only [hp, hleaf, hphys, hu, hrw, hnx, Bool.not_true, Bool.false_eq_true, if_false,
    Bool.and_true, Bool.or_false]

section NewTable

variable {s : Phys} {mem : Bytes} {start t idx level : Nat}

/-- The entry is written into another page than the new table. -/
theorem newTable_read (ht : 4096 ∣ t) (hidx : idx < 512) (hne : t / 4096 ≠ start)
    (e : Nat) {i : Nat} (hi : i < 512) :
    ptRead (wr64 mem (t + 8 * idx) e) (4096 * start) i = ptRead mem (4096 * start) i := by
  obtain ⟨c, rfl⟩ := ht
  exact rd64_wr64_ne (by omega)

/-- A new empty table put where there was none grafts an empty tree. -/
theorem grafted_newTable (hq : FrameOk (4096 * start)) (hidx : idx < 512)
    (ht : 4096 ∣ t) (hne : t / 4096 ≠ start)
    (hmem : ∀ a, a / 4096 ≠ start → mem a = s.mem a)
    (hvacant : Pte.table level (ptRead s.mem t idx) = false) (hl : 1 < level)
    (hflat : ∀ i < 512, Pte.table (level - 1) (ptRead mem (4096 * start) i) = false) (user : Bool) :
    Grafted s.mem (wr64 mem (t + 8 * idx) (tableEntry (4096 * start) user)) level t idx
      (4096 * start) (tableEntry (4096 * start) user) where
  entry := rd64_wr64 (tableEntry_spec hq user).1
  same a h₁ h₂ := by
    rw [wr64, wrBytes, if_neg h₂]
    exact hmem a (by omega)
  vacant := hvacant
  isTable := table_tableEntry hq user hl
  leads := (tableEntry_spec hq user).2.1
  flat i hi := by
    rw [newTable_read ht hidx hne _ hi]
    exact hflat i hi

end NewTable

/-- Below an entry that is not present, and below a table of zeros, nothing is seen. -/
theorem seeWalk_absent {mem : Bytes} {t v level : Nat}
    (h : Pte.present (ptRead mem t (ptIndex v level)) = false) (user rw nx : Bool) :
    seeWalk mem v level t user rw nx = none := by
  cases level with
  | zero => rfl
  | succ level =>
      rw [seeWalk]
      simp [h]

/-- **The leaves of a split show what the large leaf showed.** -/
theorem seeWalk_split {mem mem' : Bytes} {t q v level : Nat} (hl : level = 1 ∨ level = 2)
    (hlt : ptRead mem t (ptIndex v (level + 1)) < 2 ^ 64)
    (hp : Pte.present (ptRead mem t (ptIndex v (level + 1))) = true)
    (hlarge : Pte.large (ptRead mem t (ptIndex v (level + 1))) = true)
    (hkid : ptRead mem' q (ptIndex v level) =
      splitKid (ptRead mem t (ptIndex v (level + 1))) (level + 1) (ptIndex v level))
    (user rw nx : Bool) :
    seeWalk mem' v level q (user && Pte.user (ptRead mem t (ptIndex v (level + 1)))) rw nx =
      seeWalk mem v (level + 1) t user rw nx := by
  generalize he : ptRead mem t (ptIndex v (level + 1)) = e at *
  have hk : KidOf e (level + 1) _ _ := splitKid_spec (by omega) hlarge hlt (ptIndex_lt v level)
  rw [← hkid] at hk
  obtain ⟨l, rfl⟩ : ∃ l, level = l + 1 := ⟨level - 1, by omega⟩
  have hbits := hk.bits
  have hkleaf : Pte.leaf (l + 1) (ptRead mem' q (ptIndex v (l + 1))) = true := hk.leaf
  have hkpat : Pte.pat (l + 1) (ptRead mem' q (ptIndex v (l + 1))) = e.testBit 12 := hk.pat
  have hkphys : Pte.phys (ptRead mem' q (ptIndex v (l + 1))) / ptSpan (l + 1) * ptSpan (l + 1) =
      Pte.phys e / ptSpan (l + 1 + 1) * ptSpan (l + 1 + 1) + ptIndex v (l + 1) * ptSpan (l + 1) :=
        hk.phys
  have hkp : Pte.present (ptRead mem' q (ptIndex v (l + 1))) = true := by
    rw [Pte.present, hbits 0 (by simp)]
    exact hp
  have hleaf : Pte.leaf (l + 1 + 1) e = true := by
    rw [Pte.leaf, hlarge]
    rcases hl with hl | hl <;> simp [hl]
  have hmod : v % ptSpan (l + 1 + 1) = v % ptSpan (l + 1) + ptSpan (l + 1) * ptIndex v (l + 1) := by
    rw [ptSpan_succ (l := l + 1) (by omega), Nat.mod_mul, ptIndex]
  have hu : Pte.user (ptRead mem' q (ptIndex v (l + 1))) = Pte.user e := hbits 2 (by simp)
  have hrw : Pte.rw (ptRead mem' q (ptIndex v (l + 1))) = Pte.rw e := hbits 1 (by simp)
  have hnx : Pte.nx (ptRead mem' q (ptIndex v (l + 1))) = Pte.nx e := hbits 63 (by simp)
  have hpcd : Pte.pcd (ptRead mem' q (ptIndex v (l + 1))) = Pte.pcd e := hbits 4 (by simp)
  have hpwt : Pte.pwt (ptRead mem' q (ptIndex v (l + 1))) = Pte.pwt e := hbits 3 (by simp)
  have hpat : Pte.pat (l + 1 + 1) e = e.testBit 12 := if_neg (by omega)
  rw [seeWalk, seeWalk, he]
  simp only [hkp, hp, hkleaf, hleaf, hkphys, hkpat, hpat, hu, hrw, hnx, hpcd, hpwt, hmod, if_true,
    Bool.not_true, Bool.false_eq_true, if_false, Bool.and_assoc, Bool.and_self]
  congr 2
  rw [Nat.mul_comm (ptSpan (l + 1)) (ptIndex v (l + 1))]
  omega

/-- The tables of `root` are a tree still, and show what they showed. -/
structure TreeKept (root : Nat) (s s' : Phys) : Prop where
  pmm : PmmOk s'.pmm
  tree : PageTree s'.mem s'.pmm.free root
  sees : ∀ v, see s'.mem root v = see s.mem root v

/-- Two changes that keep the tree, one after the other. -/
theorem TreeKept.trans {root : Nat} {s s' s'' : Phys} (h : TreeKept root s s')
    (h' : TreeKept root s' s'') : TreeKept root s s'' :=
  ⟨h'.pmm, h'.tree, fun v => (h'.sees v).trans (h.sees v)⟩

/-- A new table was put into the tree. -/
theorem TreeKept.graft {root v₀ level t start e : Nat} {s : Phys} {mem' : Bytes} (hm : PmmOk s.pmm)
    (htree : PageTree s.mem s.pmm.free root) (hr : Reach s.mem root v₀ level t)
    (hrun : FreeRun s.pmm.free 1 1 start)
    (h : Grafted s.mem mem' level t (ptIndex v₀ level) (4096 * start) e)
    (hsame : ∀ v user rw nx, ptIndex v level = ptIndex v₀ level →
      seeWalk mem' v level t user rw nx = seeWalk s.mem v level t user rw nx) :
    TreeKept root s { (s.claim start 1) with mem := mem' } := by
  have hq : s.pmm.free (4096 * start / 4096) = true := by
    rw [Nat.mul_div_cancel_left start (by omega)]
    exact hrun.2 0 (by omega)
  refine ⟨hm.claim start 1, h.tree htree hr hq fun p => ?_, fun v => ?_⟩
  · show (s.pmm.free p && !(decide (start ≤ p) && decide (p < start + 1))) = _
    rw [Nat.mul_div_cancel_left start (by omega)]
    congr 1
    rw [← Bool.decide_and, ← decide_not]
    exact decide_eq_decide.mpr ⟨fun h e => h ⟨by omega, by omega⟩, fun h e => h (by omega)⟩
  · rw [see, see]
    split
    · rfl
    · exact h.seeWalk_eq htree hr hq hsame v 4 .root

theorem TreeKept.refl {root : Nat} {s : Phys} (hm : PmmOk s.pmm)
    (htree : PageTree s.mem s.pmm.free root) : TreeKept root s s := ⟨hm, htree, fun _ => rfl⟩

/-- What a step of a walk did: the tree is kept, and a step that succeeds comes to the next
table. -/
structure Stepped (root v level : Nat) (s : Phys) (r : Except Errno Nat × Phys) : Prop where
  kept : TreeKept root s r.2
  next : ∀ t, r.1 = .ok t → Reach r.2.mem root v level t

/-- The end of `x86_64_pt_child`. -/
def ptFinish (t idx : Nat) (user : Bool) (s : Phys) : Except Errno Nat × Phys :=
  if user && !Pte.user (ptRead s.mem t idx) then (.error .eperm, s)
  else (.ok (Pte.phys (ptRead s.mem t idx)), s)

/-- The step below an entry that is now a table. -/
theorem Stepped.finish {root v level t : Nat} {s s' : Phys} (hk : TreeKept root s s')
    (hr : Reach s'.mem root v (level + 1) t)
    (ht : Pte.table (level + 1) (ptRead s'.mem t (ptIndex v (level + 1))) = true) (user : Bool) :
    Stepped root v level s (ptFinish t (ptIndex v (level + 1)) user s') := by
  rw [ptFinish]
  split
  · exact ⟨hk, fun t' h => by cases h⟩
  · refine ⟨hk, fun t' h => ?_⟩
    rw [← Except.ok.inj h]
    exact .down hr ht

/-- A step that fails changes nothing. -/
theorem Stepped.failed {root v level : Nat} {s : Phys} (hm : PmmOk s.pmm)
    (htree : PageTree s.mem s.pmm.free root) (e : Errno) : Stepped root v level s (.error e, s) :=
  ⟨.refl hm htree, fun t h => by cases h⟩

/-- All that `x86_64_pt_child` does. -/
theorem ptChild_cases (t idx level : Nat) (user : Bool) {s : Phys} (hm : PmmOk s.pmm) :
    (∃ e, ptChild t idx level user s = (.error e, s)) ∨
      (Pte.present (ptRead s.mem t idx) = true ∧ Pte.large (ptRead s.mem t idx) = false ∧
        ptChild t idx level user s = ptFinish t idx user s) ∨
      ∃ start, FreeRun s.pmm.free 1 1 start ∧
        ((Pte.present (ptRead s.mem t idx) = false ∧
          ptChild t idx level user s = ptFinish t idx user
            (ptWrite t idx (tableEntry (4096 * start) user) (s.claim start 1))) ∨
        (Pte.present (ptRead s.mem t idx) = true ∧ Pte.large (ptRead s.mem t idx) = true ∧
          (level = 2 ∨ level = 3) ∧
          ptChild t idx level user s = ptFinish t idx user
            (ptWrite t idx (tableEntry (4096 * start) (Pte.user (ptRead s.mem t idx)))
              { s.claim start 1 with
                mem := ptSplit (ptRead s.mem t idx) level (4096 * start)
                  (s.claim start 1).mem }))) := by
  rw [ptChild]
  split
  · rename_i hp
    rcases pmmAllocPage_cases s with e | ⟨start, e, hrun⟩
    · rw [e]
      exact Or.inl ⟨_, rfl⟩
    · obtain ⟨hz, -⟩ := PtInv.frameOk hm (by omega) hrun.2
      rw [e, if_neg hz]
      exact Or.inr (Or.inr ⟨start, hrun, Or.inl ⟨by simpa using hp, rfl⟩⟩)
  · rename_i hp
    split
    · rename_i hlarge
      split
      · exact Or.inl ⟨_, rfl⟩
      · rename_i hlev
        rcases pmmAllocPage_cases s with e | ⟨start, e, hrun⟩
        · rw [e]
          exact Or.inl ⟨_, rfl⟩
        · obtain ⟨hz, -⟩ := PtInv.frameOk hm (by omega) hrun.2
          rw [e, if_neg hz]
          exact Or.inr (Or.inr ⟨start, hrun, Or.inr ⟨by simpa using hp, hlarge, by omega, rfl⟩⟩)
    · rename_i hlarge
      exact Or.inr (Or.inl ⟨by simpa using hp, by simpa using hlarge, rfl⟩)

/-- A table of zeros has no entries. -/
theorem claim_read (s : Phys) (start : Nat) {i : Nat} (hi : i < 512) :
    ptRead (s.claim start 1).mem (4096 * start) i = 0 := by
  have hz : ptRead (s.claim start 1).mem (4096 * start) i = rd64 (fun _ => 0) 0 := by
    refine rd64_congr fun j hj => ?_
    show memZero s.mem _ _ _ = 0
    rw [memZero, if_pos (by omega)]
  rw [hz]
  rfl

/-- A claim writes only the pages it claims. -/
theorem claim_other (s : Phys) {start a : Nat} (ha : a / 4096 ≠ start) :
    (s.claim start 1).mem a = s.mem a := by
  show memZero s.mem _ _ a = s.mem a
  rw [memZero, if_neg (by omega)]

/-- The entry of a new table `mem` is written; below it the walk goes on as before. -/
theorem Stepped.made {root v₀ level t start : Nat} {s : Phys} (hm : PmmOk s.pmm)
    (htree : PageTree s.mem s.pmm.free root) (hr : Reach s.mem root v₀ (level + 1) t)
    (hl : 0 < level) (hrun : FreeRun s.pmm.free 1 1 start) {mem : Bytes}
    (hmem : ∀ a, a / 4096 ≠ start → mem a = s.mem a)
    (hvacant : Pte.table (level + 1) (ptRead s.mem t (ptIndex v₀ (level + 1))) = false)
    (hflat : ∀ i < 512, Pte.table level (ptRead mem (4096 * start) i) = false) {user' : Bool}
    (hsame : ∀ mem' v user rw nx, ptIndex v (level + 1) = ptIndex v₀ (level + 1) →
      ptRead mem' (4096 * start) (ptIndex v level) = ptRead mem (4096 * start) (ptIndex v level) →
      seeWalk mem' v level (4096 * start) (user && user') rw nx = seeWalk s.mem v
        (level + 1) t user rw nx)
    (user : Bool) :
    Stepped root v₀ level s (ptFinish t (ptIndex v₀ (level + 1)) user
      (ptWrite t (ptIndex v₀ (level + 1)) (tableEntry (4096 * start) user')
        { s.claim start 1 with mem := mem })) := by
  have hidx := ptIndex_lt v₀ (level + 1)
  have hal := hr.aligned htree.aligned
  obtain ⟨-, hq⟩ := PtInv.frameOk hm (by omega) hrun.2
  have hfree : s.pmm.free (4096 * start / 4096) = true := by
    rw [Nat.mul_div_cancel_left start (by omega)]
    exact hrun.2 0 (by omega)
  -- a page that is free holds no table of the tree
  have hother : t / 4096 ≠ start := by
    rintro rfl
    rw [Nat.mul_div_cancel_left _ (by omega), htree.held hr] at hfree
    cases hfree
  have hg := grafted_newTable hq hidx hal hother hmem hvacant (by omega) hflat user'
  refine .finish (TreeKept.graft hm htree hr hrun hg fun v u w x hv => ?_)
    (hg.reach_old htree hr hfree hr) ?_ user
  · rw [seeWalk_tableEntry hq hl (by rw [hv]; exact hg.entry)]
    refine hsame _ v u w x hv ?_
    exact newTable_read hal hidx hother _ (ptIndex_lt v level)
  · show Pte.table (level + 1) (ptRead (wr64 mem _ _) t _) = true
    rw [hg.entry]
    exact hg.isTable

/-- **One step of a walk that makes tables**: it makes a table, splits a large leaf or finds a
table, and what the tree shows stays, also when the step fails. -/
theorem ptChild_spec {root v₀ level t : Nat} {s : Phys} (hm : PmmOk s.pmm)
    (htree : PageTree s.mem s.pmm.free root) (hr : Reach s.mem root v₀ (level + 1) t)
    (hl : 0 < level) (user : Bool) :
    Stepped root v₀ level s (ptChild t (ptIndex v₀ (level + 1)) (level + 1) user s) := by
  have hlt : ptRead s.mem t (ptIndex v₀ (level + 1)) < 2 ^ 64 := rd64_lt _ _
  rcases ptChild_cases t (ptIndex v₀ (level + 1)) (level + 1) user hm with
    ⟨e, h⟩ | ⟨hp, hlarge, h⟩ | ⟨start, hrun, ⟨hp, h⟩ | ⟨hp, hlarge, hlev, h⟩⟩
  · rw [h]
    exact .failed hm htree e
  · rw [h]
    refine .finish (.refl hm htree) hr ?_ user
    have h1 : level ≠ 0 := by omega
    simp [Pte.table, Pte.leaf, hp, hlarge, h1]
  · -- a table is made, and nothing is below it
    rw [h]
    refine .made hm htree hr hl hrun (fun a ha => claim_other s ha) ?_ (fun i hi => ?_) ?_ user
    · simp [Pte.table, hp]
    · rw [claim_read s start hi]
      simp [Pte.table, Pte.present]
    · intro mem' v u w x hv hread
      rw [seeWalk_absent, seeWalk_absent]
      · rw [hv]
        exact hp
      · rw [hread, claim_read s start (ptIndex_lt v level)]
        simp [Pte.present]
  · -- a large leaf is split
    obtain ⟨hkids, hrest⟩ := foldl_wr64
      (f := splitKid (ptRead s.mem t (ptIndex v₀ (level + 1))) (level + 1))
      (fun j hj => (splitKid_spec hlev hlarge hlt hj).lt) (4096 * start)
        (s.claim start 1).mem 512 le_rfl
    rw [← ptSplit_eq] at hkids hrest
    rw [h]
    generalize ptSplit (ptRead s.mem t (ptIndex v₀ (level + 1))) (level + 1) (4096 * start)
      (s.claim start 1).mem = mem at *
    refine .made hm htree hr hl hrun (fun a ha => ?_) ?_ (fun i hi => ?_) ?_ user
    · rw [hrest a (by omega)]
      exact claim_other s ha
    · have hleaf : Pte.leaf (level + 1) (ptRead s.mem t (ptIndex v₀ (level + 1))) = true := by
        rw [Pte.leaf, hlarge]
        rcases hlev with hlev | hlev <;> simp [hlev]
      rw [Pte.table, hleaf, Bool.not_true, Bool.and_false]
    · have hleaf : Pte.leaf level _ = true := (splitKid_spec hlev hlarge hlt hi).leaf
      rw [hkids i hi, Pte.table, hleaf, Bool.not_true, Bool.and_false]
    · intro mem' v u w x hv hread
      rw [← hv] at hp hlarge hlt hkids ⊢
      exact seeWalk_split (by omega) hlt hp hlarge
        (hread.trans (hkids _ (ptIndex_lt v level))) u w x

/-! ### Walks, mapping and unmapping -/

/-- The walk of `x86_64_map_page_raw`. -/
theorem ptWalk_spec {root : Nat} (v : Nat) (user : Bool) (level : Nat) : ∀ {t : Nat} {s : Phys},
    PmmOk s.pmm → PageTree s.mem s.pmm.free root → Reach s.mem root v (level + 1) t →
    Stepped root v 1 s (ptWalk v user (level + 1) t s) := by
  induction level with
  | zero =>
      intro t s hm htree hr
      refine ⟨.refl hm htree, fun t' h => ?_⟩
      rw [← Except.ok.inj h]
      exact hr
  | succ level ih =>
      intro t s hm htree hr
      have hstep := ptChild_spec hm htree hr (by omega) user
      rw [ptWalk]
      generalize ptChild t (ptIndex v (level + 2)) (level + 2) user s = r at hstep
      obtain ⟨r, s'⟩ := r
      cases r with
      | error e => exact ⟨hstep.kept, fun t' h => by cases h⟩
      | ok t' =>
          have hrest := ih hstep.kept.pmm hstep.kept.tree (hstep.next t' rfl)
          exact ⟨hstep.kept.trans hrest.kept, hrest.next⟩

/-- The walk of `x86_64_vmm_unmap_page`: every entry on the way is there. -/
def unmapWalk (v : Nat) : (level : Nat) → (table : Nat) → Phys → Except Errno Nat × Phys
  | 0, table, s => (.ok table, s)
  | 1, table, s => (.ok table, s)
  | level + 2, table, s =>
      if !Pte.present (ptRead s.mem table (ptIndex v (level + 2))) then (.error .enoent, s)
      else
        match ptChild table (ptIndex v (level + 2)) (level + 2) false s with
        | (.error e, s) => (.error e, s)
        | (.ok table, s) => unmapWalk v (level + 1) table s

/-- `x86_64_vmm_unmap_page`; `frozen` is `smp_started && root == kernel_pml4`. -/
def vmmUnmapPage (root v : Nat) (frozen : Bool) (s : Phys) : Except Errno Unit × Phys :=
  if root = 0 ∨ canonical v = false ∨ v % 4096 ≠ 0 ∨ frozen then (.error .einval, s)
  else
    match unmapWalk v 4 root s with
    | (.error e, s) => (.error e, s)
    | (.ok t, s) =>
        if !Pte.present (ptRead s.mem t (ptIndex v 1)) then (.error .enoent, s)
        else (.ok (), ptWrite t (ptIndex v 1) 0 s)

/-- The walk of `vmm_unmap_page` keeps the tree at each level it descends. -/
theorem unmapWalk_spec {root : Nat} (v : Nat) (level : Nat) : ∀ {t : Nat} {s : Phys},
    PmmOk s.pmm → PageTree s.mem s.pmm.free root → Reach s.mem root v (level + 1) t →
    Stepped root v 1 s (unmapWalk v (level + 1) t s) := by
  induction level with
  | zero =>
      intro t s hm htree hr
      refine ⟨.refl hm htree, fun t' h => ?_⟩
      rw [← Except.ok.inj h]
      exact hr
  | succ level ih =>
      intro t s hm htree hr
      have hstep := ptChild_spec hm htree hr (by omega) false
      rw [unmapWalk]
      split
      · exact .failed hm htree _
      · generalize ptChild t (ptIndex v (level + 2)) (level + 2) false s = r at hstep
        obtain ⟨r, s'⟩ := r
        cases r with
        | error e => exact ⟨hstep.kept, fun t' h => by cases h⟩
        | ok t' =>
            have hrest := ih hstep.kept.pmm hstep.kept.tree (hstep.next t' rfl)
            exact ⟨hstep.kept.trans hrest.kept, hrest.next⟩

/-- Addresses with the same indices lie on one page. -/
theorem page_eq {v v' : Nat} (hc : canonical v = true) (hc' : canonical v' = true)
    (h : ∀ k, 0 < k → k ≤ 4 → ptIndex v k = ptIndex v' k) : v / 4096 = v' / 4096 := by
  have h₁ := h 1 (by omega) (by omega)
  have h₂ := h 2 (by omega) (by omega)
  have h₃ := h 3 (by omega) (by omega)
  have h₄ := h 4 (by omega) (by omega)
  rw [ptIndex, ptIndex, show ptSpan 1 = 2 ^ 12 from rfl] at h₁
  rw [ptIndex, ptIndex, show ptSpan 2 = 2 ^ 21 from rfl] at h₂
  rw [ptIndex, ptIndex, show ptSpan 3 = 2 ^ 30 from rfl] at h₃
  rw [ptIndex, ptIndex, show ptSpan 4 = 2 ^ 39 from rfl] at h₄
  simp only [canonical, Bool.or_eq_true, beq_iff_eq] at hc hc'
  omega

/-- Two addresses of one page take the same entries. -/
theorem ptIndex_page {v v' : Nat} (h : v / 4096 = v' / 4096) (k : Nat) :
    ptIndex v k = ptIndex v' k := by
  have hspan : ptSpan k = 4096 * 2 ^ (9 * (k - 1)) := by
    rw [ptSpan, Nat.pow_add]
  rw [ptIndex, ptIndex, hspan, ← Nat.div_div_eq_div_mul, ← Nat.div_div_eq_div_mul, h]

/-- Addresses of one page come to the same tables. -/
theorem Reach.page {mem : Bytes} {root v v' l t : Nat} (h : Reach mem root v l t)
    (hv : v / 4096 = v' / 4096) : Reach mem root v' l t := by
  induction h with
  | root => exact .root
  | @down l t _ ht ih =>
      rw [ptIndex_page hv (l + 1)] at ht ⊢
      exact .down ih ht

section LeafWrite

variable {mem : Bytes} {free : Nat → Bool} {root v t e : Nat}

/-- Only the entry of the page is another one. -/
theorem leafWrite_read (htree : PageTree mem free root) (hr : Reach mem root v 1 t) {v' l t' : Nat}
    (h' : Reach mem root v' l t')
    (hne : l = 1 → ∃ k, 0 < k ∧ k ≤ 4 ∧ ptIndex v k ≠ ptIndex v' k) :
    ptRead (wr64 mem (t + 8 * ptIndex v 1) e) t' (ptIndex v' l) = ptRead mem t' (ptIndex v' l) := by
  have hi := ptIndex_lt v 1
  have hi' := ptIndex_lt v' l
  refine rd64_wr64_ne ?_
  by_cases htt : t' = t
  · subst htt
    obtain ⟨rfl, hpre⟩ := htree.single h' hr
    obtain ⟨k, hk, hk', hkne⟩ := hne rfl
    have hk1 : k = 1 := by
      by_contra h1
      exact hkne (hpre k (by omega) hk').symm
    subst hk1
    omega
  · obtain ⟨c, rfl⟩ := hr.aligned htree.aligned
    obtain ⟨c', rfl⟩ := h'.aligned htree.aligned
    omega

/-- The tables are the same. -/
theorem leafWrite_reach (htree : PageTree mem free root) (hr : Reach mem root v 1 t)
    {v' l t' : Nat} :
    Reach (wr64 mem (t + 8 * ptIndex v 1) e) root v' l t' ↔ Reach mem root v' l t' := by
  have habove : ∀ {l t' m}, Pte.table (l + 1) m = true → Reach mem root v' (l + 1) t' →
      ptRead (wr64 mem (t + 8 * ptIndex v 1) e) t' (ptIndex v' (l + 1)) =
        ptRead mem t' (ptIndex v' (l + 1)) := by
    intro l t' m htab hup
    refine leafWrite_read htree hr hup fun hl => ?_
    obtain rfl : l = 0 := by omega
    simp [Pte.table, Pte.leaf] at htab
  constructor
  · intro h'
    induction h' with
    | root => exact .root
    | @down l t' _ htab ih =>
        have hread := habove htab ih
        rw [hread] at htab ⊢
        exact .down ih htab
  · intro h'
    induction h' with
    | root => exact .root
    | @down l t' hup htab ih =>
        have hread := habove htab hup
        rw [← hread] at htab ⊢
        exact .down ih htab

/-- A leaf written in the last table keeps the tree. -/
theorem leafWrite_tree (htree : PageTree mem free root) (hr : Reach mem root v 1 t) :
    PageTree (wr64 mem (t + 8 * ptIndex v 1) e) free root where
  aligned := htree.aligned
  held h := htree.held ((leafWrite_reach htree hr).mp h)
  single h₁ h₂ := htree.single ((leafWrite_reach htree hr).mp h₁) ((leafWrite_reach htree hr).mp h₂)

/-- Other pages are seen as before. -/
theorem leafWrite_other (htree : PageTree mem free root) (hr : Reach mem root v 1 t) {v' : Nat}
    (hne : ∃ k, 0 < k ∧ k ≤ 4 ∧ ptIndex v k ≠ ptIndex v' k) (l : Nat) :
    ∀ {t' : Nat} {user rw nx : Bool}, Reach mem root v' l t' →
      seeWalk (wr64 mem (t + 8 * ptIndex v 1) e) v' l t' user rw nx = seeWalk mem v' l t'
        user rw nx := by
  induction l with
  | zero => exact fun _ => rfl
  | succ l ih =>
      intro t' user rw nx h'
      rw [seeWalk, seeWalk, leafWrite_read htree hr h' fun _ => hne]
      split
      · rfl
      · split
        · rfl
        · rename_i hp hl
          exact ih (.down h' (by simp_all [Pte.table]))

/-- What the walk tells is what it tells from a table on its way. -/
theorem Reach.seeWalk {l : Nat} (h : Reach mem root v l t) : ∃ user rw nx,
    seeWalk mem v 4 root true true false = Efishell.seeWalk mem v l t user rw nx := by
  induction h with
  | root => exact ⟨true, true, false, rfl⟩
  | @down l t _ htab ih =>
      obtain ⟨user, rw', nx, he⟩ := ih
      simp only [Pte.table, Bool.and_eq_true, Bool.not_eq_true'] at htab
      refine ⟨user && Pte.user (ptRead mem t (ptIndex v (l + 1))),
        rw' && Pte.rw (ptRead mem t (ptIndex v (l + 1))),
        nx || Pte.nx (ptRead mem t (ptIndex v (l + 1))), he.trans ?_⟩
      rw [Efishell.seeWalk]
      simp only [htab.1, htab.2, Bool.not_true, Bool.false_eq_true, if_false]

end LeafWrite

/-! ### The guarantees -/

/-- The two views of an address agree in two memories. -/
def SameAt (root : Nat) (mem mem' : Bytes) (v : Nat) : Prop :=
  vmmTranslate mem' root v = vmmTranslate mem root v ∧
    memoryType mem' root v = memoryType mem root v

/-- What sees the same translates the same. -/
theorem SameAt.of_see {root v : Nat} {mem mem' : Bytes} (h : see mem' root v = see mem root v) :
    SameAt root mem mem' v := by
  rw [SameAt, vmmTranslate_see, vmmTranslate_see, memoryType_see, memoryType_see, h]
  exact ⟨rfl, rfl⟩

/-- An operation on the page of `v` that leaves a tree of tables and changes no other page; it
changes nothing if it fails. -/
structure OnePage (root v : Nat) (s : Phys) (r : Except Errno Unit) (s' : Phys) : Prop where
  pmm : PmmOk s'.pmm
  tree : PageTree s'.mem s'.pmm.free root
  failed : ∀ e, r = .error e → ∀ v', SameAt root s.mem s'.mem v'
  others : ∀ v', v' / 4096 ≠ v / 4096 → SameAt root s.mem s'.mem v'

/-- A call that fails has changed nothing one can see. -/
theorem OnePage.error {root : Nat} {s s' : Phys} (h : TreeKept root s s') (v : Nat) (e : Errno) :
    OnePage root v s (.error e) s' :=
  ⟨h.pmm, h.tree, fun _ _ v' => .of_see (h.sees v'), fun v' _ => .of_see (h.sees v')⟩

/-- The entry of the page is written at the end of a walk. -/
theorem OnePage.write {root v t e : Nat} {s s' : Phys} (h : TreeKept root s s')
    (hr : Reach s'.mem root v 1 t) (hc : canonical v = true) :
    OnePage root v s (.ok ()) (ptWrite t (ptIndex v 1) e s') := by
  refine ⟨h.pmm, leafWrite_tree h.tree hr, (fun _ he => nomatch he),
    fun v' hne => .of_see ?_⟩
  rw [← h.sees v', see, see]
  split
  · rfl
  · rename_i hv'
    simp only [not_or, Bool.not_eq_false] at hv'
    refine leafWrite_other h.tree hr ?_ 4 .root
    by_contra hno
    refine hne (page_eq hv'.2 hc fun k hk hk' => ?_)
    by_contra hk''
    exact hno ⟨k, hk, hk', Ne.symm hk''⟩

/-- What is seen on the page after that. -/
theorem leafWrite_page {root v t e : Nat} {s : Phys} (htree : PageTree s.mem s.pmm.free root)
    (hr : Reach s.mem root v 1 t) (hroot : root ≠ 0) (hc : canonical v = true) (he : e < 2 ^ 64)
    {v' : Nat} (hv : v' / 4096 = v / 4096) :
    ∃ user rw nx, see (ptWrite t (ptIndex v 1) e s).mem root v' =
      if Pte.present e then
        some ⟨Pte.phys e + v' % 4096, user && Pte.user e, rw && Pte.rw e, nx || Pte.nx e,
          e.testBit 7, Pte.pcd e, Pte.pwt e⟩
      else none := by
  have hc' : canonical v' = true := by
    have hdiv : v' / 2 ^ 47 = v / 2 ^ 47 := by omega
    rw [canonical, hdiv]
    exact hc
  have hr' : Reach (ptWrite t (ptIndex v 1) e s).mem root v' 1 t :=
    (leafWrite_reach htree hr).mpr (hr.page hv.symm)
  obtain ⟨user, rw', nx, hw⟩ := hr'.seeWalk
  refine ⟨user, rw', nx, ?_⟩
  have hread : ptRead (ptWrite t (ptIndex v 1) e s).mem t (ptIndex v' 1) = e := by
    rw [ptIndex_page hv 1]
    exact rd64_wr64 he
  have hdiv : Pte.phys e / ptSpan 1 * ptSpan 1 = Pte.phys e := Nat.div_mul_cancel (phys_dvd e)
  rw [see, if_neg (by simp [hroot, hc']), hw, seeWalk, hread]
  cases hp : Pte.present e with
  | false => simp
  | true =>
      have hleaf : Pte.leaf 1 e = true := rfl
      simp only [hleaf, Nat.zero_add, hdiv, Bool.not_true, Bool.false_eq_true, if_false, if_true]
      rfl

/-- `x86_64_map_page_raw`. -/
theorem mapPageRaw_onePage {root : Nat} {s : Phys} (hm : PmmOk s.pmm)
    (htree : PageTree s.mem s.pmm.free root) (env : MmuEnv) (v p flags : Nat) (hf : flags < 2 ^ 64)
    (replace : Bool) {r : Except Errno Unit} {s' : Phys}
    (he : mapPageRaw env root v p flags replace s = (r, s')) :
    OnePage root v s r s' ∧ (r = .ok () → ∀ v', v' / 4096 = v / 4096 →
      (∃ x, vmmTranslate s'.mem root v' = some x ∧ x.phys = Pte.phys (p ||| flags) + v' % 4096) ∧
      memoryType s'.mem root v' = some (flags.testBit 7, flags.testBit 4, flags.testBit 3)) := by
  have hrefl := TreeKept.refl hm htree
  rw [mapPageRaw] at he
  split at he
  · cases he
    exact ⟨.error hrefl v _, fun h => by cases h⟩
  · rename_i harg
    simp only [not_or, Bool.not_eq_false, not_not] at harg
    obtain ⟨hroot, hc, -, hp, hmask⟩ := harg
    dsimp only at he
    split at he
    · cases he
      exact ⟨.error hrefl v _, fun h => by cases h⟩
    · have hstep := ptWalk_spec v (Pte.user flags) 3 hm htree .root
      generalize ptWalk v (Pte.user flags) 4 root s = w at he hstep
      obtain ⟨w, s₁⟩ := w
      cases w with
      | error e =>
          cases he
          exact ⟨.error hstep.kept v _, fun h => by cases h⟩
      | ok t =>
          have hr := hstep.next t rfl
          dsimp only at he hr
          split at he
          · cases he
            exact ⟨.error hstep.kept v _, fun h => by cases h⟩
          · cases he
            refine ⟨.write hstep.kept hr hc, fun _ v' hv => ?_⟩
            -- the bits of the entry: the address above, the flags below, and the present bit
            have hpok : FrameOk p := by
              refine ⟨Nat.dvd_of_mod_eq_zero hp, ?_⟩
              rw [hmask]
              exact Nat.and_lt_two_pow _ (by decide)
            have hlt : p ||| flags ||| pagePresent < 2 ^ 64 :=
              Nat.or_lt_two_pow (Nat.or_lt_two_pow (hpok.2.trans (by decide)) hf) (by decide)
            have hbit : ∀ i, 0 < i →
                (p ||| flags ||| pagePresent).testBit i = (p ||| flags).testBit i := by
              intro i hi
              rw [Nat.testBit_or, pagePresent, Nat.testBit_two_pow_of_ne (by omega), Bool.or_false]
            have hlow : ∀ i, 0 < i → i < 12 →
                (p ||| flags ||| pagePresent).testBit i = flags.testBit i := by
              intro i hi hi'
              rw [hbit i hi, Nat.testBit_or, hpok.testBit_low hi', Bool.false_or]
            have hphys : Pte.phys (p ||| flags ||| pagePresent) = Pte.phys (p ||| flags) := by
              refine Nat.eq_of_testBit_eq fun i => ?_
              rw [phys_testBit, phys_testBit]
              rcases Nat.eq_zero_or_pos i with rfl | hi
              · simp
              · rw [hbit i hi]
            have hpres : Pte.present (p ||| flags ||| pagePresent) = true := by
              rw [Pte.present, Nat.testBit_or, pagePresent, Nat.testBit_two_pow_self, Bool.or_true]
            obtain ⟨user, rw', nx, hsee⟩ := leafWrite_page hstep.kept.tree hr hroot hc hlt hv
            rw [if_pos hpres] at hsee
            rw [vmmTranslate_see, memoryType_see, hsee, Option.map_some, Option.map_some]
            refine ⟨⟨_, rfl, by rw [hphys]⟩, ?_⟩
            simp only [Pte.pcd, Pte.pwt, hlow 7 (by omega) (by omega), hlow 4 (by omega) (by omega),
              hlow 3 (by omega) (by omega)]

/-- `x86_64_vmm_unmap_page`. -/
theorem vmmUnmapPage_onePage {root : Nat} {s : Phys} (hm : PmmOk s.pmm)
    (htree : PageTree s.mem s.pmm.free root) (v : Nat) (frozen : Bool) {r : Except Errno Unit}
    {s' : Phys} (he : vmmUnmapPage root v frozen s = (r, s')) :
    OnePage root v s r s' ∧
      (r = .ok () → ∀ v', v' / 4096 = v / 4096 → vmmTranslate s'.mem root v' = none) := by
  have hrefl := TreeKept.refl hm htree
  rw [vmmUnmapPage] at he
  split at he
  · cases he
    exact ⟨.error hrefl v _, fun h => by cases h⟩
  · rename_i harg
    simp only [not_or, Bool.not_eq_false, not_not] at harg
    obtain ⟨hroot, hc, -, -⟩ := harg
    have hstep := unmapWalk_spec v 3 hm htree .root
    generalize unmapWalk v 4 root s = w at he hstep
    obtain ⟨w, s₁⟩ := w
    cases w with
    | error e =>
        cases he
        exact ⟨.error hstep.kept v _, fun h => by cases h⟩
    | ok t =>
        have hr := hstep.next t rfl
        dsimp only at he hr
        split at he
        · cases he
          exact ⟨.error hstep.kept v _, fun h => by cases h⟩
        · cases he
          refine ⟨.write hstep.kept hr hc, fun _ v' hv => ?_⟩
          obtain ⟨user, rw', nx, hsee⟩ := leafWrite_page hstep.kept.tree hr hroot hc
            (show (0 : Nat) < 2 ^ 64 by decide) hv
          have hpres : Pte.present 0 = false := Nat.zero_testBit 0
          rw [vmmTranslate_see, hsee, hpres]
          rfl

/-- **Splitting a large page preserves translation**, for every tree of tables.  A step of a walk
through an entry with a large leaf changes neither the translation nor the memory type of any
address, and leaves a tree; mapping and unmapping a page, which may split two times on the way,
change that page alone. -/
theorem large_page_split {root : Nat} {s : Phys} (hm : PmmOk s.pmm)
    (htree : PageTree s.mem s.pmm.free root) :
    (∀ v₀ level t user r s', Reach s.mem root v₀ level t → level = 2 ∨ level = 3 →
        Pte.present (ptRead s.mem t (ptIndex v₀ level)) = true →
        Pte.large (ptRead s.mem t (ptIndex v₀ level)) = true →
        ptChild t (ptIndex v₀ level) level user s = (r, s') →
        PageTree s'.mem s'.pmm.free root ∧ ∀ v, SameAt root s.mem s'.mem v) ∧
      (∀ env v p flags replace r s', flags < 2 ^ 64 →
        mapPageRaw env root v p flags replace s = (r, s') → OnePage root v s r s' ∧
        (r = .ok () → ∀ v', v' / 4096 = v / 4096 →
          (∃ x, vmmTranslate s'.mem root v' = some x ∧
            x.phys = Pte.phys (p ||| flags) + v' % 4096) ∧
          memoryType s'.mem root v' = some (flags.testBit 7, flags.testBit 4, flags.testBit 3))) ∧
      ∀ v frozen r s', vmmUnmapPage root v frozen s = (r, s') → OnePage root v s r s' ∧
        (r = .ok () → ∀ v', v' / 4096 = v / 4096 → vmmTranslate s'.mem root v' = none) := by
  refine ⟨fun v₀ level t user r s' hr hl _ _ he => ?_,
    fun env v p flags replace r s' hf he => mapPageRaw_onePage hm htree env v p flags hf replace he,
    fun v frozen r s' he => vmmUnmapPage_onePage hm htree v frozen he⟩
  obtain ⟨l, rfl⟩ : ∃ l, level = l + 1 := ⟨level - 1, by omega⟩
  have hstep := ptChild_spec hm htree hr (by omega) user
  rw [he] at hstep
  exact ⟨hstep.kept.tree, fun v => .of_see (hstep.kept.sees v)⟩

/-- The kernel's tables at boot: a root and one table with a leaf of 1 GiB. -/
theorem reach_boot {v l t : Nat} (h : Reach bootPhys.mem 0x100000 v l t) :
    (l = 4 ∧ t = 0x100000) ∨ (l = 3 ∧ t = 0x101000 ∧ ptIndex v 4 = 0) := by
  induction h with
  | root => exact Or.inl ⟨rfl, rfl⟩
  | @down l t _ htab ih =>
      have hzero : Pte.table (l + 1) 0 = false := by simp [Pte.table, Pte.present]
      have hpos : ∀ {t i}, t = 0x100000 ∨ t = 0x101000 → i < 512 → ptRead bootPhys.mem t i ≠ 0 →
          i = 0 := by
        intro t i ht hi hne
        by_contra h0
        exact hne (bootMem_read ht (by omega) hi)
      have hne : ptRead bootPhys.mem t (ptIndex v (l + 1)) ≠ 0 := by
        intro h0
        rw [h0, hzero] at htab
        cases htab
      rcases ih with ⟨hl, rfl⟩ | ⟨hl, rfl, -⟩
      · obtain rfl : l = 3 := by omega
        have hi : ptIndex v 4 = 0 := hpos (Or.inl rfl) (ptIndex_lt v 4) hne
        refine Or.inr ⟨rfl, ?_, hi⟩
        rw [hi]
        decide +kernel
      · obtain rfl : l = 2 := by omega
        have hi : ptIndex v 3 = 0 := hpos (Or.inr rfl) (ptIndex_lt v 3) hne
        rw [hi] at htab
        exact absurd htab (by decide +kernel)

/-- The boot tables are a tree. -/
theorem pageTree_boot : PageTree bootPhys.mem bootPhys.pmm.free 0x100000 := by
  refine ⟨by decide, fun {v l t} h => ?_, fun {v v' l l' t} h h' => ?_⟩
  · rcases reach_boot h with ⟨-, rfl⟩ | ⟨-, rfl, -⟩ <;> decide +kernel
  · rcases reach_boot h with ⟨rfl, rfl⟩ | ⟨rfl, rfl, hi⟩
    · rcases reach_boot h' with ⟨rfl, -⟩ | ⟨-, ht, -⟩
      · exact ⟨rfl, fun k h₁ h₂ => by omega⟩
      · cases ht
    · rcases reach_boot h' with ⟨-, ht⟩ | ⟨rfl, -, hi'⟩
      · cases ht
      · refine ⟨rfl, fun k h₁ h₂ => ?_⟩
        obtain rfl : k = 4 := by omega
        rw [hi, hi']

/-- The leaf of 1 GiB is split, and every address is where it was. -/
theorem large_page_split_boot : ∃ t s', ptChild 0x101000 0 3 false bootPhys = (.ok t, s') ∧
    ∀ v, SameAt 0x100000 bootPhys.mem s'.mem v := by
  have hok : (ptChild 0x101000 0 3 false bootPhys).1.isOk = true := by decide +kernel
  obtain ⟨r, s', he⟩ : ∃ r s', ptChild 0x101000 0 3 false bootPhys = (r, s') := ⟨_, _, rfl⟩
  have hreach : Reach bootPhys.mem 0x100000 0 3 0x101000 := by
    have hroot : ptRead bootPhys.mem 0x100000 (ptIndex 0 4) = 0x101003 := by decide +kernel
    have hdown : Reach bootPhys.mem 0x100000 0 3 _ := .down Reach.root
      (show Pte.table 4 (ptRead bootPhys.mem 0x100000 (ptIndex 0 4)) = true by rw [hroot]; decide)
    rwa [hroot, show Pte.phys 0x101003 = 0x101000 by decide] at hdown
  have hsame := (large_page_split kernelOk_boot.pmm pageTree_boot).1 0 3 0x101000 false r s' hreach
    (Or.inr rfl) (by decide +kernel) (by decide +kernel) he
  rw [he] at hok
  cases r with
  | error e => cases hok
  | ok t => exact ⟨t, s', he, hsame.2⟩

end Efishell
