import Efishell.Fs.Ram
import Efishell.Fs.PathSound
import Efishell.Support.Walk

/-!
# File systems — the tree of nodes

The functions that walk and extend the table of nodes, read as functions on a tree whose edges are
`childOf`.  On a canonical path `ram_walk` is `walk` along the components (`ramWalk_text`), and
`ram_new` looks for the parent, the name and a free entry in that order (`ramNew_text`).

`RamTree` is what holds of the table: names are unique in a directory, and the parent of a used node
is a used directory.  `RamTree.sprouts` says that a new node is a new leaf.

* `ramWalk_text`: `ram_walk` is a walk along the components.
* `ramNew_text`: `ram_new` looks for the parent, the name and a free entry.
-/

namespace Efishell

open Components Walk

/-- The edge that `ram_walk` follows. -/
def childOf (nodes : Nat → RamNode) (a : Nat) (c : Name) : Option Nat :=
  if (nodes a).directory = true then ramChild nodes a c else none

/-! ### Texts -/

/-- The loop at a component, which ends the path or stands before a separator. -/
theorem ramWalkLoop_name {nodes : Nat → RamNode} {c : Name} {rest : List UInt8} (hc : c ≠ [])
    (hs : slash ∉ c) (hr : ∀ b ∈ rest.head?, b = slash) (left a : Nat) :
    ramWalkLoop nodes (left + 1) (c ++ rest) a =
      (childOf nodes a c).bind fun n => ramWalkLoop nodes left rest n := by
  have hall : ∀ b ∈ c, decide (b ≠ slash) = true := by
    intro b hb
    exact decide_eq_true fun e => hs (e ▸ hb)
  have htake : rest.takeWhile (· ≠ slash) = [] ∧ rest.dropWhile (· ≠ slash) = rest := by
    cases rest with
    | nil => exact ⟨rfl, rfl⟩
    | cons b rest => simp [hr b rfl]
  obtain ⟨b, c', rfl⟩ := List.exists_cons_of_ne_nil hc
  have hb : b ≠ slash := fun e => hs (by simp [e])
  rw [List.cons_append, ramWalkLoop, if_neg hb, ← List.cons_append,
    List.takeWhile_append_of_pos hall, List.dropWhile_append_of_pos hall, htake.1, htake.2,
    List.append_nil, childOf]
  cases hd : (nodes a).directory with
  | false => simp
  | true =>
      simp only [reduceIte, Bool.true_eq_false]
      cases ramChild nodes a (b :: c') <;> rfl

/-- The loop over components that stand behind separators. -/
theorem ramWalkLoop_flatMap {nodes : Nat → RamNode} {st : List Name} (hp : Proper slash st) :
    ∀ {left a : Nat}, (st.flatMap fun c => slash :: c).length ≤ left →
      ramWalkLoop nodes left (st.flatMap fun c => slash :: c) a = walk (childOf nodes) a st := by
  induction st with
  | nil =>
      intro left a _
      rw [List.flatMap_nil, ramWalkLoop, walk_nil]
  | cons c st ih =>
      intro left a hl
      obtain ⟨hc, hs⟩ := hp c (by simp)
      have hpos := List.length_pos_iff.mpr hc
      rw [List.flatMap_cons, List.cons_append, List.length_cons, List.length_append] at hl
      obtain ⟨left, rfl⟩ : ∃ k, left = k + 2 := ⟨left - 2, by omega⟩
      have hhead : ∀ b ∈ (st.flatMap fun c => slash :: c).head?, b = slash := by
        cases st with
        | nil => simp
        | cons d st => simp [eq_comm]
      rw [List.flatMap_cons, List.cons_append, ramWalkLoop, if_pos rfl,
        ramWalkLoop_name hc hs hhead, walk_cons]
      congr 1
      funext n
      exact ih (fun d hd => hp d (List.mem_cons_of_mem c hd)) (by omega)

/-- The source's walk over the text is the walk along the names. -/
theorem ramWalk_render {nodes : Nat → RamNode} {st : List Name} (hp : Proper slash st) :
    ramWalk nodes (render slash st) = walk (childOf nodes) 0 st := by
  rw [ramWalk]
  by_cases h : st = []
  · rw [h, render_nil, List.length_singleton, ramWalkLoop, if_pos rfl, ramWalkLoop, walk_nil]
  · rw [render_of_ne h]
    exact ramWalkLoop_flatMap hp le_rfl

theorem ramWalk_text {nodes : Nat → RamNode} (p : NormalPath) :
    ramWalk nodes p.text = walk (childOf nodes) 0 p.stack := ramWalk_render p.pathOk.proper

/-- The scan for the last separator stops right behind it. -/
theorem splitScan_last {a c : List UInt8} (hc : slash ∉ c) :
    splitScan (a ++ slash :: c) (a ++ slash :: c).length = a.length + 1 := by
  have hscan : ∀ k ≤ c.length, splitScan (a ++ slash :: c) (a.length + 1 + k) = a.length + 1 := by
    intro k
    induction k with
    | zero =>
        intro _
        rw [Nat.add_zero, splitScan, if_neg (by simp)]
    | succ k ih =>
        intro hk
        have hat : (a ++ slash :: c).getD (a.length + 1 + k) 0 = c.get ⟨k, hk⟩ := by
          rw [List.getD_append_right _ _ _ _ (by omega),
            show a.length + 1 + k - a.length = k + 1 by omega, List.getD_cons_succ,
            List.getD_eq_getElem c 0 hk, List.get_eq_getElem]
        have hne : c.get ⟨k, hk⟩ ≠ slash := fun e => hc (e ▸ List.getElem_mem hk)
        rw [show a.length + 1 + (k + 1) = (a.length + 1 + k) + 1 by omega, splitScan,
          if_pos (by rwa [hat]), ih (by omega)]
  have hlen : (a ++ slash :: c).length = a.length + 1 + c.length := by
    rw [List.length_append, List.length_cons]
    omega
  rw [hlen]
  exact hscan c.length le_rfl

/-- What `ram_new` cuts a canonical path into: the path of the parent and the last name. -/
theorem splitScan_render (st : List Name) {c : Name} (hc : slash ∉ c) :
    (render slash (st ++ [c])).drop
        (splitScan (render slash (st ++ [c])) (render slash (st ++ [c])).length) = c ∧
      (render slash (st ++ [c])).take
        (if 1 < splitScan (render slash (st ++ [c])) (render slash (st ++ [c])).length
          then splitScan (render slash (st ++ [c])) (render slash (st ++ [c])).length - 1 else 1) =
        render slash st := by
  rw [render_concat, splitScan_last hc]
  by_cases hst : st = []
  · subst hst
    simp
  · rw [if_neg hst]
    have hpos := render_length_pos slash st
    refine ⟨?_, ?_⟩
    · simp [List.drop_append]
    · rw [if_pos (by omega), Nat.add_sub_cancel]
      exact List.take_left

/-- The entry that `ram_new` fills. -/
def RamNode.fresh (parent : Nat) (directory : Bool) (name : Name) : RamNode :=
  { RamNode.blank with
    used := true, parent := parent, directory := directory, kind := 1, name := name }

/-- The parent, the name and a free entry, in this order. -/
theorem ramNew_text (nodes : Nat → RamNode) (p : NormalPath) {st : List Name} {c : Name}
    (hst : p.stack = st ++ [c]) (directory : Bool) :
    ramNew p.text directory nodes =
      match walk (childOf nodes) 0 st with
      | none => .error .enoent
      | some q =>
        if (nodes q).directory = false then .error .enoent
        else if (ramChild nodes q c).isSome then .error .eexist
        else
          match nodeIndices.find? fun i => !(nodes i).used with
          | none => .error .enomem
          | some i => .ok (i, Function.update nodes i (.fresh q directory c)) := by
  have hok : PathOk (st ++ [c]) := hst ▸ p.pathOk
  have hc := (hok.proper c (by simp)).2
  have htext : p.text = render slash (st ++ [c]) := by rw [NormalPath.text, hst]
  have hlong : 1 < (render slash (st ++ [c])).length :=
    (one_lt_render_length hok.proper).mpr (by simp)
  have hshort : c.length < kNameMax + 1 := by
    have := p.short
    rw [hst, render_concat, List.length_append, List.length_cons] at this
    simp only [kPathMax, kNameMax] at this ⊢
    omega
  obtain ⟨hdrop, htake⟩ := splitScan_render st hc
  rw [ramNew, p.copy, htext]
  dsimp only
  rw [if_neg (by omega), hdrop, htake, strCopy_of_lt hshort, strCopy_of_lt hshort,
    ramWalk_render hok.init.proper]
  rfl

/-- The root cannot be made again. -/
theorem ramNew_root {nodes : Nat → RamNode} (p : NormalPath) (hst : p.stack = [])
    (directory : Bool) :
    ramNew p.text directory nodes = .error .eexist := by
  rw [ramNew, p.copy, NormalPath.text, hst]
  rfl

/-! ### The tree -/

/-- A node without the place of its bytes. -/
def RamNode.shape (r : RamNode) : RamNode := { r with data := 0, size := 0, pages := 0 }

/-- The fields that make up a node's shape. -/
theorem RamNode.shape_eq {r r' : RamNode} (h : r'.shape = r.shape) :
    r'.used = r.used ∧ r'.directory = r.directory ∧ r'.parent = r.parent ∧ r'.name = r.name ∧
      r'.kind = r.kind := by
  simp only [RamNode.shape, RamNode.mk.injEq] at h
  exact ⟨h.1, h.2.1, h.2.2.1, h.2.2.2.2.2.2.1, h.2.2.2.2.1⟩

/-- The edges do not depend on the bytes. -/
theorem childOf_shape {nodes nodes' : Nat → RamNode}
    (h : ∀ i, (nodes' i).shape = (nodes i).shape) : childOf nodes' = childOf nodes := by
  funext a c
  obtain ⟨-, hdir, -⟩ := RamNode.shape_eq (h a)
  have hchild : ramChild nodes' a c = ramChild nodes a c := by
    rw [ramChild, ramChild]
    congr 1
    funext i
    obtain ⟨hu, -, hp, hn, -⟩ := RamNode.shape_eq (h i)
    rw [hu, hp, hn]
  rw [childOf, childOf, hdir, hchild]

/-- What holds of the table of nodes. -/
structure RamTree (nodes : Nat → RamNode) : Prop where
  root : (nodes 0).used = true ∧ (nodes 0).directory = true
  parents : ∀ i, i ≠ 0 → (nodes i).used = true →
    (nodes (nodes i).parent).used = true ∧ (nodes (nodes i).parent).directory = true
  names : ∀ i j, i ≠ 0 → j ≠ 0 → (nodes i).used = true → (nodes j).used = true →
    (nodes i).parent = (nodes j).parent → (nodes i).name = (nodes j).name → i = j
  bound : ∀ i, (nodes i).used = true → i < maxNodes
  kind : ∀ i, (nodes i).used = true → (nodes i).kind = 1

/-- The scan covers every index but the root's. -/
theorem mem_nodeIndices {i : Nat} : i ∈ nodeIndices ↔ i ≠ 0 ∧ i < maxNodes := by
  rw [nodeIndices, List.mem_range'_1]
  simp only [maxNodes]
  omega

namespace RamTree

variable {nodes nodes' : Nat → RamNode}

/-- The tree depends on the shape of the nodes only. -/
theorem shape (h : RamTree nodes) (hs : ∀ i, (nodes' i).shape = (nodes i).shape) :
    RamTree nodes' := by
  have hused := fun i => (RamNode.shape_eq (hs i)).1
  have hdir := fun i => (RamNode.shape_eq (hs i)).2.1
  have hparent := fun i => (RamNode.shape_eq (hs i)).2.2.1
  have hname := fun i => (RamNode.shape_eq (hs i)).2.2.2.1
  have hkind := fun i => (RamNode.shape_eq (hs i)).2.2.2.2
  constructor
  · simpa only [hused, hdir] using h.root
  · simpa only [hused, hdir, hparent] using h.parents
  · simpa only [hused, hparent, hname] using h.names
  · simpa only [hused] using h.bound
  · simpa only [hused, hkind] using h.kind

/-- A child found is the one with that parent and name. -/
theorem ramChild_eq_some (h : RamTree nodes) {a i : Nat} {c : Name} :
    ramChild nodes a c = some i ↔
      i ≠ 0 ∧ (nodes i).used = true ∧ (nodes i).parent = a ∧ (nodes i).name = c := by
  constructor
  · intro hf
    have hi := mem_nodeIndices.mp (List.mem_of_find?_eq_some hf)
    have hp := List.find?_some hf
    simp only [Bool.and_eq_true, beq_iff_eq] at hp
    exact ⟨hi.1, hp.1.1, hp.1.2, hp.2⟩
  · rintro ⟨hi, hu, rfl, rfl⟩
    cases hf : ramChild nodes (nodes i).parent (nodes i).name with
    | none =>
        have := List.find?_eq_none.mp hf i (mem_nodeIndices.mpr ⟨hi, h.bound i hu⟩)
        simp [hu] at this
    | some j =>
        have hj := mem_nodeIndices.mp (List.mem_of_find?_eq_some hf)
        have hp := List.find?_some hf
        simp only [Bool.and_eq_true, beq_iff_eq] at hp
        rw [h.names i j hi hj.1 hu hp.1.1 hp.1.2.symm hp.2.symm]

theorem childOf_eq_some (h : RamTree nodes) {a i : Nat} {c : Name} :
    childOf nodes a c = some i ↔
      i ≠ 0 ∧ (nodes i).used = true ∧ (nodes i).parent = a ∧ (nodes i).name = c := by
  rw [childOf]
  split
  · exact h.ramChild_eq_some
  · rename_i hd
    refine ⟨fun e => (nomatch e), fun ⟨hi, hu, hp, _⟩ => ?_⟩
    exact absurd (hp ▸ (h.parents i hi hu).2) hd

/-- Children stand in directories only, so the check in `ram_walk` hides none. -/
theorem childOf_eq (h : RamTree nodes) (a : Nat) (c : Name) :
    childOf nodes a c = ramChild nodes a c := by
  ext i
  rw [h.childOf_eq_some, h.ramChild_eq_some]

/-- The walk starts at the root, which is no node's child. -/
theorem rooted (h : RamTree nodes) : Rooted (childOf nodes) 0 where
  inj := by
    intro a b n c d ha hb
    obtain ⟨-, -, rfl, rfl⟩ := h.childOf_eq_some.mp ha
    obtain ⟨-, -, rfl, rfl⟩ := h.childOf_eq_some.mp hb
    exact ⟨rfl, rfl⟩
  top := by
    intro a c he
    exact (h.childOf_eq_some.mp he).1 rfl

/-- A path walks to used nodes only. -/
theorem used_of_walk (h : RamTree nodes) {st : List Name} {i : Nat}
    (hw : walk (childOf nodes) 0 st = some i) : (nodes i).used = true := by
  rcases List.eq_nil_or_concat st with rfl | ⟨st, c, rfl⟩
  · obtain rfl : 0 = i := Option.some.inj hw
    exact h.root.1
  · rw [List.concat_eq_append] at hw
    obtain ⟨p, -, hp⟩ := walk_concat_eq_some.mp hw
    exact (h.childOf_eq_some.mp hp).2.1

/-- The table with a new node in a directory, under a name that is free there. -/
theorem grow (h : RamTree nodes) {q i : Nat} {c : Name} (hq : (nodes q).used = true)
    (hd : (nodes q).directory = true) (hc : ramChild nodes q c = none) (hi : i ∈ nodeIndices)
    (hu : (nodes i).used = false) (directory : Bool) :
    RamTree (Function.update nodes i (.fresh q directory c)) := by
  obtain ⟨hi₀, hlt⟩ := mem_nodeIndices.mp hi
  have hne : ∀ {j}, (nodes j).used = true → j ≠ i := by
    rintro j hj rfl
    rw [hu] at hj
    cases hj
  -- no used node has the new name
  have hfree : ∀ j, j ≠ 0 → (nodes j).used = true → (nodes j).parent = q → (nodes j).name ≠ c := by
    intro j hj₀ hj hp hn
    have := h.ramChild_eq_some.mpr ⟨hj₀, hj, hp, hn⟩
    rw [hc] at this
    cases this
  refine ⟨?_, fun j hj₀ hj => ?_, fun j k hj₀ hk₀ hj hk hp hn => ?_, fun j hj => ?_, fun j hj => ?_⟩
  · rw [Function.update_of_ne hi₀.symm]
    exact h.root
  · rcases eq_or_ne j i with rfl | e
    · rw [Function.update_self, RamNode.fresh, Function.update_of_ne (hne hq)]
      exact ⟨hq, hd⟩
    · rw [Function.update_of_ne e] at hj ⊢
      have hp := h.parents j hj₀ hj
      rw [Function.update_of_ne (hne hp.1)]
      exact hp
  · rcases eq_or_ne j i with rfl | e
    · rcases eq_or_ne k j with rfl | e'
      · rfl
      · rw [Function.update_self, Function.update_of_ne e'] at hp hn
        rw [Function.update_of_ne e'] at hk
        exact absurd hn.symm (hfree k hk₀ hk hp.symm)
    · rw [Function.update_of_ne e] at hj hp hn
      rcases eq_or_ne k i with rfl | e'
      · rw [Function.update_self] at hp hn
        exact absurd hn (hfree j hj₀ hj hp)
      · rw [Function.update_of_ne e'] at hk hp hn
        exact h.names j k hj₀ hk₀ hj hk hp hn
  · rcases eq_or_ne j i with rfl | e
    · exact hlt
    · rw [Function.update_of_ne e] at hj
      exact h.bound j hj
  · rcases eq_or_ne j i with rfl | e
    · rw [Function.update_self]
      rfl
    · rw [Function.update_of_ne e] at hj ⊢
      exact h.kind j hj

/-- A new node is a new leaf. -/
theorem sprouts (h : RamTree nodes) {q i : Nat} {c : Name} (hq : (nodes q).used = true)
    (hd : (nodes q).directory = true) (hc : ramChild nodes q c = none) (hi : i ∈ nodeIndices)
    (hu : (nodes i).used = false) (directory : Bool) :
    Sprouts (childOf nodes) (childOf (Function.update nodes i (.fresh q directory c))) q c i := by
  have h' := h.grow hq hd hc hi hu directory
  obtain ⟨hi₀, -⟩ := mem_nodeIndices.mp hi
  refine ⟨h'.childOf_eq_some.mpr ⟨hi₀, ?_⟩, ?_, ?_, ?_, ?_, ?_⟩
  · rw [Function.update_self]
    exact ⟨rfl, rfl, rfl⟩
  · intro a d hne
    ext j
    rw [h'.childOf_eq_some, h.childOf_eq_some]
    rcases eq_or_ne j i with rfl | e
    · rw [Function.update_self, hu]
      refine ⟨fun ⟨_, _, hp, hn⟩ => absurd ⟨hp.symm, hn.symm⟩ hne, fun ⟨_, hj, _⟩ => (nomatch hj)⟩
    · rw [Function.update_of_ne e]
  · rw [h.childOf_eq, hc]
  · intro a d he
    have := (h.childOf_eq_some.mp he).2.1
    rw [hu] at this
    cases this
  · intro d
    rw [Option.eq_none_iff_forall_ne_some]
    intro j he
    obtain ⟨hj₀, hj, hp, -⟩ := h.childOf_eq_some.mp he
    have := (h.parents j hj₀ hj).1
    rw [hp, hu] at this
    cases this
  · rintro rfl
    rw [hu] at hq
    cases hq

end RamTree

end Efishell
