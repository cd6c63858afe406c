import Mathlib.Data.List.Induction
import Mathlib.Tactic.Common

/-!
# Support — walks from a root

Nodes, and a partial function `child` that names the edges out of each.  `walk child r st` follows
the labels `st` from `r`.

* `Rooted`: no node has two edges into it and the root has none.  Then a node has at most one path
  (`Rooted.walk_injective`).
* `Sprouts`: `child'` has one edge more than `child`, to a node without edges.  Then the one new
  path leads to the new node and every other path goes where it went (`Sprouts.walk_eq`).
-/

namespace Efishell

namespace Walk

variable {ν κ : Type} {child child' : ν → κ → Option ν} {root : ν}

/-- The node that the labels lead to. -/
def walk (child : ν → κ → Option ν) : ν → List κ → Option ν
  | r, [] => some r
  | r, c :: st => (child r c).bind fun n => walk child n st

@[simp] theorem walk_nil (r : ν) : walk child r [] = some r := rfl

theorem walk_cons (r : ν) (c : κ) (st : List κ) :
    walk child r (c :: st) = (child r c).bind fun n => walk child n st := rfl

/-- A walk in two parts. -/
theorem walk_append (r : ν) (st st' : List κ) :
    walk child r (st ++ st') = (walk child r st).bind fun n => walk child n st' := by
  induction st generalizing r with
  | nil => simp
  | cons c st ih =>
      rw [List.cons_append, walk_cons, walk_cons, Option.bind_assoc]
      congr 1
      funext n
      exact ih n

/-- The last step of a walk. -/
theorem walk_concat (r : ν) (st : List κ) (c : κ) :
    walk child r (st ++ [c]) = (walk child r st).bind fun n => child n c := by
  rw [walk_append]
  congr 1
  funext n
  rw [walk_cons]
  cases child n c <;> rfl

/-- The node before the last. -/
theorem walk_concat_eq_some {r n : ν} {st : List κ} {c : κ} :
    walk child r (st ++ [c]) = some n ↔ ∃ p, walk child r st = some p ∧ child p c = some n := by
  rw [walk_concat, Option.bind_eq_some_iff]

/-- No node has two edges into it, and the root has none. -/
structure Rooted (child : ν → κ → Option ν) (root : ν) : Prop where
  inj : ∀ {a b n : ν} {c d : κ}, child a c = some n → child b d = some n → a = b ∧ c = d
  top : ∀ {a : ν} {c : κ}, child a c ≠ some root

/-- A node has at most one path. -/
theorem Rooted.walk_injective (h : Rooted child root) {st st' : List κ} {n : ν}
    (hw : walk child root st = some n) (hw' : walk child root st' = some n) : st = st' := by
  induction st using List.reverseRecOn generalizing st' n with
  | nil =>
      rcases List.eq_nil_or_concat st' with rfl | ⟨t, c, rfl⟩
      · rfl
      · rw [List.concat_eq_append] at hw'
        obtain ⟨p, -, hp⟩ := walk_concat_eq_some.mp hw'
        rw [walk_nil] at hw
        exact absurd (hp.trans hw.symm) h.top
  | append_singleton st c ih =>
      obtain ⟨p, hp, hn⟩ := walk_concat_eq_some.mp hw
      rcases List.eq_nil_or_concat st' with rfl | ⟨t, d, rfl⟩
      · rw [walk_nil] at hw'
        exact absurd (hn.trans hw'.symm) h.top
      · rw [List.concat_eq_append] at hw' ⊢
        obtain ⟨q, hq, hn'⟩ := walk_concat_eq_some.mp hw'
        obtain ⟨rfl, rfl⟩ := h.inj hn hn'
        rw [ih hp hq]

/-- One edge more, from `p` by the label `c` to the node `leaf`, which had no edge to it and has
none out of it. -/
structure Sprouts (child child' : ν → κ → Option ν) (p : ν) (c : κ) (leaf : ν) : Prop where
  here : child' p c = some leaf
  away : ∀ {a : ν} {d : κ}, ¬ (a = p ∧ d = c) → child' a d = child a d
  absent : child p c = none
  fresh : ∀ {a : ν} {d : κ}, child a d ≠ some leaf
  bare : ∀ {d : κ}, child leaf d = none
  apart : p ≠ leaf

/-- A new leaf keeps the tree rooted. -/
theorem Sprouts.rooted {p leaf : ν} {c : κ} (h : Sprouts child child' p c leaf)
    (hr : Rooted child root) (hl : leaf ≠ root) : Rooted child' root := by
  -- an edge is the new one, or an old one that leads elsewhere
  have hedge : ∀ {a n : ν} {d : κ}, child' a d = some n →
      (a = p ∧ d = c ∧ n = leaf) ∨ (child a d = some n ∧ n ≠ leaf) := by
    intro a n d he
    by_cases hn : a = p ∧ d = c
    · obtain ⟨rfl, rfl⟩ := hn
      rw [h.here] at he
      exact Or.inl ⟨rfl, rfl, (Option.some.inj he).symm⟩
    · rw [h.away hn] at he
      exact Or.inr ⟨he, fun e => h.fresh (e ▸ he)⟩
  constructor
  · intro a b n d e ha hb
    rcases hedge ha with ⟨rfl, rfl, rfl⟩ | ⟨ha, hne⟩
    · rcases hedge hb with ⟨rfl, rfl, -⟩ | ⟨-, hne⟩
      · exact ⟨rfl, rfl⟩
      · exact absurd rfl hne
    · rcases hedge hb with ⟨-, -, rfl⟩ | ⟨hb, -⟩
      · exact absurd rfl hne
      · exact hr.inj ha hb
  · intro a d he
    rcases hedge he with ⟨-, -, e⟩ | ⟨he, -⟩
    · exact hl e.symm
    · exact hr.top he

/-- **Where the paths lead once there is a leaf more.** -/
theorem Sprouts.walk_eq [DecidableEq κ] {p leaf : ν} {c : κ} (h : Sprouts child child' p c leaf)
    (hr : Rooted child root) {st : List κ} (hp : walk child root st = some p) (t : List κ) :
    walk child' root t = if t = st ++ [c] then some leaf else walk child root t := by
  induction t using List.reverseRecOn with
  | nil => rw [if_neg (by simp), walk_nil, walk_nil]
  | append_singleton t d ih =>
      rw [walk_concat, ih, walk_concat]
      by_cases ht : t = st ++ [c]
      · -- below the leaf there is nothing, now as before
        have hleaf : child' leaf d = none := by
          rw [h.away fun e => h.apart e.1.symm, h.bare]
        have hnone : walk child root (st ++ [c]) = none := by
          rw [walk_concat, hp, Option.bind_some, h.absent]
        rw [if_pos ht, if_neg (by simp [ht]), ht, hnone]
        exact hleaf
      · rw [if_neg ht]
        cases hw : walk child root t with
        | none =>
            have hne : t ≠ st := by
              rintro rfl
              rw [hp] at hw
              cases hw
            rw [if_neg (by simp [hne])]
            rfl
        | some a =>
            rw [Option.bind_some, Option.bind_some]
            by_cases hnew : t = st ∧ d = c
            · obtain ⟨rfl, rfl⟩ := hnew
              obtain rfl : p = a := Option.some.inj (hp.symm.trans hw)
              rw [if_pos rfl, h.here]
            · rw [if_neg (by simpa using hnew), h.away]
              rintro ⟨rfl, rfl⟩
              exact hnew ⟨hr.walk_injective hw hp, rfl⟩

end Walk

end Efishell
