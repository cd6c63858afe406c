import Mathlib.Data.List.Basic
import Mathlib.Data.List.Infix
import Mathlib.Tactic.Common

/-!
# Support — separated strings and their components

A rooted string `⟨sep⟩a⟨sep⟩b` and the list `[a, b]` of its components are two views of one thing.

* `render sep st` writes the components `st` down, each behind a separator; no component at all
  is the separator alone.
* `components sep s` reads them back; `components_render` is the round trip.
* `render_concat` says where the last component begins, `prefix_render` that a list which begins
  another one is written at the front of it.
-/

namespace Efishell

namespace Components

variable {α : Type} {sep : α}

/-- The components, each behind a separator. -/
def render (sep : α) (st : List (List α)) : List α :=
  if st = [] then [sep] else st.flatMap fun c => sep :: c

/-- No component is empty or holds a separator. -/
def Proper (sep : α) (st : List (List α)) : Prop := ∀ c ∈ st, c ≠ [] ∧ sep ∉ c

@[simp] theorem render_nil : render sep [] = [sep] := rfl

/-- The text of a path that is not the root's. -/
theorem render_of_ne {st : List (List α)} (h : st ≠ []) :
    render sep st = st.flatMap fun c => sep :: c := if_neg h

theorem render_cons (c : List α) (st : List (List α)) :
    render sep (c :: st) = sep :: (c ++ st.flatMap fun c => sep :: c) := by
  rw [render_of_ne (List.cons_ne_nil c st), List.flatMap_cons, List.cons_append]

/-- The last component and what stands before it. -/
theorem render_concat (st : List (List α)) (c : List α) :
    render sep (st ++ [c]) = (if st = [] then [] else render sep st) ++ sep :: c := by
  rw [render_of_ne (by simp), List.flatMap_append, List.flatMap_singleton]
  congr 1
  split
  · rename_i h
    rw [h, List.flatMap_nil]
  · rename_i h
    rw [render_of_ne h]

/-- The text starts with the separator. -/
theorem head_render (sep : α) (st : List (List α)) : (render sep st).head? = some sep := by
  cases st with
  | nil => rfl
  | cons c st => rw [render_cons, List.head?_cons]

theorem render_length_pos (sep : α) (st : List (List α)) : 0 < (render sep st).length := by
  cases st with
  | nil => simp
  | cons c st => rw [render_cons, List.length_cons]; omega

/-- Only the root's text is one separator. -/
theorem one_lt_render_length {st : List (List α)} (hp : Proper sep st) :
    1 < (render sep st).length ↔ st ≠ [] := by
  cases st with
  | nil => simp
  | cons c st =>
      have hc := List.length_pos_iff.mpr (hp c (by simp)).1
      rw [render_cons, List.length_cons, List.length_append]
      refine ⟨fun _ => List.cons_ne_nil c st, fun _ => ?_⟩
      omega

/-- A list of components that begins another one is written at the front of it, and a separator
follows. -/
theorem prefix_render {base more : List (List α)} (hb : base ≠ []) :
    render sep (base ++ more) = render sep base ++ more.flatMap fun c => sep :: c := by
  rw [render_of_ne hb, render_of_ne (by simp [hb]), List.flatMap_append]

/-- A longer path has a longer text. -/
theorem render_length_mono (sep : α) {base st : List (List α)} (h : base <+: st) :
    (render sep base).length ≤ (render sep st).length := by
  obtain ⟨more, rfl⟩ := h
  by_cases hb : base = []
  · rw [hb, render_nil]
    exact render_length_pos sep _
  · rw [prefix_render hb, List.length_append]
    omega

/-- A proper list of components is longer when written down than the one it begins with. -/
theorem render_length_lt {base st : List (List α)} (hp : Proper sep st) (h : base <+: st)
    (hne : base ≠ st) : (render sep base).length < (render sep st).length := by
  obtain ⟨more, rfl⟩ := h
  have hm : more ≠ [] := by
    rintro rfl
    exact hne (List.append_nil base).symm
  by_cases hb : base = []
  · subst hb
    exact (one_lt_render_length hp).mpr hm
  · obtain ⟨c, more, rfl⟩ := List.exists_cons_of_ne_nil hm
    rw [prefix_render hb, List.length_append, List.flatMap_cons, List.cons_append,
      List.length_cons]
    omega

/-! ### Parts with a separator between two of them -/

theorem intercalate_cons {c : List α} {st : List (List α)} (h : st ≠ []) :
    [sep].intercalate (c :: st) = c ++ sep :: [sep].intercalate st := by
  rw [List.intercalate_cons_of_ne_nil h, List.append_assoc, List.singleton_append]

theorem intercalate_flatMap (sep : α) (c : List α) (st : List (List α)) :
    [sep].intercalate (c :: st) = c ++ st.flatMap fun d => sep :: d := by
  induction st generalizing c with
  | nil => simp
  | cons d st ih => rw [intercalate_cons (by simp), ih, List.flatMap_cons, List.cons_append]

/-! ### Reading back -/

variable [DecidableEq α]

/-- The pieces between the separators that are not empty. -/
def components (sep : α) (s : List α) : List (List α) := (s.splitOn sep).filter (· ≠ [])

/-- The text splits at its separators into the names. -/
theorem splitOn_flatMap {st : List (List α)} (hs : ∀ d ∈ st, sep ∉ d) :
    ∀ {c : List α}, sep ∉ c → (c ++ st.flatMap fun d => sep :: d).splitOn sep = c :: st := by
  induction st with
  | nil =>
      intro c hc
      rw [List.flatMap_nil, List.append_nil, List.splitOn_eq_singleton hc]
  | cons d st ih =>
      intro c hc
      have hd : sep ∉ d := hs d (by simp)
      rw [List.flatMap_cons, List.cons_append, List.splitOn_append_cons_self_of_not_mem hc,
        ih (fun e he => hs e (List.mem_cons_of_mem d he)) hd]

theorem splitOn_render {st : List (List α)} (hp : Proper sep st) (h : st ≠ []) :
    (render sep st).splitOn sep = [] :: st := by
  cases st with
  | nil => exact absurd rfl h
  | cons c st =>
      have hrest : ∀ d ∈ st, sep ∉ d := fun d hd => (hp d (List.mem_cons_of_mem c hd)).2
      have hsplit := splitOn_flatMap hrest (hp c (by simp)).2
      rw [render_cons, List.splitOn_cons_eq_if_modifyHead, if_pos (beq_self_eq_true sep), hsplit]

/-- **Reading back what was written.** -/
theorem components_render {st : List (List α)} (hp : Proper sep st) :
    components sep (render sep st) = st := by
  by_cases h : st = []
  · rw [h, render_nil, components, List.splitOn_cons_eq_if_modifyHead]
    simp
  · rw [components, splitOn_render hp h, List.filter_cons_of_neg (by simp),
      List.filter_eq_self.mpr fun c hc => by simpa using (hp c hc).1]

end Components

end Efishell
