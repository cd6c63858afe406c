import Mathlib.Data.List.Nodup
import Mathlib.Data.List.TakeWhile
import Efishell.Fs.Path

/-!
# File systems — path resolution is the fold of the components

Inside `resolveLoop` the buffer is always a stack of names written down (`PathOk`), and the stack
begins with the one the path starts from.  `resolveLoop_spec` is the loop's invariant run to the
end, `resolveLoop_text` says that a canonical path comes out as it went in.

* `kPathResolve_spec`: a path resolves to the fold of its components.
* `path_resolution`: with confinement below a named root, for every table of roots.
-/

namespace Efishell

open Components

/-! ### Stacks of names -/

/-- Every component of the stack may stand in a canonical path. -/
def PathOk (st : List Name) : Prop := ∀ c ∈ st, NameOk c

/-- The names of a path are not empty and have no slash. -/
theorem PathOk.proper {st : List Name} (h : PathOk st) : Proper slash st :=
  fun c hc => ⟨(h c hc).ne_nil, fun hs => ((h c hc).chars slash hs).1 rfl⟩

theorem PathOk.nil : PathOk [] := by simp [PathOk]

theorem PathOk.concat {st : List Name} {c : Name} (h : PathOk st) (hc : NameOk c) :
    PathOk (st ++ [c]) := by
  intro d hd
  rcases List.mem_append.mp hd with hd | hd
  · exact h d hd
  · rwa [List.mem_singleton.mp hd]

theorem PathOk.init {st : List Name} {c : Name} (h : PathOk (st ++ [c])) : PathOk st :=
  fun d hd => h d (List.mem_append_left [c] hd)

/-- A name steps into a directory. -/
theorem NameOk.pathStep {c : Name} (h : NameOk c) (st : List Name) :
    pathStep st c = st ++ [c] := by
  have hne : ¬ (c = [] ∨ c = dot) := fun e => e.elim h.ne_nil h.ne_dot
  rw [Efishell.pathStep, if_neg hne, if_neg h.ne_dotdot]

@[simp] theorem pathStep_nil (st : List Name) : pathStep st [] = st := by simp [pathStep]

@[simp] theorem pathStep_dot (st : List Name) : pathStep st dot = st := by simp [pathStep]

@[simp] theorem pathStep_dotdot (st : List Name) : pathStep st dotdot = st.dropLast := by
  simp [pathStep, dotdot, dot]

@[simp] theorem foldPath_nil (st : List Name) : foldPath st [] = st := by simp [foldPath]

/-- A slash separates and does nothing. -/
theorem foldPath_slash (st : List Name) (path : List UInt8) :
    foldPath st (slash :: path) = foldPath st path := by
  rw [foldPath, List.splitOn_cons_eq_if_modifyHead, if_pos (beq_self_eq_true slash),
    List.foldl_cons, pathStep_nil, foldPath]

/-- A name that a separator or the end of the path follows is one step of the fold. -/
theorem foldPath_name {st : List Name} {name rest : List UInt8} (hn : slash ∉ name)
    (hr : rest = [] ∨ rest.head? = some slash) :
    foldPath st (name ++ rest) = foldPath (pathStep st name) rest := by
  rcases hr with rfl | hr
  · rw [List.append_nil, foldPath_nil, foldPath, List.splitOn_eq_singleton hn, List.foldl_cons,
      List.foldl_nil]
  · obtain ⟨tail, rfl⟩ : ∃ tail, rest = slash :: tail := by
      cases rest with
      | nil => cases hr
      | cons c tail => exact ⟨tail, by rw [Option.some.inj hr]⟩
    rw [foldPath_slash, foldPath, List.splitOn_append_cons_self_of_not_mem hn, List.foldl_cons,
      foldPath]

/-! ### The two inner loops -/

/-- What the loop over a component reads. -/
structure Scanned (path name rest : List UInt8) : Prop where
  whole : path = name ++ rest
  chars : ∀ b ∈ name, b ≠ slash ∧ ¬ b < 32 ∧ ¬ 126 < b
  stop : rest = [] ∨ rest.head? = some slash

/-- A name the scan returns is a proper component, with the rest of the path. -/
theorem scanName_spec {path : List UInt8} :
    ∀ {n : Nat} {name rest : List UInt8}, scanName n path = .ok (name, rest) →
      Scanned path name rest := by
  induction path with
  | nil =>
      intro n name rest h
      cases h
      exact ⟨rfl, by simp, Or.inl rfl⟩
  | cons c path ih =>
      intro n name rest h
      rw [scanName] at h
      split at h
      · rename_i hc
        cases h
        exact ⟨rfl, by simp, Or.inr (by rw [List.head?_cons, hc])⟩
      · rename_i hc
        split at h
        · cases h
        · rename_i hok
          cases hscan : scanName (n + 1) path with
          | error e =>
              rw [hscan] at h
              cases h
          | ok r =>
              rw [hscan] at h
              cases h
              obtain ⟨hw, hch, hs⟩ := ih hscan
              refine ⟨by rw [hw, List.cons_append], ?_, hs⟩
              intro b hb
              rcases List.mem_cons.mp hb with rfl | hb
              · exact ⟨hc, fun hl => hok (Or.inl hl), fun hl => hok (Or.inr (Or.inl hl))⟩
              · exact hch b hb

/-- A canonical name of at most `K_NAME_MAX` bytes is read as a whole. -/
theorem scanName_name {name rest : List UInt8}
    (hn : ∀ b ∈ name, b ≠ slash ∧ ¬ b < 32 ∧ ¬ 126 < b)
    (hr : rest = [] ∨ rest.head? = some slash) :
    ∀ {n : Nat}, n + name.length ≤ kNameMax → scanName n (name ++ rest) = .ok (name, rest) := by
  induction name with
  | nil =>
      intro n _
      cases rest with
      | nil => rfl
      | cons c rest =>
          have hc : c = slash := by simpa using hr
          rw [List.nil_append, scanName, if_pos hc]
  | cons c name ih =>
      intro n hl
      obtain ⟨hc, h₁, h₂⟩ := hn c (by simp)
      rw [List.length_cons] at hl
      have hlong : ¬ kNameMax < n + 1 := by omega
      have hgood : ¬ (c < 32 ∨ 126 < c ∨ kNameMax < n + 1) := by simp [h₁, h₂, hlong]
      rw [List.cons_append, scanName, if_neg hc, if_neg hgood,
        ih (fun b hb => hn b (List.mem_cons_of_mem c hb)) (by omega)]

/-- The name behind an `@` ends at the first separator. -/
theorem rootName_spec {path : List UInt8} :
    ∀ {n : Nat} {name rest : List UInt8}, rootName n path = .ok (name, rest) →
      name = path.takeWhile (· ≠ slash) ∧ rest = path.dropWhile (· ≠ slash) := by
  induction path with
  | nil =>
      intro n name rest h
      cases h
      exact ⟨rfl, rfl⟩
  | cons c path ih =>
      intro n name rest h
      rw [rootName] at h
      split at h
      · rename_i hc
        cases h
        simp [hc]
      · rename_i hc
        split at h
        · cases h
        · cases hroot : rootName (n + 1) path with
          | error e =>
              rw [hroot] at h
              cases h
          | ok r =>
              rw [hroot] at h
              cases h
              obtain ⟨h₁, h₂⟩ := ih hroot
              simp [hc, h₁, h₂]

/-! ### Cutting at the last separator -/

/-- From anywhere behind the last separator the scan stops right behind it. -/
theorem popScan_last {a c : List UInt8} (hc : slash ∉ c) :
    ∀ {k : Nat}, k ≤ c.length → popScan (a ++ slash :: c) (a.length + 1 + k) = a.length + 1 := by
  intro k
  induction k with
  | zero =>
      intro _
      have hat : (a ++ slash :: c).getD a.length 0 = slash := by simp
      rw [Nat.add_zero, popScan, if_neg (by rw [hat]; simp)]
  | succ k ih =>
      intro hk
      have hat : (a ++ slash :: c).getD (a.length + 1 + k) 0 = c.get ⟨k, hk⟩ := by
        rw [List.getD_append_right _ _ _ _ (by omega),
          show a.length + 1 + k - a.length = k + 1 by omega, List.getD_cons_succ,
          List.getD_eq_getElem c 0 hk, List.get_eq_getElem]
      have hne : c.get ⟨k, hk⟩ ≠ slash := fun e => hc (e ▸ List.getElem_mem hk)
      rw [show a.length + 1 + (k + 1) = (a.length + 1 + k) + 1 by omega, popScan,
        if_pos ⟨by omega, by rwa [hat]⟩, ih (by omega)]

/-- A `..` leaves the stack without its last name. -/
theorem popTo_render {st : List Name} {c : Name} (h : PathOk (st ++ [c])) :
    popTo (render slash (st ++ [c])) = (render slash st).length ∧
      (render slash (st ++ [c])).take (render slash st).length = render slash st := by
  have hc : slash ∉ c := (h.proper c (by simp)).2
  rw [render_concat]
  by_cases hst : st = []
  · subst hst
    have hscan := popScan_last (a := []) hc le_rfl
    rw [List.length_nil, Nat.zero_add, Nat.add_comm] at hscan
    rw [if_pos rfl, List.nil_append, popTo, List.length_cons]
    rw [List.nil_append] at hscan
    rw [hscan]
    simp
  · have hscan := popScan_last (a := render slash st) hc le_rfl
    have hlen : (render slash st ++ slash :: c).length =
        (render slash st).length + 1 + c.length := by
      rw [List.length_append, List.length_cons]
      omega
    have hpos := render_length_pos slash st
    rw [if_neg hst, popTo, hlen, hscan]
    exact ⟨by simp [hpos], List.take_left⟩

/-! ### The loop -/

/-- Between two rounds the buffer holds a stack that begins with `base`; the stack can only be
`base` itself when the buffer is as short as that. -/
theorem eq_base_of_length {base st : List Name} (h : PathOk st) (hb : base <+: st)
    (hl : (render slash st).length ≤ (render slash base).length) : st = base := by
  by_contra hne
  have := render_length_lt h.proper hb (Ne.symm hne)
  omega

/-- A pushed name. -/
theorem render_push {st : List Name} (h : PathOk st) (name : Name) :
    render slash st ++ (if 1 < (render slash st).length then [slash] else []) ++ name =
      render slash (st ++ [name]) := by
  have hone := one_lt_render_length h.proper
  rw [render_concat]
  by_cases hst : st = []
  · subst hst
    simp
  · rw [if_pos (hone.mpr hst), if_neg hst, List.append_assoc, List.singleton_append]

/-- What is known when the loop ends: the buffer is the fold, and it lies below `base`. -/
structure Resolved (base st : List Name) (path out : List UInt8) : Prop where
  text : out = render slash (foldPath st path)
  ok : PathOk (foldPath st path)
  below : base <+: foldPath st path
  short : out.length < kPathMax

/-- The result depends on the path's fold only. -/
theorem Resolved.congr {base st st' : List Name} {path path' out : List UInt8}
    (h : Resolved base st path out) (e : foldPath st' path' = foldPath st path) :
    Resolved base st' path' out :=
  ⟨by rw [e, h.text], by rw [e]; exact h.ok, by rw [e]; exact h.below,
  h.short⟩

/-- **The loop folds the components.**  A path without a root name starts from the empty stack or
may pop all of it, so `base` is empty there. -/
theorem resolveLoop_spec {named : Bool} {base : List Name} (hn : named = false → base = [])
    (left : Nat) :
    ∀ {path : List UInt8} {st : List Name} {out : List UInt8}, PathOk st → base <+: st →
      (render slash st).length < kPathMax →
      resolveLoop named (render slash base).length left path (render slash st) = .ok out →
      Resolved base st path out := by
  induction left with
  | zero =>
      intro path st out hok hb hs h
      cases path with
      | nil =>
          cases h
          exact ⟨by rw [foldPath_nil], by rwa [foldPath_nil], by rwa [foldPath_nil], hs⟩
      | cons c path => cases h
  | succ left ih =>
      intro path st out hok hb hs h
      cases path with
      | nil =>
          cases h
          exact ⟨by rw [foldPath_nil], by rwa [foldPath_nil], by rwa [foldPath_nil], hs⟩
      | cons c path =>
          rw [resolveLoop] at h
          split at h
          · -- a separator
            rename_i hc
            subst hc
            exact (ih hok hb hs h).congr (foldPath_slash st path)
          · rename_i hc
            cases hscan : scanName 0 (c :: path) with
            | error e =>
                rw [hscan] at h
                cases h
            | ok r =>
                obtain ⟨name, rest⟩ := r
                obtain ⟨hwhole, hchars, hstop⟩ := scanName_spec hscan
                have hsl : slash ∉ name := fun hm => (hchars slash hm).1 rfl
                have hstep : foldPath st (c :: path) = foldPath (pathStep st name) rest := by
                  rw [hwhole, foldPath_name hsl hstop]
                rw [hscan] at h
                dsimp only at h
                split at h
                · rename_i hd
                  refine (ih hok hb hs h).congr ?_
                  rw [hstep, hd, pathStep_dot]
                · rename_i hd
                  split at h
                  · rename_i hdd
                    rw [hdd, pathStep_dotdot] at hstep
                    split at h
                    · -- nothing above the floor: only the empty stack stays as it is
                      rename_i hfloor
                      split at h
                      · cases h
                      · rename_i hnamed
                        have hbase := hn (by simpa using hnamed)
                        have hst := eq_base_of_length hok hb hfloor
                        refine (ih hok hb hs h).congr ?_
                        rw [hstep, hst, hbase, List.dropLast_nil]
                    · rename_i hfloor
                      have hne : st ≠ [] := by
                        rintro rfl
                        rw [List.prefix_nil.mp hb] at hfloor
                        exact hfloor le_rfl
                      -- a component is popped, which stands above the floor
                      obtain ⟨init, last, rfl⟩ : ∃ init last, st = init ++ [last] :=
                        ⟨_, _, (List.dropLast_append_getLast hne).symm⟩
                      obtain ⟨hpop, htake⟩ := popTo_render hok
                      have hb' : base <+: init := by
                        rcases List.prefix_concat_iff.mp hb with e | hp
                        · rw [e] at hfloor
                          exact absurd le_rfl hfloor
                        · exact hp
                      have hmono := render_length_mono slash
                        (List.prefix_append init [last])
                      rw [hpop, htake] at h
                      split at h
                      · cases h
                      · refine (ih hok.init hb' (by omega) h).congr ?_
                        rw [hstep, List.dropLast_concat]
                  · -- a name is pushed
                    rename_i hdd
                    have hne : name ≠ [] := by
                      rintro rfl
                      rw [List.nil_append] at hwhole
                      rw [← hwhole] at hstop
                      simp [hc] at hstop
                    have hname : NameOk name := ⟨hne, hchars, hd, hdd⟩
                    have hpush := render_push hok name
                    generalize (if 1 < (render slash st).length then [slash]
                        else []) = sep at h hpush
                    split at h
                    · cases h
                    · rename_i hfit
                      have hlen := congrArg List.length hpush
                      simp only [List.length_append] at hlen
                      rw [hpush] at h
                      refine (ih (hok.concat hname) (hb.trans (List.prefix_append st [name]))
                        (by omega) h).congr ?_
                      rw [hstep, hname.pathStep]

/-! ### A canonical path stays as it is -/

/-- One canonical name with its separator takes two rounds. -/
theorem resolveLoop_text {more : List Name} :
    ∀ (st : List Name) (left : Nat), PathOk st → PathOk more →
      (render slash (st ++ more)).length < kPathMax → 2 * more.length ≤ left →
      resolveLoop false 1 left (more.flatMap fun c => slash :: c) (render slash st) =
        .ok (render slash (st ++ more)) := by
  induction more with
  | nil =>
      intro st left hst _ _ _
      rw [List.flatMap_nil, List.append_nil]
      cases left <;> rfl
  | cons c more ih =>
      intro st left hst hmore hs hl
      rw [List.length_cons] at hl
      obtain ⟨left, rfl⟩ : ∃ k, left = k + 2 := ⟨left - 2, by omega⟩
      have hc := hmore c (by simp)
      have hrest : PathOk more := fun d hd => hmore d (List.mem_cons_of_mem c hd)
      obtain ⟨b, tail, hb⟩ := List.exists_cons_of_ne_nil hc.ne_nil
      have hbs : b ≠ slash := (hc.chars b (by rw [hb]; simp)).1
      have hpush := render_push hst c
      have hlen := congrArg List.length hpush
      have hmono := render_length_mono slash (List.prefix_append (st ++ [c]) more)
      rw [List.append_assoc, List.singleton_append] at hmono
      have hstop : (more.flatMap fun c => slash :: c) = [] ∨
          (more.flatMap fun c => slash :: c).head? = some slash := by
        cases more with
        | nil => exact Or.inl rfl
        | cons d more => exact Or.inr rfl
      have hscan := scanName_name hc.chars hstop (n := 0) (by
        simp only [List.length_append] at hlen
        simp only [kPathMax, kNameMax] at hs ⊢
        omega)
      rw [hb] at hscan
      rw [List.flatMap_cons, List.cons_append, resolveLoop, if_pos rfl, hb, List.cons_append,
        resolveLoop, if_neg hbs, ← List.cons_append, hscan]
      dsimp only
      rw [← hb, if_neg hc.ne_dot, if_neg hc.ne_dotdot, hpush]
      simp only [List.length_append] at hlen
      rw [if_neg (by omega)]
      have hround := ih (st ++ [c]) left (hst.concat hc) hrest
        (by rwa [List.append_assoc, List.singleton_append]) (by omega)
      rw [hround, List.append_assoc, List.singleton_append]

theorem NormalPath.head (p : NormalPath) : p.text.head? = some slash := head_render slash p.stack

theorem NormalPath.pathOk (p : NormalPath) : PathOk p.stack := p.ok

/-- The components of the text are the names of the path. -/
theorem NormalPath.components (p : NormalPath) : components slash p.text = p.stack :=
  components_render p.pathOk.proper

/-- A path has no more names than its text has bytes. -/
theorem length_le_flatMap (st : List Name) :
    st.length ≤ (st.flatMap fun c => slash :: c).length := by
  induction st with
  | nil => exact le_rfl
  | cons c st ih =>
      rw [List.flatMap_cons, List.length_append, List.length_cons, List.length_cons]
      omega

/-- **Resolving a canonical path gives it back**, whatever the roots and the working directory. -/
theorem kPathResolve_text (p : NormalPath) (roots : List PathRoot) (cwd : List UInt8) :
    kPathResolve roots p.text cwd = .ok p.text := by
  have hlen := length_le_flatMap p.stack
  have hshort : (render slash p.stack).length < 256 := p.short
  have hat : slash ≠ atSign := by decide
  by_cases h : p.stack = []
  · rw [NormalPath.text, h, render_nil, kPathResolve, if_neg hat, if_neg (by simp), resolveLoop,
      if_pos rfl]
    rfl
  · rw [render_of_ne h] at hshort
    have hloop := resolveLoop_text [] 4096 PathOk.nil p.pathOk
      (by rw [List.nil_append]; exact p.short) (by omega)
    rw [List.nil_append, render_nil, ← render_of_ne h] at hloop
    obtain ⟨c, st, hst⟩ := List.exists_cons_of_ne_nil h
    rw [NormalPath.text]
    rw [hst, render_cons] at hloop ⊢
    rw [kPathResolve, if_neg hat, if_neg (by simp)]
    exact hloop

/-! ### The table of roots -/

/-- Every root is a canonical path, and no two have one name. -/
structure RootsOk (roots : List PathRoot) : Prop where
  path : ∀ r ∈ roots, Canonical r.path
  names : (roots.map PathRoot.name).Nodup

/-- A copy with room is the string. -/
theorem strCopy_of_lt {s : List UInt8} {size : Nat} (h : s.length < size) : strCopy s size = s :=
  List.take_of_length_le (by omega)

theorem NormalPath.copy (p : NormalPath) : strCopy p.text kPathMax = p.text := strCopy_of_lt p.short

/-- The stack of a string that is a canonical path. -/
theorem Canonical.stack {s : List UInt8} (h : Canonical s) :
    PathOk (components slash s) ∧ render slash (components slash s) = s ∧ s.length < kPathMax := by
  obtain ⟨p, rfl⟩ := h
  rw [p.components]
  exact ⟨p.ok, rfl, p.short⟩

/-- What a path resolves to is canonical. -/
theorem Resolved.canonical {base st : List Name} {path out : List UInt8}
    (h : Resolved base st path out) : Canonical out :=
  ⟨⟨foldPath st path, h.ok, by rw [← h.text]; exact h.short⟩, h.text.symm⟩

/-- A root that is found under a name has it. -/
theorem RootsOk.found {roots : List PathRoot} (h : RootsOk roots) {r : PathRoot} (hr : r ∈ roots) :
    (roots.find? fun x => x.name = r.name) = some r := by
  cases hf : roots.find? fun x => x.name = r.name with
  | none => exact absurd (List.find?_eq_none.mp hf r hr) (by simp)
  | some x =>
      have hname : x.name = r.name := by simpa using List.find?_some hf
      exact congrArg some (List.inj_on_of_nodup_map h.names (List.mem_of_find?_eq_some hf) hr hname)

/-- **A resolution that ends well** starts from the stack that `pathBase` names and folds the rest
of the path over it; a named root stays below what it leaves. -/
theorem kPathResolve_spec {roots : List PathRoot} (h : RootsOk roots) {cwd : List UInt8}
    (hc : Canonical cwd) {path out : List UInt8} (hr : kPathResolve roots path cwd = .ok out) :
    ∃ base st rest, pathBase roots path cwd = some (st, rest) ∧ Resolved base st rest out ∧
      (path.head? = some atSign → base = st) := by
  cases path with
  | nil => cases hr
  | cons c path =>
      rw [kPathResolve] at hr
      split at hr
      · -- a named root
        rename_i hat
        cases hroot : rootName 0 path with
        | error e =>
            rw [hroot] at hr
            cases hr
        | ok r =>
            obtain ⟨name, rest⟩ := r
            rw [hroot] at hr
            dsimp only at hr
            obtain ⟨hname, hrest⟩ := rootName_spec hroot
            cases hf : roots.find? fun r => r.name = name with
            | none =>
                rw [hf] at hr
                cases hr
            | some r =>
                obtain ⟨hok, htext, hshort⟩ := (h.path r (List.mem_of_find?_eq_some hf)).stack
                rw [hf] at hr
                dsimp only at hr
                rw [strCopy_of_lt hshort, ← htext] at hr
                refine ⟨components slash r.path, components slash r.path, rest, ?_,
                  ?_, fun _ => rfl⟩
                · rw [pathBase, if_pos hat, ← hname, hf, hrest, Option.map_some]
                · exact resolveLoop_spec (fun e => by cases e) 4096 hok (List.prefix_refl _)
                    (by rwa [htext]) hr
      · rename_i hat
        split at hr
        · -- relative to the working directory
          rename_i hs
          split at hr
          · cases hr
          · obtain ⟨hok, htext, hshort⟩ := hc.stack
            rw [strCopy_of_lt hshort, ← htext] at hr
            refine ⟨[], components slash cwd, c :: path, ?_, ?_, fun e =>
              absurd (Option.some.inj e) hat⟩
            · rw [pathBase, if_neg hat, if_neg hs]
            · exact resolveLoop_spec (fun _ => rfl) 4096 hok List.nil_prefix (by rwa [htext]) hr
        · rename_i hs
          refine ⟨[], [], c :: path, ?_, ?_, fun e => absurd (Option.some.inj e) hat⟩
          · rw [pathBase, if_neg hat, if_pos (not_not.mp hs)]
          · exact resolveLoop_spec (fun _ => rfl) 4096 PathOk.nil List.nil_prefix (by decide) hr

theorem canonical_slash : Canonical [slash] := ⟨⟨[], by simp, by decide⟩, rfl⟩

/-- A root that is bound is canonical and has a new name. -/
theorem RootsOk.bind {roots roots' : List PathRoot} (h : RootsOk roots) {cpu : Nat}
    {name path : List UInt8} (hb : kRootBind cpu name path roots = .ok roots') :
    RootsOk roots' := by
  rw [kRootBind] at hb
  split at hb
  · cases hb
  · split at hb
    · cases hb
    · rename_i hname
      split at hb
      · cases hb
      · cases hres : kPathResolve roots path [slash] with
        | error e =>
            rw [hres] at hb
            cases hb
        | ok normalized =>
            obtain ⟨base, st, rest, -, hout, -⟩ := kPathResolve_spec h canonical_slash hres
            rw [hres] at hb
            dsimp only at hb
            cases hf : roots.find? fun r => r.name = name with
            | some r =>
                rw [hf] at hb
                dsimp only at hb
                split at hb
                · cases hb
                  exact h
                · cases hb
            | none =>
                rw [hf] at hb
                dsimp only at hb
                split at hb
                · cases hb
                · cases hb
                  have hlen : name.length < 32 := by
                    by_contra hl
                    exact hname (Or.inr (Or.inl (by omega)))
                  have hnew : name ∉ roots.map PathRoot.name := by
                    rintro hm
                    obtain ⟨r, hr, he⟩ := List.mem_map.mp hm
                    exact List.find?_eq_none.mp hf r hr (by simpa using he)
                  -- a new root: its name is in no other, and its path is one that was resolved
                  rw [strCopy_of_lt hlen, strCopy_of_lt hout.short]
                  refine ⟨?_, ?_⟩
                  · intro r hr
                    rcases List.mem_append.mp hr with hr | hr
                    · exact h.path r hr
                    · rw [List.mem_singleton.mp hr]
                      exact hout.canonical
                  · rw [List.map_append, List.map_singleton]
                    refine List.nodup_append.mpr ⟨h.names, List.nodup_singleton name, ?_⟩
                    intro a ha b hb e
                    have hname : b = name := List.mem_singleton.mp hb
                    rw [e, hname] at ha
                    exact hnew ha

/-- The roots that can be bound are in order. -/
theorem RootsReach.ok {roots : List PathRoot} (h : RootsReach roots) : RootsOk roots := by
  induction h with
  | init => exact ⟨by simp, by simp⟩
  | bind cpu name path _ hb ih => exact ih.bind hb

/-! ### The resolution of a path -/

/-- Below a root means `path_prefix` as well. -/
theorem pathPrefix_render {base more : List Name} :
    pathPrefix (render slash (base ++ more)) (render slash base) = true := by
  have hpos := render_length_pos slash base
  have hmono := render_length_mono slash (List.prefix_append base more)
  by_cases hb : base = []
  · subst hb
    have hhead := head_render slash more
    cases hr : render slash more with
    | nil =>
        rw [hr] at hhead
        cases hhead
    | cons c tail =>
        rw [hr, List.head?_cons] at hhead
        rw [List.nil_append, hr, Option.some.inj hhead, render_nil, pathPrefix]
        simp
  · rw [pathPrefix, min_eq_left hmono]
    rw [prefix_render hb]
    cases more with
    | nil => simp
    | cons c more => simp

/-- **Path resolution**, for every table of roots that calls of `k_root_bind` reach, every
canonical working directory and every path: the result is the fold of the components, it is
canonical, it resolves to itself, and behind a root's name it stays below the root. -/
theorem path_resolution {roots : List PathRoot} (h : RootsReach roots) {cwd : List UInt8}
    (hc : Canonical cwd) {path out : List UInt8} (hr : kPathResolve roots path cwd = .ok out) :
    normalized roots path cwd = some out ∧
      out.head? = some slash ∧ out.length < 256 ∧
      (out = [slash] ∨ ∀ c ∈ out.tail.splitOn slash, c ≠ [] ∧ c ≠ dot ∧ c ≠ dotdot) ∧
      (∀ roots' cwd', kPathResolve roots' out cwd' = .ok out) ∧
      ∀ r ∈ roots, path.takeWhile (· ≠ slash) = atSign :: r.name →
        components slash r.path <+: components slash out ∧ pathPrefix out r.path = true := by
  obtain ⟨base, st, rest, hbase, hout, hnamed⟩ := kPathResolve_spec h.ok hc hr
  obtain ⟨p, rfl⟩ := hout.canonical
  refine ⟨?_, p.head, p.short, ?_, fun roots' cwd' => kPathResolve_text p roots' cwd', ?_⟩
  · rw [normalized, hbase, Option.map_some, hout.text]
  · cases hst : p.stack with
    | nil => exact Or.inl (by rw [NormalPath.text, hst, render_nil])
    | cons c more =>
        have hok := p.pathOk
        rw [hst] at hok
        refine Or.inr fun d hd => ?_
        have hproper := hok.proper
        rw [NormalPath.text, hst, render_cons, List.tail_cons, splitOn_flatMap
          (fun e he => (hproper e (List.mem_cons_of_mem c he)).2) (hproper c (by simp)).2] at hd
        exact ⟨(hok d hd).ne_nil, (hok d hd).ne_dot, (hok d hd).ne_dotdot⟩
  · intro r hmem hpath
    obtain ⟨tail, rfl⟩ : ∃ tail, path = atSign :: tail := by
      cases path with
      | nil => cases hpath
      | cons c tail =>
          rw [List.takeWhile_cons] at hpath
          split at hpath
          · exact ⟨tail, by rw [(List.cons.inj hpath).1]⟩
          · cases hpath
    have hat : (atSign ≠ slash) := by decide
    rw [List.takeWhile_cons, if_pos (by simpa using hat)] at hpath
    have hname := (List.cons.inj hpath).2
    rw [pathBase, if_pos rfl, hname, h.ok.found hmem, Option.map_some] at hbase
    obtain rfl : components slash r.path = st := congrArg Prod.fst (Option.some.inj hbase)
    obtain ⟨hok, htext, -⟩ := (h.ok.path r hmem).stack
    -- behind a root's name the base is what the name stands for
    have hbelow := hout.below
    rw [hnamed rfl] at hbelow
    have hstack : p.stack = foldPath (components slash r.path) rest := by
      rw [← p.components, hout.text, components_render hout.ok.proper]
    rw [p.components, hstack]
    refine ⟨hbelow, ?_⟩
    obtain ⟨more, hmore⟩ := hbelow
    rw [hout.text, ← hmore]
    nth_rewrite 2 [← htext]
    exact pathPrefix_render

/-- With the root `@s` bound to `/a`, the path `@s/./b//../c` is `/a/c`. -/
theorem path_resolution_named : ∃ roots, RootsReach roots ∧
    normalized roots [64, 115, 47, 46, 47, 98, 47, 47, 46, 46, 47, 99] [slash] = some
      [47, 97, 47, 99] := by
  have hbind : kRootBind 0 [115] [47, 97] [] = .ok [⟨[115], [47, 97]⟩] := by decide
  have hres : kPathResolve [⟨[115], [47, 97]⟩] [64, 115, 47, 46, 47, 98, 47, 47, 46, 46, 47, 99]
      [slash] = .ok [47, 97, 47, 99] := by decide
  have hreach := RootsReach.bind 0 [115] [47, 97] RootsReach.init hbind
  exact ⟨_, hreach, (path_resolution hreach canonical_slash hres).1⟩

end Efishell
