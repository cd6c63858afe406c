import Mathlib.Logic.Basic

/-!
# Support — fallible computations over a state

`Io ε σ α` is the type of a C function that reads and writes a state `σ` and returns either a
value or an error code: on an error the state reached so far stays, nothing is undone.

Five judgements are used by name in the proofs about such functions:

* `Returns x s a s'`: from `s` the computation ends well, with value `a` in state `s'`;
* `Fails x s e s'`: it ends with the error `e` in state `s'`;
* `Avoids x e`: from no state does it end with the error `e`;
* `Ends x s Q E`: from `s` it ends in a value and a state of `Q` or in an error and a state of `E`;
* `Commutes x f s`: from `s` it neither reads nor writes what `f` sets.

The bind rules take a sequence apart.
-/

namespace Efishell

/-- A fallible computation over a state. -/
def Io (ε σ α : Type) : Type := σ → Except ε α × σ

namespace Io

variable {ε σ α β : Type}

/-- The value, with the state as it is. -/
protected def pure (a : α) : Io ε σ α := fun s => (.ok a, s)

/-- One computation after the other, unless the first fails. -/
protected def bind (x : Io ε σ α) (f : α → Io ε σ β) : Io ε σ β := fun s =>
  match x s with
  | (.ok a, s') => f a s'
  | (.error e, s') => (.error e, s')

instance : Monad (Io ε σ) where
  pure := Io.pure
  bind := Io.bind

/-- `return e`, where `e` is an error code. -/
def fail (e : ε) : Io ε σ α := fun s => (.error e, s)

/-- A computation that leaves the state alone. -/
def lift (r : Except ε α) : Io ε σ α := fun s => (r, s)

/-- The state. -/
def get : Io ε σ σ := fun s => (.ok s, s)

/-- The state changed. -/
def modify (f : σ → σ) : Io ε σ Unit := fun s => (.ok (), f s)

/-- The outcome of `x` as a value: what a caller does that stores the result in `int e`. -/
def attempt (x : Io ε σ α) : Io ε σ (Except ε α) := fun s =>
  match x s with
  | (r, s') => (.ok r, s')

/-! ### Runs -/

@[simp] theorem pure_run (a : α) (s : σ) : (pure a : Io ε σ α) s = (.ok a, s) := rfl

@[simp] theorem fail_run (e : ε) (s : σ) : (fail e : Io ε σ α) s = (.error e, s) := rfl

@[simp] theorem lift_run (r : Except ε α) (s : σ) : (lift r : Io ε σ α) s = (r, s) := rfl

@[simp] theorem get_run (s : σ) : (get : Io ε σ σ) s = (.ok s, s) := rfl

@[simp] theorem modify_run (f : σ → σ) (s : σ) : (modify f : Io ε σ Unit) s = (.ok (), f s) := rfl

/-- One computation after another, on a state. -/
theorem bind_run (x : Io ε σ α) (f : α → Io ε σ β) (s : σ) :
    (x >>= f) s = match x s with
      | (.ok a, s') => f a s'
      | (.error e, s') => (.error e, s') := rfl

theorem lift_ok_bind (a : α) (f : α → Io ε σ β) : (lift (.ok a) >>= f) = f a := rfl

/-- From `s` the computation returns `a` and leaves `s'`. -/
def Returns (x : Io ε σ α) (s : σ) (a : α) (s' : σ) : Prop := x s = (.ok a, s')

/-- From `s` the computation returns the error `e` and leaves `s'`. -/
def Fails (x : Io ε σ α) (s : σ) (e : ε) (s' : σ) : Prop := x s = (.error e, s')

theorem exists_returns {x : Io ε σ α} {s : σ} {a : α} (h : (x s).1 = .ok a) :
    ∃ s', Returns x s a s' := ⟨(x s).2, Prod.ext h rfl⟩

theorem returns_pure {a b : α} {s s' : σ} :
    Returns (pure a : Io ε σ α) s b s' ↔ b = a ∧ s' = s := by
  simp only [Returns, pure_run, Prod.mk.injEq, Except.ok.injEq]
  exact ⟨fun h => ⟨h.1.symm, h.2.symm⟩, fun h => ⟨h.1.symm, h.2.symm⟩⟩

theorem not_returns_fail {e : ε} {a : α} {s s' : σ} : ¬ Returns (fail e : Io ε σ α) s a s' := by
  simp [Returns]

theorem returns_lift {r : Except ε α} {a : α} {s s' : σ} :
    Returns (lift r : Io ε σ α) s a s' ↔ r = .ok a ∧ s' = s := by
  simp only [Returns, lift_run, Prod.mk.injEq]
  exact ⟨fun h => ⟨h.1, h.2.symm⟩, fun h => ⟨h.1, h.2.symm⟩⟩

/-- What a sequence returns. -/
theorem returns_bind {x : Io ε σ α} {f : α → Io ε σ β} {s s' : σ} {b : β} :
    Returns (x >>= f) s b s' ↔ ∃ a s₁, Returns x s a s₁ ∧ Returns (f a) s₁ b s' := by
  simp only [Returns, bind_run]
  cases hx : x s with
  | mk r s₁ =>
      cases r with
      | ok a =>
          refine ⟨fun h => ⟨a, s₁, rfl, h⟩, ?_⟩
          rintro ⟨a', s', h, h'⟩
          cases h
          exact h'
      | error e => simp

/-- How a sequence fails. -/
theorem fails_bind {x : Io ε σ α} {f : α → Io ε σ β} {s s' : σ} {e : ε} :
    Fails (x >>= f) s e s' ↔
      Fails x s e s' ∨ ∃ a s₁, Returns x s a s₁ ∧ Fails (f a) s₁ e s' := by
  simp only [Returns, Fails, bind_run]
  cases hx : x s with
  | mk r s₁ =>
      cases r with
      | ok a =>
          refine ⟨fun h => .inr ⟨a, s₁, rfl, h⟩, ?_⟩
          rintro (h | ⟨a', s', h, h'⟩)
          · cases h
          · cases h
            exact h'
      | error e' => simp

/-- What a branch returns. -/
theorem returns_ite {c : Prop} [Decidable c] {x y : Io ε σ α} {s s' : σ} {a : α} :
    Returns (if c then x else y) s a s' ↔ (c ∧ Returns x s a s') ∨ (¬ c ∧ Returns y s a s') := by
  by_cases h : c <;> simp [h]

/-- From no state the computation ends with the error `e`. -/
def Avoids (x : Io ε σ α) (e : ε) : Prop := ∀ s, (x s).1 ≠ .error e

namespace Avoids

variable {e : ε}

theorem pure (a : α) : Avoids (Pure.pure a : Io ε σ α) e := fun _ h => by cases h

theorem fail {e' : ε} (h : e' ≠ e) : Avoids (fail e' : Io ε σ α) e :=
  fun _ he => h (Except.error.inj he)

theorem get : Avoids (get : Io ε σ σ) e := fun _ h => by cases h

theorem modify (f : σ → σ) : Avoids (modify f : Io ε σ Unit) e := fun _ h => by cases h

theorem ite {c : Prop} [Decidable c] {x y : Io ε σ α} (hx : c → Avoids x e)
    (hy : ¬ c → Avoids y e) :
    Avoids (if c then x else y) e := by
  by_cases h : c
  · rw [if_pos h]
    exact hx h
  · rw [if_neg h]
    exact hy h

/-- The rest of a sequence starts from a value that the first part returned. -/
theorem bind {x : Io ε σ α} {f : α → Io ε σ β} (hx : Avoids x e)
    (hf : ∀ a s s', Returns x s a s' → Avoids (f a) e) : Avoids (x >>= f) e := by
  intro s h
  rw [bind_run] at h
  have hxs := hx s
  cases hr : x s with
  | mk r s₁ =>
      rw [hr] at h hxs
      cases r with
      | ok a => exact hf a s s₁ hr s₁ h
      | error e' => exact hxs (congrArg Except.error (Except.error.inj h))

end Avoids

/-! ### How a computation ends -/

/-- From `s` the computation ends in a value and a state that satisfy `Q`, or in an error and a
state that satisfy `E`. -/
def Ends (x : Io ε σ α) (s : σ) (Q : α → σ → Prop) (E : ε → σ → Prop) : Prop :=
  match x s with
  | (.ok a, s') => Q a s'
  | (.error e, s') => E e s'

section Ends

variable {s : σ} {Q Q' : α → σ → Prop} {R : β → σ → Prop} {E E' : ε → σ → Prop}

@[simp] theorem ends_pure {a : α} : Ends (pure a) s Q E ↔ Q a s := Iff.rfl

@[simp] theorem ends_fail {e : ε} : Ends (fail e) s Q E ↔ E e s := Iff.rfl

@[simp] theorem ends_get {Q : σ → σ → Prop} : Ends get s Q E ↔ Q s s := Iff.rfl

@[simp] theorem ends_modify {f : σ → σ} {Q : Unit → σ → Prop} :
    Ends (modify f) s Q E ↔ Q () (f s) := Iff.rfl

/-- How a sequence ends. -/
@[simp] theorem ends_bind {x : Io ε σ α} {f : α → Io ε σ β} :
    Ends (x >>= f) s R E ↔ Ends x s (fun a s' => Ends (f a) s' R E) E := by
  rw [Ends, Ends, bind_run]
  cases hx : x s with
  | mk r s' => cases r <;> rfl

/-- A failure that is caught. -/
theorem ends_attempt {x : Io ε σ α} {Q : Except ε α → σ → Prop} :
    Ends (attempt x) s Q E ↔ Ends x s (fun a => Q (.ok a)) (fun e => Q (.error e)) := by
  rw [Ends, Ends, attempt]
  cases hx : x s with
  | mk r s' => cases r <;> rfl

/-- A result that is given. -/
theorem ends_lift {r : Except ε α} :
    Ends (lift r) s Q E ↔ (∀ a, r = .ok a → Q a s) ∧ ∀ e, r = .error e → E e s := by
  cases r <;> simp [Ends]

theorem ends_trivial (x : Io ε σ α) (s : σ) : Ends x s (fun _ _ => True) fun _ _ => True := by
  rw [Ends]
  split <;> trivial

/-- Weaker properties. -/
theorem Ends.mono {x : Io ε σ α} (h : Ends x s Q E) (hq : ∀ a s', Q a s' → Q' a s')
    (he : ∀ e s', E e s' → E' e s') : Ends x s Q' E' := by
  rw [Ends] at h ⊢
  cases hx : x s with
  | mk r s' =>
      rw [hx] at h
      cases r with
      | ok a => exact hq a s' h
      | error e => exact he e s' h

/-- The value that was returned. -/
theorem Ends.returned {x : Io ε σ α} {a : α} {s' : σ} (h : Ends x s Q E) (hx : Returns x s a s') :
    Q a s' := by
  rw [Ends, hx] at h
  exact h

/-- The value, with the run that gave it. -/
theorem Ends.run {x : Io ε σ α} (h : Ends x s Q E) :
    Ends x s (fun a s' => Q a s' ∧ Returns x s a s') E := by
  rw [Ends] at h ⊢
  cases hx : x s with
  | mk r s' =>
      rw [hx] at h
      cases r with
      | ok a => exact ⟨h, hx⟩
      | error e => exact h

/-- Two things that are known of the end. -/
theorem Ends.and {x : Io ε σ α} (h : Ends x s Q E) (h' : Ends x s Q' E') :
    Ends x s (fun a s' => Q a s' ∧ Q' a s') fun e s' => E e s' ∧ E' e s' := by
  rw [Ends] at h h' ⊢
  cases hx : x s with
  | mk r s' =>
      rw [hx] at h h'
      cases r <;> exact ⟨h, h'⟩

/-- The rule for a sequence. -/
theorem Ends.bind {x : Io ε σ α} {f : α → Io ε σ β} (hx : Ends x s Q E)
    (hf : ∀ a s', Q a s' → Ends (f a) s' R E) : Ends (x >>= f) s R E :=
  ends_bind.mpr (hx.mono hf fun _ _ he => he)

theorem Ends.ite {c : Prop} [Decidable c] {x y : Io ε σ α} (hx : c → Ends x s Q E)
    (hy : ¬ c → Ends y s Q E) : Ends (if c then x else y) s Q E := by
  by_cases h : c
  · rw [if_pos h]
    exact hx h
  · rw [if_neg h]
    exact hy h

end Ends

/-! ### Frames -/

/-- The computation started from `f s` ends as from `s`, and `f` leads from the state it ends in
there to the one it ends in here. -/
def Commutes (x : Io ε σ α) (f : σ → σ) (s : σ) : Prop := x (f s) = ((x s).1, f (x s).2)

namespace Commutes

variable {f : σ → σ} {s : σ}

theorem pure (a : α) : Commutes (Pure.pure a : Io ε σ α) f s := rfl

theorem fail (e : ε) : Commutes (fail e : Io ε σ α) f s := rfl

theorem lift (r : Except ε α) : Commutes (lift r : Io ε σ α) f s := rfl

theorem modify {g : σ → σ} (h : g (f s) = f (g s)) : Commutes (modify g : Io ε σ Unit) f s := by
  rw [Commutes, modify_run, modify_run, h]

/-- What a state is looked at for does not depend on what `f` sets. -/
theorem get_bind {k : σ → Io ε σ α} (hk : k (f s) = k s) (h : Commutes (k s) f s) :
    Commutes (get >>= k) f s := by
  have h' : k (f s) (f s) = ((k s s).1, f (k s s).2) := by
    rw [hk]
    exact h
  exact h'

/-- Two parts that commute, where the first leaves what the second needs. -/
theorem bind {x : Io ε σ α} {k : α → Io ε σ β} {Q : α → σ → Prop} {E : ε → σ → Prop}
    (hx : Commutes x f s) (he : Ends x s Q E) (hk : ∀ a s', Q a s' → Commutes (k a) f s') :
    Commutes (x >>= k) f s := by
  rw [Commutes, bind_run, bind_run, hx]
  rw [Ends] at he
  cases hr : x s with
  | mk r s₁ =>
      rw [hr] at he
      cases r with
      | ok a => exact hk a s₁ he
      | error e => rfl

theorem attempt {x : Io ε σ α} (hx : Commutes x f s) : Commutes (attempt x) f s := by
  rw [Commutes, Io.attempt, Io.attempt, hx]

theorem ite {c : Prop} [Decidable c] {x y : Io ε σ α} (hx : c → Commutes x f s)
    (hy : ¬ c → Commutes y f s) : Commutes (if c then x else y) f s := by
  by_cases h : c
  · rw [if_pos h]
    exact hx h
  · rw [if_neg h]
    exact hy h

end Commutes

/-- A guard that returns an error was passed. -/
theorem returns_guard {c : Prop} [Decidable c] {e : ε} {y : Io ε σ α} {s s' : σ} {a : α} :
    Returns (if c then fail e else y) s a s' ↔ ¬ c ∧ Returns y s a s' := by
  by_cases h : c <;> simp [h, not_returns_fail]

end Io

end Efishell
