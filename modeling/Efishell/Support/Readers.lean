import Efishell.Support.Io

/-!
# Support — one program over two readers

A program takes its bytes from a reader, one at a time.  Two readers that give the same bytes lead
it to the same result (`Agrees`), and so does a reader that may fail on the way, as long as the
program ends in an error then: the errors of `Late`.

`recode` and `caught` are the two ways in which a caller treats an error of the reader as something
else.

* `Agrees.bind`, `Agrees.ite`: the rules for sequences and branches.
* `Agrees.ok`: a value that one program returns is the other's.
-/

namespace Efishell

namespace Io

variable {ε σ τ α β : Type}

/-- Every error becomes `e`. -/
def recode (e : ε) (x : Io ε σ α) : Io ε σ α := fun s =>
  match x s with
  | (.ok a, s') => (.ok a, s')
  | (.error _, s') => (.error e, s')

/-- The error `e` becomes `none`. -/
def caught [DecidableEq ε] (e : ε) (x : Io ε σ α) : Io ε σ (Option α) := fun s =>
  match x s with
  | (.ok a, s') => (.ok (some a), s')
  | (.error e', s') => if e' = e then (.ok none, s') else (.error e', s')

/-- Another error code does not change what is returned. -/
theorem returns_recode {e : ε} {x : Io ε σ α} {s s' : σ} {a : α} :
    Returns (recode e x) s a s' ↔ Returns x s a s' := by
  simp only [Returns, recode]
  cases hx : x s with
  | mk r s₁ => cases r <;> simp

/-- What is returned is passed on. -/
theorem returns_caught_some [DecidableEq ε] {e : ε} {x : Io ε σ α} {s s' : σ} {a : α} :
    Returns (caught e x) s (some a) s' ↔ Returns x s a s' := by
  simp only [Returns, caught]
  cases hx : x s with
  | mk r s₁ =>
      cases r with
      | ok b => simp
      | error e' => by_cases h : e' = e <;> simp [h]

theorem returns_caught_none [DecidableEq ε] {e : ε} {x : Io ε σ α} {s s' : σ} :
    Returns (caught e x) s none s' ↔ Fails x s e s' := by
  simp only [Returns, Fails, caught]
  cases hx : x s with
  | mk r s₁ =>
      cases r with
      | ok b => simp
      | error e' => by_cases h : e' = e <;> simp [h]

/-- A failure satisfies its property. -/
theorem Ends.failed {x : Io ε σ α} {s : σ} {Q : α → σ → Prop} {E : ε → Prop} {e : ε}
    (h : Ends x s Q fun e _ => E e) (hx : (x s).1 = .error e) : E e := by
  rw [Ends] at h
  cases hrun : x s with
  | mk r s' =>
      rw [hrun] at h hx
      dsimp only at hx
      subst hx
      exact h

/-- A program of which only the errors matter. -/
theorem ends_of_error {x : Io ε σ α} {s : σ} {E : ε → Prop}
    (h : ∀ e, (x s).1 = .error e → E e) : Ends x s (fun _ _ => True) fun e _ => E e := by
  rw [Ends]
  cases hx : x s with
  | mk r s' =>
      cases r with
      | ok a => trivial
      | error e => exact h e (by rw [hx])

/-- How a recoded computation ends. -/
theorem ends_recode {e : ε} {x : Io ε σ α} {s : σ} {Q : α → σ → Prop} {E : ε → σ → Prop} :
    Ends (recode e x) s Q E ↔ Ends x s Q fun _ => E e := by
  rw [Ends, Ends, recode]
  cases hx : x s with
  | mk r s' => cases r <;> rfl

/-- How a caught one ends. -/
theorem ends_caught [DecidableEq ε] {e : ε} {x : Io ε σ α} {s : σ} {Q : Option α → σ → Prop}
    {E : ε → σ → Prop} :
    Ends (caught e x) s Q E ↔
      Ends x s (fun a => Q (some a)) fun e' s' => if e' = e then Q none s' else E e' s' := by
  rw [Ends, Ends, caught]
  cases hx : x s with
  | mk r s' =>
      cases r with
      | ok a => rfl
      | error e' => by_cases h : e' = e <;> simp [h]

/-- From states that `R` relates, `x` and `y` end alike, or `x` ends in an error of `Late`. -/
def Agrees (Late : ε → Prop) (R : σ → τ → Prop) (x : Io ε σ α) (y : Io ε τ α) : Prop :=
  ∀ s t, R s t → ((x s).1 = (y t).1 ∧ R (x s).2 (y t).2) ∨ ∃ e, Late e ∧ (x s).1 = .error e

namespace Agrees

variable {Late : ε → Prop} {R : σ → τ → Prop}

theorem pure (a : α) : Agrees Late R (Pure.pure a) (Pure.pure a) := fun _ _ h => .inl ⟨rfl, h⟩

theorem fail (e : ε) : Agrees (α := α) Late R (Io.fail e) (Io.fail e) := fun _ _ h => .inl ⟨rfl, h⟩

theorem lift (r : Except ε α) : Agrees Late R (Io.lift r) (Io.lift r) := fun _ _ h => .inl ⟨rfl, h⟩

/-- Two readers that agree on one part and on the next. -/
theorem bind {x : Io ε σ α} {y : Io ε τ α} {f : α → Io ε σ β} {g : α → Io ε τ β}
    (hx : Agrees Late R x y) (hf : ∀ a, Agrees Late R (f a) (g a)) :
    Agrees Late R (x >>= f) (y >>= g) := by
  intro s t hst
  have hrun := hx s t hst
  rw [bind_run, bind_run]
  cases hs : x s with
  | mk r s' =>
      cases ht : y t with
      | mk r' t' =>
          rw [hs, ht] at hrun
          rcases hrun with ⟨hr, hst'⟩ | ⟨e, he, hr⟩
          · dsimp only at hr
            subst hr
            cases r with
            | ok a => exact hf a s' t' hst'
            | error e => exact .inl ⟨rfl, hst'⟩
          · dsimp only at hr
            subst hr
            exact .inr ⟨e, he, rfl⟩

theorem ite {c : Prop} [Decidable c] {x x' : Io ε σ α} {y y' : Io ε τ α} (h : c → Agrees Late R x y)
    (h' : ¬ c → Agrees Late R x' y') :
    Agrees Late R (if c then x else x') (if c then y else y') := by
  by_cases hc : c
  · rw [if_pos hc, if_pos hc]
    exact h hc
  · rw [if_neg hc, if_neg hc]
    exact h' hc

theorem recode {e : ε} {x : Io ε σ α} {y : Io ε τ α} (hx : Agrees Late R x y)
    (hlate : ∀ e', Late e' → Late e) : Agrees Late R (Io.recode e x) (Io.recode e y) := by
  intro s t hst
  have hrun := hx s t hst
  rw [Io.recode, Io.recode]
  cases hs : x s with
  | mk r s' =>
      cases ht : y t with
      | mk r' t' =>
          rw [hs, ht] at hrun
          rcases hrun with ⟨hr, hst'⟩ | ⟨e', he', hr⟩
          · dsimp only at hr
            subst hr
            cases r with
            | ok a => exact .inl ⟨rfl, hst'⟩
            | error e' => exact .inl ⟨rfl, hst'⟩
          · dsimp only at hr
            subst hr
            exact .inr ⟨e, hlate e' he', rfl⟩

theorem caught [DecidableEq ε] {e : ε} {x : Io ε σ α} {y : Io ε τ α} (hx : Agrees Late R x y)
    (hlate : ¬ Late e) : Agrees Late R (Io.caught e x) (Io.caught e y) := by
  intro s t hst
  have hrun := hx s t hst
  rw [Io.caught, Io.caught]
  cases hs : x s with
  | mk r s' =>
      cases ht : y t with
      | mk r' t' =>
          rw [hs, ht] at hrun
          rcases hrun with ⟨hr, hst'⟩ | ⟨e', he', hr⟩
          · dsimp only at hr
            subst hr
            cases r with
            | ok a => exact .inl ⟨rfl, hst'⟩
            | error e' =>
                by_cases heq : e' = e
                · simp only [heq, if_true]
                  exact .inl ⟨trivial, hst'⟩
                · simp only [heq, if_false]
                  exact .inl ⟨trivial, hst'⟩
          · dsimp only at hr
            subst hr
            have hne : e' ≠ e := fun heq => hlate (heq ▸ he')
            simp only [hne, if_false]
            exact .inr ⟨e', he', rfl⟩

/-- A value that `x` returns is the value that `y` returns. -/
theorem ok {x : Io ε σ α} {y : Io ε τ α} (h : Agrees Late R x y) {s : σ} {t : τ}
    (hst : R s t) {a : α} (hx : (x s).1 = .ok a) : (y t).1 = .ok a := by
  rcases h s t hst with ⟨heq, -⟩ | ⟨e, -, he⟩
  · rw [← heq, hx]
  · rw [hx] at he
    cases he

end Agrees

end Io

end Efishell
