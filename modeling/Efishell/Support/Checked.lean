import Mathlib.Algebra.Group.Int.Defs
import Mathlib.Algebra.Group.Nat.Defs
import Efishell.Support.Io

/-!
# Support — computations that fault

A C function over machine integers and arrays, written so that nothing silent can happen: arithmetic
that leaves its type ends in `wrap`, a read outside a buffer in `stray`.  What is left of the errors
is the codes that the function itself returns.

`Sound x Q`: `x` does not fault, and a value that it returns satisfies `Q`.

* `sound_bind`, `Sound.ite`: the rules for sequences and branches.
* `Sound.ends_bind`: a checked computation as the first part of a stateful one.
-/

namespace Efishell

/-- How a checked computation fails: with a code of its own, or because it faulted. -/
inductive Fault (ε : Type) where
  | code (e : ε)
  | wrap
  | stray
  deriving DecidableEq, Repr

namespace Fault

variable {ε : Type}

/-- The fault is an error code of the program. -/
def IsCode (f : Fault ε) : Prop := ∃ e, f = .code e

@[simp] theorem isCode_code (e : ε) : (code e).IsCode := ⟨e, rfl⟩

@[simp] theorem not_isCode_stray : ¬ (stray : Fault ε).IsCode := fun ⟨_, h⟩ => by cases h

end Fault

/-- A computation that can also go out of bounds or wrap. -/
abbrev Checked (ε α : Type) : Type := Except (Fault ε) α

section Arithmetic

variable {ε : Type}

/-- A sum of `w` bits. -/
def addU (w a b : Nat) : Checked ε Nat := if a + b < 2 ^ w then .ok (a + b) else .error .wrap

/-- Unsigned subtraction. -/
def subU (a b : Nat) : Checked ε Nat := if b ≤ a then .ok (a - b) else .error .wrap

/-- Unsigned multiplication in `w` bits. -/
def mulU (w a b : Nat) : Checked ε Nat := if a * b < 2 ^ w then .ok (a * b) else .error .wrap

/-- A sum of signed integers of `w` bits. -/
def addS (w : Nat) (a b : Int) : Checked ε Int :=
  if -2 ^ (w - 1) ≤ a + b ∧ a + b < 2 ^ (w - 1) then .ok (a + b) else .error .wrap

/-- Signed subtraction in `w` bits. -/
def subS (w : Nat) (a b : Int) : Checked ε Int :=
  if -2 ^ (w - 1) ≤ a - b ∧ a - b < 2 ^ (w - 1) then .ok (a - b) else .error .wrap

/-- Signed multiplication in `w` bits. -/
def mulS (w : Nat) (a b : Int) : Checked ε Int :=
  if -2 ^ (w - 1) ≤ a * b ∧ a * b < 2 ^ (w - 1) then .ok (a * b) else .error .wrap

/-- A conversion to an unsigned type that keeps the value. -/
def toU (a : Int) : Checked ε Nat := if 0 ≤ a then .ok a.toNat else .error .wrap

/-- A conversion to a signed type of `w` bits that keeps the value. -/
def toS (w a : Nat) : Checked ε Int := if a < 2 ^ (w - 1) then .ok (a : Int) else .error .wrap

end Arithmetic

/-- A guard that returns an error was passed. -/
theorem ok_guard {ε α : Type} {c : Prop} [Decidable c] {e : ε} {y : Except ε α} {a : α} :
    (if c then .error e else y) = .ok a ↔ ¬ c ∧ y = .ok a := by
  by_cases h : c <;> simp [h]

@[simp] theorem ok_bind {ε α β : Type} (a : α) (f : α → Except ε β) :
    (Except.ok a >>= f) = f a := rfl

/-- A sequence ended well, so both of its parts did. -/
theorem bind_eq_ok {ε α β : Type} {x : Except ε α} {f : α → Except ε β} {b : β} :
    x >>= f = .ok b ↔ ∃ a, x = .ok a ∧ f a = .ok b := by
  cases x with
  | ok a =>
      refine ⟨fun h => ⟨a, rfl, h⟩, ?_⟩
      rintro ⟨a', ha, h⟩
      cases ha
      exact h
  | error e =>
      refine iff_of_false (fun h => by cases h) ?_
      rintro ⟨a, ha, -⟩
      cases ha

/-! ### Computations without a fault -/

section Sound

variable {ε α β : Type} {x : Checked ε α} {Q Q' : α → Prop} {R : β → Prop}

/-- The result, if there is one, satisfies `Q`; no fault but an error code. -/
def Sound (x : Checked ε α) (Q : α → Prop) : Prop :=
  match x with
  | .ok a => Q a
  | .error f => f.IsCode

/-- A value is sound if it satisfies the property. -/
@[simp] theorem sound_ok {a : α} : Sound (.ok a : Checked ε α) Q ↔ Q a := Iff.rfl

@[simp] theorem sound_pure {a : α} : Sound (pure a : Checked ε α) Q ↔ Q a := Iff.rfl

@[simp] theorem sound_code {e : ε} : Sound (.error (.code e) : Checked ε α) Q := ⟨e, rfl⟩

/-- One computation after another. -/
@[simp] theorem sound_bind {f : α → Checked ε β} :
    Sound (x >>= f) R ↔ Sound x fun a => Sound (f a) R := by
  cases x <;> rfl

/-- A weaker property. -/
theorem Sound.mono (h : Sound x Q) (hq : ∀ a, Q a → Q' a) : Sound x Q' := by
  cases x with
  | ok a => exact hq a h
  | error f => exact h

/-- The rule for a sequence. -/
theorem Sound.bind {f : α → Checked ε β} (h : Sound x Q) (hf : ∀ a, Q a → Sound (f a) R) :
    Sound (x >>= f) R := sound_bind.mpr (h.mono hf)

theorem Sound.ite {c : Prop} [Decidable c] {y z : Checked ε α} (hy : c → Sound y Q)
    (hz : ¬ c → Sound z Q) : Sound (if c then y else z) Q := by
  by_cases h : c
  · rw [if_pos h]
    exact hy h
  · rw [if_neg h]
    exact hz h

/-- A guard that returns a code. -/
theorem Sound.guard {c : Prop} [Decidable c] {e : ε} {y : Checked ε α} (hy : ¬ c → Sound y Q) :
    Sound (if c then .error (.code e) else y) Q := Sound.ite (fun _ => sound_code) hy

/-- The value of a sound computation satisfies the property. -/
theorem Sound.value {a : α} (h : Sound x Q) (hx : x = .ok a) : Q a := by
  rw [hx] at h
  exact h

/-- A checked computation inside one with a state. -/
theorem Sound.ends {σ : Type} {s : σ} {P : α → σ → Prop} {E : Fault ε → σ → Prop} (h : Sound x Q)
    (hq : ∀ a, Q a → P a s) (he : ∀ f, f.IsCode → E f s) : Io.Ends (Io.lift x) s P E := by
  refine Io.ends_lift.mpr ⟨fun a ha => hq a (h.value ha), fun f hf => he f ?_⟩
  rw [hf] at h
  exact h

/-- A sound computation as the first part of a stateful one. -/
theorem Sound.ends_bind {σ : Type} {s : σ} {f : α → Io (Fault ε) σ β} {P : β → σ → Prop}
    {E : Fault ε → σ → Prop} (h : Sound x Q) (he : ∀ f, f.IsCode → E f s)
    (hf : ∀ a, Q a → Io.Ends (f a) s P E) : Io.Ends (Io.lift x >>= f) s P E :=
  Io.ends_bind.mpr (h.ends hf he)

/-- An addition that fits is sound. -/
theorem sound_addU {w a b : Nat} (h : a + b < 2 ^ w) :
    Sound (addU w a b : Checked ε Nat) (· = a + b) := by
  rw [addU, if_pos h]
  rfl

theorem sound_subU {a b : Nat} (h : b ≤ a) : Sound (subU a b : Checked ε Nat) (· = a - b) := by
  rw [subU, if_pos h]
  rfl

theorem sound_mulU {w a b : Nat} (h : a * b < 2 ^ w) :
    Sound (mulU w a b : Checked ε Nat) (· = a * b) := by
  rw [mulU, if_pos h]
  rfl

theorem sound_addS {w : Nat} {a b : Int} (h : -2 ^ (w - 1) ≤ a + b) (h' : a + b < 2 ^ (w - 1)) :
    Sound (addS w a b : Checked ε Int) (· = a + b) := by
  rw [addS, if_pos ⟨h, h'⟩]
  rfl

theorem sound_subS {w : Nat} {a b : Int} (h : -2 ^ (w - 1) ≤ a - b) (h' : a - b < 2 ^ (w - 1)) :
    Sound (subS w a b : Checked ε Int) (· = a - b) := by
  rw [subS, if_pos ⟨h, h'⟩]
  rfl

theorem sound_toU {a : Int} (h : 0 ≤ a) : Sound (toU a : Checked ε Nat) (· = a.toNat) := by
  rw [toU, if_pos h]
  rfl

theorem sound_toS {w a : Nat} (h : a < 2 ^ (w - 1)) :
    Sound (toS w a : Checked ε Int) (· = (a : Int)) := by
  rw [toS, if_pos h]
  rfl

end Sound

end Efishell
