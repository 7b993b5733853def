import Mathlib.Logic.Basic

/-!
# Functions that return early

A function with several ways out is a computation in `Except`: what is thrown is how it returned. `Leaves E Q x` holds if
`x` returned early in a way of which `E` holds, or goes on with a value of which `Q` holds.
-/

namespace Shaunos

universe u v

variable {ε : Type v} {α β : Type u} {E : ε → Prop} {P Q : α → Prop} {R : β → Prop} {x : Except ε α}

def Leaves (E : ε → Prop) (Q : α → Prop) : Except ε α → Prop
  | .error e => E e
  | .ok a => Q a

/-- The way out, where the last value is one too. -/
def leave : Except ε ε → ε
  | .error e => e
  | .ok e => e

@[simp] theorem leaves_throw {e : ε} : Leaves E Q (throw e : Except ε α) ↔ E e := Iff.rfl

@[simp] theorem leaves_pure {a : α} : Leaves E Q (pure a : Except ε α) ↔ Q a := Iff.rfl

theorem Leaves.bind {f : α → Except ε β} (h : Leaves E P x) (hf : ∀ a, P a → Leaves E R (f a)) :
    Leaves E R (x >>= f) := by
  cases x with
  | error e => exact h
  | ok a => exact hf a h

theorem Leaves.mono (h : Leaves E P x) (hPQ : ∀ a, P a → Q a) : Leaves E Q x := by
  cases x with
  | error e => exact h
  | ok a => exact hPQ a h

theorem Leaves.mono_left {E' : ε → Prop} (h : Leaves E Q x) (hE : ∀ e, E e → E' e) : Leaves E' Q x := by
  cases x with
  | error e => exact hE e h
  | ok a => exact h

theorem Leaves.leave {x : Except ε ε} (h : Leaves E E x) : E (leave x) := by
  cases x with
  | error e => exact h
  | ok e => exact h

end Shaunos
