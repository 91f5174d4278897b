import Mathlib

/-!
# Fallible computations

Peeling an `Except` computation that succeeded: one lemma per way the code combines them, so that a
proof about a `do` block never unfolds the monad.
-/

namespace Lib

universe u

variable {ε α : Type u} {c : Prop}

theorem bind_eq_ok {β : Type u} {x : Except ε α} {f : α → Except ε β} {b : β} :
    (x >>= f) = .ok b ↔ ∃ a, x = .ok a ∧ f a = .ok b := by
  cases x with
  | error e => simp [bind, Except.bind]
  | ok a => simp [bind, Except.bind]

theorem mapError_eq_ok {ε' : Type u} {x : Except ε α} {f : ε → ε'} {a : α} :
    x.mapError f = .ok a ↔ x = .ok a := by
  cases x with
  | error e => simp [Except.mapError]
  | ok b => simp [Except.mapError]

theorem bind_eq_error {β : Type u} {x : Except ε α} {f : α → Except ε β} {e : ε} :
    (x >>= f) = .error e ↔ x = .error e ∨ ∃ a, x = .ok a ∧ f a = .error e := by
  cases x with
  | error e => simp [bind, Except.bind]
  | ok a => simp [bind, Except.bind]

theorem mapError_eq_error {ε' : Type u} {x : Except ε α} {f : ε → ε'} {e : ε'} :
    x.mapError f = .error e ↔ ∃ e', x = .error e' ∧ f e' = e := by
  cases x with
  | error e => simp [Except.mapError]
  | ok b => simp [Except.mapError]

theorem pure_eq_ok {a b : α} : (pure a : Except ε α) = .ok b ↔ a = b := by
  simp [pure, Except.pure]

theorem ite_throw_eq_ok [Decidable c] {e : ε} {x : Except ε α} {a : α} :
    (if c then .error e else x) = .ok a ↔ ¬ c ∧ x = .ok a := by
  by_cases h : c <;> simp [h]

theorem ite_throw_eq_error [Decidable c] {e e' : ε} {x : Except ε α} :
    (if c then .error e else x) = .error e' ↔ c ∧ e = e' ∨ ¬ c ∧ x = .error e' := by
  by_cases h : c <;> simp [h]

theorem ite_ok_eq_ok [Decidable c] {e : ε} {a b : α} :
    (if c then .ok a else .error e) = Except.ok b ↔ c ∧ a = b := by
  by_cases h : c <;> simp [h]

theorem guard_eq_ok {β : Type u} [Decidable c] {e : ε} {f : β → Except ε α}
    {x : Except ε α} {a : α} :
    (if c then (throw e : Except ε β) >>= f else x) = .ok a ↔ ¬ c ∧ x = .ok a := by
  by_cases h : c
  · simp [h, throw, throwThe, MonadExceptOf.throw, bind, Except.bind]
  · simp [h]

theorem exists_ok {ε α : Type*} {e : Except ε α} {p : α → Bool} (h : e.toOption.any p = true) :
    ∃ a, e = .ok a ∧ p a = true := by
  cases e with
  | error x => cases h
  | ok a => exact ⟨a, rfl, h⟩

end Lib
