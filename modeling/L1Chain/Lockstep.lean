import Mathlib.Data.Option.Basic

/-! Two computations in step with one another. `InStep R` says of two fallible results that
both are the same error or both succeed with values related by `R`; the rules below follow the
monad, so that a program run on two representations of its state is compared line by line. -/
namespace L1Chain.Lockstep

variable {ε δ α β γ κ : Type} {R : α → β → Prop} {Q : γ → κ → Prop}

inductive InStep (R : α → β → Prop) : Except ε α → Except ε β → Prop
  | ok {x : α} {y : β} (related : R x y) : InStep R (.ok x) (.ok y)
  | error (e : ε) : InStep R (.error e) (.error e)

theorem branchAlike {p : Prop} [Decidable p] {x x' : α} {y y' : β} (yes : p → R x y) (no : ¬ p → R x' y') :
    R (if p then x else x') (if p then y else y') := by
  split
  · exact yes ‹_›
  · exact no ‹_›

theorem InStep.bind {m : Except ε α} {n : Except ε β} {f : α → Except ε γ} {g : β → Except ε κ} (first : InStep R m n)
    (next : ∀ x y, R x y → InStep Q (f x) (g y)) : InStep Q (m >>= f) (n >>= g) := by
  cases first with
  | ok related => exact next _ _ related
  | error e => exact .error e

theorem InStep.both (m : Except ε α) {f : α → Except ε γ} {g : α → Except ε κ} (next : ∀ x, InStep Q (f x) (g x)) :
    InStep Q (m >>= f) (m >>= g) := by
  cases m with
  | ok x => exact next x
  | error e => exact .error e

theorem InStep.map {m : Except ε α} {n : Except ε β} {f : α → γ} {g : β → κ} (first : InStep R m n)
    (next : ∀ x y, R x y → Q (f x) (g y)) : InStep Q (m.map f) (n.map g) := by
  cases first with
  | ok related => exact .ok (next _ _ related)
  | error e => exact .error e

end L1Chain.Lockstep
