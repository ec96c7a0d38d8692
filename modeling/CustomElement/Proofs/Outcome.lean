import Mathlib

/-!
# Computations that can fail

How a computation that succeeds is taken apart at its first step.
-/

namespace CustomElement

export Bool (and_eq_true or_eq_true false_eq_true and_eq_true_iff eq_false_iff not_eq_true' or_eq_false_iff not_eq_false
  of_not_eq_false of_not_eq_true)
export Option (map_eq_some_iff bind_eq_some_iff map_some map_none bind_some any_some all_some getD_some isSome_iff_exists
  bind_eq_bind some.inj some.injEq)
export Except (ok.inj error.inj)
export String (toList_append toList_ofList toList_inj ofList_toList length_toList toList_join)
export Nat (succ_pos lt_succ_self)
export Function (comp_def)

lemma bind_eq_ok {ε α β : Type} {x : Except ε α} {f : α → Except ε β} {b : β} :
    (x >>= f) = .ok b ↔ ∃ a, x = .ok a ∧ f a = .ok b := by
  cases x <;> simp [bind, Except.bind]

lemma map_eq_ok {ε α β : Type} {x : Except ε α} {f : α → β} {b : β} : f <$> x = .ok b ↔ ∃ a, x = .ok a ∧ f a = b := by
  cases x <;> simp [Functor.map, Except.map]

lemma mapError_eq_ok {ε δ α : Type} {x : Except ε α} {f : ε → δ} {a : α} : x.mapError f = .ok a ↔ x = .ok a := by
  cases x <;> simp [Except.mapError]

end CustomElement
