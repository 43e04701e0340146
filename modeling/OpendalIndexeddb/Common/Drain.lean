import Mathlib.Data.List.Basic
/-!
# Draining an iterator

A fallible `next` on a state, and the relation that says which items
calling it until it reports the end yields. A derivation of `Drains` is
a finite run, so it also says that the end is reached.
-/

namespace OpendalIndexeddb

variable {σ τ ε : Type*}

/-- Calling `next` from a state until it returns no item yields exactly
these items. -/
inductive Drains (next : σ → Option (Option ε × σ)) : σ → List ε → Prop
  /-- `next` reports the end. -/
  | finish {s s' : σ} : next s = some (none, s') → Drains next s []
  /-- `next` yields an item. -/
  | item {s s' : σ} {e : ε} {es : List ε} :
      next s = some (some e, s') → Drains next s' es → Drains next s (e :: es)

namespace Drains

variable {next : σ → Option (Option ε × σ)} {s s' : σ} {e : ε} {es es' : List ε}

/-- **A state yields one sequence of items.** -/
theorem unique (h : Drains next s es) (h' : Drains next s es') : es = es' := by
  induction h generalizing es' with
  | finish hn =>
    cases h' with
    | finish => rfl
    | item hn' => rw [hn] at hn'; cases hn'
  | item hn _ ih =>
    cases h' with
    | finish hn' => rw [hn] at hn'; cases hn'
    | item hn' h' =>
      rw [hn] at hn'
      cases hn'
      rw [ih h']

/-- Two states that take the same step yield the same items. -/
theorem of_next_eq (heq : next s = next s') (h : Drains next s' es) : Drains next s es := by
  cases h with
  | finish hn => exact finish (heq.trans hn)
  | item hn hrest => exact item (heq.trans hn) hrest

end Drains

end OpendalIndexeddb
