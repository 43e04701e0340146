import Mathlib.Data.Set.Finite.Basic
/-!
# Finite maps

A map from keys to values that is defined on finitely many keys, as a
function with the proof that it is. Nothing is said of how it is stored.
-/

namespace OpendalIndexeddb

/-- A map defined on finitely many keys. -/
structure FiniteMap (κ ν : Type*) where
  get : κ → Option ν
  finite : {k | get k ≠ none}.Finite

namespace FiniteMap

variable {κ ν : Type*} {m m' : FiniteMap κ ν} {k l : κ} {v : ν}

/-- **A map is what it says of each key.** -/
@[ext] theorem ext (h : ∀ k, m.get k = m'.get k) : m = m' := by
  cases m
  cases m'
  congr
  exact funext h

/-- The map defined nowhere. -/
def empty : FiniteMap κ ν := ⟨fun _ => none, by simp⟩

open Classical in
/-- A map with one key redefined. -/
noncomputable def set (m : FiniteMap κ ν) (k : κ) (v : ν) : FiniteMap κ ν where
  get l := if l = k then some v else m.get l
  finite := by
    refine (m.finite.insert k).subset ?_
    intro l hl
    by_cases h : l = k
    · exact Or.inl h
    · exact Or.inr (by simpa [h] using hl)

open Classical in
/-- A map without the keys of a set. -/
noncomputable def removeWhere (m : FiniteMap κ ν) (q : κ → Prop) : FiniteMap κ ν where
  get l := if q l then none else m.get l
  finite := m.finite.subset fun l hl h => hl (by simp [h])

noncomputable def remove (m : FiniteMap κ ν) (k : κ) : FiniteMap κ ν := m.removeWhere (· = k)

@[simp] theorem get_empty : (empty : FiniteMap κ ν).get k = none := rfl

@[simp] theorem get_set_self : (m.set k v).get k = some v := if_pos rfl

theorem get_set_of_ne (h : l ≠ k) : (m.set k v).get l = m.get l := if_neg h

theorem get_removeWhere_of {q : κ → Prop} (h : q k) : (m.removeWhere q).get k = none := if_pos h

theorem get_removeWhere_of_not {q : κ → Prop} (h : ¬ q k) : (m.removeWhere q).get k = m.get k :=
  if_neg h

end FiniteMap

end OpendalIndexeddb
