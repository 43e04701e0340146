import Mathlib.Data.List.Basic
/-!
# Histories

A list of entries, each with the state it found and the state it left,
where one begins as the one before ended. What changed between two points
of a history changed in one of its entries.
-/

namespace OpendalIndexeddb

variable {ε σ : Type*} {before after : ε → σ} {s t u : σ} {l l₁ l₂ : List ε} {e : ε}

/-- The entries lead from one state to another. -/
inductive Leads (before after : ε → σ) : σ → List ε → σ → Prop
  | nil (s : σ) : Leads before after s [] s
  | cons {e : ε} {l : List ε} {t : σ} :
      Leads before after (after e) l t → Leads before after (before e) (e :: l) t

namespace Leads

/-- The first entry begins where the history does. -/
theorem before_eq (h : Leads before after s (e :: l) t) : before e = s := by
  cases h
  rfl

theorem of_cons (h : Leads before after s (e :: l) t) : Leads before after (after e) l t := by
  cases h
  assumption

/-- A history splits anywhere. -/
theorem split (h : Leads before after s (l₁ ++ l₂) t) :
    ∃ u, Leads before after s l₁ u ∧ Leads before after u l₂ t := by
  induction l₁ generalizing s with
  | nil => exact ⟨s, .nil s, h⟩
  | cons e l₁ ih =>
    obtain ⟨u, h₁, h₂⟩ := ih h.of_cons
    exact ⟨u, h.before_eq ▸ .cons h₁, h₂⟩

/-- An entry that begins where a history ended goes on with it. -/
theorem snoc (h : Leads before after s l (before e)) :
    Leads before after s (l ++ [e]) (after e) := by
  generalize ht : before e = t at h
  induction h with
  | nil s => exact ht ▸ .cons (.nil _)
  | cons _ ih => exact .cons (ih ht)

/-- **A property lost over a history is lost in one of its entries.** -/
theorem exists_lost {q : σ → Prop} (h : Leads before after s l t) (hs : q s) (ht : ¬ q t) :
    ∃ e ∈ l, q (before e) ∧ ¬ q (after e) := by
  induction h with
  | nil s => exact absurd hs ht
  | @cons e l t _ ih =>
    by_cases he : q (after e)
    · obtain ⟨e', he', hlost⟩ := ih he ht
      exact ⟨e', List.mem_cons_of_mem e he', hlost⟩
    · exact ⟨e, List.mem_cons_self, hs, he⟩

/-- A history ends where its last entry does. -/
theorem end_eq (h : Leads before after s l t) : l = [] ∧ s = t ∨ ∃ e ∈ l, after e = t := by
  induction h with
  | nil s => exact Or.inl ⟨rfl, rfl⟩
  | @cons e l t _ ih =>
    rcases ih with ⟨-, ht⟩ | ⟨e', he', ht⟩
    · exact Or.inr ⟨e, List.mem_cons_self, ht⟩
    · exact Or.inr ⟨e', List.mem_cons_of_mem e he', ht⟩

end Leads

end OpendalIndexeddb
