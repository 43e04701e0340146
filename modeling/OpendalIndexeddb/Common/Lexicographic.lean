import Mathlib.Data.List.Lex
import Mathlib.Order.Lattice
/-!
# Lexicographic order and prefixes

Where a prefix sits in the lexicographic order of lists: below every
list it begins, with those lists next to one another and nothing else
among them. The interval form `isPrefix_iff_of_bump` is what turns a
range of an ordered store into the set of keys under a prefix. A code
that writes each letter as a word of its own (`OrderedCode`) carries the
order of the letters to that of the encoded lists.
-/

namespace OpendalIndexeddb

namespace Lexicographic

variable {α : Type*} [LinearOrder α]
variable {p q s t : List α}

theorem cons_lt_cons_iff {a b : α} : a :: s < b :: t ↔ a < b ∨ a = b ∧ s < t :=
  List.cons_lt_cons_iff

/-- A common beginning does not matter. -/
theorem append_lt_append_left_iff {β : Type*} [LT β] [Std.Irrefl (α := β) (· < ·)]
    {p s t : List β} : p ++ s < p ++ t ↔ s < t := by
  induction p with
  | nil => rfl
  | cons a p ih => simp [ih]

/-- A prefix is at or below every list it begins. -/
theorem le_of_isPrefix (h : p <+: s) : p ≤ s := by
  obtain ⟨t, rfl⟩ := h
  cases t with
  | nil => simp
  | cons a t =>
    have hlt : p ++ [] < p ++ a :: t := append_lt_append_left_iff.2 (List.nil_lt_cons a t)
    rw [List.append_nil] at hlt
    exact le_of_lt hlt

/-- **A list that is above `p` and does not begin with it is above
everything that does.** The two part at a letter of `p`. -/
theorem lt_of_isPrefix_of_lt (hq : p <+: q) (hlt : p < s) (hs : ¬ p <+: s) : q < s := by
  induction p generalizing q s with
  | nil => exact absurd (List.nil_prefix) hs
  | cons a p ih =>
    obtain ⟨u, rfl⟩ := hq
    cases s with
    | nil => exact absurd hlt (List.not_lt_nil _)
    | cons b s =>
      rw [List.cons_append]
      rcases cons_lt_cons_iff.1 hlt with hab | ⟨rfl, hps⟩
      · exact cons_lt_cons_iff.2 (Or.inl hab)
      · refine cons_lt_cons_iff.2 (Or.inr ⟨rfl, ih (List.prefix_append p u) hps ?_⟩)
        exact fun hc => hs (List.cons_prefix_cons.2 ⟨rfl, hc⟩)

/-- **The lists under a prefix are convex**: nothing else lies between
two of them. -/
theorem isPrefix_of_between (hq : p <+: q) (ht : p <+: t) (h1 : q ≤ s) (h2 : s ≤ t) :
    p <+: s := by
  by_contra hs
  have hps : p < s := by
    rcases eq_or_lt_of_le (le_trans (le_of_isPrefix hq) h1) with rfl | hlt
    · exact absurd List.prefix_rfl hs
    · exact hlt
  exact absurd h2 (not_le.2 (lt_of_isPrefix_of_lt ht hps hs))

/-! ## The interval of a prefix -/

/-- Everything under `p ++ [a]` is below `p ++ [b]` where `a < b`. -/
theorem lt_bump {a b : α} (hab : a < b) (h : p ++ [a] <+: s) : s < p ++ [b] := by
  obtain ⟨t, rfl⟩ := h
  rw [List.append_assoc]
  exact append_lt_append_left_iff.2 (cons_lt_cons_iff.2 (Or.inl hab))

/-- Between `p ++ [a]` and `p ++ [b]` every list begins with `p` and has
a letter of `[a, b)` next. -/
theorem exists_of_between_bump {a b : α} (h1 : p ++ [a] ≤ s) (h2 : s < p ++ [b]) :
    ∃ c t, s = p ++ c :: t ∧ a ≤ c ∧ c < b := by
  induction p generalizing s with
  | nil =>
    cases s with
    | nil => exact absurd h1 (not_le.2 (List.nil_lt_cons a []))
    | cons c t =>
      refine ⟨c, t, rfl, ?_, ?_⟩
      · by_contra hc
        exact absurd h1 (not_le.2 (cons_lt_cons_iff.2 (Or.inl (not_le.1 hc))))
      · rcases cons_lt_cons_iff.1 h2 with h | ⟨-, h⟩
        · exact h
        · exact absurd h (List.not_lt_nil _)
  | cons x p ih =>
    cases s with
    | nil => exact absurd h1 (not_le.2 (List.nil_lt_cons x _))
    | cons y s =>
      have hxy : x = y := by
        rcases cons_lt_cons_iff.1 h2 with h | ⟨h, -⟩
        · exact absurd h1 (not_le.2 (cons_lt_cons_iff.2 (Or.inl h)))
        · exact h.symm
      subst hxy
      have h2' : s < p ++ [b] := by
        rcases cons_lt_cons_iff.1 h2 with h | ⟨-, h⟩
        · exact absurd h (lt_irrefl _)
        · exact h
      have h1' : p ++ [a] ≤ s := by
        by_contra hc
        exact absurd h1 (not_le.2 (cons_lt_cons_iff.2 (Or.inr ⟨rfl, not_le.1 hc⟩)))
      obtain ⟨c, t, rfl, hac, hcb⟩ := ih h1' h2'
      exact ⟨c, t, rfl, hac, hcb⟩

/-- **The interval of a prefix.** Where no letter of the list lies
strictly between `a` and `b`, the lists from `p ++ [a]` up to `p ++ [b]`
are those that begin with `p ++ [a]`. -/
theorem isPrefix_iff_of_bump {a b : α} (hab : a < b) (hgap : ∀ c ∈ s, a ≤ c → c < b → c = a) :
    p ++ [a] <+: s ↔ p ++ [a] ≤ s ∧ s < p ++ [b] := by
  constructor
  · exact fun h => ⟨le_of_isPrefix h, lt_bump hab h⟩
  · rintro ⟨h1, h2⟩
    obtain ⟨c, t, rfl, hac, hcb⟩ := exists_of_between_bump h1 h2
    have hc : c = a := hgap c (by simp) hac hcb
    exact ⟨t, by simp [hc]⟩

/-- The same for lists compared by the ranks of their letters, up to the
letter of the next rank. -/
theorem isPrefix_iff_of_succ {γ : Type*} {rank : γ → ℕ} (hinj : Function.Injective rank) {c d : γ}
    (hstep : rank d = rank c + 1) {q k : List γ} :
    q ++ [c] <+: k ↔
      (q ++ [c]).map rank ≤ k.map rank ∧ k.map rank < (q ++ [d]).map rank := by
  rw [← List.prefix_map_iff_of_injective hinj]
  simp only [List.map_append, List.map_singleton]
  exact isPrefix_iff_of_bump (by omega) fun n _ h1 h2 => by omega

/-! ## Codes that keep the order -/

/-- The words of two letters part as the ranks of the letters do, so
that nothing written after them matters. -/
structure OrderedCode {β γ δ : Type*} [LT β] [LinearOrder δ] (code : γ → List β)
    (rank : γ → δ) : Prop where
  rank_injective : Function.Injective rank
  code_ne_nil : ∀ c, code c ≠ []
  append_lt_append_iff : ∀ {c d}, c ≠ d → ∀ u v, code c ++ u < code d ++ v ↔ rank c < rank d

namespace OrderedCode

variable {β γ δ : Type*} [LT β] [Std.Irrefl (α := β) (· < ·)] [LinearOrder δ]
variable {code : γ → List β} {rank : γ → δ} {x y : List γ}

/-- **Encoded lists are ordered as the ranks of their letters.** -/
theorem flatMap_lt_iff (hcode : OrderedCode code rank) :
    x.flatMap code < y.flatMap code ↔ x.map rank < y.map rank := by
  induction x generalizing y with
  | nil =>
    cases y with
    | nil => simp
    | cons d y =>
      obtain ⟨b, l, hb⟩ := List.exists_cons_of_ne_nil (hcode.code_ne_nil d)
      simp [hb]
  | cons c x ih =>
    cases y with
    | nil => simp
    | cons d y =>
      simp only [List.flatMap_cons, List.map_cons, List.cons_lt_cons_iff]
      by_cases hcd : c = d
      · subst hcd
        rw [append_lt_append_left_iff, ih]
        simp
      · have hr : rank c ≠ rank d := fun h => hcd (hcode.rank_injective h)
        simp [hcode.append_lt_append_iff hcd, hr]

/-- Such a code loses nothing. -/
theorem flatMap_injective (hcode : OrderedCode code rank) :
    Function.Injective (List.flatMap code) := by
  intro x y h
  have hxy : ¬ x.map rank < y.map rank := by
    rw [← hcode.flatMap_lt_iff, h]
    exact List.lt_irrefl _
  have hyx : ¬ y.map rank < x.map rank := by
    rw [← hcode.flatMap_lt_iff, h]
    exact List.lt_irrefl _
  exact List.map_injective_iff.2 hcode.rank_injective (le_antisymm (not_lt.1 hyx) (not_lt.1 hxy))

end OrderedCode

end Lexicographic

end OpendalIndexeddb
