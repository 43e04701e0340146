import Mathlib.Data.List.Basic
/-!
# Folding a list to the first item of each kind

`firstsFrom f` keeps the first item that has each value of `f`: how a
flat listing becomes one of directories. Restricting by the value of `f`
may be done before or after it.
-/

namespace OpendalIndexeddb

variable {α β γ : Type*} [DecidableEq β]

/-- The first items of a list that have each value of `f`, given the
values seen before. -/
def firstsFrom (f : α → β) : List β → List α → List α
  | _, [] => []
  | seen, a :: l => if f a ∈ seen then firstsFrom f seen l else a :: firstsFrom f (f a :: seen) l

variable {f : α → β} {seen : List β} {l : List α} {a : α}

theorem firstsFrom_sublist (f : α → β) (seen : List β) (l : List α) :
    List.Sublist (firstsFrom f seen l) l := by
  induction l generalizing seen with
  | nil => exact List.Sublist.slnil
  | cons a l ih =>
    rw [firstsFrom]
    split_ifs
    · exact (ih seen).cons a
    · exact (ih _).cons_cons a

/-- What was seen before is not listed again. -/
theorem notMem_seen_of_mem_firstsFrom (h : a ∈ firstsFrom f seen l) : f a ∉ seen := by
  induction l generalizing seen with
  | nil => exact absurd h List.not_mem_nil
  | cons b l ih =>
    rw [firstsFrom] at h
    split_ifs at h with hb
    · exact ih h
    · rcases List.mem_cons.1 h with rfl | h
      · exact hb
      · exact fun hc => ih h (List.mem_cons_of_mem _ hc)

/-- **No two items of one kind are listed.** -/
theorem pairwise_ne_firstsFrom (f : α → β) (seen : List β) (l : List α) :
    (firstsFrom f seen l).Pairwise fun a b => f a ≠ f b := by
  induction l generalizing seen with
  | nil => exact List.Pairwise.nil
  | cons a l ih =>
    rw [firstsFrom]
    split_ifs
    · exact ih seen
    · refine List.pairwise_cons.2 ⟨fun b hb hab => ?_, ih _⟩
      exact notMem_seen_of_mem_firstsFrom hb (hab ▸ List.mem_cons_self)

/-- What is kept comes before all with its value. -/
theorem eq_or_rel_of_mem_firstsFrom {r : α → α → Prop} (hl : l.Pairwise r)
    (ha : a ∈ firstsFrom f seen l) {b : α} (hb : b ∈ l) (hab : f b = f a) : a = b ∨ r a b := by
  induction l generalizing seen with
  | nil => exact absurd hb List.not_mem_nil
  | cons c l ih =>
    obtain ⟨hc, hl⟩ := List.pairwise_cons.1 hl
    rw [firstsFrom] at ha
    split_ifs at ha with hseen
    · rcases List.mem_cons.1 hb with rfl | hb
      · exact absurd (hab ▸ hseen) (notMem_seen_of_mem_firstsFrom ha)
      · exact ih hl ha hb
    · rcases List.mem_cons.1 ha with rfl | ha
      · exact (List.mem_cons.1 hb).imp Eq.symm (hc b)
      · rcases List.mem_cons.1 hb with rfl | hb
        · exact absurd (hab ▸ List.mem_cons_self) (notMem_seen_of_mem_firstsFrom ha)
        · exact ih hl ha hb

/-- **Every kind is listed**, unless it was seen before. -/
theorem exists_mem_firstsFrom (ha : a ∈ l) (hseen : f a ∉ seen) :
    ∃ b ∈ firstsFrom f seen l, f b = f a := by
  induction l generalizing seen with
  | nil => exact absurd ha List.not_mem_nil
  | cons c l ih =>
    rw [firstsFrom]
    split_ifs with hc
    · rcases List.mem_cons.1 ha with rfl | ha
      · exact absurd hc hseen
      · exact ih ha hseen
    · by_cases heq : f c = f a
      · exact ⟨c, List.mem_cons_self, heq⟩
      · have ha' : a ∈ l := (List.mem_cons.1 ha).resolve_left fun h => heq (h ▸ rfl)
        have hseen' : f a ∉ f c :: seen := by
          intro h
          exact (List.mem_cons.1 h).elim (fun h => heq h.symm) hseen
        obtain ⟨b, hb, hba⟩ := ih ha' hseen'
        exact ⟨b, List.mem_cons_of_mem _ hb, hba⟩

/-- What a list begins with is folded first. -/
theorem firstsFrom_prefix {p : List α} (h : p <+: l) :
    firstsFrom f seen p <+: firstsFrom f seen l := by
  induction p generalizing seen l with
  | nil => exact List.nil_prefix
  | cons a p ih =>
    obtain ⟨t, rfl⟩ := h
    rw [List.cons_append, firstsFrom, firstsFrom]
    split_ifs
    · exact ih (List.prefix_append p t)
    · exact List.cons_prefix_cons.2 ⟨rfl, ih (List.prefix_append p t)⟩

/-- Only the kinds that occur in a list matter of those seen before. -/
theorem firstsFrom_congr {seen seen' : List β} (h : ∀ b ∈ l, f b ∈ seen ↔ f b ∈ seen') :
    firstsFrom f seen l = firstsFrom f seen' l := by
  induction l generalizing seen seen' with
  | nil => rfl
  | cons a l ih =>
    have hl : ∀ b ∈ l, f b ∈ seen ↔ f b ∈ seen' := fun b hb => h b (List.mem_cons_of_mem _ hb)
    rw [firstsFrom, firstsFrom]
    by_cases ha : f a ∈ seen
    · rw [if_pos ha, if_pos ((h a List.mem_cons_self).1 ha), ih hl]
    · rw [if_neg ha, if_neg (mt (h a List.mem_cons_self).2 ha)]
      congr 1
      exact ih fun b hb => by rw [List.mem_cons, List.mem_cons, hl b hb]

/-- **Restricting by kind commutes with folding.** -/
theorem filter_firstsFrom (q : β → Bool) :
    (firstsFrom f seen l).filter (fun a => q (f a)) =
      firstsFrom f seen (l.filter fun a => q (f a)) := by
  induction l generalizing seen with
  | nil => rfl
  | cons a l ih =>
    rw [firstsFrom, List.filter_cons]
    split_ifs with hseen hq hq
    · rw [firstsFrom, if_pos hseen, ih]
    · exact ih
    · rw [firstsFrom, if_neg hseen, List.filter_cons, if_pos hq, ih]
    · -- `f a` is now seen, but nothing of that kind is left
      rw [List.filter_cons, if_neg hq, ih]
      refine firstsFrom_congr ?_
      intro b hb
      have hqb : q (f b) = true := (List.mem_filter.1 hb).2
      have hne : f b ≠ f a := fun hab => hq (hab ▸ hqb)
      rw [List.mem_cons, or_iff_right hne]

/-- Folding a renamed list. -/
theorem firstsFrom_map (f : α → β) (g : γ → α) (seen : List β) (l : List γ) :
    firstsFrom f seen (l.map g) = (firstsFrom (fun c => f (g c)) seen l).map g := by
  induction l generalizing seen with
  | nil => rfl
  | cons c l ih =>
    rw [List.map_cons, firstsFrom, firstsFrom]
    split_ifs
    · exact ih seen
    · rw [List.map_cons, ih]

/-- Renaming the kinds one to one changes nothing. -/
theorem firstsFrom_of_injective {δ : Type*} [DecidableEq δ] {g : β → δ} (hg : Function.Injective g)
    {f' : α → δ} (h : ∀ a ∈ l, f' a = g (f a)) (seen : List β) :
    firstsFrom f' (seen.map g) l = firstsFrom f seen l := by
  induction l generalizing seen with
  | nil => rfl
  | cons a l ih =>
    have ha := h a List.mem_cons_self
    have hl := ih fun b hb => h b (List.mem_cons_of_mem _ hb)
    have hmem : g (f a) ∈ seen.map g ↔ f a ∈ seen := List.mem_map_of_injective hg
    simp only [firstsFrom, ha, hmem, hl, ← List.map_cons]

/-- Items of different kinds are all first. -/
theorem firstsFrom_eq_self (h : l.Pairwise fun a b => f a ≠ f b) (hseen : ∀ a ∈ l, f a ∉ seen) :
    firstsFrom f seen l = l := by
  induction l generalizing seen with
  | nil => rfl
  | cons a l ih =>
    obtain ⟨ha, hl⟩ := List.pairwise_cons.1 h
    rw [firstsFrom, if_neg (hseen a List.mem_cons_self), ih hl]
    intro b hb hmem
    rcases List.mem_cons.1 hmem with heq | hmem
    · exact ha b hb heq.symm
    · exact hseen b (List.mem_cons_of_mem _ hb) hmem

theorem firstsFrom_eq_nil_iff : firstsFrom f [] l = [] ↔ l = [] := by
  cases l with
  | nil => simp [firstsFrom]
  | cons a l => simp [firstsFrom]

end OpendalIndexeddb
