import OpendalIndexeddb.Common.OrderedStore
/-!
# Cursors that move

A cursor over a range stands at a key. Advancing it looks at the store as
it is then, and goes to the first record behind that key. What happens to
the records it has passed does not change where it goes.
-/

namespace OpendalIndexeddb

namespace OrderedStore

variable {κ ν : Type*} [LinearOrder κ] {key : ν → κ} {s : OrderedStore κ ν key}
variable {range : KeyRange κ} {past : Option κ} {v : ν} {rest : List ν}

/-- The records of a range past a key. -/
def itemsPast (s : OrderedStore κ ν key) (range : KeyRange κ) (past : Option κ) : List ν :=
  (s.cursor range).filter fun v => past.all fun k => decide (k < key v)

/-- The first of them, where the cursor goes. -/
def firstPast (s : OrderedStore κ ν key) (range : KeyRange κ) (past : Option κ) : Option ν :=
  (s.cursor range).find? fun v => past.all fun k => decide (k < key v)

theorem firstPast_eq_head? : s.firstPast range past = (s.itemsPast range past).head? :=
  List.head?_filter.symm

/-- A cursor that was just opened has the whole range before it. -/
theorem itemsPast_none : s.itemsPast range none = s.cursor range := by
  simp [itemsPast]

/-- **A cursor that advances leaves one record behind.** -/
theorem itemsPast_advance (h : s.itemsPast range past = v :: rest) :
    s.itemsPast range (some (key v)) = rest := by
  have hsorted : (v :: rest).Pairwise fun a b => key a < key b :=
    h ▸ (s.sorted.filter _).filter _
  have hbehind : ∀ w ∈ s.cursor range,
      key v < key w → (past.all fun k => decide (k < key w)) = true := by
    intro w _ hvw
    have hv : v ∈ s.itemsPast range past := h ▸ List.mem_cons_self
    cases past with
    | none => rfl
    | some k =>
      have hkv : k < key v := by simpa using (List.mem_filter.1 hv).2
      simpa using hkv.trans hvw
  have hfilter : s.itemsPast range (some (key v)) =
      (s.itemsPast range past).filter fun w => decide (key v < key w) := by
    rw [itemsPast, itemsPast, List.filter_filter]
    refine List.filter_congr fun w hw => ?_
    by_cases hvw : key v < key w
    · simp [hvw, hbehind w hw hvw]
    · simp [hvw]
  rw [hfilter, h, List.filter_cons_of_neg (by simp)]
  exact List.filter_eq_self.2 fun w hw => by simpa using (List.pairwise_cons.1 hsorted).1 w hw

/-- A cursor does not notice that records it has passed are removed. -/
theorem itemsPast_deleteWhere {q : κ → Bool} {k : κ} (h : ∀ k', k < k' → q k' = false) :
    (s.deleteWhere q).itemsPast range (some k) = s.itemsPast range (some k) := by
  simp only [itemsPast, cursor, deleteWhere, List.filter_filter]
  refine List.filter_congr fun w _ => ?_
  by_cases hw : k < key w
  · simp [hw, h _ hw]
  · simp [hw]

theorem itemsPast_delete {k : κ} :
    (s.delete k).itemsPast range (some k) = s.itemsPast range (some k) :=
  itemsPast_deleteWhere fun _ hk => by simpa using ne_of_gt hk

end OrderedStore

end OpendalIndexeddb
