import Mathlib.Data.List.Sort
/-!
# An ordered store with in-line keys

Records that carry their own key, one for each key, enumerated in key
order: what an object store with a key path is. The order is a field of
the structure, so every store that can be written down is a store.

Each operation has one lemma, which says what `get` reads afterwards;
`ext_get` turns those into equality of stores.
-/

namespace OpendalIndexeddb

/-- One end of a key range, as `std::ops::Bound`. -/
inductive Bound (κ : Type*) where
  | included (k : κ)
  | excluded (k : κ)
  | unbounded
deriving DecidableEq

/-- A range of keys. -/
structure KeyRange (κ : Type*) where
  lower : Bound κ
  upper : Bound κ
deriving DecidableEq

variable {κ ν : Type*} [LinearOrder κ]

/-- Whether a key is on the inner side of a lower end. -/
def Bound.below (b : Bound κ) (k : κ) : Bool :=
  match b with
  | .included l => decide (l ≤ k)
  | .excluded l => decide (l < k)
  | .unbounded => true

/-- Whether a key is on the inner side of an upper end. -/
def Bound.above (b : Bound κ) (k : κ) : Bool :=
  match b with
  | .included u => decide (k ≤ u)
  | .excluded u => decide (k < u)
  | .unbounded => true

def KeyRange.contains (r : KeyRange κ) (k : κ) : Bool := r.lower.below k && r.upper.above k

/-- Lists in the strict order of their keys that have the same items are
equal. -/
theorem eq_of_sorted {key : ν → κ} {l l' : List ν} (h : l.Pairwise fun a b => key a < key b)
    (h' : l'.Pairwise fun a b => key a < key b) (hmem : ∀ v, v ∈ l ↔ v ∈ l') : l = l' := by
  have : Std.Irrefl fun a b : ν => key a < key b := ⟨fun a => lt_irrefl (key a)⟩
  have : Std.Antisymm fun a b : ν => key a < key b :=
    ⟨fun a b hab hba => absurd hba (lt_asymm hab)⟩
  exact h.eq_of_mem_iff h' hmem

/-- **A store**: its records, in the strict order of their keys. -/
structure OrderedStore (κ ν : Type*) [LinearOrder κ] (key : ν → κ) where
  items : List ν
  sorted : items.Pairwise fun a b => key a < key b

namespace OrderedStore

variable {key : ν → κ} {s t : OrderedStore κ ν key} {k : κ} {v : ν} {q : κ → Bool}

@[ext] theorem ext (h : s.items = t.items) : s = t := by
  cases s; cases t; congr

instance [DecidableEq ν] : DecidableEq (OrderedStore κ ν key) :=
  fun _ _ => decidable_of_iff _ ⟨ext, congrArg items⟩

def empty : OrderedStore κ ν key := ⟨[], List.Pairwise.nil⟩

/-- The record stored under a key. -/
def get (s : OrderedStore κ ν key) (k : κ) : Option ν :=
  s.items.find? fun v => decide (key v = k)

def contains (s : OrderedStore κ ν key) (k : κ) : Bool := (s.get k).isSome

def keys (s : OrderedStore κ ν key) : List κ := s.items.map key

/-- A record in its place among sorted records, over the one that has
its key. -/
def insertItem (key : ν → κ) (v : ν) : List ν → List ν
  | [] => [v]
  | a :: l =>
    if key v < key a then v :: a :: l
    else if key v = key a then v :: l
    else a :: insertItem key v l

theorem mem_insertItem {l : List ν} {a : ν} (hl : l.Pairwise fun a b => key a < key b) :
    a ∈ insertItem key v l ↔ a = v ∨ (a ∈ l ∧ key a ≠ key v) := by
  induction l with
  | nil => simp [insertItem]
  | cons b l ih =>
    obtain ⟨hb, hl⟩ := List.pairwise_cons.1 hl
    rw [insertItem]
    split_ifs with h1 h2
    · have hne : ∀ x ∈ b :: l, key x ≠ key v := by
        intro x hx
        rcases List.mem_cons.1 hx with rfl | hx
        · exact ne_of_gt h1
        · exact ne_of_gt (lt_trans h1 (hb x hx))
      rw [List.mem_cons]
      exact or_congr_right ⟨fun hx => ⟨hx, hne a hx⟩, fun hx => hx.1⟩
    · have hne : ∀ x ∈ l, key x ≠ key v := fun x hx => ne_of_gt (h2 ▸ hb x hx)
      simp only [List.mem_cons]
      refine or_congr_right ⟨fun hx => ⟨Or.inr hx, hne a hx⟩, ?_⟩
      rintro ⟨rfl | hx, hk⟩
      · exact absurd h2.symm hk
      · exact hx
    · have hbv : key b ≠ key v := fun h => h2 h.symm
      simp only [List.mem_cons, ih hl]
      constructor
      · rintro (rfl | rfl | ⟨hx, hk⟩)
        · exact Or.inr ⟨Or.inl rfl, hbv⟩
        · exact Or.inl rfl
        · exact Or.inr ⟨Or.inr hx, hk⟩
      · rintro (rfl | ⟨rfl | hx, hk⟩)
        · exact Or.inr (Or.inl rfl)
        · exact Or.inl rfl
        · exact Or.inr (Or.inr ⟨hx, hk⟩)

theorem sorted_insertItem {l : List ν} (hl : l.Pairwise fun a b => key a < key b) :
    (insertItem key v l).Pairwise fun a b => key a < key b := by
  induction l with
  | nil => simp [insertItem]
  | cons b l ih =>
    obtain ⟨hb, hl'⟩ := List.pairwise_cons.1 hl
    rw [insertItem]
    split_ifs with h1 h2
    · refine List.pairwise_cons.2 ⟨fun x hx => ?_, hl⟩
      rcases List.mem_cons.1 hx with rfl | hx
      · exact h1
      · exact lt_trans h1 (hb x hx)
    · exact List.pairwise_cons.2 ⟨fun x hx => h2 ▸ hb x hx, hl'⟩
    · refine List.pairwise_cons.2 ⟨fun x hx => ?_, ih hl'⟩
      rcases (mem_insertItem hl').1 hx with rfl | ⟨hx, -⟩
      · exact lt_of_le_of_ne (not_lt.1 h1) fun h => h2 h.symm
      · exact hb x hx

/-- Stores a record under its own key. -/
def put (s : OrderedStore κ ν key) (v : ν) : OrderedStore κ ν key :=
  ⟨insertItem key v s.items, sorted_insertItem s.sorted⟩

/-- Removes the records whose key satisfies a test. -/
def deleteWhere (s : OrderedStore κ ν key) (q : κ → Bool) : OrderedStore κ ν key :=
  ⟨s.items.filter fun v => !q (key v), s.sorted.filter _⟩

def delete (s : OrderedStore κ ν key) (k : κ) : OrderedStore κ ν key :=
  s.deleteWhere fun k' => decide (k' = k)

def deleteRange (s : OrderedStore κ ν key) (r : KeyRange κ) : OrderedStore κ ν key :=
  s.deleteWhere r.contains

/-- The records of a store, read as others under the same keys. -/
def map {ν' : Type*} {key' : ν' → κ} (s : OrderedStore κ ν key) (f : ν → ν')
    (hf : ∀ v, key' (f v) = key v) : OrderedStore κ ν' key' :=
  ⟨s.items.map f, List.pairwise_map.2 <| s.sorted.imp fun h => by rwa [hf, hf]⟩

/-- The first `limit` keys of a range, in key order. -/
def getAllKeysIn (s : OrderedStore κ ν key) (r : KeyRange κ) (limit : ℕ) : List κ :=
  (s.keys.filter r.contains).take limit

/-- The records of a range, in key order: what a cursor over it visits. -/
def cursor (s : OrderedStore κ ν key) (r : KeyRange κ) : List ν :=
  s.items.filter fun v => r.contains (key v)

/-! ## What `get` reads -/

theorem keys_sorted (s : OrderedStore κ ν key) : s.keys.Pairwise (· < ·) :=
  List.pairwise_map.2 s.sorted

theorem keys_nodup (s : OrderedStore κ ν key) : s.keys.Nodup :=
  s.keys_sorted.imp ne_of_lt

theorem get_eq_some_iff : s.get k = some v ↔ v ∈ s.items ∧ key v = k := by
  constructor
  · intro h
    exact ⟨List.mem_of_find?_eq_some h, by simpa using List.find?_some h⟩
  · rintro ⟨hv, rfl⟩
    cases h : s.get (key v) with
    | none =>
      have hnot := List.find?_eq_none.1 h v hv
      simp at hnot
    | some w =>
      have hw : w ∈ s.items := List.mem_of_find?_eq_some h
      have hk : key w = key v := by simpa using List.find?_some h
      rw [List.inj_on_of_nodup_map s.keys_nodup hw hv hk]

theorem get_eq_none_iff : s.get k = none ↔ ∀ v ∈ s.items, key v ≠ k := by
  rw [Option.eq_none_iff_forall_ne_some]
  exact forall_congr' fun v => by rw [ne_eq, get_eq_some_iff, not_and]

theorem mem_keys_iff : k ∈ s.keys ↔ s.contains k = true := by
  rw [contains, Option.isSome_iff_exists, keys, List.mem_map]
  exact exists_congr fun v => get_eq_some_iff.symm

/-- **A store is what `get` reads of it.** -/
theorem ext_get (h : ∀ k, s.get k = t.get k) : s = t := by
  refine ext (eq_of_sorted s.sorted t.sorted ?_)
  intro v
  have hs := get_eq_some_iff (s := s) (k := key v) (v := v)
  have ht := get_eq_some_iff (s := t) (k := key v) (v := v)
  simp only [and_true] at hs ht
  rw [← hs, ← ht, h]

@[simp] theorem get_empty : (empty : OrderedStore κ ν key).get k = none := rfl

@[simp] theorem get_put : (s.put v).get k = if k = key v then some v else s.get k := by
  split_ifs with hk
  · subst hk
    exact get_eq_some_iff.2 ⟨(mem_insertItem s.sorted).2 (Or.inl rfl), rfl⟩
  · apply Option.ext
    intro w
    rw [get_eq_some_iff, get_eq_some_iff, put, mem_insertItem s.sorted]
    constructor
    · rintro ⟨rfl | ⟨hw, -⟩, hwk⟩
      · exact absurd hwk.symm hk
      · exact ⟨hw, hwk⟩
    · rintro ⟨hw, rfl⟩
      exact ⟨Or.inr ⟨hw, hk⟩, rfl⟩

@[simp] theorem get_deleteWhere :
    (s.deleteWhere q).get k = if q k then none else s.get k := by
  split_ifs with hk
  · refine get_eq_none_iff.2 ?_
    intro v hv hvk
    have hq := (List.mem_filter.1 hv).2
    simp [hvk, hk] at hq
  · apply Option.ext
    intro w
    rw [get_eq_some_iff, get_eq_some_iff, deleteWhere, List.mem_filter]
    constructor
    · rintro ⟨⟨hw, -⟩, hwk⟩
      exact ⟨hw, hwk⟩
    · rintro ⟨hw, rfl⟩
      exact ⟨⟨hw, by simpa using hk⟩, rfl⟩

@[simp] theorem get_delete {k' : κ} :
    (s.delete k').get k = if k = k' then none else s.get k := by
  simp [delete]

@[simp] theorem get_deleteRange {r : KeyRange κ} :
    (s.deleteRange r).get k = if r.contains k then none else s.get k := by
  simp [deleteRange]

/-! ## Ranges -/

/-- A cursor over a range finds the record of a key of that range. -/
theorem mem_cursor {r : KeyRange κ} :
    v ∈ s.cursor r ↔ s.get (key v) = some v ∧ r.contains (key v) := by
  rw [cursor, List.mem_filter, get_eq_some_iff, and_iff_left rfl]

end OrderedStore

end OpendalIndexeddb
