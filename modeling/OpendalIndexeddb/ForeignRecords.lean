import OpendalIndexeddb.Common.Noninterference
import OpendalIndexeddb.Conflicts
/-!
# Records of other programs

Other programs may keep records in the two stores, under keys that are no
strings. Operations do not see them, and what happens to them is up to
those programs, but for a recursive deletion of everything.
-/

namespace OpendalIndexeddb

open IndexeddbCore

variable {O : Opendal} {P : Platform} {s t : Stores} {q : Key → Prop}

/-! ## The two kinds of keys -/

def IsText (key : Key) : Prop := ∃ k, key = .text k

def IsForeign (key : Key) : Prop := ¬ IsText key

theorem isText_text (k : Str) : IsText (.text k) := ⟨k, rfl⟩

/-- A change that another program makes to its records. -/
structure ForeignChange where
  apply : Stores → Stores
  keeps : ∀ s, AgreeOn IsText (apply s) s
  apart : ∀ s t, AgreeOn IsForeign s t → AgreeOn IsForeign (apply s) (apply t)

/-- Another program puts a record into the data store. -/
def ForeignChange.put (v : ForeignRecord) : ForeignChange where
  apply s := { s with store := s.store.put v.1 }
  keeps s := by
    rintro key ⟨k, rfl⟩
    have hne : Key.text k ≠ v.1.k := fun h => by simpa [← h] using v.2
    simp [OrderedStore.get_put, hne]
  apart s t h key hkey := by
    obtain ⟨hdata, hmeta⟩ := h key hkey
    simp [OrderedStore.get_put, hdata, hmeta]

/-- An operation, or a change another program makes besides. -/
def serveBeside (O : Opendal) (P : Platform) (s : Stores) :
    Op ⊕ ForeignChange → Option Outcome × Stores
  | .inl op =>
    let (outcome, s) := op.step O P s
    (some outcome, s)
  | .inr change => (none, change.apply s)

/-! ## Operations do not see foreign records -/

/-- Deletions of the same keys leave what agreed in agreement. -/
theorem alike_deleteMany (q : Key → Prop) (batch : List (Str × Bool)) :
    Alike (AgreeOn q) (fun s => (Outcome.unit (.ok ()), deleteMany batch s))
      fun s => (Outcome.unit (.ok ()), deleteMany batch s) := fun s t h =>
  ⟨rfl, h.erased (erased_deleteMany batch s) (erased_deleteMany batch t)⟩

theorem alike_mutation (O : Opendal) (P : Platform) (m : Mutation) :
    Alike (AgreeOn IsText) (fun s => m.step O P s) fun s => m.step O P s := by
  cases m with
  | delete path => exact alike_deleteMany IsText [(path, false)]
  | deleteRecursive path => exact alike_deleteMany IsText [(path, true)]
  | deleteMany batch => exact alike_deleteMany IsText batch
  | set now path value args =>
    have hwithin : Mutation.Within O IsText (.set now path value args) := isText_text _
    exact (hwithin.isLocal P).alike
  | createDir now root path =>
    have hwithin : Mutation.Within O IsText (.createDir now root path) := isText_text _
    exact (hwithin.isLocal P).alike
  | copy now src dst ifNotExists ifMatch =>
    have hwithin : Mutation.Within O IsText (.copy now src dst ifNotExists ifMatch) :=
      ⟨isText_text _, isText_text _⟩
    exact (hwithin.isLocal P).alike
  | rename src dst =>
    have hwithin : Mutation.Within O IsText (.rename src dst) := ⟨isText_text _, isText_text _⟩
    exact (hwithin.isLocal P).alike

/-- **Every operation answers from the records under strings.** -/
theorem alike_op (O : Opendal) (P : Platform) (op : Op) :
    Alike (AgreeOn IsText) (fun s => op.step O P s) fun s => op.step O P s := by
  cases op with
  | mutate m => exact alike_mutation O P m
  | stat root path args =>
    intro s t h
    simp only [Op.step, IndexeddbBackend.stat, stat_eq_view, h.view (isText_text _)]
    exact ⟨trivial, h⟩
  | read root path args =>
    intro s t h
    simp only [Op.step, IndexeddbBackend.read, read_eq_view, h.view (isText_text _)]
    exact ⟨trivial, h⟩
  | scanPage root req =>
    intro s t h
    have hpage : IndexeddbCore.scanPage P req s = IndexeddbCore.scanPage P req t :=
      scanPage_eq_of_view (fun k => h.view (isText_text k)) req
    simp only [Op.step, hpage]
    cases IndexeddbCore.scanPage P req t <;> exact ⟨rfl, h⟩

/-! ## What operations do to foreign records -/

/-- The operations that delete everything. -/
def Op.clears : Op → Bool
  | .mutate (.deleteRecursive path) => path = []
  | .mutate (.deleteMany batch) => ([], true) ∈ batch
  | _ => false

/-- Only a recursive deletion of the root removes a foreign key. -/
theorem isText_of_removed {batch : List (Str × Bool)} (hroot : ([], true) ∉ batch) {key : Key}
    (h : Removed batch key) : IsText key := by
  obtain ⟨⟨path, isRecursive⟩, hmem, hremoved⟩ := h
  rcases isRecursive with _ | _
  · exact ⟨path, hremoved⟩
  · rcases hremoved with ⟨k, -, rfl⟩ | hnil | ⟨k, rfl, -⟩
    · exact isText_text k
    · have hpath : path = [] := by
        simp only [recursiveDeleteTarget] at hnil
        split_ifs at hnil with h1 h2
        · exact h1
        · exact hnil
        · simp at hnil
      exact absurd (hpath ▸ hmem) hroot
    · exact isText_text k

/-- **What an operation writes is under strings**, unless it deletes
everything. -/
theorem isText_of_writes {op : Op} (h : op.clears = false) {key : Key}
    (hkey : op.Writes O key) : IsText key := by
  cases op with
  | mutate m =>
    cases m with
    | set now path value args => exact ⟨_, hkey⟩
    | createDir now root path => exact ⟨_, hkey⟩
    | copy now src dst ifNotExists ifMatch => exact ⟨_, hkey⟩
    | rename src dst => exact hkey.elim (fun h => ⟨_, h⟩) fun h => ⟨_, h⟩
    | delete path => exact isText_of_removed (by simp) hkey
    | deleteRecursive path =>
      have hpath : path ≠ [] := of_decide_eq_false h
      exact isText_of_removed (by simpa using hpath) hkey
    | deleteMany batch => exact isText_of_removed (of_decide_eq_false h) hkey
  | stat root path args => exact hkey.elim
  | read root path args => exact hkey.elim
  | scanPage root req => exact hkey.elim

theorem agree_foreign_op {op : Op} (h : op.clears = false) (s : Stores) :
    AgreeOn IsForeign (op.step O P s).2 s :=
  (sameAt_cell_iff.1 ((op.footprint O P).frame s)).mono
    fun _ hkey hwrites => hkey (isText_of_writes h hwrites)

/-- An operation that deletes everything does so from any stores. -/
theorem alike_foreign_op {op : Op} (h : op.clears = true) :
    Alike (AgreeOn IsForeign) (fun s => op.step O P s) fun s => op.step O P s := by
  cases op with
  | mutate m =>
    cases m with
    | deleteRecursive path => exact alike_deleteMany IsForeign [(path, true)]
    | deleteMany batch => exact alike_deleteMany IsForeign batch
    | _ => cases h
  | _ => cases h

/-! ## Runs -/

/-- What matters to foreign records. -/
def mattersToForeign : Op ⊕ ForeignChange → Bool
  | .inl op => op.clears
  | .inr _ => true

theorem unwinding_text (O : Opendal) (P : Platform) :
    Unwinding (serveBeside O P) Sum.isLeft (AgreeOn IsText) where
  own i hi s t hst := by
    cases i with
    | inl op =>
      obtain ⟨hout, hagree⟩ := alike_op O P op s t hst
      exact ⟨congrArg some hout, hagree⟩
    | inr change => cases hi
  other i hi s t hst := by
    cases i with
    | inl op => cases hi
    | inr change => exact (change.keeps s).trans hst

theorem unwinding_foreign (O : Opendal) (P : Platform) :
    Unwinding (serveBeside O P) mattersToForeign (AgreeOn IsForeign) where
  own i hi s t hst := by
    cases i with
    | inl op =>
      obtain ⟨hout, hagree⟩ := @alike_foreign_op O P op hi s t hst
      exact ⟨congrArg some hout, hagree⟩
    | inr change => exact ⟨rfl, change.apart s t hst⟩
  other i hi s t hst := by
    cases i with
    | inl op => exact (agree_foreign_op hi s).trans hst
    | inr change => cases hi

/-- **Foreign records and objects do not meet.** Operations on the stores
and changes that other programs make to records of their own, under keys
that are no strings, in any order: the operations return what they return
without those changes, and leave the same under strings, from any stores
with the same there. The foreign records are what those programs make of
them, from any stores with the same of them, where the operations that
delete everything are the only ones that matter. -/
theorem foreign_records_apart (O : Opendal) (P : Platform) (s : Stores)
    (is : List (Op ⊕ ForeignChange)) :
    (∀ t, AgreeOn IsText s t →
      outputsOf Sum.isLeft is (run (serveBeside O P) s is).1 =
        (run (serveBeside O P) t (is.filter Sum.isLeft)).1 ∧
      AgreeOn IsText (run (serveBeside O P) s is).2
        (run (serveBeside O P) t (is.filter Sum.isLeft)).2) ∧
    ∀ t, AgreeOn IsForeign s t →
      AgreeOn IsForeign (run (serveBeside O P) s is).2
        (run (serveBeside O P) t (is.filter mattersToForeign)).2 :=
  ⟨fun _ ht => (unwinding_text O P).run_filter ht is,
    fun _ ht => ((unwinding_foreign O P).run_filter ht is).2⟩

end OpendalIndexeddb
