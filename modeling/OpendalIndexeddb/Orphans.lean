import OpendalIndexeddb.Bisimulation
import OpendalIndexeddb.Model.Reference
/-!
# Orphan sidecars count for nothing

A sidecar whose record is gone stays in the meta store when only the
data store was touched. Two states that differ in such sidecars alone
answer every operation alike and stay so: the views of their paths are
the same, and an operation acts on views.
-/

namespace OpendalIndexeddb

open IndexeddbCore

variable {O : Opendal} {P : Platform} {s t s' t' : Stores}

/-- The same records, with the same sidecars where there is a record. -/
structure SameData (s t : Stores) : Prop where
  store : s.store = t.store
  metaStore : ∀ key, s.store.contains key = true → s.metaStore.get key = t.metaStore.get key

namespace SameData

theorem view (h : SameData s t) (path : Str) : s.view path = t.view path := by
  rw [Stores.view, Stores.view, ← h.store]
  cases hv : s.store.get (.text path) with
  | none => rfl
  | some v =>
    have hmeta := h.metaStore (.text path) (by simp [OrderedStore.contains, hv])
    simp only [Option.map_some, readMeta, hmeta]

/-! ## What changes both states alike -/

theorem putEntry (h : SameData s t) {v : DataRecord} {r : MetaRecord} (hk : v.k = .text r.k) :
    SameData (s.putEntry v r) (t.putEntry v r) where
  store := congrArg (·.put v) h.store
  metaStore key hkey := by
    by_cases heq : key = .text r.k
    · simp [Stores.putEntry, MetaValue.k, heq]
    · -- under any other key there was a record before
      have hkey' : s.store.contains key = true := by
        simpa [Stores.putEntry, OrderedStore.contains, hk, heq] using hkey
      simpa [Stores.putEntry, MetaValue.k, heq] using h.metaStore key hkey'

theorem erased (h : SameData s t) {q : Key → Prop} (hs : Erased q s s') (ht : Erased q t t') :
    SameData s' t' where
  store := by
    refine OrderedStore.ext_get ?_
    intro key
    by_cases hq : q key
    · rw [((hs key).1 hq).1, ((ht key).1 hq).1]
    · rw [((hs key).2 hq).1, ((ht key).2 hq).1, h.store]
  metaStore key hkey := by
    by_cases hq : q key
    · rw [((hs key).1 hq).2, ((ht key).1 hq).2]
    · rw [((hs key).2 hq).2, ((ht key).2 hq).2]
      rw [OrderedStore.contains, ((hs key).2 hq).1] at hkey
      exact h.metaStore key hkey

/-! ## The operations -/

theorem stat_eq (h : SameData s t) (path : Str) : stat P path s = stat P path t := by
  rw [stat_eq_view, stat_eq_view, h.view]

theorem read_eq (h : SameData s t) (path : Str) (args : ReadArgs) :
    read P path args s = read P path args t := by
  rw [read_eq_view, read_eq_view, h.view]

/-- A scan finds the same keys, and each has a record. -/
theorem scanPage_eq (h : SameData s t) (req : ScanPageRequest) :
    scanPage P req s = scanPage P req t := by
  rw [scanPage_eq_view, scanPage_eq_view, h.store, pageOf_eq_of_view h.view]

/-- **Every write acts on views**, and writes the same to both. -/
theorem bisimulation (P : Platform) : Bisimulation P SameData where
  set now path value args s t h := by
    rw [set_eq_view, set_eq_view, h.view]
    cases setPlan P path value args (t.view path) with
    | error err => exact ⟨rfl, h⟩
    | ok written => exact ⟨rfl, h.putEntry rfl⟩
  copy now src dst ifNotExists ifMatch s t h := by
    by_cases hsame : src = dst
    · rw [copy, copy, if_pos hsame, if_pos hsame]
      exact ⟨rfl, h⟩
    · rw [copy_eq_view hsame, copy_eq_view hsame, h.view, h.view]
      cases copyPlan P src dst ifNotExists ifMatch (t.view src) (t.view dst) with
      | error err => exact ⟨rfl, h⟩
      | ok copied => exact ⟨rfl, h.putEntry rfl⟩
  rename src dst s t h := by
    by_cases hsame : src = dst
    · rw [rename, rename, if_pos hsame, if_pos hsame]
      exact ⟨rfl, h⟩
    · rw [rename_eq_view hsame, rename_eq_view hsame, h.view]
      cases renamePlan src (t.view src) with
      | error err => exact ⟨rfl, h⟩
      | ok moved =>
        -- the record is under both keys before the source is deleted
        have hput : SameData (s.carried P moved.1 dst moved.2 (moved.1.2.bind (·.m)))
            (t.carried P moved.1 dst moved.2 (moved.1.2.bind (·.m))) := h.putEntry rfl
        exact ⟨rfl, hput.erased (erased_deleteKey _ src) (erased_deleteKey _ src)⟩
  erased h hs ht := h.erased hs ht

theorem step_related (h : SameData s t) (op : Op) :
    (op.step O P s).1 = (op.step O P t).1 ∧ SameData (op.step O P s).2 (op.step O P t).2 := by
  cases op with
  | mutate m => exact (bisimulation P).mutation O m s t h
  | stat root path args =>
    refine ⟨congrArg Outcome.metadata ?_, h⟩
    simp only [IndexeddbBackend.stat, h.stat_eq]
  | read root path args =>
    refine ⟨congrArg Outcome.content ?_, h⟩
    simp only [IndexeddbBackend.read, h.read_eq]
  | scanPage root req =>
    simp only [Op.step, h.scanPage_eq]
    cases scanPage P req t <;> exact ⟨rfl, h⟩

/-- A whole run cannot tell the two apart. -/
theorem run_related (h : SameData s t) (ops : List Op) :
    (run (Op.step O P) s ops).1 = (run (Op.step O P) t ops).1 ∧
      SameData (run (Op.step O P) s ops).2 (run (Op.step O P) t ops).2 :=
  run_eq_of_bisim (fun op _ _ h => h.step_related op) h ops

end SameData

/-- **Orphan sidecars influence nothing.** States that differ in them
alone give the same results, whatever is called, and go on to differ in
them alone. -/
theorem orphans_ignored (O : Opendal) (P : Platform) (h : SameData s t) :
    (∀ path, stat P path s = stat P path t) ∧
    (∀ path args, read P path args s = read P path args t) ∧
    (∀ req, scanPage P req s = scanPage P req t) ∧
    (∀ now path value args, (IndexeddbCore.set P now path value args s).1 =
      (IndexeddbCore.set P now path value args t).1) ∧
    ∀ op : Op, (op.step O P s).1 = (op.step O P t).1 ∧
      SameData (op.step O P s).2 (op.step O P t).2 :=
  ⟨h.stat_eq, h.read_eq, h.scanPage_eq,
    fun now path value args => ((SameData.bisimulation P).set now path value args s t h).1,
    h.step_related⟩

/-- Nothing but a sidecar with an ETag, left under `b`. -/
def orphanStores : Stores :=
  ⟨.empty, OrderedStore.empty.put (.sidecar ⟨['b'], .ofNat 3, none, some ['x'], none, none⟩)⟩

/-- An `if_match` on the orphan's ETag fails as it does on empty stores. -/
theorem orphans_ignored_if_match :
    let op := Op.mutate (.set (.ofNat 0) ['b'] [] ⟨false, false, some ['x'], none, none⟩)
    (op.step referenceOpendal referencePlatform orphanStores).1 =
        (op.step referenceOpendal referencePlatform .empty).1 ∧
      SameData (op.step referenceOpendal referencePlatform orphanStores).2
        (op.step referenceOpendal referencePlatform .empty).2 :=
  (orphans_ignored (s := orphanStores) (t := .empty) referenceOpendal referencePlatform
    ⟨rfl, fun _ h => absurd h Bool.false_ne_true⟩).2.2.2.2 _

end OpendalIndexeddb
