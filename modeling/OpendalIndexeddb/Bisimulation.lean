import OpendalIndexeddb.Common.Run
import OpendalIndexeddb.View
/-!
# Relations that every write keeps

To compare what the operations make of two states it is enough to look at
the four transactions: `create_dir` is a write, and the deletions are
batches. A relation that the transactions keep, with the same answers, is
kept by every mutation.
-/

namespace OpendalIndexeddb

open IndexeddbCore

variable {P : Platform} {R : Stores → Stores → Prop} {s t s' t' : Stores}

/-- A relation that the transactions keep, answering alike. -/
structure Bisimulation (P : Platform) (R : Stores → Stores → Prop) : Prop where
  set : ∀ now path value args,
    Alike R (IndexeddbCore.set P now path value args) (IndexeddbCore.set P now path value args)
  copy : ∀ now src dst ifNotExists ifMatch,
    Alike R (copy P now src dst ifNotExists ifMatch) (copy P now src dst ifNotExists ifMatch)
  rename : ∀ src dst, Alike R (rename P src dst) (rename P src dst)
  erased : ∀ {q : Key → Prop} {s t s' t' : Stores},
    R s t → Erased q s s' → Erased q t t' → R s' t'

namespace Bisimulation

theorem deleteMany (h : Bisimulation P R) (batch : List (Str × Bool)) (hR : R s t) :
    R (deleteMany batch s) (deleteMany batch t) :=
  h.erased hR (erased_deleteMany batch s) (erased_deleteMany batch t)

/-- **Every mutation keeps the relation and answers alike.** -/
theorem mutation (h : Bisimulation P R) (O : Opendal) (m : Mutation) :
    Alike R (fun s => m.step O P s) fun t => m.step O P t := by
  cases m with
  | set now path value args =>
    exact (h.set now path value args).map fun outcome =>
      Outcome.metadata (outcome.map (entryMetadata P path))
  | createDir now root path =>
    simp only [Mutation.step, IndexeddbBackend.createDir]
    split_ifs
    · exact (h.set now (O.buildAbsPath root.text path) [] .overwrite).map fun outcome =>
        Outcome.unit (outcome.map fun _ => ())
    · exact fun s t hst => ⟨rfl, hst⟩
  | copy now src dst ifNotExists ifMatch =>
    exact (h.copy now src dst ifNotExists ifMatch).map Outcome.metadata
  | rename src dst => exact (h.rename src dst).map Outcome.unit
  | delete path => exact fun s t hst => ⟨rfl, h.deleteMany [(path, false)] hst⟩
  | deleteRecursive path => exact fun s t hst => ⟨rfl, h.deleteMany [(path, true)] hst⟩
  | deleteMany batch => exact fun s t hst => ⟨rfl, h.deleteMany batch hst⟩

end Bisimulation

end OpendalIndexeddb
