import OpendalIndexeddb.Refinement
/-!
# Records and sidecars stay together

Starting from empty stores, whatever is called and whether it succeeds:
there is a sidecar under a key exactly where there is a record, with the
length and the ETag of its bytes. The stores represent a map of objects
after every run, and the form of a map has this by construction.
-/

namespace OpendalIndexeddb

variable {O : Opendal} {P : Platform} {s : Stores} {m : Objects}

/-- A sidecar for every record and no others, each with the length and the
ETag of the record's bytes. Both are stored under the same string. -/
structure Coherent (P : Platform) (s : Stores) : Prop where
  keys : ∀ key, s.store.contains key = s.metaStore.contains key
  record : ∀ key v, s.store.get key = some v → ∃ k bytes r,
    key = .text k ∧ v = ⟨.text k, .uint8Array bytes⟩ ∧
      s.metaStore.get key = some (.sidecar r) ∧ r.k = k ∧
      r.l = Number.ofNat bytes.length ∧ r.e = some (etagFromBytes P bytes)

/-- The form of a map of objects is coherent. -/
theorem Represents.coherent (h : Represents P s m) : Coherent P s where
  keys key := by
    rw [OrderedStore.contains, OrderedStore.contains, h.store, h.metaStore]
    cases key with
    | text k => cases hk : m.get k <;> simp [hk]
    | below | above => rfl
  record key v hv := by
    rw [h.store] at hv
    obtain ⟨k, hkey, hv⟩ := Option.bind_eq_some_iff.1 hv
    obtain ⟨o, hk, rfl⟩ := Option.map_eq_some_iff.1 hv
    rw [Key.asString_eq_some_iff.1 hkey]
    refine ⟨k, o.bytes, o.sidecar P k, rfl, rfl, ?_, rfl, rfl, rfl⟩
    rw [h.metaStore, Key.asString_text, Option.bind_some, hk, Option.map_some]

/-- **Coherence**: every run of operations from empty stores, failed ones
included, ends in coherent stores. -/
theorem coherent_of_run (O : Opendal) (P : Platform) (mutations : List Mutation) :
    Coherent P (run (Mutation.step O P) .empty mutations).2 := by
  have hrepresents : ∃ m, Represents P (run (Mutation.step O P) .empty mutations).2 m := by
    refine run_invariant (I := fun s => ∃ m, Represents P s m) ?_
      ⟨.empty, Represents.empty P⟩ mutations
    rintro s mutation ⟨m, h⟩
    exact ⟨_, h.step (O := O) (.mutate mutation)⟩
  obtain ⟨m, h⟩ := hrepresents
  exact h.coherent

end OpendalIndexeddb
