import OpendalIndexeddb.Common.Run
import OpendalIndexeddb.View
/-!
# Where an operation looks and what it touches

An operation looks at some keys and touches no others: from stores that
agree on those keys it answers alike and leaves stores that agree on them,
and under every other key it leaves what was there.
-/

namespace OpendalIndexeddb

open IndexeddbCore

variable {O : Opendal} {P : Platform} {s t s' t' u : Stores} {q r : Key → Prop} {k : Str}

/-- Two states of the stores are the same under the keys of a set. -/
def AgreeOn (q : Key → Prop) (s t : Stores) : Prop :=
  ∀ key, q key → s.store.get key = t.store.get key ∧ s.metaStore.get key = t.metaStore.get key

namespace AgreeOn

theorem refl (q : Key → Prop) (s : Stores) : AgreeOn q s s := fun _ _ => ⟨rfl, rfl⟩

theorem trans (h : AgreeOn q s t) (h' : AgreeOn q t u) : AgreeOn q s u := by
  intro key hkey
  obtain ⟨hd, hm⟩ := h key hkey
  obtain ⟨hd', hm'⟩ := h' key hkey
  exact ⟨hd.trans hd', hm.trans hm'⟩

theorem mono (h : AgreeOn q s t) (hrq : ∀ key, r key → q key) : AgreeOn r s t :=
  fun key hkey => h key (hrq key hkey)

/-- A path is seen the same. -/
theorem view (h : AgreeOn q s t) (hk : q (.text k)) : s.view k = t.view k := by
  obtain ⟨hd, hm⟩ := h _ hk
  rw [Stores.view, Stores.view, readMeta, readMeta, hd, hm]

theorem putEntry (h : AgreeOn q s t) (v : DataRecord) (m : MetaRecord) :
    AgreeOn q (s.putEntry v m) (t.putEntry v m) := by
  intro key hkey
  obtain ⟨hd, hm⟩ := h key hkey
  simp [Stores.putEntry, hd, hm]

/-- A record put elsewhere does not show. -/
theorem of_putEntry {v : DataRecord} {m : MetaRecord} (hv : v.k = .text m.k)
    (hk : ¬ q (.text m.k)) : AgreeOn q (s.putEntry v m) s := by
  intro key hkey
  refine get_putEntry_of_ne hv ?_
  rintro rfl
  exact hk hkey

/-- Stores that lose the same keys go on to agree. -/
theorem erased (h : AgreeOn q s t) (hs : Erased r s s') (ht : Erased r t t') :
    AgreeOn q s' t' := by
  intro key hkey
  obtain ⟨hd, hm⟩ := h key hkey
  by_cases hr : r key
  · obtain ⟨hd', hm'⟩ := (hs key).1 hr
    obtain ⟨hd'', hm''⟩ := (ht key).1 hr
    rw [hd', hm', hd'', hm'']
    exact ⟨rfl, rfl⟩
  · obtain ⟨hd', hm'⟩ := (hs key).2 hr
    obtain ⟨hd'', hm''⟩ := (ht key).2 hr
    rw [hd', hm', hd'', hm'']
    exact ⟨hd, hm⟩

/-- Keys lost elsewhere do not show. -/
theorem of_erased (h : Erased r s s') (hrq : ∀ key, q key → ¬ r key) : AgreeOn q s' s :=
  fun key hkey => (h key).2 (hrq key hkey)

end AgreeOn

/-! ## Local operations -/

/-- **An operation that is local to a set of keys**: it looks at them
alone, and touches no other. -/
structure Local {ο : Type} (q : Key → Prop) (f : Stores → ο × Stores) : Prop where
  alike : Alike (AgreeOn q) f f
  frame : ∀ s, AgreeOn (fun key => ¬ q key) (f s).2 s

/-- What is made of the answer is local as well. -/
theorem Local.map {ο ο' : Type} {f : Stores → ο × Stores} (h : Local q f) (g : ο → ο') :
    Local q fun s => (g (f s).1, (f s).2) :=
  ⟨h.alike.map g, h.frame⟩

/-- An answer that does not depend on the stores. -/
theorem local_const {ο : Type} {o : ο} {f : Stores → ο × Stores} (h : ∀ s, f s = (o, s)) :
    Local q f := by
  constructor
  · intro s t hst
    rw [h, h]
    exact ⟨rfl, hst⟩
  · intro s
    rw [h]
    exact .refl _ s

/-- A removal is local to what it removes. -/
theorem local_erased {f : Stores → Stores} (hf : ∀ s, Erased r s (f s))
    (hrq : ∀ key, r key → q key) : Local q fun s => ((Outcome.unit (.ok ()) : Outcome), f s) :=
  ⟨fun s t hst => ⟨rfl, hst.erased (hf s) (hf t)⟩,
    fun s => .of_erased (hf s) fun key hkey hr => hkey (hrq key hr)⟩

theorem local_set (P : Platform) (now : Number) (value : Bytes) (args : WriteArgs)
    (hk : q (.text k)) : Local q (IndexeddbCore.set P now k value args) where
  alike s t hst := by
    rw [set_eq_view, set_eq_view, hst.view hk]
    cases setPlan P k value args (t.view k) with
    | error err => exact ⟨rfl, hst⟩
    | ok written => exact ⟨rfl, hst.putEntry _ _⟩
  frame s := by
    rw [set_eq_view]
    cases setPlan P k value args (s.view k) with
    | error err => exact .refl _ s
    | ok written => exact .of_putEntry rfl fun hn => hn hk

theorem local_copy (P : Platform) (now : Number) {src dst : Str} (ifNotExists : Bool)
    (ifMatch : Option Str) (hsrc : q (.text src)) (hdst : q (.text dst)) :
    Local q (IndexeddbCore.copy P now src dst ifNotExists ifMatch) := by
  by_cases h : src = dst
  · exact local_const fun s => if_pos h
  · constructor
    · intro s t hst
      rw [copy_eq_view h, copy_eq_view h, hst.view hsrc, hst.view hdst]
      cases copyPlan P src dst ifNotExists ifMatch (t.view src) (t.view dst) with
      | error err => exact ⟨rfl, hst⟩
      | ok copied => exact ⟨rfl, hst.putEntry _ _⟩
    · intro s
      rw [copy_eq_view h]
      cases copyPlan P src dst ifNotExists ifMatch (s.view src) (s.view dst) with
      | error err => exact .refl _ s
      | ok copied => exact .of_putEntry rfl fun hn => hn hdst

theorem local_rename (P : Platform) {src dst : Str} (hsrc : q (.text src))
    (hdst : q (.text dst)) : Local q (IndexeddbCore.rename P src dst) := by
  by_cases h : src = dst
  · exact local_const fun s => if_pos h
  · constructor
    · intro s t hst
      rw [rename_eq_view h, rename_eq_view h, hst.view hsrc]
      cases renamePlan src (t.view src) with
      | error err => exact ⟨rfl, hst⟩
      | ok moved =>
        exact ⟨rfl, (hst.putEntry _ _).erased (erased_deleteKey _ src) (erased_deleteKey _ src)⟩
    · intro s
      rw [rename_eq_view h]
      cases renamePlan src (s.view src) with
      | error err => exact .refl _ s
      | ok moved =>
        refine .trans (.of_erased (erased_deleteKey _ src) ?_) (.of_putEntry rfl fun hn => hn hdst)
        rintro key hkey rfl
        exact hkey hsrc

/-! ## Mutations -/

/-- An operation writes and removes within a set of keys. -/
def Mutation.Within (O : Opendal) (q : Key → Prop) : Mutation → Prop
  | .set _ path _ _ => q (.text path)
  | .createDir _ root path => q (.text (O.buildAbsPath root.text path))
  | .copy _ src dst _ _ => q (.text src) ∧ q (.text dst)
  | .rename src dst => q (.text src) ∧ q (.text dst)
  | .delete path => ∀ key, Removed [(path, false)] key → q key
  | .deleteRecursive path => ∀ key, Removed [(path, true)] key → q key
  | .deleteMany batch => ∀ key, Removed batch key → q key

/-- **An operation is local to any set it stays within.** -/
theorem Mutation.Within.isLocal (P : Platform) {m : Mutation} (h : m.Within O q) :
    Local q fun s => m.step O P s := by
  cases m with
  | set now path value args =>
    exact (local_set P now value args h).map fun r =>
      Outcome.metadata (r.map (entryMetadata P path))
  | createDir now root path =>
    by_cases hroot : O.buildAbsPath root.text path = O.buildAbsPath root.text []
    · refine @local_const q _ (.unit (.ok ())) _ fun s => ?_
      simp [Mutation.step, IndexeddbBackend.createDir, hroot]
    · have hset := (local_set P now [] .overwrite h).map fun r => Outcome.unit (r.map fun _ => ())
      simpa [Mutation.step, IndexeddbBackend.createDir, hroot] using hset
  | copy now src dst ifNotExists ifMatch =>
    exact (local_copy P now ifNotExists ifMatch h.1 h.2).map Outcome.metadata
  | rename src dst => exact (local_rename P h.1 h.2).map Outcome.unit
  | delete path => exact local_erased (erased_deleteMany [(path, false)]) h
  | deleteRecursive path => exact local_erased (erased_deleteMany [(path, true)]) h
  | deleteMany batch => exact local_erased (erased_deleteMany batch) h

end OpendalIndexeddb
