import OpendalIndexeddb.Common.Run
import OpendalIndexeddb.RangedRead
/-!
# The stores refine the map of objects

Every state a run reaches from empty stores is the two-store form of a
map of objects: one record and one sidecar for each, made of the object
alone. The operations act on it as the abstract ones do on the map, and
what is read back is what the map says.
-/

namespace OpendalIndexeddb

open IndexeddbCore

variable {O : Opendal} {P : Platform} {s s' : Stores} {m : Objects} {o : Object}
variable {k path src dst : Str} {now : Number}

/-! ## The two-store form -/

/-- The record of an object. -/
def Object.record (k : Str) (o : Object) : DataRecord := KeyAndValue.toValue ⟨k, o.bytes⟩

/-- The content metadata of an object. -/
def Object.content (P : Platform) (o : Object) : MetaContent :=
  ⟨some (o.etag P), o.contentType, o.userMetadata⟩

/-- The sidecar of an object. -/
def Object.sidecar (P : Platform) (k : Str) (o : Object) : MetaRecord :=
  .new k (Number.ofNat o.bytes.length) (some o.mtime) (some (o.content P))

/-- The stores hold the record and the sidecar of each object, under its
path, and nothing else. -/
structure Represents (P : Platform) (s : Stores) (m : Objects) : Prop where
  store : ∀ key, s.store.get key = key.asString.bind fun k => (m.get k).map (Object.record k)
  metaStore : ∀ key, s.metaStore.get key =
    key.asString.bind fun k => (m.get k).map fun o => .sidecar (o.sidecar P k)

/-! ### One value for each object -/

section Forms

variable {α : Type} (f : Str → Object → α)

/-- A new object adds or replaces one value. -/
theorem form_set (m : Objects) (k : Str) (o : Object) (key : Key) :
    (key.asString.bind fun l => ((m.set k o).get l).map (f l)) =
      if key = .text k then some (f k o) else key.asString.bind fun l => (m.get l).map (f l) := by
  cases key with
  | text l =>
    by_cases hl : l = k
    · simp [hl]
    · simp [hl, FiniteMap.get_set_of_ne hl]
  | below | above => rfl

/-- Objects that are removed take their values with them. -/
theorem form_removeWhere (m : Objects) {q : Key → Prop} [DecidablePred q] {r : Str → Prop}
    (hqr : ∀ k, q (.text k) ↔ r k) (key : Key) :
    (key.asString.bind fun l => ((m.removeWhere r).get l).map (f l)) =
      if q key then none else key.asString.bind fun l => (m.get l).map (f l) := by
  cases key with
  | text l =>
    by_cases hl : r l
    · simp [(hqr l).2 hl, FiniteMap.get_removeWhere_of hl]
    · simp [mt (hqr l).1 hl, FiniteMap.get_removeWhere_of_not hl]
  | below | above => simp [Key.asString]

end Forms

namespace Represents

theorem empty (P : Platform) : Represents P .empty .empty where
  store key := by cases key <;> rfl
  metaStore key := by cases key <;> rfl

/-- What is seen of a path is the form of its object. -/
theorem view (h : Represents P s m) (k : Str) :
    s.view k = (m.get k).map fun o => (o.record k, some (o.sidecar P k)) := by
  simp only [Stores.view, readMeta, h.store, h.metaStore, Key.asString_text, Option.bind_some]
  cases m.get k <;> rfl

theorem putEntry (h : Represents P s m) (k : Str) (o : Object) :
    Represents P (s.putEntry (o.record k) (o.sidecar P k)) (m.set k o) where
  store key := by
    rw [form_set]
    split_ifs with hk
    · subst hk
      exact (get_putEntry_self (r := o.sidecar P k) rfl).1
    · rw [(get_putEntry_of_ne (r := o.sidecar P k) rfl hk).1, h.store]
  metaStore key := by
    rw [form_set fun l o => MetaValue.sidecar (o.sidecar P l)]
    split_ifs with hk
    · subst hk
      exact (get_putEntry_self (v := o.record k) rfl).2
    · rw [(get_putEntry_of_ne (v := o.record k) (r := o.sidecar P k) rfl hk).2, h.metaStore]

theorem erased (h : Represents P s m) {q : Key → Prop} {r : Str → Prop} (hs : Erased q s s')
    (hqr : ∀ k, q (.text k) ↔ r k) : Represents P s' (m.removeWhere r) where
  store key := by
    classical
    rw [form_removeWhere Object.record m hqr]
    split_ifs with hq
    · exact ((hs key).1 hq).1
    · rw [((hs key).2 hq).1, h.store]
  metaStore key := by
    classical
    rw [form_removeWhere (fun l o => MetaValue.sidecar (o.sidecar P l)) m hqr]
    split_ifs with hq
    · exact ((hs key).1 hq).2
    · rw [((hs key).2 hq).2, h.metaStore]

end Represents

/-! ## What is read back -/

/-- The ETag an object is seen with is its own. -/
theorem viewEtag_object (k : Str) (o : Object) :
    viewEtag P (some (o.record k, some (o.sidecar P k))) = some (o.etag P) := rfl

theorem viewInfo_object (k : Str) (h : o.bytes.length < 2 ^ 64) :
    viewInfo P (o.record k, some (o.sidecar P k)) = o.info P := by
  have hsize : (Number.ofNat o.bytes.length).asU64 = o.bytes.length := Number.asU64_ofNat h
  simp [viewInfo, entryMetaWithEtagFallback, EntryMeta.ofRecord, MetaContent.ofRecord,
    Object.sidecar, Object.content, MetaRecord.new, Object.info, hsize]

/-! ## Writing -/

/-- The form of an object that may be there. -/
def Object.view (P : Platform) (k : Str) (old : Option Object) : View :=
  old.map fun o => (o.record k, some (o.sidecar P k))

theorem Object.view_some (P : Platform) (k : Str) (o : Object) :
    Object.view P k (some o) = some (o.record k, some (o.sidecar P k)) := rfl

/-- The rule of the conditions, over the form of an object. -/
theorem etagMatches_object (want : Str) (k : Str) (old : Option Object) :
    etagMatches want (Object.view P k old).isSome (viewEtag P (Object.view P k old)) = true ↔
      Object.Meets P want old := by
  cases old with
  | none => simp [etagMatches, Object.view, viewEtag, Object.Meets]
  | some o =>
    simp [etagMatches, Object.view, viewEtag_object, Object.Meets, eq_comm (a := o.etag P)]

theorem ifMatch_object (ifMatch : Option Str) (k : Str) (old : Option Object) :
    ifMatch.any (fun want => !etagMatches want (Object.view P k old).isSome
      (viewEtag P (Object.view P k old))) = true ↔ ¬ ∀ want ∈ ifMatch, Object.Meets P want old := by
  cases ifMatch with
  | none => simp
  | some want => simp [← etagMatches_object want k old]

theorem ifNoneMatch_object (ifNoneMatch : Option Str) (k : Str) (old : Option Object) :
    ifNoneMatch.any (fun want => etagMatches want (Object.view P k old).isSome
      (viewEtag P (Object.view P k old))) = true ↔
      ¬ ∀ want ∈ ifNoneMatch, ¬ Object.Meets P want old := by
  cases ifNoneMatch with
  | none => simp
  | some want => simp [← etagMatches_object want k old]

/-- The bytes and the content metadata a write stores are those of the
written object. -/
theorem written_object (now : Number) (path : Str) (value : Bytes) (args : WriteArgs)
    (old : Option Object) (h : args.Meets P old) :
    setPlan P path value args (Object.view P path old) =
      .ok ((writeObject now value args old).bytes, (writeObject now value args old).content P) := by
  have hexists : ¬ (args.ifNotExists && (Object.view P path old).isSome) = true := by
    intro hand
    rw [Bool.and_eq_true] at hand
    rw [h.ifNotExists hand.1] at hand
    exact absurd hand.2 (by simp [Object.view])
  simp only [setPlan]
  rw [if_neg hexists, if_neg (by rw [ifMatch_object]; exact not_not.2 h.ifMatch),
    if_neg (by rw [ifNoneMatch_object]; exact not_not.2 h.ifNoneMatch)]
  -- a request replaces each field it supplies
  have hmerge (content : MetaContent) (request : MetaContent) :
      content.merge request = ⟨content.etag, request.contentType.or content.contentType,
        request.userMetadata.or content.userMetadata⟩ := by
    obtain ⟨etag, contentType, userMetadata⟩ := request
    cases contentType <;> cases userMetadata <;> rfl
  cases happend : args.append <;> cases old <;> cases hcontent : args.content <;>
    simp [writeObject, happend, hcontent, Object.view, Object.content, Object.etag, hmerge,
      MetaContent.default, recordBytes, recordValueAsUint8Array, Object.record,
      KeyAndValue.toValue, MetaContent.ofRecord, Object.sidecar, MetaRecord.new]

/-- A write whose conditions fail is refused. -/
theorem refused_object (path : Str) (value : Bytes) (args : WriteArgs) (old : Option Object)
    (h : ¬ args.Meets P old) : ∃ err, setPlan P path value args (Object.view P path old) =
      .error err := by
  simp only [setPlan]
  -- the first condition that fails decides the error
  by_cases hexists : (args.ifNotExists && (Object.view P path old).isSome) = true
  · exact ⟨_, if_pos hexists⟩
  · rw [if_neg hexists]
    by_cases hmatch : ∀ want ∈ args.ifMatch, Object.Meets P want old
    · rw [if_neg (by rw [ifMatch_object]; exact not_not.2 hmatch)]
      refine ⟨_, if_pos ((ifNoneMatch_object _ _ _).2 fun hnone =>
        h ⟨fun hif => ?_, hmatch, hnone⟩)⟩
      cases old with
      | none => rfl
      | some o => exact absurd (by simp [hif, Object.view]) hexists
    · exact ⟨_, if_pos ((ifMatch_object _ _ _).2 hmatch)⟩

namespace Represents

theorem view_eq (h : Represents P s m) (k : Str) : s.view k = Object.view P k (m.get k) := h.view k

/-- **A write, on the form of the objects.** -/
theorem set (h : Represents P s m) (now : Number) (path : Str) (value : Bytes) (args : WriteArgs) :
    (args.Meets P (m.get path) →
      (∃ info, (IndexeddbCore.set P now path value args s).1 = .ok info) ∧
      Represents P (IndexeddbCore.set P now path value args s).2
        (m.set path (writeObject now value args (m.get path)))) ∧
    (¬ args.Meets P (m.get path) →
      (∃ err, (IndexeddbCore.set P now path value args s).1 = .error err) ∧
      (IndexeddbCore.set P now path value args s).2 = s) := by
  rw [set_eq_view, h.view_eq]
  constructor
  · intro hmeets
    rw [written_object now path value args _ hmeets]
    refine ⟨⟨_, rfl⟩, ?_⟩
    have hput := h.putEntry path (writeObject now value args (m.get path))
    rwa [Object.sidecar, mtime_writeObject] at hput
  · intro hmeets
    obtain ⟨err, herr⟩ := refused_object path value args (m.get path) hmeets
    rw [herr]
    exact ⟨⟨err, rfl⟩, rfl⟩

/-- **A copy, on the form of the objects.** -/
theorem copy (h : Represents P s m) (now : Number) (src dst : Str) (ifNotExists : Bool)
    (ifMatch : Option Str) :
    (∀ o, m.get src = some o → src ≠ dst → (ifNotExists = true → m.get dst = none) →
      (∀ want ∈ ifMatch, Object.Meets P want (m.get dst)) →
      (∃ md, (IndexeddbCore.copy P now src dst ifNotExists ifMatch s).1 = .ok md) ∧
      Represents P (IndexeddbCore.copy P now src dst ifNotExists ifMatch s).2
        (m.set dst { o with mtime := now })) ∧
    ((∀ o, m.get src = some o → src ≠ dst → (ifNotExists = true → m.get dst = none) →
      ¬ ∀ want ∈ ifMatch, Object.Meets P want (m.get dst)) →
      (∃ err, (IndexeddbCore.copy P now src dst ifNotExists ifMatch s).1 = .error err) ∧
      (IndexeddbCore.copy P now src dst ifNotExists ifMatch s).2 = s) := by
  constructor
  · intro o hsrc hne hexists hmatch
    have hexists' : ¬ (ifNotExists && (Object.view P dst (m.get dst)).isSome) = true := by
      intro hand
      rw [Bool.and_eq_true] at hand
      rw [hexists hand.1] at hand
      exact absurd hand.2 (by simp [Object.view])
    have hplan : copyPlan P src dst ifNotExists ifMatch (s.view src) (s.view dst) =
        .ok ((o.record src, some (o.sidecar P src)), Number.ofNat o.bytes.length) := by
      rw [h.view_eq, h.view_eq, hsrc, Object.view_some]
      simp only [copyPlan]
      rw [if_neg hexists', if_neg (by exact fun h => (ifMatch_object _ _ _).1 h hmatch)]
      rfl
    rw [copy_eq_view hne, hplan]
    exact ⟨⟨_, rfl⟩, h.putEntry dst { o with mtime := now }⟩
  · intro hrefused
    by_cases hsame : src = dst
    · rw [IndexeddbCore.copy, if_pos hsame]
      exact ⟨⟨_, rfl⟩, rfl⟩
    · rw [copy_eq_view hsame]
      suffices hplan : ∃ err, copyPlan P src dst ifNotExists ifMatch (s.view src) (s.view dst) =
          .error err by
        obtain ⟨err, herr⟩ := hplan
        rw [herr]
        exact ⟨⟨err, rfl⟩, rfl⟩
      rw [h.view_eq, h.view_eq]
      cases hsrc : m.get src with
      | none => exact ⟨_, rfl⟩
      | some o =>
        simp only [copyPlan, Object.view_some]
        by_cases hexists : (ifNotExists && (Object.view P dst (m.get dst)).isSome) = true
        · exact ⟨_, if_pos hexists⟩
        · refine ⟨_, (if_neg hexists).trans (if_pos ((ifMatch_object _ _ _).2 ?_))⟩
          refine hrefused o hsrc hsame ?_
          intro hif
          cases hdst : m.get dst with
          | none => rfl
          | some o' => exact absurd (by simp [hif, hdst, Object.view]) hexists

/-- **A move, on the form of the objects.** -/
theorem rename (h : Represents P s m) (src dst : Str) :
    (∀ o, m.get src = some o → src ≠ dst →
      (IndexeddbCore.rename P src dst s).1 = .ok () ∧
      Represents P (IndexeddbCore.rename P src dst s).2 ((m.set dst o).remove src)) ∧
    ((∀ o, m.get src = some o → src = dst) →
      (∃ err, (IndexeddbCore.rename P src dst s).1 = .error err) ∧
      (IndexeddbCore.rename P src dst s).2 = s) := by
  constructor
  · intro o hsrc hne
    rw [rename_eq_view hne, h.view_eq, hsrc]
    exact ⟨rfl, (h.putEntry dst o).erased (erased_deleteKey _ src) fun k => by simp⟩
  · intro hrefused
    by_cases hsame : src = dst
    · rw [IndexeddbCore.rename, if_pos hsame]
      exact ⟨⟨_, rfl⟩, rfl⟩
    · rw [rename_eq_view hsame, h.view_eq]
      cases hsrc : m.get src with
      | none => exact ⟨⟨_, rfl⟩, rfl⟩
      | some o => exact absurd (hrefused o hsrc) hsame

theorem removedBy_iff (path k : Str) : RemovedBy (path, true) (.text k) ↔ Below path k := by
  simp only [RemovedBy, if_true, Below, recursiveDeleteTarget]
  by_cases hnil : path = []
  · simp [hnil, underPrefix]
  · by_cases hslash : path.getLast? = some '/'
    · simp only [hnil, hslash, if_false, if_true, underPrefix, Option.not_mem_none, false_and,
        exists_false, false_or, Key.text.injEq, exists_eq_left']
      exact ⟨Or.inr, fun h => h.elim (fun h => h ▸ List.prefix_rfl) id⟩
    · simp [hnil, hslash, underPrefix]

theorem removed_iff (batch : List (Str × Bool)) (k : Str) :
    Removed batch (.text k) ↔ ∃ r ∈ batch, if r.2 then Below r.1 k else k = r.1 := by
  refine exists_congr fun r => and_congr_right fun _ => ?_
  obtain ⟨path, isRecursive⟩ := r
  cases isRecursive with
  | false => simp [RemovedBy]
  | true => simpa using removedBy_iff path k

/-- **A batch of deletes, on the form of the objects.** -/
theorem deleteMany (h : Represents P s m) (batch : List (Str × Bool)) :
    Represents P (IndexeddbCore.deleteMany batch s)
      (m.removeWhere fun k => ∃ r ∈ batch, if r.2 then Below r.1 k else k = r.1) :=
  h.erased (erased_deleteMany batch s) (removed_iff batch)

end Represents

/-! ## One step -/

/-- The operation was done. -/
def Outcome.Succeeds : Outcome → Prop
  | .metadata outcome => ∃ md, outcome = .ok md
  | .unit outcome => outcome = .ok ()
  | .content outcome => ∃ content, outcome = .ok content
  | .page .. => True
  | .stuck => False

theorem not_succeeds_metadata {outcome : Except Error Metadata} {err : Error}
    (h : outcome = .error err) : ¬ (Outcome.metadata outcome).Succeeds := by
  rintro ⟨md, hmd⟩
  rw [h] at hmd
  cases hmd

theorem not_succeeds_unit {outcome : Except Error Unit} {err : Error}
    (h : outcome = .error err) : ¬ (Outcome.unit outcome).Succeeds := by
  rw [h]
  intro hok
  cases hok

/-- What the step of the stores has to do where that of the objects leads
to `next`: the same, or nothing where it is refused. -/
def Follows (P : Platform) (s : Stores) (next : Option Objects) (result : Outcome × Stores) :
    Prop :=
  match next with
  | some m => result.1.Succeeds ∧ Represents P result.2 m
  | none => ¬ result.1.Succeeds ∧ result.2 = s

/-- **A step of the stores is a step of the objects**: it is done where
theirs is, and changes nothing where theirs is refused. -/
theorem Represents.mutation (h : Represents P s m) (mutation : Mutation) :
    Follows P s (mutation.objectStep O P m) (mutation.step O P s) := by
  cases mutation with
  | set now path value args =>
    obtain ⟨hdone, hrefused⟩ := h.set now path value args
    rw [Mutation.objectStep]
    by_cases hmeets : args.Meets P (m.get path)
    · obtain ⟨⟨info, hinfo⟩, hnext⟩ := hdone hmeets
      rw [if_pos hmeets]
      exact ⟨⟨entryMetadata P path info, congrArg (Except.map _) hinfo⟩, hnext⟩
    · obtain ⟨⟨err, herr⟩, hsame⟩ := hrefused hmeets
      rw [if_neg hmeets]
      exact ⟨not_succeeds_metadata (congrArg (Except.map _) herr), hsame⟩
  | createDir now root path =>
    rw [Mutation.objectStep, Mutation.step, IndexeddbBackend.createDir]
    by_cases hroot : O.buildAbsPath root.text path = O.buildAbsPath root.text []
    · rw [if_pos hroot, if_neg (not_not.2 hroot)]
      exact ⟨rfl, h⟩
    · rw [if_neg hroot, if_pos hroot]
      obtain ⟨⟨info, hinfo⟩, hnext⟩ := (h.set now (O.buildAbsPath root.text path) [] .overwrite).1
        ⟨by simp [WriteArgs.overwrite], by simp [WriteArgs.overwrite],
          by simp [WriteArgs.overwrite]⟩
      exact ⟨congrArg (Except.map fun _ => ()) hinfo, hnext⟩
  | copy now src dst ifNotExists ifMatch =>
    obtain ⟨hdone, hrefused⟩ := h.copy now src dst ifNotExists ifMatch
    simp only [Mutation.objectStep]
    cases hsrc : m.get src with
    | none =>
      obtain ⟨⟨err, herr⟩, hsame⟩ := hrefused fun o ho => by rw [hsrc] at ho; cases ho
      exact ⟨not_succeeds_metadata herr, hsame⟩
    | some o =>
      simp only
      split_ifs with hallowed
      · obtain ⟨hne, hexists, hmatch⟩ := hallowed
        exact hdone o hsrc hne hexists hmatch
      · obtain ⟨⟨err, herr⟩, hsame⟩ := hrefused fun _ _ hne hexists hmatch =>
          hallowed ⟨hne, hexists, hmatch⟩
        exact ⟨not_succeeds_metadata herr, hsame⟩
  | rename src dst =>
    obtain ⟨hdone, hrefused⟩ := h.rename src dst
    simp only [Mutation.objectStep]
    cases hsrc : m.get src with
    | none =>
      obtain ⟨⟨err, herr⟩, hsame⟩ := hrefused fun o ho => by rw [hsrc] at ho; cases ho
      exact ⟨not_succeeds_unit herr, hsame⟩
    | some o =>
      simp only
      split_ifs with hne
      · exact hdone o hsrc hne
      · obtain ⟨⟨err, herr⟩, hsame⟩ := hrefused fun _ _ => not_not.1 hne
        exact ⟨not_succeeds_unit herr, hsame⟩
  | delete path =>
    have hdelete := h.deleteMany [(path, false)]
    simp only [List.mem_singleton, exists_eq_left, Bool.false_eq_true, if_false] at hdelete
    exact ⟨rfl, hdelete⟩
  | deleteRecursive path =>
    have hdelete := h.deleteMany [(path, true)]
    simp only [List.mem_singleton, exists_eq_left, if_true] at hdelete
    exact ⟨rfl, hdelete⟩
  | deleteMany batch => exact ⟨rfl, h.deleteMany batch⟩

/-- Operations that only read leave both as they are. -/
theorem Represents.step (h : Represents P s m) (op : Op) :
    Represents P (op.step O P s).2 (op.objects O P m) := by
  cases op with
  | mutate mutation =>
    have hfollows := h.mutation (O := O) mutation
    rw [Op.objects]
    cases hnext : mutation.objectStep O P m with
    | some m' =>
      rw [hnext] at hfollows
      exact hfollows.2
    | none =>
      rw [hnext] at hfollows
      rw [Op.step, hfollows.2]
      exact h
  | stat | read => exact h
  | scanPage root req =>
    rw [Op.step]
    cases scanPage P req s <;> exact h

/-- **A run of the stores represents the run of the objects.** -/
theorem Represents.run (h : Represents P s m) (ops : List Op) :
    Represents P (run (Op.step O P) s ops).2 (ops.foldl (Op.objects O P) m) :=
  run_refines (fun _ _ op h => h.step op) h ops

/-! ## What a run shows -/

theorem Represents.stat_none (h : Represents P s m) (hk : m.get path = none) :
    stat P path s = none := by
  rw [stat_eq_view, h.view, hk]
  rfl

theorem Represents.read_none (h : Represents P s m) (hk : m.get path = none) (args : ReadArgs) :
    read P path args s = .ok none := by
  rw [read_eq_view, h.view, hk]
  rfl

theorem Represents.stat_some (h : Represents P s m) (hk : m.get path = some o)
    (hlen : o.bytes.length < 2 ^ 64) : stat P path s = some (o.info P) := by
  rw [stat_eq_view, h.view, hk, Option.map_some, Option.map_some, viewInfo_object path hlen]

theorem Represents.read_some (h : Represents P s m) (hk : m.get path = some o)
    (hlen : o.bytes.length < 2 ^ 32) (args : ReadArgs) :
    read P path args s = o.read P path args := by
  rw [read_eq_view, h.view, hk, Option.map_some]
  simp only [readView, viewInfo_object path (show o.bytes.length < 2 ^ 64 by omega), Object.read]
  cases checkRead P args path (o.info P) with
  | error err => rfl
  | ok => exact readValue_eq rfl hlen rfl args path

/-- A written entry is what `stat` finds. -/
theorem stat_written {bytes : Bytes} {content : MetaContent} (h : content.etag.isSome = true) :
    stat P path (s.written now path bytes content) = some (writtenInfo now bytes content) := by
  have hrecord : (MetaRecord.new path (Number.ofNat bytes.length) (some now)
      (some content)).e.isSome = true := h
  rw [stat_eq_view, view_written, if_pos rfl, Option.map_some, viewInfo_of_isSome hrecord]
  rfl

/-- A copied entry is what `stat` finds. -/
theorem stat_carried {e : DataRecord × Option MetaRecord} {size : Number}
    (h : (viewEtag P (some e)).isSome = true) :
    stat P dst (s.carried P e dst size (some now)) = some (copiedInfo P now e size) := by
  have hrecord : (MetaRecord.new dst size (some now) (carriedContent P e)).e.isSome = true := by
    rw [MetaRecord.new, etag_carriedContent]
    exact h
  obtain ⟨etag, hetag⟩ := Option.isSome_iff_exists.1 h
  rw [stat_eq_view, view_carried, if_pos rfl, Option.map_some, viewInfo_of_isSome hrecord]
  cases hsidecar : e.2 <;> simp [copiedInfo, carriedContent, contentWithEtag, hetag, hsidecar,
    EntryMeta.ofRecord, MetaRecord.new, MetaContent.ofRecord, MetaContent.default]

/-- **What a write reports is what the next `stat` returns.** -/
theorem write_reports {value : Bytes} {args : WriteArgs} {md : Metadata}
    (h : (IndexeddbBackend.write P now path value args s).1 = .ok md) :
    ∃ info, stat P path (IndexeddbBackend.write P now path value args s).2 = some info ∧
      md = entryMetadata P path info := by
  simp only [IndexeddbBackend.write, set_eq_view] at h ⊢
  cases hplan : setPlan P path value args (s.view path) with
  | error err =>
    rw [hplan] at h
    cases h
  | ok written =>
    rw [hplan] at h
    cases h
    refine ⟨_, stat_written ?_, rfl⟩
    rw [etag_of_setPlan hplan]
    rfl

/-- **What a copy reports is what the next `stat` returns.** -/
theorem copy_reports {ifNotExists : Bool} {ifMatch : Option Str} {md : Metadata}
    (h : (copy P now src dst ifNotExists ifMatch s).1 = .ok md) :
    ∃ info, stat P dst (copy P now src dst ifNotExists ifMatch s).2 = some info ∧
      md = entryMetadata P dst info := by
  by_cases hsame : src = dst
  · rw [copy, if_pos hsame] at h
    cases h
  · rw [copy_eq_view hsame] at h ⊢
    cases hplan : copyPlan P src dst ifNotExists ifMatch (s.view src) (s.view dst) with
    | error err =>
      rw [hplan] at h
      cases h
    | ok copied =>
      rw [hplan] at h
      cases h
      exact ⟨_, stat_carried (viewEtag_of_copyPlan hplan), rfl⟩

/-- **The stores refine the map of objects.** After any run from empty
stores, `stat` and `read` of every path return what the map says of it, an
operation is done exactly where the map does it and changes nothing where
it is refused, and what a write or a copy reports is what the next `stat`
returns. A value fits the 32-bit address space it is read into. -/
theorem stores_refine_objects (O : Opendal) (P : Platform) (ops : List Op) :
    let s := (run (Op.step O P) .empty ops).2
    let m := ops.foldl (Op.objects O P) .empty
    (∀ path, m.get path = none → stat P path s = none ∧ ∀ args, read P path args s = .ok none) ∧
    (∀ path o, m.get path = some o → o.bytes.length < 2 ^ 32 →
      stat P path s = some (o.info P) ∧ ∀ args, read P path args s = o.read P path args) ∧
    (∀ mutation : Mutation,
      ((mutation.step O P s).1.Succeeds ↔ (mutation.objectStep O P m).isSome = true) ∧
      (¬ (mutation.step O P s).1.Succeeds → (mutation.step O P s).2 = s)) ∧
    (∀ now path value args md, (IndexeddbBackend.write P now path value args s).1 = .ok md →
      ∃ info, stat P path (IndexeddbBackend.write P now path value args s).2 = some info ∧
        md = entryMetadata P path info) ∧
    (∀ now src dst ifNotExists ifMatch md,
      (copy P now src dst ifNotExists ifMatch s).1 = .ok md →
      ∃ info, stat P dst (copy P now src dst ifNotExists ifMatch s).2 = some info ∧
        md = entryMetadata P dst info) := by
  intro s m
  have h : Represents P s m := (Represents.empty P).run ops
  refine ⟨fun path hk => ⟨h.stat_none hk, h.read_none hk⟩, fun path o hk hlen => ?_,
    fun mutation => ?_, fun _ _ _ _ _ => write_reports, fun _ _ _ _ _ _ => copy_reports⟩
  · exact ⟨h.stat_some hk (by omega), h.read_some hk hlen⟩
  · have hfollows := h.mutation (O := O) mutation
    cases hnext : mutation.objectStep O P m with
    | some m' =>
      rw [hnext] at hfollows
      exact ⟨iff_of_true hfollows.1 rfl, fun hnot => absurd hfollows.1 hnot⟩
    | none =>
      rw [hnext] at hfollows
      exact ⟨iff_of_false hfollows.1 (by simp), fun _ => hfollows.2⟩

/-- The byte 0 written to `a` at time 7 is what `stat` then finds. -/
theorem stores_refine_objects_written :
    stat referencePlatform ['a'] (run (Op.step referenceOpendal referencePlatform) .empty
      [.mutate (.set (.ofNat 7) ['a'] [0] .overwrite)]).2 =
      some (Object.info referencePlatform ⟨[0], none, none, .ofNat 7⟩) := by
  refine ((stores_refine_objects referenceOpendal referencePlatform _).2.1 ['a'] _ ?_ (by decide)).1
  have hmeets : WriteArgs.Meets referencePlatform .overwrite
      ((FiniteMap.empty : Objects).get ['a']) :=
    ⟨fun _ => rfl, by simp [WriteArgs.overwrite], by simp [WriteArgs.overwrite]⟩
  simp only [List.foldl_cons, List.foldl_nil, Op.objects, Mutation.objectStep, if_pos hmeets,
    Option.getD_some, FiniteMap.get_set_self]
  rfl

end OpendalIndexeddb
