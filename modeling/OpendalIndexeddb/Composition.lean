import OpendalIndexeddb.Common.Compaction
import OpendalIndexeddb.Conflicts
/-!
# How changes of objects compose

Unconditional writes, appends and deletions of one path merge: two of
them are one. A log of such changes may be compacted to one change for
each path. What is stored after any run of operations is one overwrite
for each object, whatever led there.
-/

namespace OpendalIndexeddb

open IndexeddbCore

variable {O : Opendal} {P : Platform} {s t : Stores} {path : Str}

/-! ## Changes of a path -/

/-- A change of one path that asks for nothing to be there or not. -/
inductive PathChange where
  | write (now : Number) (value : Bytes) (append : Bool) (content : Option MetaContent)
  | delete
deriving DecidableEq

/-- The content metadata of two requests, the later of which counts. -/
def mergeContent : Option MetaContent → Option MetaContent → Option MetaContent
  | some content, some later => some (content.merge later)
  | some content, none => some content
  | none, later => later

/-- **Two changes of a path as one.** An append adds to what is written
before it, and starts anew behind a deletion; anything else counts
alone. -/
def PathChange.followedBy : PathChange → PathChange → PathChange
  | .write _ value append content, .write now later true content' =>
    .write now (value ++ later) append (mergeContent content content')
  | .delete, .write now later true content' => .write now later false content'
  | _, change => change

/-- The operation a change is. -/
def PathChange.mutation (path : Str) : PathChange → Mutation
  | .write now value append content => .set now path value ⟨append, false, none, none, content⟩
  | .delete => .delete path

/-- What a change of a path returns, and the stores it leaves. -/
def changePath (O : Opendal) (P : Platform) (s : Stores) (c : Str × PathChange) :
    Outcome × Stores :=
  (c.2.mutation c.1).step O P s

/-- A change keeps to its path. -/
theorem footprint_changePath (O : Opendal) (P : Platform) (c : Str × PathChange) :
    Footprint Stores.cell (fun key => key = .text c.1) (fun key => key = .text c.1)
      fun s => changePath O P s c := by
  obtain ⟨path, change⟩ := c
  cases change with
  | write now value append content =>
    exact Mutation.footprint O P (.set now path value ⟨append, false, none, none, content⟩)
  | delete =>
    have hfoot := Mutation.footprint O P (.delete path)
    have hkeys : Removed [(path, false)] = fun key => key = .text path := by
      funext key
      simp [Removed, RemovedBy]
    rw [show (Mutation.delete path).Reads O = _ from hkeys,
      show (Mutation.delete path).Writes O = _ from hkeys] at hfoot
    exact hfoot

/-- Off its path a change leaves everything as it was. -/
theorem agree_changePath (O : Opendal) (P : Platform) (s : Stores) (c : Str × PathChange) :
    AgreeOn (fun key => ¬ key = .text c.1) (changePath O P s c).2 s :=
  sameAt_cell_iff.1 ((footprint_changePath O P c).frame s)

/-- What is written over a path does not depend on what was there. -/
theorem written_congr (h : AgreeOn (fun key => ¬ key = .text path) s t) (now : Number)
    (bytes : Bytes) (content : MetaContent) :
    s.written now path bytes content = t.written now path bytes content := by
  refine Stores.cell_injective (funext fun key => ?_)
  have hk : (KeyAndValue.toValue ⟨path, bytes⟩).k = Key.text
      (MetaRecord.new path (Number.ofNat bytes.length) (some now) (some content)).k := rfl
  by_cases hkey : key = .text path
  · subst hkey
    exact Prod.ext ((get_putEntry_self hk).1.trans (get_putEntry_self hk).1.symm)
      ((get_putEntry_self hk).2.trans (get_putEntry_self hk).2.symm)
  · refine Prod.ext ?_ ?_
    · exact (get_putEntry_of_ne hk hkey).1.trans
        ((h key hkey).1.trans (get_putEntry_of_ne hk hkey).1.symm)
    · exact (get_putEntry_of_ne hk hkey).2.trans
        ((h key hkey).2.trans (get_putEntry_of_ne hk hkey).2.symm)

/-- Nor does what a deletion leaves. -/
theorem delete_congr (h : AgreeOn (fun key => ¬ key = .text path) s t) :
    delete path s = delete path t := by
  refine Stores.cell_injective (funext fun key => ?_)
  have hs := erased_deleteMany [(path, false)] s key
  have ht := erased_deleteMany [(path, false)] t key
  by_cases hkey : key = .text path
  · have hremoved : Removed [(path, false)] key := by simp [Removed, RemovedBy, hkey]
    exact Prod.ext ((hs.1 hremoved).1.trans (ht.1 hremoved).1.symm)
      ((hs.1 hremoved).2.trans (ht.1 hremoved).2.symm)
  · have hkept : ¬ Removed [(path, false)] key := by simp [Removed, RemovedBy, hkey]
    exact Prod.ext ((hs.2 hkept).1.trans ((h key hkey).1.trans (ht.2 hkept).1.symm))
      ((hs.2 hkept).2.trans ((h key hkey).2.trans (ht.2 hkept).2.symm))

/-! ## Two changes of a path -/

/-- The request of a write that asks for nothing. -/
def plainArgs (append : Bool) (content : Option MetaContent) : WriteArgs :=
  ⟨append, false, none, none, content⟩

/-- A write acts on the view of its path. -/
theorem changePath_write (O : Opendal) (P : Platform) (s : Stores) (path : Str) (now : Number)
    (value : Bytes) (append : Bool) (content : Option MetaContent) :
    changePath O P s (path, .write now value append content) =
      match setPlan P path value (plainArgs append content) (s.view path) with
      | .error err => (.metadata (.error err), s)
      | .ok (bytes, content) => (.metadata (.ok (entryMetadata P path
          (writtenInfo now bytes content))), s.written now path bytes content) := by
  have hset := set_eq_view P now path value (plainArgs append content) s
  simp only [changePath, PathChange.mutation, Mutation.step, IndexeddbBackend.write]
  change (Outcome.metadata ((IndexeddbCore.set P now path value (plainArgs append content) s).1.map
    _), (IndexeddbCore.set P now path value (plainArgs append content) s).2) = _
  rw [hset]
  cases setPlan P path value (plainArgs append content) (s.view path) <;> rfl

/-- Content metadata that a request is merged into. -/
def mergedInto (carried : MetaContent) : Option MetaContent → MetaContent
  | some request => carried.merge request
  | none => carried

/-- An overwrite stores what it brings. -/
theorem setPlan_plain_overwrite (value : Bytes) (content : Option MetaContent) (view : View) :
    setPlan P path value (plainArgs false content) view =
      .ok (value, { mergedInto .default content with etag := some (etagFromBytes P value) }) := by
  cases content <;> simp [setPlan, plainArgs, mergedInto]

/-- So does an append where there is nothing. -/
theorem setPlan_plain_create (value : Bytes) (content : Option MetaContent) :
    setPlan P path value (plainArgs true content) none =
      setPlan P path value (plainArgs false content) none := by
  cases content <;> simp [setPlan, plainArgs]

/-- Else it adds to the bytes, and to what the sidecar keeps. -/
theorem setPlan_plain_append (value : Bytes) (content : Option MetaContent)
    (e : DataRecord × Option MetaRecord) :
    setPlan P path value (plainArgs true content) (some e) =
      match recordBytes e.1 path with
      | .error err => .error err
      | .ok kept => .ok (kept ++ value,
          { mergedInto ((e.2.map MetaContent.ofRecord).getD .default) content with
            etag := some (etagFromBytes P (kept ++ value)) }) := by
  cases hkept : recordBytes e.1 path with
  | error err => simp [setPlan, plainArgs, hkept]
  | ok kept => cases content <;> simp [setPlan, plainArgs, mergedInto, hkept]

/-- The later request counts, whichever it is merged into. -/
theorem mergedInto_mergeContent (carried : MetaContent) (content content' : Option MetaContent)
    (etag etag' : Option Str) :
    { mergedInto { mergedInto carried content with etag } content' with etag := etag' } =
      { mergedInto carried (mergeContent content content') with etag := etag' } := by
  cases content with
  | none => cases content' <;> rfl
  | some content =>
    cases content' with
    | none => rfl
    | some later =>
      simp only [mergedInto, mergeContent, MetaContent.merge, MetaContent.mk.injEq, true_and]
      constructor
      · cases later.contentType <;> simp
      · cases later.userMetadata <;> simp

/-- What an append adds to a write before it. -/
theorem setPlan_plain_written (now : Number) {bytes value : Bytes} {written : MetaContent}
    (content : Option MetaContent) :
    setPlan P path value (plainArgs true content)
        ((s.written now path bytes written).view path) =
      .ok (bytes ++ value, { mergedInto written content with
        etag := some (etagFromBytes P (bytes ++ value)) }) := by
  rw [view_written, if_pos rfl, setPlan_plain_append]
  rfl

/-- A write that succeeds does so with more to write. -/
theorem setPlan_plain_more {bytes value later : Bytes} {append : Bool}
    {content content' : Option MetaContent} {view : View} {written : MetaContent}
    (h : setPlan P path value (plainArgs append content) view = .ok (bytes, written)) :
    setPlan P path (value ++ later) (plainArgs append (mergeContent content content')) view =
      .ok (bytes ++ later, { mergedInto written content' with
        etag := some (etagFromBytes P (bytes ++ later)) }) := by
  have hcreate (hfalse : setPlan P path value (plainArgs false content) view =
      .ok (bytes, written)) : setPlan P path (value ++ later)
        (plainArgs false (mergeContent content content')) view =
      .ok (bytes ++ later, { mergedInto written content' with
        etag := some (etagFromBytes P (bytes ++ later)) }) := by
    rw [setPlan_plain_overwrite] at hfalse ⊢
    cases hfalse
    rw [mergedInto_mergeContent]
  cases append with
  | false => exact hcreate h
  | true =>
    cases view with
    | none =>
      rw [setPlan_plain_create] at h ⊢
      exact hcreate h
    | some e =>
      rw [setPlan_plain_append] at h ⊢
      cases hkept : recordBytes e.1 path with
      | error err =>
        rw [hkept] at h
        cases h
      | ok kept =>
        rw [hkept] at h
        cases h
        simp only
        rw [mergedInto_mergeContent, List.append_assoc]

/-- A write that fails meets a value that is not bytes, as every append
does then. -/
theorem setPlan_plain_fails {value : Bytes} {append : Bool} {content : Option MetaContent}
    {view : View} {err : Error}
    (h : setPlan P path value (plainArgs append content) view = .error err)
    (later : Bytes) (content' : Option MetaContent) : append = true ∧
      setPlan P path later (plainArgs true content') view = .error err := by
  cases append with
  | false =>
    rw [setPlan_plain_overwrite] at h
    cases h
  | true =>
    refine ⟨rfl, ?_⟩
    cases view with
    | none =>
      rw [setPlan_plain_create, setPlan_plain_overwrite] at h
      cases h
    | some e =>
      rw [setPlan_plain_append] at h ⊢
      cases hkept : recordBytes e.1 path with
      | error err' =>
        rw [hkept] at h
        exact h
      | ok kept =>
        rw [hkept] at h
        cases h

/-- An overwrite or a deletion does not depend on what its path had. -/
theorem changePath_congr {change : PathChange}
    (hchange : ∀ now value content, change ≠ .write now value true content)
    (h : AgreeOn (fun key => ¬ key = .text path) s t) :
    changePath O P s (path, change) = changePath O P t (path, change) := by
  cases change with
  | write now value append content =>
    cases append with
    | true => exact absurd rfl (hchange now value content)
    | false =>
      rw [changePath_write, changePath_write, setPlan_plain_overwrite, setPlan_plain_overwrite]
      simp only
      rw [written_congr h]
  | delete =>
    refine Prod.ext rfl ?_
    exact delete_congr h

/-- **Two changes of a path are one**: from any stores, the second returns
and leaves what the two as one do. -/
theorem changePath_followedBy (O : Opendal) (P : Platform) (s : Stores) (path : Str)
    (c c' : PathChange) : changePath O P (changePath O P s (path, c)).2 (path, c') =
      changePath O P s (path, c.followedBy c') := by
  have hoff := agree_changePath O P s (path, c)
  cases c' with
  | delete =>
    have hself : c.followedBy .delete = .delete := by cases c <;> rfl
    rw [hself]
    exact changePath_congr (by simp) hoff
  | write now' value' append' content' =>
    cases append' with
    | false =>
      have hself : c.followedBy (.write now' value' false content') =
          .write now' value' false content' := by cases c <;> rfl
      rw [hself]
      exact changePath_congr (by simp) hoff
    | true =>
      cases c with
      | delete =>
        have hgone : (changePath O P s (path, .delete)).2.view path = none := by
          have herased := erased_deleteMany [(path, false)] s (.text path)
          rw [Stores.view, show (changePath O P s (path, .delete)).2.store.get (.text path) = none
            from (herased.1 (by simp [Removed, RemovedBy])).1]
          rfl
        rw [PathChange.followedBy, changePath_write, changePath_write, hgone,
          setPlan_plain_create, setPlan_plain_overwrite, setPlan_plain_overwrite]
        simp only
        rw [written_congr hoff]
      | write now value append content =>
        rw [PathChange.followedBy, changePath_write, changePath_write, changePath_write]
        cases hplan : setPlan P path value (plainArgs append content) (s.view path) with
        | error err =>
          obtain ⟨rfl, hfails⟩ := setPlan_plain_fails hplan value' content'
          have hfails' := (setPlan_plain_fails hplan (value ++ value')
            (mergeContent content content')).2
          simp only [hfails, hfails']
        | ok planned =>
          obtain ⟨bytes, written⟩ := planned
          rw [changePath_write, hplan] at hoff
          rw [setPlan_plain_more hplan]
          simp only [setPlan_plain_written]
          rw [written_congr hoff]

/-! ## Logs of changes -/

/-- Two changes, the second of which is of the same path. -/
def followedBy (c c' : Str × PathChange) : Str × PathChange := (c.1, c.2.followedBy c'.2)

/-- Changes of one path merge, and those of others commute. -/
theorem merges_changePath (O : Opendal) (P : Platform) :
    Merges (changePath O P) Prod.fst followedBy where
  key_merge _ _ _ := rfl
  step_merge := by
    rintro ⟨path, c⟩ ⟨path', c'⟩ heq s
    obtain rfl : path = path' := heq
    exact changePath_followedBy O P s path c c'
  commutes c c' hne := by
    refine (footprint_changePath O P c).commutes Stores.cell_injective
      (footprint_changePath O P c') (fun key hkey hkey' => hne ?_) fun key hkey hkey' => hne ?_
    · exact Key.text.inj (hkey.symm.trans hkey')
    · exact Key.text.inj (hkey'.symm.trans hkey)

/-- **A log of changes may be compacted.** Take any sequence of
unconditional writes, appends and deletions of any paths, from any stores.
One change for each path, made of those of the path, leaves what the
sequence leaves, in whatever order the paths come, and returns for each
path what the last change of the path returned. -/
theorem changes_compact (O : Opendal) (P : Platform) (s : Stores)
    (log : List (Str × PathChange)) :
    ((compact Prod.fst followedBy log).map Prod.fst).Nodup ∧
    (∀ path, path ∈ (compact Prod.fst followedBy log).map Prod.fst ↔ path ∈ log.map Prod.fst) ∧
    ∀ compacted : List (Str × PathChange), compacted.Perm (compact Prod.fst followedBy log) →
      (run (changePath O P) s compacted).2 = (run (changePath O P) s log).2 ∧
      ∀ path, outputsOf (fun c => decide (c.1 = path)) compacted
          (run (changePath O P) s compacted).1 =
        (outputsOf (fun c => decide (c.1 = path)) log
          (run (changePath O P) s log).1).getLast?.toList := by
  have hmerges := merges_changePath O P
  obtain ⟨hnodup, hkeys⟩ := hmerges.keys_compact log
  refine ⟨hnodup, hkeys, fun compacted hperm => ?_⟩
  obtain ⟨hstate, houts⟩ :=
    hmerges.run_perm hperm ((hperm.map Prod.fst).nodup_iff.2 hnodup) s
  exact ⟨hstate.trans (hmerges.run_compact log s),
    fun path => (houts path).trans (hmerges.outputs_compact log path s)⟩

/-- Appends behind a deletion are an overwrite. -/
example (now now' : Number) (content content' : Option MetaContent) :
    compact Prod.fst followedBy
      [(['a'], .delete), (['b'], .delete), (['a'], .write now [0] true content),
        (['a'], .write now' [1] true content')] =
      [(['a'], .write now' [0, 1] false (mergeContent content content')), (['b'], .delete)] := rfl

/-! ## Restoring -/

/-- The overwrite that stores what the stores hold under a path, at the
time they hold for it. -/
def Stores.restoring (s : Stores) (path : Str) : Option (Str × PathChange) :=
  match s.view path with
  | some (⟨_, .uint8Array bytes⟩, some ⟨_, _, some now, _, contentType, userMetadata⟩) =>
    some (path, .write now bytes false (some ⟨none, contentType, userMetadata⟩))
  | _ => none

/-- **What the stores hold is determined by the objects.** -/
theorem Represents.unique {m : Objects} (h : Represents P s m) (h' : Represents P t m) : s = t :=
  Stores.cell_injective (funext fun key =>
    Prod.ext ((h.store key).trans (h'.store key).symm)
      ((h.metaStore key).trans (h'.metaStore key).symm))

/-- A path that has an object is restored to it. -/
theorem Represents.restoring {m : Objects} (h : Represents P s m) {o : Object}
    (ho : m.get path = some o) : s.restoring path =
      some (path, .write o.mtime o.bytes false (some ⟨none, o.contentType, o.userMetadata⟩)) := by
  rw [Stores.restoring, h.view, ho]
  rfl

/-- Restoring some of the paths puts their objects in place of others. -/
theorem exists_restored {m : Objects} (h : Represents P s m) (O : Opendal) {paths : List Str}
    (hpaths : ∀ path ∈ paths, ∃ o, m.get path = some o) {r : Objects} (hr : Represents P t r) :
    ∃ r', Represents P (run (changePath O P) t (paths.filterMap s.restoring)).2 r' ∧
      ∀ k, (k ∈ paths → r'.get k = m.get k) ∧ (k ∉ paths → r'.get k = r.get k) := by
  induction paths generalizing t r with
  | nil => exact ⟨r, hr, fun k => ⟨fun hk => absurd hk List.not_mem_nil, fun _ => rfl⟩⟩
  | cons path paths ih =>
    obtain ⟨o, ho⟩ := hpaths path List.mem_cons_self
    rw [List.filterMap_cons_some (h.restoring ho), run_cons]
    have hset := ((hr.set o.mtime path o.bytes
      (plainArgs false (some ⟨none, o.contentType, o.userMetadata⟩))).1
        ⟨fun hc => absurd hc Bool.false_ne_true, fun want hw => absurd hw (by simp [plainArgs]),
          fun want hw => absurd hw (by simp [plainArgs])⟩).2
    rw [show writeObject o.mtime o.bytes _ (r.get path) = o from rfl] at hset
    obtain ⟨r', hr', hget⟩ := ih (fun k hk => hpaths k (List.mem_cons_of_mem _ hk)) hset
    refine ⟨r', hr', fun k => ⟨fun hk => ?_, fun hk => ?_⟩⟩
    · by_cases hin : k ∈ paths
      · exact (hget k).1 hin
      · obtain rfl : k = path := (List.mem_cons.1 hk).resolve_right hin
        rw [(hget k).2 hin, FiniteMap.get_set_self, ho]
    · rw [List.mem_cons, not_or] at hk
      rw [(hget k).2 hk.2, FiniteMap.get_set_of_ne hk.1]

/-- **The stores have no history.** After any run of operations from empty
stores, overwrite each key they hold in empty stores, with the bytes and
the content metadata they hold and at the time they hold for it, in any
order and however often: this leaves the same stores, sidecars and ETags
included. -/
theorem restores_run (O : Opendal) (P : Platform) (ops : List Op) (paths : List Str)
    (hpaths : ∀ path, path ∈ paths ↔
      path ∈ textKeys (run (Op.step O P) .empty ops).2.store) :
    (run (changePath O P) .empty (paths.filterMap
      (run (Op.step O P) .empty ops).2.restoring)).2 = (run (Op.step O P) .empty ops).2 := by
  have hrep := (Represents.empty P).run (O := O) ops
  generalize (run (Op.step O P) .empty ops).2 = s at hrep hpaths ⊢
  generalize ops.foldl (Op.objects O P) .empty = m at hrep
  have hin (path : Str) : path ∈ paths ↔ (m.get path).isSome = true := by
    rw [hpaths, mem_textKeys_iff, ← view_isSome, hrep.view]
    cases m.get path <;> simp
  obtain ⟨r, hr, hget⟩ := exists_restored hrep O
    (fun path hpath => Option.isSome_iff_exists.1 ((hin path).1 hpath)) (Represents.empty P)
  have heq : r = m := by
    ext1 path
    by_cases hpath : path ∈ paths
    · exact (hget path).1 hpath
    · have hnone : m.get path = none := by simpa [hin path] using hpath
      rw [(hget path).2 hpath, hnone]
      rfl
  exact Represents.unique (heq ▸ hr) hrep

theorem restores_run_renamed :
    let s := (run (Op.step referenceOpendal referencePlatform) .empty
      [.mutate (.set (.ofNat 7) ['a'] [0, 1] .overwrite), .mutate (.rename ['a'] ['b'])]).2
    (run (changePath referenceOpendal referencePlatform) .empty
      ([['b']].filterMap s.restoring)).2 = s := by
  refine restores_run referenceOpendal referencePlatform _ [['b']] fun path => ?_
  have hkeys : textKeys (run (Op.step referenceOpendal referencePlatform) .empty
      [.mutate (.set (.ofNat 7) ['a'] [0, 1] .overwrite),
        .mutate (.rename ['a'] ['b'])]).2.store = [['b']] := by decide
  rw [hkeys]

end OpendalIndexeddb
