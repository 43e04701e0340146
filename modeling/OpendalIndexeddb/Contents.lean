import OpendalIndexeddb.Common.Asking
import OpendalIndexeddb.Interleaving
/-!
# Which contents are loaded

A data record comes out of the database with the contents of its file.
Here it is said for every operation which records its requests are
answered with: sidecars are kept so that stat and list have none.
-/

namespace OpendalIndexeddb

open Program

variable {O : Opendal} {P : Platform} {s s' : Stores} {m : Objects} {path src dst k : Str}
variable {v : DataRecord} {α β : Type}

/-! ## Requests that are answered with a record -/

/-- The data record a request is answered with. -/
def TxnRequest.loaded (s : Stores) : TxnRequest → Option DataRecord
  | .store (.get key) => s.store.get (.text key)
  | .store (.cursor range past) => s.store.firstPast range past
  | _ => none

/-- A request whose answer never holds a data record. -/
def TxnRequest.IsQuiet (r : TxnRequest) : Prop := ∀ s, r.loaded s = none

namespace Requests

/-- A program alone is answered with a record. -/
def Loads (p : TxnProgram α) (s : Stores) (v : DataRecord) : Prop :=
  ∃ r t, Asks txnSemantics r t p s ∧ r.loaded t = some v

/-- A program that never is. -/
abbrev Quiet (p : TxnProgram α) : Prop := p.Only TxnRequest.IsQuiet TxnLoop.reads

theorem Quiet.not_loads {p : TxnProgram α} (h : Quiet p) : ¬ Loads p s v := by
  rintro ⟨r, t, hask, hv⟩
  have hquiet : r.IsQuiet :=
    hask.of_only (fun _ => only_body (fun _ _ _ => rfl) fun _ _ _ => rfl) h
  rw [hquiet t] at hv
  cases hv

theorem not_loads_pure (a : α) : ¬ Loads (pure a) s v := Quiet.not_loads (p := .done a) trivial

/-- **The rule of sequence.** -/
theorem loads_bind_iff {p : TxnProgram α} {f : α → TxnProgram β} {a : α}
    (h : Computes txnSemantics p s (.ok (a, s'))) :
    Loads (p >>= f) s v ↔ Loads p s v ∨ Loads (f a) s' v := by
  have hrun : Runs txnSemantics p s (.ok a) s' := h
  have hbind : ∀ r t, Asks txnSemantics r t (p >>= f) s ↔
      Asks txnSemantics r t p s ∨ Asks txnSemantics r t (f a) s' := by
    intro r t
    refine (Asks.bind_iff hrun).trans (or_congr_right ⟨?_, fun hf => ⟨a, rfl, hf⟩⟩)
    rintro ⟨b, hb, hf⟩
    obtain rfl := Except.ok.inj hb
    exact hf
  simp only [Loads, hbind, or_and_right, exists_or]

theorem loads_bind_error_iff {p : TxnProgram α} {f : α → TxnProgram β} {err : Error}
    (h : Computes txnSemantics p s (.error err)) : Loads (p >>= f) s v ↔ Loads p s v := by
  obtain ⟨s', hrun⟩ := h
  have hbind : ∀ r t, Asks txnSemantics r t (p >>= f) s ↔ Asks txnSemantics r t p s := by
    intro r t
    refine (Asks.bind_iff hrun).trans (or_iff_left ?_)
    rintro ⟨b, hb, -⟩
    cases hb
  simp only [Loads, hbind]

/-- What is made of a value loads nothing. -/
theorem loads_map_iff {p : TxnProgram α} {out : Except Error (α × Stores)} (g : α → β)
    (h : Computes txnSemantics p s out) :
    Loads (p >>= fun a => pure (g a)) s v ↔ Loads p s v := by
  rcases out with err | ⟨a, s'⟩
  · exact loads_bind_error_iff h
  · exact (loads_bind_iff h).trans (or_iff_left (not_loads_pure _))

theorem loads_get_iff {key : Str} : Loads (store (.get key)) s v ↔
    s.store.get (.text key) = some v := by
  constructor
  · rintro ⟨r, t, hask, hv⟩
    rcases Asks.request_iff.1 hask with ⟨rfl, rfl⟩ | h
    · exact hv
    · exact absurd h Asks.not_done
  · exact fun h => ⟨_, s, .now _, h⟩

theorem Quiet.bind {p : TxnProgram α} {f : α → TxnProgram β} (h : Quiet p)
    (hf : ∀ a, Quiet (f a)) : Quiet (p >>= f) :=
  Only.bind h hf

theorem Quiet.ite {c : Prop} [Decidable c] {p q : TxnProgram α} (hp : Quiet p) (hq : Quiet q) :
    Quiet (if c then p else q) := by
  split_ifs
  · exact hp
  · exact hq

theorem quiet_readMeta (key : Str) : Quiet (readMeta key) := ⟨fun _ => rfl, fun _ => trivial⟩

theorem quiet_contains (key : Str) : Quiet (store (.contains key)) :=
  ⟨fun _ => rfl, fun _ => trivial⟩

theorem quiet_ofExcept (r : Except Error α) : Quiet (ofExcept r) := by
  cases r <;> trivial

/-- A sidecar is read first. -/
theorem loads_readMeta_bind_iff {key : Str} {f : Option MetaRecord → TxnProgram α} :
    Loads (readMeta key >>= f) s v ↔ Loads (f (OpendalIndexeddb.readMeta s.metaStore key)) s v :=
  (loads_bind_iff (finds_readMeta key s)).trans (or_iff_right (quiet_readMeta key).not_loads)

/-- A record is read first. -/
theorem loads_get_bind_iff {key : Str} {f : Option DataRecord → TxnProgram α} :
    Loads (store (.get key) >>= f) s v ↔
      s.store.get (.text key) = some v ∨ Loads (f (s.store.get (.text key))) s v :=
  (loads_bind_iff (finds_get key s)).trans (or_congr_left loads_get_iff)

theorem loads_contains_bind_iff {key : Str} {f : Bool → TxnProgram α} :
    Loads (store (.contains key) >>= f) s v ↔ Loads (f (s.store.contains (.text key))) s v :=
  (loads_bind_iff (finds_contains key s)).trans (or_iff_right (quiet_contains key).not_loads)

/-- What is left of a program that is answered with no further record. -/
theorem loads_get_quiet_iff {key : Str} {f : Option DataRecord → TxnProgram α}
    (hf : ∀ value, Quiet (f value)) :
    Loads (store (.get key) >>= f) s v ↔ s.store.get (.text key) = some v :=
  loads_get_bind_iff.trans (or_iff_left (hf _).not_loads)

end Requests

open Requests

/-! ## Where the stores represent objects -/

namespace Represents

theorem get_eq (h : Represents P s m) (k : Str) :
    s.store.get (.text k) = (m.get k).map (Object.record k) := h.store (.text k)

theorem readMeta_eq (h : Represents P s m) (k : Str) :
    readMeta s.metaStore k = (m.get k).map (Object.sidecar P k) := by
  rw [readMeta, h.metaStore, Key.asString_text, Option.bind_some]
  cases m.get k <;> rfl

/-- **A stat loads nothing**: each record has a sidecar with an ETag. -/
theorem not_loads_stat (h : Represents P s m) : ¬ Loads (Requests.stat P path) s v := by
  unfold Requests.stat
  rw [loads_readMeta_bind_iff, h.readMeta_eq]
  cases ho : m.get path with
  | none =>
    rw [Option.map_none, loads_get_bind_iff, h.get_eq, ho]
    rintro (hv | hv)
    · cases hv
    · exact not_loads_pure _ hv
  | some o =>
    have he : (o.sidecar P path).e.isSome = true := rfl
    simp only [Option.map_some, he, if_true]
    rw [loads_contains_bind_iff]
    split_ifs <;> exact not_loads_pure _

theorem not_loads_entryInfoForKey (h : Represents P s m) {o : Object} (ho : m.get k = some o)
    {prefetchedMeta : Option MetaRecord}
    (hpre : ∀ r, prefetchedMeta = some r → r = o.sidecar P k) :
    ¬ Loads (Requests.entryInfoForKey P k prefetchedMeta) s v := by
  have hsidecar : prefetchedMeta.or (readMeta s.metaStore k) = some (o.sidecar P k) := by
    rw [h.readMeta_eq, ho]
    cases hr : prefetchedMeta with
    | none => rfl
    | some r => rw [hpre r hr, Option.some_or]
  have hquiet : Quiet (readMetaUnless prefetchedMeta k) := by
    cases prefetchedMeta with
    | none => exact quiet_readMeta k
    | some r => trivial
  unfold Requests.entryInfoForKey
  rw [loads_bind_iff (finds_readMetaUnless prefetchedMeta k s), hsidecar]
  rintro (hv | hv)
  · exact hquiet.not_loads hv
  · exact not_loads_pure _ hv

/-- The sidecars of a page are not read from the records. -/
theorem not_loads_joinMetas (h : Represents P s m) {keys : List Str}
    {metas : List (Str × MetaRecord)} (hkeys : ∀ k ∈ keys, ∃ o, m.get k = some o)
    (hmetas : ∀ k r, (k, r) ∈ metas → readMeta s.metaStore k = some r) :
    ¬ Loads (Requests.joinMetas P keys metas) s v := by
  induction keys generalizing metas with
  | nil => exact not_loads_pure _
  | cons key keys ih =>
    obtain ⟨o, ho⟩ := hkeys key List.mem_cons_self
    have hpre : ∀ r, metas.lookup key = some r → r = o.sidecar P key := by
      intro r hr
      obtain ⟨l₁, l₂, hl, -⟩ := List.lookup_eq_some_iff.1 hr
      have hread := hmetas key r (by simp [hl])
      rw [h.readMeta_eq, ho, Option.map_some, Option.some_inj] at hread
      exact hread.symm
    unfold Requests.joinMetas
    rw [loads_bind_iff (finds_entryInfoForKey key _ s), loads_bind_iff (finds_joinMetas keys _ s)]
    rintro (hv | hv | hv)
    · exact h.not_loads_entryInfoForKey ho hpre hv
    · exact ih (fun k hk => hkeys k (List.mem_cons_of_mem _ hk))
        (fun k r hkr => hmetas k r (List.mem_of_mem_filter hkr)) hv
    · exact not_loads_pure _ hv

/-- **A page of a listing loads nothing.** -/
theorem not_loads_scanPage (h : Represents P s m) {req : IndexeddbCore.ScanPageRequest}
    (hlimit : req.limit ≠ 0)
    (hupper : ¬ (prefixUpperBound req.keyPrefix).any (fun upper => strLe upper req.start.lower)) :
    ¬ Loads (Requests.scanPage P req) s v := by
  obtain ⟨page, hpage⟩ := Option.isSome_iff_exists.1 (IndexeddbCore.scanPage_isSome P req s)
  obtain ⟨st, done, hfound, -⟩ := page_entries hpage
  have hscan : IndexeddbCore.scanLoop s.store req (prefixUpperBound req.keyPrefix)
      (s.store.items.length + 1) req.start = some (st, done) := by
    rwa [scanKeys, if_neg hlimit, if_neg hupper] at hfound
  have hkeys : ∀ k ∈ st.keys, ∃ o, m.get k = some o := by
    intro k hk
    have hin := contains_of_mem_scanKeys hfound hk
    rw [OrderedStore.contains, h.get_eq, Option.isSome_map] at hin
    exact Option.isSome_iff_exists.1 hin
  have hquiet : Quiet (loop (.scan req (prefixUpperBound req.keyPrefix) req.start)) :=
    ⟨trivial, fun _ => trivial⟩
  unfold Requests.scanPage
  rw [loads_bind_iff (finds_scan hscan), loads_bind_iff (finds_prefetchMetas st.keys s),
    loads_map_iff _ (finds_joinMetas st.keys _ s)]
  rintro (hv | hv | hv)
  · exact hquiet.not_loads hv
  · exact Quiet.not_loads (only_prefetchMetas (fun _ _ _ => rfl) st.keys) hv
  · exact h.not_loads_joinMetas hkeys
      (fun k r hkr => IndexeddbCore.readMeta_of_mem_prefetchMetas hkr) hv

/-- **A read loads the object it reads**, once its conditions hold. -/
theorem loads_read_iff (h : Represents P s m) {args : ReadArgs} :
    Loads (Requests.read P path args) s v ↔ ∃ o, m.get path = some o ∧
      IndexeddbCore.checkRead P args path (o.info P) = .ok () ∧ v = o.record path := by
  unfold Requests.read
  rw [loads_readMeta_bind_iff, h.readMeta_eq]
  cases ho : m.get path with
  | none =>
    simp only [Option.map_none, Option.filter_none, Requests.readRecord]
    rw [loads_get_bind_iff, h.get_eq, ho]
    simp [not_loads_pure]
  | some o =>
    have he : (o.sidecar P path).e.isSome = true := rfl
    have hin : s.store.contains (.text path) = true := by
      rw [OrderedStore.contains, h.get_eq, ho]
      rfl
    have hpresent : Requests.Finds (if args.hasConditions then Requests.store (.contains path)
        else pure true : TxnProgram Bool) s true := by
      cases args.hasConditions with
      | false => exact finds_pure true s
      | true =>
        have hfinds := finds_contains path s
        rw [hin] at hfinds
        exact hfinds
    have hquiet : Quiet (if args.hasConditions then Requests.store (.contains path)
        else pure true : TxnProgram Bool) := by
      cases args.hasConditions with
      | false => trivial
      | true => exact quiet_contains path
    have hcheck : IndexeddbCore.checkRead P args path ⟨.ofRecord (o.sidecar P path)⟩ =
        IndexeddbCore.checkRead P args path (o.info P) := rfl
    simp only [Option.map_some, Option.filter_some, he, if_true, Option.some_inj,
      exists_eq_left']
    rw [loads_bind_iff hpresent, or_iff_right hquiet.not_loads]
    simp only [Bool.not_true, Bool.false_eq_true, if_false, hcheck]
    cases IndexeddbCore.checkRead P args path (o.info P) with
    | error err =>
      rw [loads_bind_error_iff (computes_ofExcept (.error err) s)]
      simpa using (quiet_ofExcept (α := Unit) (.error err)).not_loads
    | ok u =>
      rw [loads_bind_iff (computes_ofExcept (.ok u) s), or_iff_right (quiet_ofExcept _).not_loads,
        loads_get_quiet_iff, h.get_eq, ho]
      · simp [eq_comm]
      · rintro (_ | value)
        · trivial
        · exact quiet_ofExcept _

end Represents

/-- Whether a write asks for what is there. -/
def WriteArgs.Depends (args : WriteArgs) : Prop :=
  args.append = true ∨ args.ifNotExists = true ∨ args.ifMatch ≠ none ∨ args.ifNoneMatch ≠ none

theorem WriteArgs.unconditional_iff (args : WriteArgs) :
    (!args.append && !args.ifNotExists && args.ifMatch.isNone && args.ifNoneMatch.isNone) = true ↔
      ¬ args.Depends := by
  simp only [Depends, Bool.and_eq_true, Bool.not_eq_true', Option.isNone_iff_eq_none, not_or,
    Bool.not_eq_true, ne_eq, not_not, and_assoc]

namespace Represents

/-- **A write loads the object it depends on.** -/
theorem loads_set_iff (h : Represents P s m) {now : Number} {incoming : Bytes}
    {args : WriteArgs} :
    Loads (Requests.set P now path incoming args) s v ↔
      ∃ o, m.get path = some o ∧ args.Depends ∧ v = o.record path := by
  obtain ⟨rest, hset, hrest⟩ : ∃ rest : Option DataRecord → TxnProgram EntryInfo,
      Requests.set P now path incoming args =
        ((if !args.append && !args.ifNotExists && args.ifMatch.isNone && args.ifNoneMatch.isNone
          then pure none else Requests.store (.get path)) >>= rest) ∧
        ∀ data, Quiet (rest data) := by
    refine ⟨_, rfl, fun data => Quiet.bind (.ite (quiet_readMeta path) trivial) fun sidecar => ?_⟩
    refine .ite trivial (.ite trivial (.ite trivial ((quiet_ofExcept _).bind fun kept => ?_)))
    exact ⟨fun _ => rfl, fun _ => ⟨fun _ => rfl, fun _ => trivial⟩⟩
  rw [hset]
  by_cases hdep : args.Depends
  · rw [if_neg (mt args.unconditional_iff.1 (not_not.2 hdep)), loads_get_quiet_iff hrest, h.get_eq]
    simp [hdep, eq_comm]
  · rw [if_pos (args.unconditional_iff.2 hdep)]
    refine iff_of_false (hrest none).not_loads ?_
    rintro ⟨_, _, hdep', -⟩
    exact hdep hdep'

/-- The sidecar of its destination is enough for a copy. -/
theorem not_loads_targetMatches (h : Represents P s m) {ifMatch : Option Str} :
    ¬ Loads (targetMatches P ifMatch dst (s.store.contains (.text dst))) s v := by
  cases ifMatch with
  | none => exact not_loads_pure _
  | some want =>
    have htarget : ¬ Loads (targetEtag P dst (s.store.contains (.text dst))) s v := by
      rw [OrderedStore.contains, h.get_eq]
      cases ho : m.get dst with
      | none => exact not_loads_pure _
      | some o =>
        simp only [targetEtag, Option.map_some, Option.isSome_some, if_true]
        rw [loads_readMeta_bind_iff, h.readMeta_eq, ho]
        exact not_loads_pure _
    unfold targetMatches
    rwa [loads_map_iff _ (finds_targetEtag dst s)]

/-- **A copy loads its source**, whatever its conditions. -/
theorem loads_copy_iff (h : Represents P s m) {now : Number} {ifNotExists : Bool}
    {ifMatch : Option Str} : Loads (Requests.copy P now src dst ifNotExists ifMatch) s v ↔
      ∃ o, m.get src = some o ∧ v = o.record src := by
  unfold Requests.copy
  rw [loads_get_bind_iff, h.get_eq]
  cases ho : m.get src with
  | none => simpa using Quiet.not_loads (α := Metadata) (p := .fail _) trivial
  | some o =>
    rw [or_iff_left]
    · simp [eq_comm]
    simp only [Option.map_some]
    rw [loads_contains_bind_iff]
    split_ifs
    · exact Quiet.not_loads (p := .fail _) trivial
    · rw [loads_bind_iff (finds_targetMatches ifMatch dst s)]
      rintro (hv | hv)
      · exact h.not_loads_targetMatches hv
      · split_ifs at hv
        · exact Quiet.not_loads (α := Metadata) (p := .fail _) trivial hv
        · refine Quiet.not_loads ((quiet_readMeta src).bind fun sourceMeta =>
            (quiet_ofExcept _).bind fun size => ?_) hv
          exact ⟨fun _ => rfl, fun _ => ⟨fun _ => rfl, fun _ => trivial⟩⟩

/-- **A rename loads what it moves.** -/
theorem loads_rename_iff (h : Represents P s m) :
    Loads (Requests.rename P src dst) s v ↔ ∃ o, m.get src = some o ∧ v = o.record src := by
  unfold Requests.rename
  rw [loads_get_quiet_iff, h.get_eq]
  · simp [eq_comm]
  · rintro (_ | value)
    · trivial
    · refine (quiet_readMeta src).bind fun sourceMeta => (quiet_ofExcept _).bind fun size => ?_
      exact ⟨fun _ => rfl, fun _ => ⟨fun _ => rfl, fun _ => ⟨fun _ => rfl, fun _ =>
        ⟨fun _ => rfl, fun _ => trivial⟩⟩⟩⟩

end Represents

/-! ## Deleting -/

namespace Requests

/-- A directory is deleted by its range, and no cursor is opened. -/
theorem quiet_deletePrefix {p : Str} (h : DirPrefix p) : Quiet (deletePrefix p) := by
  unfold deletePrefix
  rcases h with rfl | hslash
  · exact ⟨fun _ => rfl, fun _ => ⟨fun _ => rfl, fun _ => trivial⟩⟩
  · rw [prefixUpperBound_of_slash hslash]
    exact .ite ⟨fun _ => rfl, fun _ => ⟨fun _ => rfl, fun _ => trivial⟩⟩
      ⟨fun _ => rfl, fun _ => ⟨fun _ => rfl, fun _ => trivial⟩⟩

theorem quiet_deleteBatch (batch : List (Str × Bool)) (exactKeys : List Str) :
    Quiet (deleteBatch batch exactKeys) := by
  induction batch generalizing exactKeys with
  | nil => trivial
  | cons request batch ih =>
    obtain ⟨path, isRecursive⟩ := request
    cases isRecursive with
    | false => exact ih (exactKeys ++ [path])
    | true =>
      exact (quiet_deletePrefix (dirPrefix_recursiveDeleteTarget path)).bind fun _ => ih _

theorem quiet_deleteKeys (exactKeys : List Str) : Quiet (deleteKeys exactKeys) := by
  induction exactKeys with
  | nil => trivial
  | cons key exactKeys ih => exact ⟨fun _ => rfl, fun _ => ⟨fun _ => rfl, fun _ => ih⟩⟩

/-- **A deletion loads nothing**, whatever the stores hold. -/
theorem quiet_deleteMany (batch : List (Str × Bool)) : Quiet (deleteMany batch) :=
  (quiet_deleteBatch batch []).bind quiet_deleteKeys

end Requests

/-! ## Operations -/

/-- **The objects whose contents an operation loads**: the one a read
returns bytes of, the one a write depends on, and the source of a copy or
a rename. Nothing else loads any. -/
inductive Op.LoadsObject (O : Opendal) (P : Platform) (m : Objects) : Op → Str → Object → Prop
  | read {root : Root} {path : Str} {args : ReadArgs} {o : Object}
      (ho : m.get (O.buildAbsPath root.text path) = some o)
      (hcheck : IndexeddbCore.checkRead P args (O.buildAbsPath root.text path) (o.info P) =
        .ok ()) :
      LoadsObject O P m (.read root path args) (O.buildAbsPath root.text path) o
  | set {now : Number} {path : Str} {value : Bytes} {args : WriteArgs} {o : Object}
      (ho : m.get path = some o) (hdep : args.Depends) :
      LoadsObject O P m (.mutate (.set now path value args)) path o
  | copy {now : Number} {src dst : Str} {ifNotExists : Bool} {ifMatch : Option Str} {o : Object}
      (ho : m.get src = some o) (hne : src ≠ dst) :
      LoadsObject O P m (.mutate (.copy now src dst ifNotExists ifMatch)) src o
  | rename {src dst : Str} {o : Object} (ho : m.get src = some o) (hne : src ≠ dst) :
      LoadsObject O P m (.mutate (.rename src dst)) src o

theorem iff_loadsObject_of_not {q : Prop} {op : Op} (hq : ¬ q)
    (hop : ∀ k o, ¬ op.LoadsObject O P m k o) :
    q ↔ ∃ k o, op.LoadsObject O P m k o ∧ v = o.record k := by
  refine iff_of_false hq ?_
  rintro ⟨k, o, hload, -⟩
  exact hop k o hload

theorem Represents.loads_mutation_iff (h : Represents P s m) (mutation : Mutation) :
    Loads (mutation.program O P) s v ↔
      ∃ k o, Op.LoadsObject O P m (.mutate mutation) k o ∧ v = o.record k := by
  cases mutation with
  | set now path value args =>
    rw [Mutation.program, loads_map_iff _ (computes_set now path value args s), h.loads_set_iff]
    constructor
    · rintro ⟨o, ho, hdep, rfl⟩
      exact ⟨path, o, .set ho hdep, rfl⟩
    · rintro ⟨k, o, hload, rfl⟩
      cases hload with
      | set ho hdep => exact ⟨o, ho, hdep, rfl⟩
  | createDir now root path =>
    refine iff_loadsObject_of_not ?_ (by rintro _ _ ⟨⟩)
    simp only [Mutation.program]
    split_ifs
    · rw [loads_map_iff _ (computes_set now _ [] .overwrite s), h.loads_set_iff]
      rintro ⟨_, _, hdep, -⟩
      simp [WriteArgs.Depends, WriteArgs.overwrite] at hdep
    · exact not_loads_pure _
  | copy now src dst ifNotExists ifMatch =>
    simp only [Mutation.program]
    split_ifs with hsame
    · refine iff_loadsObject_of_not (Quiet.not_loads (p := .fail _) trivial) fun k o hload => ?_
      cases hload with
      | copy ho hne => exact hne hsame
    · rw [loads_map_iff _ (computes_copy now src dst ifNotExists ifMatch s), h.loads_copy_iff]
      constructor
      · rintro ⟨o, ho, rfl⟩
        exact ⟨src, o, .copy ho hsame, rfl⟩
      · rintro ⟨k, o, hload, rfl⟩
        cases hload with
        | copy ho hne => exact ⟨o, ho, rfl⟩
  | rename src dst =>
    simp only [Mutation.program]
    split_ifs with hsame
    · refine iff_loadsObject_of_not (Quiet.not_loads (p := .fail _) trivial) fun k o hload => ?_
      cases hload with
      | rename ho hne => exact hne hsame
    · rw [loads_map_iff _ (computes_rename src dst s), h.loads_rename_iff]
      constructor
      · rintro ⟨o, ho, rfl⟩
        exact ⟨src, o, .rename ho hsame, rfl⟩
      · rintro ⟨k, o, hload, rfl⟩
        cases hload with
        | rename ho hne => exact ⟨o, ho, rfl⟩
  | delete path =>
    rw [Mutation.program, loads_map_iff _ (computes_deleteMany [(path, false)] s)]
    refine iff_loadsObject_of_not (quiet_deleteMany [(path, false)]).not_loads ?_
    rintro _ _ ⟨⟩
  | deleteRecursive path =>
    rw [Mutation.program, loads_map_iff _ (computes_deleteMany [(path, true)] s)]
    refine iff_loadsObject_of_not (quiet_deleteMany [(path, true)]).not_loads ?_
    rintro _ _ ⟨⟩
  | deleteMany batch =>
    rw [Mutation.program, loads_map_iff _ (computes_deleteMany batch s)]
    refine iff_loadsObject_of_not (quiet_deleteMany batch).not_loads ?_
    rintro _ _ ⟨⟩

/-- **What an operation loads**, where the stores represent objects. -/
theorem Represents.loads_op_iff (h : Represents P s m) (op : Op) :
    Loads (op.program O P) s v ↔ ∃ k o, op.LoadsObject O P m k o ∧ v = o.record k := by
  cases op with
  | mutate mutation => exact h.loads_mutation_iff mutation
  | stat root path args =>
    refine iff_loadsObject_of_not ?_ (by rintro _ _ ⟨⟩)
    simp only [Op.program]
    split_ifs
    · exact not_loads_pure _
    · rw [loads_map_iff _ (finds_stat _ s)]
      exact h.not_loads_stat
  | read root path args =>
    rw [Op.program, loads_map_iff _ (computes_read _ args s), h.loads_read_iff]
    constructor
    · rintro ⟨o, ho, hcheck, rfl⟩
      exact ⟨_, o, .read ho hcheck, rfl⟩
    · rintro ⟨k, o, hload, rfl⟩
      cases hload with
      | read ho hcheck => exact ⟨o, ho, hcheck, rfl⟩
  | scanPage root req =>
    refine iff_loadsObject_of_not ?_ (by rintro _ _ ⟨⟩)
    simp only [Op.program]
    split_ifs with hnone
    · exact not_loads_pure _
    · obtain ⟨hlimit, hupper⟩ := not_or.1 hnone
      obtain ⟨page, hpage⟩ := Option.isSome_iff_exists.1 (IndexeddbCore.scanPage_isSome P req s)
      rw [loads_map_iff _ (finds_scanPage hlimit (Bool.not_eq_true _ ▸ hupper) hpage)]
      exact h.not_loads_scanPage hlimit hupper

/-! ## Interleaved transactions -/

section World

open Transactions

variable {ι : Type} {dbName : Str} {db db' : ObjectStores}

theorem stores_eq_of_eqOn {core : IndexeddbCore} (h : Set.EqOn db db' core.scope) :
    core.stores db = core.stores db' := by
  rw [IndexeddbCore.stores, IndexeddbCore.stores, h (Set.mem_insert _ _),
    h (Set.mem_insert_of_mem _ rfl)]

/-- **Contents are loaded for reads, writes that depend on them, copies and
renames alone.** However requests interleave and whatever is lost, a
transaction under way that is answered with a data record is one of these,
and the record is that of the object it is about. So no stat, no page of a
listing and no deletion ever loads the contents of a file. A transaction
on stores that nothing writes to would load exactly these. -/
theorem contents_loaded [DecidableEq ι] {db₀ : ObjectStores} {m₀ : StoreName → Objects}
    {w : DbWorld ι dbName} (h : DbReaches O P db₀ w)
    (hrep : ∀ name, Represents P (db₀.named name) (m₀ name)) :
    (∀ i a, w.threads i = .active a → ∀ r next, a.rest = .request r next →
      ∀ v, r.loaded (a.txn.core.stores w.cells) = some v →
        ∃ k o, a.txn.op.LoadsObject O P
          ((w.log.map Ended.txn).foldl (serveObjects O P) m₀ a.txn.core.name) k o ∧
            v = o.record k) ∧
    ∀ t : DbTxn, w.Unwritten t.core.name → ∀ v,
      Loads (t.op.program O P) (t.core.stores w.cells) v ↔
        ∃ k o, t.op.LoadsObject O P
          ((w.log.map Ended.txn).foldl (serveObjects O P) m₀ t.core.name) k o ∧
            v = o.record k := by
  obtain ⟨D, hD⟩ := Reaches.sound h
  refine ⟨fun i a hi r next hr v hv => ?_, fun t hname v => ?_⟩
  · obtain ⟨db, hask, hdb⟩ := Reaches.foreseen h hi r w.cells (hr ▸ .now next)
    have hstart : a.txn.core.stores a.start = a.txn.core.stores D :=
      stores_eq_of_eqOn (hD.isolated.start i a (w.active_of hi))
    -- alone, it makes the request of the stores of its operator
    obtain ⟨s, hask', rfl⟩ := Asks.simulate (N := txnSemantics)
      (R := fun db s => a.txn.core.stores db = s) rfl
      (fun r db s hs => hs ▸ a.txn.core.stores_handle r db) hask rfl
    rw [stores_eq_of_eqOn hdb] at hv
    refine (Represents.loads_op_iff ?_ a.txn.op).1 ⟨r, _, hask', hv⟩
    rw [hstart, ← named_name]
    exact represents_of_serial hD.serial hrep _
  · refine Represents.loads_op_iff ?_ t.op
    rw [← named_name, named_of_unwritten hD hname]
    exact represents_of_serial hD.serial hrep _

end World

/-- An append of the byte 0 to `a`. -/
def appendCall {dbName : Str} (core : IndexeddbCore) (h : core.dbName = dbName) : DbCall dbName :=
  ⟨core, h, fun now => .mutate (.set now ['a'] [0] ⟨true, false, none, none, none⟩)⟩

/-- One operator has written the byte 0 to `a`, another asks for it to
append to it. -/
theorem exists_append_asks :
    ∃ w : DbWorld Bool "db".toList, DbReaches referenceOpendal referencePlatform
      (fun _ => .records .empty) w ∧ ∃ a, w.threads true = .active a ∧
        ∃ next, a.rest = .request (.store (.get ['a'])) next ∧
          TxnRequest.loaded (a.txn.core.stores w.cells) (.store (.get ['a'])) =
            some (KeyAndValue.toValue ⟨['a'], [0]⟩) := by
  have h₀ : (databaseTransactions referenceOpendal referencePlatform "db".toList).Reaches
    (Transactions.World.initial Bool _ _ _ _ _ _ fun _ => .records .empty) _ := .refl
  have h₁ := h₀.step (Transactions.Step.issue (i := false) writeCall rfl)
  have h₂ := h₁.step (Transactions.Step.begin (i := false)
    ⟨dataCore, writeCall.op (.ofNat 7)⟩ rfl ⟨_, rfl⟩ fun j a hj => by cases j <;> cases hj)
  have h₃ := h₂.step (Transactions.Step.request (i := false) rfl rfl)
  have h₄ := h₃.step (Transactions.Step.request (i := false) rfl rfl)
  have h₅ := h₄.step (Transactions.Step.commit (i := false) rfl rfl)
  have h₆ := h₅.step (Transactions.Step.issue (i := true) (appendCall dataCore rfl) rfl)
  have h₇ := h₆.step (Transactions.Step.begin (i := true)
    ⟨dataCore, (appendCall dataCore rfl).op (.ofNat 8)⟩ rfl ⟨_, rfl⟩
    fun j a hj => by cases j <;> cases hj)
  exact ⟨_, h₇, _, rfl, _, rfl, rfl⟩

/-- The append is answered with the contents it is to be put behind. -/
theorem contents_loaded_append :
    ∃ (w : DbWorld Bool "db".toList) (a : Transactions.Active Str ObjectStore
        (DbCall "db".toList) DbTxn Error Outcome txnInterface),
      w.threads true = .active a ∧ ∃ k o,
        a.txn.op.LoadsObject referenceOpendal referencePlatform
          ((w.log.map Transactions.Ended.txn).foldl
            (serveObjects referenceOpendal referencePlatform) (fun _ => .empty) a.txn.core.name)
          k o ∧ KeyAndValue.toValue ⟨['a'], [0]⟩ = o.record k := by
  obtain ⟨w, hw, a, ha, next, hnext, hloaded⟩ := exists_append_asks
  exact ⟨w, a, ha, (contents_loaded hw fun _ => .empty referencePlatform).1 true a ha _ next
    hnext _ hloaded⟩

end OpendalIndexeddb
