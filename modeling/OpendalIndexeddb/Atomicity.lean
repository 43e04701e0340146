import OpendalIndexeddb.Model.Requests
import OpendalIndexeddb.PageScan
/-!
# A transaction is what its requests do

The operations of the model act on the stores at once. Here each is shown
to be what its requests do one by one, from any state: the value, the
error and the stores are the same.
-/

namespace OpendalIndexeddb

open Program

variable {O : Opendal} {P : Platform} {s s' : Stores} {α β : Type}

/-! ## Requests -/

namespace Requests

/-- A program computes a value and leaves the stores alone. -/
abbrev Finds (p : TxnProgram α) (s : Stores) (a : α) : Prop :=
  Computes txnSemantics p s (.ok (a, s))

theorem computes_store (r : StoreRequest DataRecord) (s : Stores) :
    Computes txnSemantics (store r) s
      (.ok ((s.store.handle r).1, { s with store := (s.store.handle r).2 })) :=
  Computes.ask (I := txnInterface) _ _

theorem computes_metaStore (r : StoreRequest MetaValue) (s : Stores) :
    Computes txnSemantics (metaStore r) s
      (.ok ((s.metaStore.handle r).1, { s with metaStore := (s.metaStore.handle r).2 })) :=
  Computes.ask (I := txnInterface) _ _

theorem finds_get (key : Str) (s : Stores) :
    Finds (store (.get key)) s (s.store.get (.text key)) := computes_store _ s

theorem finds_contains (key : Str) (s : Stores) :
    Finds (store (.contains key)) s (s.store.contains (.text key)) := computes_store _ s

theorem finds_pure (a : α) (s : Stores) : Finds (pure a) s a := Computes.done a s

theorem computes_ofExcept (r : Except Error α) (s : Stores) :
    Computes txnSemantics (ofExcept r) s (r.map fun a => (a, s)) := by
  cases r with
  | error err => exact .fail err s
  | ok a => exact .done a s

theorem finds_readMeta (key : Str) (s : Stores) :
    Finds (readMeta key) s (OpendalIndexeddb.readMeta s.metaStore key) :=
  .bind (computes_metaStore _ s) (finds_pure _ s)

theorem computes_putMeta (key : Str) (length : Number) (modifiedMs : Option Number)
    (content : Option MetaContent) (s : Stores) :
    Computes txnSemantics (putMeta key length modifiedMs content) s
      (.ok ((), ⟨s.store, OpendalIndexeddb.putMeta s.metaStore key length modifiedMs content⟩)) :=
  computes_metaStore _ s

/-! ## Reading -/

theorem finds_readMetaUnless (prefetchedMeta : Option MetaRecord) (key : Str) (s : Stores) :
    Finds (readMetaUnless prefetchedMeta key) s
      (prefetchedMeta.or (OpendalIndexeddb.readMeta s.metaStore key)) := by
  cases prefetchedMeta with
  | none => exact finds_readMeta key s
  | some r => exact finds_pure _ s

theorem finds_entryInfoForKey (key : Str) (prefetchedMeta : Option MetaRecord) (s : Stores) :
    Finds (entryInfoForKey P key prefetchedMeta) s
      (OpendalIndexeddb.entryInfoForKey P s key prefetchedMeta) := by
  unfold entryInfoForKey OpendalIndexeddb.entryInfoForKey
  refine .bind (finds_readMetaUnless prefetchedMeta key s) ?_
  cases prefetchedMeta.or (OpendalIndexeddb.readMeta s.metaStore key) with
  | some r =>
    refine .bind (a := if r.e.isNone then (s.store.get (.text key)).bind (valueEtag P) else none)
      ?_ (finds_pure _ s)
    split_ifs
    · exact .bind (finds_get key s) (finds_pure _ s)
    · exact finds_pure _ s
  | none =>
    dsimp only
    split_ifs
    · exact finds_pure _ s
    · refine .bind (finds_get key s) ?_
      cases s.store.get (.text key) <;> exact finds_pure _ s

/-- What a program that only reads returns. -/
def Found (s : Stores) (r : Except Error α) : Except Error (α × Stores) := r.map fun a => (a, s)

/-- A check, and what follows it. -/
theorem computes_checked (c : Except Error Unit) {p : TxnProgram α} {r : Except Error α}
    (hp : Computes txnSemantics p s (Found s r)) :
    Computes txnSemantics (ofExcept c >>= fun _ => p) s
      (Found s (match c with | .error err => .error err | .ok () => r)) := by
  cases c with
  | error err => exact (Computes.fail err s).bind_error
  | ok u => exact .bind (.done u s) hp

theorem computes_readRecord (path : Str) (args : ReadArgs) (sidecar : Option MetaRecord)
    (s : Stores) : Computes txnSemantics (readRecord P path args sidecar) s
      (Found s <| match s.store.get (.text path) with
        | none => .ok none
        | some value =>
          let info : EntryInfo := match sidecar with
            | some r => ⟨entryMetaWithEtagFallback r (valueEtag P value)⟩
            | none => ⟨(EntryMeta.fromSize (valueByteLength value)).withEtag (valueEtag P value)⟩
          match IndexeddbCore.checkRead P args path info with
          | .error err => .error err
          | .ok () => IndexeddbCore.readValue args path info value) := by
  refine .bind (finds_get path s) ?_
  cases s.store.get (.text path) with
  | none => exact finds_pure _ s
  | some value => cases sidecar <;> exact computes_checked _ (computes_ofExcept _ s)

/-- **A read is what its requests find.** -/
theorem computes_read (path : Str) (args : ReadArgs) (s : Stores) :
    Computes txnSemantics (read P path args) s (Found s (IndexeddbCore.read P path args s)) := by
  unfold read IndexeddbCore.read
  refine .bind (finds_readMeta path s) ?_
  cases OpendalIndexeddb.readMeta s.metaStore path with
  | none => exact computes_readRecord path args none s
  | some r =>
    by_cases he : r.e.isSome
    · simp only [Option.filter_some, he, if_true]
      have hpresent : Finds (if args.hasConditions then store (.contains path)
          else pure true : TxnProgram Bool) s
          (!(args.hasConditions && !s.store.contains (.text path))) := by
        cases args.hasConditions with
        | false => exact finds_pure true s
        | true =>
          rw [Bool.true_and, Bool.not_not]
          exact finds_contains path s
      refine .bind hpresent ?_
      generalize (args.hasConditions && !s.store.contains (.text path)) = absent
      cases absent with
      | true => exact finds_pure none s
      | false =>
        simp only [Bool.not_false, Bool.not_true, Bool.false_eq_true, if_false]
        refine computes_checked _ (.bind (finds_get path s) ?_)
        cases s.store.get (.text path) with
        | none => exact finds_pure none s
        | some value => exact computes_ofExcept _ s
    · simp only [Option.filter_some, he, if_false, Bool.false_eq_true]
      exact computes_readRecord path args (some r) s

/-- **A stat is what its requests find.** -/
theorem finds_stat (path : Str) (s : Stores) :
    Finds (stat P path) s (IndexeddbCore.stat P path s) := by
  unfold stat IndexeddbCore.stat
  refine .bind (finds_readMeta path s) ?_
  unfold OpendalIndexeddb.readMeta
  cases (s.metaStore.get (.text path)).bind MetaValue.decode with
  | none =>
    refine .bind (finds_get path s) ?_
    cases s.store.get (.text path) <;> exact finds_pure _ s
  | some r =>
    dsimp only
    by_cases he : r.e.isSome
    · simp only [he, if_true, Bool.true_and]
      refine .bind (finds_contains path s) ?_
      cases s.store.contains (.text path) with
      | true => exact finds_pure _ s
      | false => simpa [Option.isSome_iff_ne_none.1 he] using finds_pure _ s
    · simp only [he, if_false, Bool.false_and, Bool.false_eq_true]
      refine .bind (finds_get path s) ?_
      cases s.store.get (.text path) <;> simpa [Option.not_isSome_iff_eq_none.1 he] using
        finds_pure _ s

/-! ## Writing -/

/-- Records put into both stores. -/
theorem computes_put {f : Unit → Unit → TxnProgram α} {out : Except Error (α × Stores)}
    (v : DataRecord) (m : MetaValue) (s : Stores)
    (hf : Computes txnSemantics (f () ()) ⟨s.store.put v, s.metaStore.put m⟩ out) :
    Computes txnSemantics
      (store (.put v) >>= fun a => metaStore (.put m) >>= fun b => f a b) s out :=
  .bind (computes_store _ s) (.bind (computes_metaStore _ _) hf)

/-- **A write is what its requests do.** -/
theorem computes_set (now : Number) (path : Str) (incoming : Bytes) (args : WriteArgs)
    (s : Stores) : Computes txnSemantics (set P now path incoming args) s
      (IndexeddbCore.setTxn P now path incoming args s) := by
  unfold set IndexeddbCore.setTxn
  generalize hov : (!args.append && !args.ifNotExists && args.ifMatch.isNone &&
    args.ifNoneMatch.isNone) = unconditionalOverwrite
  have hdata : Finds (if unconditionalOverwrite then pure none
      else store (.get path) : TxnProgram (Option DataRecord)) s
      (if unconditionalOverwrite then none else s.store.get (.text path)) := by
    cases unconditionalOverwrite with
    | true => exact finds_pure none s
    | false => exact finds_get path s
  refine .bind hdata ?_
  dsimp only
  generalize (if unconditionalOverwrite = true then none else s.store.get (.text path)) = data
  have hmeta : Finds (if data.isSome then readMeta path
      else pure none : TxnProgram (Option MetaRecord)) s
      (if data.isSome then OpendalIndexeddb.readMeta s.metaStore path else none) := by
    cases data with
    | none => exact finds_pure none s
    | some value => exact finds_readMeta path s
  refine .bind hmeta ?_
  generalize (if data.isSome = true then OpendalIndexeddb.readMeta s.metaStore path
    else none) = sidecar
  refine .ite (fun _ => .fail _ s) fun _ => .ite (fun _ => .fail _ s) fun _ =>
    .ite (fun _ => .fail _ s) fun _ => ?_
  -- what is kept is known from whether the write appends, and to what
  obtain ⟨append, ifNotExists, ifMatch, ifNoneMatch, content⟩ := args
  cases append with
  | false => exact .bind (.done [] s) (computes_put _ _ s (.done _ _))
  | true =>
    cases data with
    | none => exact .bind (.done [] s) (computes_put _ _ s (.done _ _))
    | some value =>
      simp only [if_true]
      cases recordBytes value path with
      | error err => exact (Computes.fail err s).bind_error
      | ok kept => exact .bind (.done kept s) (computes_put _ _ s (.done _ _))

/-! ## Copying and moving -/

theorem finds_targetEtag (dst : Str) (s : Stores) :
    Finds (targetEtag P dst (s.store.contains (.text dst))) s
      (IndexeddbCore.targetEtag P s dst) := by
  unfold targetEtag IndexeddbCore.targetEtag
  cases s.store.contains (.text dst) with
  | false => exact finds_pure none s
  | true =>
    simp only [if_true]
    refine .bind (finds_readMeta dst s) ?_
    cases OpendalIndexeddb.readMeta s.metaStore dst with
    | none => exact .bind (finds_get dst s) (finds_pure _ s)
    | some r =>
      simp only [Option.bind_some]
      cases r.e with
      | none => exact .bind (finds_get dst s) (finds_pure _ s)
      | some etag => exact finds_pure (some etag) s

theorem finds_targetMatches (ifMatch : Option Str) (dst : Str) (s : Stores) :
    Finds (targetMatches P ifMatch dst (s.store.contains (.text dst))) s
      (!ifMatch.any fun want => !IndexeddbCore.etagMatches want (s.store.contains (.text dst))
        (IndexeddbCore.targetEtag P s dst)) := by
  cases ifMatch with
  | none => exact finds_pure true s
  | some want =>
    rw [Option.any_some, Bool.not_not]
    exact .bind (finds_targetEtag dst s) (finds_pure _ s)

/-- **A copy is what its requests do.** -/
theorem computes_copy (now : Number) (src dst : Str) (ifNotExists : Bool) (ifMatch : Option Str)
    (s : Stores) : Computes txnSemantics (copy P now src dst ifNotExists ifMatch) s
      (IndexeddbCore.copyTxn P now src dst ifNotExists ifMatch s) := by
  unfold copy IndexeddbCore.copyTxn
  refine .bind (finds_get src s) ?_
  cases s.store.get (.text src) with
  | none => exact .fail _ s
  | some value =>
    refine .bind (finds_contains dst s) ?_
    refine .ite (fun _ => .fail _ s) fun _ => ?_
    refine .bind (finds_targetMatches ifMatch dst s) ?_
    rw [Bool.not_not]
    refine .ite (fun _ => .fail _ s) fun _ => .bind (finds_readMeta src s) ?_
    dsimp only
    cases sourceSize (OpendalIndexeddb.readMeta s.metaStore src) value src with
    | error err => exact (Computes.fail err s).bind_error
    | ok size =>
      exact .bind (.done size s) (.bind (computes_store _ s)
        (.bind (computes_putMeta dst size _ _ _) (finds_pure _ _)))

/-- **A rename is what its requests do.** -/
theorem computes_rename (src dst : Str) (s : Stores) :
    Computes txnSemantics (rename P src dst) s (IndexeddbCore.renameTxn P src dst s) := by
  unfold rename IndexeddbCore.renameTxn
  refine .bind (finds_get src s) ?_
  cases s.store.get (.text src) with
  | none => exact .fail _ s
  | some value =>
    refine .bind (finds_readMeta src s) ?_
    dsimp only
    cases sourceSize (OpendalIndexeddb.readMeta s.metaStore src) value src with
    | error err => exact (Computes.fail err s).bind_error
    | ok size =>
      exact .bind (.done size s) (.bind (computes_store _ s) (.bind (computes_store _ _)
        (.bind (computes_putMeta dst size _ _ _) (computes_metaStore _ _))))

/-! ## Deleting -/

theorem finds_cursor (range : KeyRange Key) (past : Option Key) (s : Stores) :
    Finds (store (.cursor range past)) s (s.store.itemsPast range past).head? := by
  rw [← OrderedStore.firstPast_eq_head?]
  exact computes_store _ s

theorem finds_metaCursor (range : KeyRange Key) (past : Option Key) (s : Stores) :
    Finds (metaStore (.cursor range past)) s (s.metaStore.itemsPast range past).head? := by
  rw [← OrderedStore.firstPast_eq_head?]
  exact computes_metaStore _ s

/-- A key removed from both stores. -/
theorem computes_deleteKey {f : Unit → Unit → TxnProgram α} {out : Except Error (α × Stores)}
    (key : Str) (s : Stores)
    (hf : Computes txnSemantics (f () ()) (OpendalIndexeddb.deleteKey s key) out) :
    Computes txnSemantics
      (store (.delete key) >>= fun a => metaStore (.delete key) >>= fun b => f a b) s out :=
  .bind (computes_store _ s) (.bind (computes_metaStore _ _) hf)

/-- **The cursor sees what it would have seen.** It deletes as it goes, and
yet visits the records that were before it when it was opened. -/
theorem computes_deleteVisited (keyPrefix : Str) (range : KeyRange Key) {past : Option Key}
    {s : Stores} {values : List DataRecord} (h : s.store.itemsPast range past = values) :
    Computes txnSemantics (loop (.deletePrefix keyPrefix range values.head?)) s
      (.ok ((), deleteVisited keyPrefix (values.map DataRecord.k) s)) := by
  induction values generalizing past s with
  | nil => exact .loop (finds_pure () s)
  | cons value values ih =>
    have hrest := OrderedStore.itemsPast_advance h
    refine .loop ?_
    show Computes txnSemantics (deletePrefixBody keyPrefix range (some value)) s _
    unfold deletePrefixBody
    rw [List.map_cons, deleteVisited]
    dsimp only
    cases hkey : value.k.asString with
    | none =>
      have hnext := finds_cursor range (some value.k) s
      rw [hrest] at hnext
      exact .bind hnext (ih hrest)
    | some key =>
      have htext : value.k = .text key := Key.asString_eq_some_iff.1 hkey
      by_cases hpre : keyPrefix <+: key
      · simp only [hpre, decide_true, Bool.not_true, Bool.false_eq_true, if_false, if_true]
        have hrest' : (deleteKey s key).store.itemsPast range (some value.k) = values := by
          rw [htext] at hrest ⊢
          exact OrderedStore.itemsPast_delete.trans hrest
        have hnext := finds_cursor range (some value.k) (deleteKey s key)
        rw [hrest'] at hnext
        exact computes_deleteKey key s (.bind hnext (ih hrest'))
      · simp only [hpre, decide_false, Bool.not_false, if_true, if_false]
        exact finds_pure () s

theorem computes_deletePrefixByCursor (keyPrefix : Str) (s : Stores) :
    Computes txnSemantics (deletePrefixByCursor keyPrefix) s
      (.ok ((), OpendalIndexeddb.deletePrefixByCursor s keyPrefix)) := by
  have hloop := computes_deleteVisited keyPrefix ⟨.included (.text keyPrefix), .unbounded⟩
    (s := s) OrderedStore.itemsPast_none
  have hkeys : s.store.keys.filter (KeyRange.mk (.included (.text keyPrefix)) .unbounded).contains =
      (s.store.cursor ⟨.included (.text keyPrefix), .unbounded⟩).map DataRecord.k :=
    List.filter_map
  rw [← hkeys] at hloop
  have hopen := finds_cursor ⟨.included (.text keyPrefix), .unbounded⟩ none s
  rw [OrderedStore.itemsPast_none] at hopen
  exact .bind hopen hloop

theorem computes_deletePrefix (keyPrefix : Str) (s : Stores) :
    Computes txnSemantics (deletePrefix keyPrefix) s
      (.ok ((), OpendalIndexeddb.deletePrefix s keyPrefix)) := by
  unfold deletePrefix OpendalIndexeddb.deletePrefix
  by_cases hempty : keyPrefix = []
  · rw [if_pos hempty, if_pos hempty]
    exact .bind (computes_store .clear s) (computes_metaStore .clear _)
  · rw [if_neg hempty, if_neg hempty]
    cases prefixUpperBound keyPrefix with
    | some upper =>
      exact .bind (computes_store (.deleteRange (textRange keyPrefix upper)) s)
        (computes_metaStore (.deleteRange (textRange keyPrefix upper)) _)
    | none => exact computes_deletePrefixByCursor keyPrefix s

theorem computes_deleteBatch (batch : List (Str × Bool)) (exactKeys : List Str) (s : Stores) :
    Computes txnSemantics (deleteBatch batch exactKeys) s
      (.ok (IndexeddbCore.deleteBatch batch exactKeys s)) := by
  induction batch generalizing exactKeys s with
  | nil => exact .done exactKeys s
  | cons request batch ih =>
    obtain ⟨path, isRecursive⟩ := request
    cases isRecursive with
    | false => exact ih (exactKeys ++ [path]) s
    | true => exact .bind (computes_deletePrefix _ s) (ih _ _)

theorem computes_deleteKeys (exactKeys : List Str) (s : Stores) :
    Computes txnSemantics (deleteKeys exactKeys) s
      (.ok ((), exactKeys.foldl OpendalIndexeddb.deleteKey s)) := by
  induction exactKeys generalizing s with
  | nil => exact .done () s
  | cons key exactKeys ih => exact computes_deleteKey key s (ih _)

/-- **A deletion is what its requests do.** -/
theorem computes_deleteMany (batch : List (Str × Bool)) (s : Stores) :
    Computes txnSemantics (deleteMany batch) s (.ok ((), IndexeddbCore.deleteMany batch s)) := by
  unfold deleteMany IndexeddbCore.deleteMany
  split_ifs with hbatch
  · subst hbatch
    exact .done () s
  · exact .bind (computes_deleteBatch batch [] s) (computes_deleteKeys _ _)

/-! ## The page scan -/

/-- **The loop of a scan is what its requests find**, for as many
iterations as it makes. -/
theorem finds_scan {req : IndexeddbCore.ScanPageRequest} {upper : Option Str} {fuel : ℕ}
    {st : IndexeddbCore.ScanState} {out : IndexeddbCore.ScanState × Bool}
    (h : IndexeddbCore.scanLoop s.store req upper fuel st = some out) :
    Finds (loop (.scan req upper st)) s out := by
  induction fuel generalizing st with
  | zero => cases h
  | succ fuel ih =>
    refine .loop ?_
    show Finds (scanBody req upper st) s out
    rw [IndexeddbCore.scanLoop] at h
    unfold scanBody
    by_cases hupper : upper.any fun upper => strLe upper st.lower
    · rw [if_pos hupper] at h ⊢
      obtain rfl := Option.some.inj h
      exact finds_pure _ s
    · rw [if_neg hupper] at h ⊢
      have hkeys : Finds (getAllStringKeysIn st.lower st.lowerOpen upper
          (req.limit - st.keys.length)) s (IndexeddbCore.getAllStringKeysIn s.store st.lower
            st.lowerOpen upper (req.limit - st.keys.length)) :=
        .bind (computes_store _ s) (finds_pure _ s)
      refine .bind hkeys ?_
      dsimp only at h ⊢
      generalize IndexeddbCore.getAllStringKeysIn s.store st.lower st.lowerOpen upper
        (req.limit - st.keys.length) = page at h ⊢
      obtain ⟨fetched, fetchedLen⟩ := page
      dsimp only at h ⊢
      by_cases hlen : fetchedLen = 0
      · rw [if_pos hlen] at h ⊢
        obtain rfl := Option.some.inj h
        exact finds_pure _ s
      rw [if_neg hlen] at h ⊢
      by_cases hfetched : fetched = []
      · rw [if_pos hfetched] at h ⊢
        obtain rfl := Option.some.inj h
        exact finds_pure _ s
      rw [if_neg hfetched] at h ⊢
      cases hflow : IndexeddbCore.scanFetched req fetched st with
      | breakScan st' done =>
        rw [hflow] at h
        obtain rfl := Option.some.inj h
        exact finds_pure _ s
      | continueScan st' =>
        rw [hflow] at h
        exact ih h
      | exhausted st' =>
        rw [hflow] at h
        dsimp only at h ⊢
        by_cases hshort : fetchedLen < req.limit - st.keys.length
        · rw [if_pos hshort] at h ⊢
          obtain rfl := Option.some.inj h
          exact finds_pure _ s
        · rw [if_neg hshort] at h ⊢
          exact ih h

/-- What the cursor over the sidecars keeps of a value. -/
def prefetched (value : MetaValue) : Option (Str × MetaRecord) :=
  match value.k.asString, value.decode with
  | some key, some r => some (key, r)
  | _, _ => none

theorem finds_prefetch (range : KeyRange Key) {past : Option Key} {values : List MetaValue}
    (h : s.metaStore.itemsPast range past = values) (metas : List (Str × MetaRecord)) :
    Finds (loop (.prefetch range values.head? metas)) s
      (metas ++ values.filterMap prefetched) := by
  induction values generalizing past metas with
  | nil =>
    rw [List.filterMap_nil, List.append_nil]
    exact .loop (finds_pure metas s)
  | cons value values ih =>
    have hrest := OrderedStore.itemsPast_advance h
    have hnext := finds_metaCursor range (some value.k) s
    rw [hrest] at hnext
    refine .loop ?_
    show Finds (prefetchBody range (some value) metas) s _
    unfold prefetchBody
    have hmetas : metas ++ (value :: values).filterMap prefetched =
        (match value.k.asString, value.decode with
          | some key, some r => metas ++ [(key, r)]
          | _, _ => metas) ++ values.filterMap prefetched := by
      rw [List.filterMap_cons, prefetched]
      cases value.k.asString <;> cases value.decode <;> simp
    rw [hmetas]
    exact .bind hnext (ih hrest _)

theorem finds_prefetchMetas (keys : List Str) (s : Stores) :
    Finds (prefetchMetas keys) s (IndexeddbCore.prefetchMetas s.metaStore keys) := by
  unfold prefetchMetas IndexeddbCore.prefetchMetas
  split_ifs
  · cases keys.head? with
    | none => exact finds_pure [] s
    | some firstKey =>
      cases keys.getLast? with
      | none => exact finds_pure [] s
      | some lastKey =>
        have hopen := finds_metaCursor
          ⟨.included (.text firstKey), .included (.text lastKey)⟩ none s
        rw [OrderedStore.itemsPast_none] at hopen
        exact .bind hopen (finds_prefetch _ OrderedStore.itemsPast_none [])
  · exact finds_pure [] s

theorem finds_joinMetas (keys : List Str) (metas : List (Str × MetaRecord)) (s : Stores) :
    Finds (joinMetas P keys metas) s (IndexeddbCore.joinMetas P s keys metas) := by
  induction keys generalizing metas with
  | nil => exact .done [] s
  | cons key keys ih =>
    exact .bind (finds_entryInfoForKey key _ s) (.bind (ih _) (finds_pure _ s))

/-- **A page is what its requests find.** -/
theorem finds_scanPage {req : IndexeddbCore.ScanPageRequest} (hlimit : req.limit ≠ 0)
    (hupper : (prefixUpperBound req.keyPrefix).any (fun upper => strLe upper req.start.lower) =
      false) {page : IndexeddbCore.ScanPage} (h : IndexeddbCore.scanPage P req s = some page) :
    Finds (scanPage P req) s page := by
  rw [IndexeddbCore.scanPage, if_neg hlimit] at h
  simp only [hupper, Bool.false_eq_true, if_false] at h
  cases hscan : IndexeddbCore.scanLoop s.store req (prefixUpperBound req.keyPrefix)
      (s.store.items.length + 1) req.start with
  | none =>
    rw [hscan] at h
    cases h
  | some out =>
    rw [hscan] at h
    obtain rfl := Option.some.inj h
    exact .bind (finds_scan hscan) (.bind (finds_prefetchMetas _ s)
      (.bind (finds_joinMetas _ _ s) (finds_pure _ s)))

end Requests

/-! ## Operations -/

open Requests

/-- What is made of a value, and of an error. -/
theorem computes_outcome {p : TxnProgram α} {r : Except Error (α × Stores)} (f : α → Outcome)
    (h : Computes txnSemantics p s r) :
    Computes txnSemantics (p >>= fun a => pure (f a)) s (r.map fun as => (f as.1, as.2)) := by
  rcases r with err | ⟨a, s'⟩
  · exact h.bind_error
  · exact .bind h (finds_pure _ s')

theorem Mutation.computes (m : Mutation) (s : Stores) :
    ∃ out, Computes txnSemantics (m.program O P) s out ∧
      Op.settle s (.mutate m) out = m.step O P s := by
  cases m with
  | set now path value args =>
    refine ⟨_, computes_outcome _ (computes_set now path value args s), ?_⟩
    simp only [Mutation.step, IndexeddbBackend.write, IndexeddbCore.set, runTransaction]
    cases IndexeddbCore.setTxn P now path value args s <;> rfl
  | createDir now root path =>
    simp only [Mutation.program, Mutation.step, IndexeddbBackend.createDir]
    split_ifs
    · refine ⟨_, computes_outcome _ (computes_set now _ [] .overwrite s), ?_⟩
      simp only [IndexeddbCore.set, runTransaction]
      cases IndexeddbCore.setTxn P now (O.buildAbsPath root.text path) [] .overwrite s <;> rfl
    · exact ⟨_, finds_pure _ s, rfl⟩
  | copy now src dst ifNotExists ifMatch =>
    simp only [Mutation.program, Mutation.step, IndexeddbCore.copy]
    split_ifs
    · exact ⟨_, .fail _ s, rfl⟩
    · refine ⟨_, computes_outcome _ (computes_copy now src dst ifNotExists ifMatch s), ?_⟩
      rw [runTransaction]
      cases IndexeddbCore.copyTxn P now src dst ifNotExists ifMatch s <;> rfl
  | rename src dst =>
    simp only [Mutation.program, Mutation.step, IndexeddbCore.rename]
    split_ifs
    · exact ⟨_, .fail _ s, rfl⟩
    · refine ⟨_, computes_outcome _ (computes_rename src dst s), ?_⟩
      rw [runTransaction]
      cases IndexeddbCore.renameTxn P src dst s <;> rfl
  | delete path =>
    exact ⟨_, computes_outcome _ (computes_deleteMany [(path, false)] s), rfl⟩
  | deleteRecursive path =>
    exact ⟨_, computes_outcome _ (computes_deleteMany [(path, true)] s), rfl⟩
  | deleteMany batch => exact ⟨_, computes_outcome _ (computes_deleteMany batch s), rfl⟩

theorem Op.computes (op : Op) (s : Stores) :
    ∃ out, Computes txnSemantics (op.program O P) s out ∧ op.settle s out = op.step O P s := by
  cases op with
  | mutate m => exact m.computes s
  | stat root path args =>
    simp only [Op.program, Op.step, IndexeddbBackend.stat]
    split_ifs
    · exact ⟨_, finds_pure _ s, rfl⟩
    · refine ⟨_, computes_outcome _ (finds_stat (O.buildAbsPath root.text path) s), ?_⟩
      cases IndexeddbCore.stat P (O.buildAbsPath root.text path) s <;> rfl
  | read root path args =>
    refine ⟨_, computes_outcome _ (computes_read (O.buildAbsPath root.text path) args s), ?_⟩
    simp only [Op.step, IndexeddbBackend.read]
    rcases IndexeddbCore.read P (O.buildAbsPath root.text path) args s with
      err | (_ | ⟨info, bytes⟩) <;> rfl
  | scanPage root req =>
    obtain ⟨page, hpage⟩ := Option.isSome_iff_exists.1 (IndexeddbCore.scanPage_isSome P req s)
    simp only [Op.program, Op.step, hpage]
    split_ifs with hnone
    · refine ⟨_, finds_pure _ s, ?_⟩
      have hpage' : page = ⟨[], req.startAfter, req.skipPrefix, true⟩ := by
        rw [IndexeddbCore.scanPage] at hpage
        rcases hnone with hlimit | hupper
        · rw [if_pos hlimit] at hpage
          exact (Option.some.inj hpage).symm
        · simp only [hupper, if_true, ite_self] at hpage
          exact (Option.some.inj hpage).symm
      rw [hpage']
      rfl
    · obtain ⟨hlimit, hupper⟩ := not_or.1 hnone
      exact ⟨_, computes_outcome _ (finds_scanPage hlimit (Bool.not_eq_true _ ▸ hupper) hpage),
        rfl⟩

/-! ## What operations that read request -/

/-- The loops of a page scan, which only read. -/
def TxnLoop.reads : TxnLoop → Prop
  | .scan _ _ _ => True
  | .prefetch _ _ _ => True
  | .deletePrefix _ _ _ => False

/-- A program that writes nothing, whatever it is answered. -/
abbrev Requests.Reads (p : TxnProgram α) : Prop :=
  p.Only (fun r => TxnRequest.writes r = false) TxnLoop.reads

namespace Requests

theorem reads_done (a : α) : Requests.Reads (.done a) := trivial

theorem reads_bind {p : TxnProgram α} {f : α → TxnProgram β} (h : Reads p) (hf : ∀ a, Reads (f a)) :
    Reads (p >>= f) :=
  Only.bind h hf

theorem reads_store {r : StoreRequest DataRecord} (h : r.writes = false) : Reads (store r) :=
  ⟨h, fun _ => trivial⟩

theorem reads_metaStore {r : StoreRequest MetaValue} (h : r.writes = false) : Reads (metaStore r) :=
  ⟨h, fun _ => trivial⟩

theorem reads_ofExcept (r : Except Error α) : Reads (ofExcept r) := by
  cases r <;> trivial

theorem reads_loop {l : TxnLoop} (h : l.reads) : Reads (loop l) := ⟨h, fun _ => trivial⟩

theorem reads_readMeta (key : Str) : Reads (readMeta key) :=
  reads_bind (reads_metaStore rfl) fun _ => trivial

theorem reads_entryInfoForKey (key : Str) (prefetchedMeta : Option MetaRecord) :
    Reads (entryInfoForKey P key prefetchedMeta) := by
  unfold Requests.entryInfoForKey
  refine reads_bind ?_ fun sidecar => ?_
  · cases prefetchedMeta with
    | none => exact reads_readMeta key
    | some r => exact reads_done (some r)
  · cases sidecar with
    | some r =>
      refine reads_bind ?_ fun _ => trivial
      split_ifs
      · exact reads_bind (reads_store rfl) fun _ => trivial
      · exact reads_done _
    | none =>
      dsimp only
      split_ifs
      · exact reads_done _
      · refine reads_bind (reads_store rfl) fun value => ?_
        cases value <;> exact reads_done _

theorem reads_readRecord (path : Str) (args : ReadArgs) (sidecar : Option MetaRecord) :
    Reads (readRecord P path args sidecar) := by
  refine reads_bind (reads_store rfl) fun value => ?_
  cases value with
  | none => exact reads_done _
  | some value => exact reads_bind (reads_ofExcept _) fun _ => reads_ofExcept _

theorem reads_read (path : Str) (args : ReadArgs) : Reads (read P path args) := by
  refine reads_bind (reads_readMeta path) fun sidecar => ?_
  cases sidecar.filter (·.e.isSome) with
  | none => exact reads_readRecord path args sidecar
  | some r =>
    refine reads_bind ?_ fun present => ?_
    · cases args.hasConditions with
      | false => exact reads_done true
      | true => exact reads_store rfl
    · cases present with
      | false => exact reads_done none
      | true =>
        refine reads_bind (reads_ofExcept _) fun _ => reads_bind (reads_store rfl) fun value => ?_
        cases value with
        | none => exact reads_done none
        | some value => exact reads_ofExcept _

theorem reads_stat (path : Str) : Reads (stat P path) := by
  refine reads_bind (reads_readMeta path) fun sidecar => ?_
  cases sidecar with
  | none =>
    refine reads_bind (reads_store rfl) fun value => ?_
    cases value <;> exact reads_done _
  | some r =>
    dsimp only
    split_ifs
    · refine reads_bind (reads_store rfl) fun present => ?_
      cases present <;> exact reads_done _
    · refine reads_bind (reads_store rfl) fun value => ?_
      cases value <;> exact reads_done _

/-- A page scan asks the data store for keys and opens a cursor on the
other: so are all its requests but those for single keys. -/
theorem only_prefetchMetas {q : TxnRequest → Prop}
    (hcursor : ∀ range past, q (.metaStore (.cursor range past))) (keys : List Str) :
    (prefetchMetas keys).Only q TxnLoop.reads := by
  unfold Requests.prefetchMetas
  split_ifs
  · cases keys.head? with
    | none => trivial
    | some firstKey =>
      cases keys.getLast? with
      | none => trivial
      | some lastKey =>
        have hopen : (metaStore (.cursor ⟨.included (.text firstKey), .included (.text lastKey)⟩
            none)).Only q TxnLoop.reads := ⟨hcursor _ _, fun _ => trivial⟩
        exact hopen.bind fun value => ⟨trivial, fun _ => trivial⟩
  · trivial

theorem reads_prefetchMetas (keys : List Str) : Reads (prefetchMetas keys) :=
  only_prefetchMetas (fun _ _ => rfl) keys

theorem reads_joinMetas (keys : List Str) (metas : List (Str × MetaRecord)) :
    Reads (joinMetas P keys metas) := by
  induction keys generalizing metas with
  | nil => exact reads_done []
  | cons key keys ih =>
    exact reads_bind (reads_entryInfoForKey key _) fun _ => reads_bind (ih _) fun _ => trivial

theorem reads_scanPage (req : IndexeddbCore.ScanPageRequest) : Reads (scanPage P req) :=
  reads_bind (reads_loop trivial) fun _ => reads_bind (reads_prefetchMetas _) fun _ =>
    reads_bind (reads_joinMetas _ _) fun _ => trivial

theorem only_body {q : TxnRequest → Prop}
    (hkeys : ∀ range limit, q (.store (.getAllKeysIn range limit)))
    (hcursor : ∀ range past, q (.metaStore (.cursor range past))) {l : TxnLoop} (h : l.reads) :
    (body l).Only q TxnLoop.reads := by
  cases l with
  | deletePrefix keyPrefix range value => exact h.elim
  | prefetch range value metas =>
    cases value with
    | none => trivial
    | some value =>
      have hnext : (metaStore (.cursor range (some value.k))).Only q TxnLoop.reads :=
        ⟨hcursor _ _, fun _ => trivial⟩
      exact hnext.bind fun _ => ⟨trivial, fun _ => trivial⟩
  | scan req upper st =>
    show (scanBody req upper st).Only q TxnLoop.reads
    unfold scanBody
    split_ifs
    · trivial
    · have hfetch : (getAllStringKeysIn st.lower st.lowerOpen upper
          (req.limit - st.keys.length)).Only q TxnLoop.reads := ⟨hkeys _ _, fun _ => trivial⟩
      refine hfetch.bind fun page => ?_
      obtain ⟨fetched, fetchedLen⟩ := page
      dsimp only
      by_cases hlen : fetchedLen = 0
      · rw [if_pos hlen]
        trivial
      rw [if_neg hlen]
      by_cases hfetched : fetched = []
      · rw [if_pos hfetched]
        trivial
      rw [if_neg hfetched]
      cases IndexeddbCore.scanFetched req fetched st with
      | breakScan st' done' => trivial
      | continueScan st' => exact ⟨trivial, fun _ => trivial⟩
      | exhausted st' =>
        dsimp only
        split_ifs
        · trivial
        · exact ⟨trivial, fun _ => trivial⟩

theorem reads_body {l : TxnLoop} (h : l.reads) : Reads (body l) :=
  only_body (fun _ _ => rfl) (fun _ _ => rfl) h

end Requests

/-- An operation opened for reading requests nothing that writes. -/
theorem Op.program_reads {op : Op} (h : op.readwrite = false) :
    Requests.Reads (op.program O P) := by
  cases op with
  | mutate m => cases h
  | stat root path args =>
    simp only [Op.program]
    split_ifs
    · exact reads_done _
    · exact reads_bind (reads_stat _) fun _ => reads_done _
  | read root path args => exact reads_bind (reads_read _ args) fun _ => reads_done _
  | scanPage root req =>
    simp only [Op.program]
    split_ifs
    · exact reads_done _
    · exact reads_bind (reads_scanPage req) fun _ => reads_done _

/-- What the requests come to is what the operation does. -/
theorem Op.settle_eq {op : Op} (out : Except Error (Outcome × Stores))
    (h : Computes txnSemantics (op.program O P) s out) : op.settle s out = op.step O P s := by
  obtain ⟨out', hout', hstep⟩ := op.computes (O := O) (P := P) s
  rw [h.unique hout', hstep]

/-- **An operation is what its requests do**, one by one from any state:
the requests come to an end, the answer is the operation's, and so are the
stores, once a body that failed is rolled back. One opened for reading
requests nothing that writes. -/
theorem requests_implement (O : Opendal) (P : Platform) (op : Op) (s : Stores) :
    (∃ out, Computes txnSemantics (op.program O P) s out) ∧
      (∀ out, Computes txnSemantics (op.program O P) s out → op.settle s out = op.step O P s) ∧
      (op.readwrite = false → Requests.Reads (op.program O P)) := by
  obtain ⟨out, hout, -⟩ := op.computes (O := O) (P := P) s
  exact ⟨⟨out, hout⟩, Op.settle_eq, Op.program_reads⟩

end OpendalIndexeddb
