import OpendalIndexeddb.Common.Commutation
import OpendalIndexeddb.ForeignKeys
import OpendalIndexeddb.Interleaving
import OpendalIndexeddb.Locality
import OpendalIndexeddb.PrefixDeletion
/-!
# Operations that conflict

What an operation reads and what it writes, as sets of keys. A page reads
the keys under its prefix, whatever its resume point. Operations without
a key that one writes and the other reads commute, so that nothing but
the order of those that conflict decides what all of them return.
-/

namespace OpendalIndexeddb

open IndexeddbCore Transactions

variable {O : Opendal} {P : Platform} {s t : Stores}

/-! ## Where a page scan looks -/

namespace IndexeddbCore

variable {store store' : OrderedStore Key DataRecord DataRecord.k}
variable {req : ScanPageRequest} {st st' : ScanState} {upper : Option Str}
variable {visited : List ScanState} {result : ScanState × Bool} {u : Str}

/-- The loop over fetched keys keeps the lower bound at the prefix or above
it, in the order of Rust strings. -/
theorem le_lower_of_goesOn {fetched : List Str} (hle : strLe req.keyPrefix st.lower)
    (h : (scanFetched req fetched st).goesOn st') : strLe req.keyPrefix st'.lower := by
  induction fetched generalizing st with
  | nil =>
    rcases h with h | h
    · cases h
    · cases h
      exact hle
  | cons k fetched ih =>
    have hstep := fetchStep req st k fetched
    generalize scanFetched req (k :: fetched) st = flow at hstep h
    cases hstep with
    | beyond => rcases h with h | h <;> cases h
    | pass hk => exact ih (pointRank_le_of_isPrefix hk) h
    | jump hk _ _ hskip hup =>
      rcases h with h | h
      · cases h
        exact le_trans (pointRank_le_of_isPrefix hk) (le_of_lt (pointRank_lt_upperBound hup hskip))
      · cases h
    | stuck => rcases h with h | h <;> cases h
    | full => rcases h with h | h <;> cases h
    | take hk => exact ih (pointRank_le_of_isPrefix (lists_iff.1 hk).1) h

theorem le_lower_of_scanIteration (hle : strLe req.keyPrefix st.lower)
    (h : scanIteration store req upper st = .inr st') : strLe req.keyPrefix st'.lower := by
  refine @le_lower_of_goesOn _ _ _ (getAllStringKeysIn store st.lower st.lowerOpen upper
    (req.limit - st.keys.length)).1 hle ?_
  simp only [scanIteration] at h
  cases hflow : scanFetched req (getAllStringKeysIn store st.lower st.lowerOpen upper
      (req.limit - st.keys.length)).1 st with
  | breakScan st₁ done =>
    simp only [hflow] at h
    split_ifs at h
  | continueScan st₁ =>
    simp only [hflow] at h
    split_ifs at h
    cases h
    exact Or.inl rfl
  | exhausted st₁ =>
    simp only [hflow] at h
    split_ifs at h
    cases h
    exact Or.inr rfl

/-- **The lower bound never falls below the prefix.** -/
theorem ScanRun.le_lower (h : ScanRun store req upper st visited result)
    (hle : strLe req.keyPrefix st.lower) : ∀ st' ∈ visited, strLe req.keyPrefix st'.lower := by
  induction h with
  | stop =>
    intro st' hst'
    exact List.mem_singleton.1 hst' ▸ hle
  | next hstep _ ih =>
    intro st' hst'
    rcases List.mem_cons.1 hst' with rfl | hst'
    · exact hle
    · exact ih (le_lower_of_scanIteration hle hstep) st' hst'

theorem le_lower_start (req : ScanPageRequest) : strLe req.keyPrefix req.start.lower := by
  rcases start_eq req with ⟨sa, -, hlt, hst⟩ | ⟨sa, -, -, hst⟩ | ⟨-, hst⟩
  · rw [hst]
    exact le_of_lt hlt
  · rw [hst]
  · rw [hst]

/-- **What is left of a scan is under its prefix**: below the end of the
prefix's range the lower bound starts with the prefix, and so does every
key between the two in the store's order. -/
theorem isPrefix_of_mem_rest {k : Str} (hu : prefixUpperBound req.keyPrefix = some u)
    (hle : strLe req.keyPrefix st.lower) (hpast : ¬ strLe u st.lower)
    (hk : inRange st.lower st.lowerOpen (some u) k = true) : req.keyPrefix <+: k := by
  have hlower : req.keyPrefix <+: st.lower := (prefix_iff_pointRank hu).2 ⟨hle, not_le.1 hpast⟩
  obtain ⟨⟨hlow, -⟩, hup⟩ := inRange_iff.1 hk
  exact (prefix_iff_unitRank hu).2
    ⟨le_trans (unitRank_le_of_isPrefix hlower) hlow, hup u rfl⟩

/-- **A scan finds the same over stores with the same keys under its
prefix**, where the prefix has a range end. -/
theorem scanKeys_eq_under (hu : prefixUpperBound req.keyPrefix = some u)
    (hsame : ∀ k, req.keyPrefix <+: k →
      store.contains (.text k) = store'.contains (.text k)) :
    scanKeys store req = scanKeys store' req := by
  unfold scanKeys
  by_cases hzero : req.limit = 0
  · simp only [if_pos hzero]
  · simp only [if_neg hzero]
    have hpos := Nat.pos_of_ne_zero hzero
    obtain ⟨visited, result, hrun, hresult⟩ := exists_scanRun_start store req hpos
    obtain ⟨visited', result', hrun', hresult'⟩ := exists_scanRun_start store' req hpos
    rw [hresult, hresult', hrun.result_eq hrun' fun st hst hpast => ?_]
    have hle := hrun.le_lower (le_lower_start req) st hst
    rw [hu] at hpast ⊢
    have hin : ∀ k, inRange st.lower st.lowerOpen (some u) k = true → req.keyPrefix <+: k :=
      fun k hk => isPrefix_of_mem_rest hu hle (by simpa using hpast) hk
    refine eq_of_sorted keysBetween_sorted keysBetween_sorted fun k => ?_
    rw [ScanState.rest, ScanState.rest, keysBetween, keysBetween, List.mem_filter, List.mem_filter,
      mem_textKeys_iff, mem_textKeys_iff]
    exact and_congr_left fun hk => by rw [hsame k (hin k hk)]

/-- The keys a page depends on: those under its prefix where the prefix has
a range end, and all keys where it has none. -/
def ScanPageRequest.Reads (req : ScanPageRequest) (key : Key) : Prop :=
  ∀ u, prefixUpperBound req.keyPrefix = some u → HasPrefix req.keyPrefix key

/-- **A page depends on the keys it reads.** -/
theorem scanPage_eq_of_agree (h : AgreeOn req.Reads s t) :
    scanPage P req s = scanPage P req t := by
  cases hu : prefixUpperBound req.keyPrefix with
  | none =>
    refine scanPage_eq_of_view (fun k => h.view fun u hu' => ?_) req
    cases hu.symm.trans hu'
  | some u =>
    have hview (k : Str) (hk : req.keyPrefix <+: k) : s.view k = t.view k :=
      h.view fun _ _ => ⟨k, rfl, hk⟩
    have hkeys : scanKeys s.store req = scanKeys t.store req := by
      refine scanKeys_eq_under hu fun k hk => ?_
      rw [← view_isSome, ← view_isSome, hview k hk]
    rw [scanPage_eq_view, scanPage_eq_view, ← hkeys]
    cases hfound : scanKeys s.store req with
    | none => rfl
    | some found =>
      refine congrArg some ?_
      simp only [pageOf, ScanPage.mk.injEq, and_true]
      refine List.map_congr_left fun k hk => ?_
      rw [hview k (lists_iff.1 ((scanKeys_takes hfound).2.1 k hk)).1]

end IndexeddbCore

/-! ## What operations read and write -/

/-- What the stores hold under a key. -/
def Stores.cell (s : Stores) (key : Key) : Option DataRecord × Option MetaValue :=
  (s.store.get key, s.metaStore.get key)

theorem Stores.cell_injective : Function.Injective Stores.cell := by
  intro s t h
  have hget (key : Key) := Prod.ext_iff.1 (congrFun h key)
  exact Stores.ext (OrderedStore.ext_get fun key => (hget key).1)
    (OrderedStore.ext_get fun key => (hget key).2)

theorem sameAt_cell_iff {q : Key → Prop} : SameAt Stores.cell q s t ↔ AgreeOn q s t :=
  forall₂_congr fun _ _ => Prod.ext_iff

/-- The keys a mutation depends on. -/
def Mutation.Reads (O : Opendal) : Mutation → Key → Prop
  | .set _ path _ _, key => key = .text path
  | .createDir _ root path, key => key = .text (O.buildAbsPath root.text path)
  | .copy _ src dst _ _, key => key = .text src ∨ key = .text dst
  | .rename src dst, key => key = .text src ∨ key = .text dst
  | .delete path, key => Removed [(path, false)] key
  | .deleteRecursive path, key => Removed [(path, true)] key
  | .deleteMany batch, key => Removed batch key

/-- The keys it may change: a copy does not change its source. -/
def Mutation.Writes (O : Opendal) : Mutation → Key → Prop
  | .copy _ _ dst _ _, key => key = .text dst
  | m, key => m.Reads O key

theorem Mutation.within_reads (O : Opendal) (m : Mutation) : m.Within O (m.Reads O) := by
  cases m with
  | set now path value args => rfl
  | createDir now root path => rfl
  | copy now src dst ifNotExists ifMatch => exact ⟨Or.inl rfl, Or.inr rfl⟩
  | rename src dst => exact ⟨Or.inl rfl, Or.inr rfl⟩
  | delete path => exact fun _ h => h
  | deleteRecursive path => exact fun _ h => h
  | deleteMany batch => exact fun _ h => h

/-- A copy leaves all but its target as it was. -/
theorem agree_copy (P : Platform) (now : Number) (src dst : Str) (ifNotExists : Bool)
    (ifMatch : Option Str) (s : Stores) :
    AgreeOn (fun key => ¬ key = .text dst) (copy P now src dst ifNotExists ifMatch s).2 s := by
  by_cases h : src = dst
  · rw [copy, if_pos h]
    exact .refl _ s
  · rw [copy_eq_view h]
    cases copyPlan P src dst ifNotExists ifMatch (s.view src) (s.view dst) with
    | error err => exact .refl _ s
    | ok copied => exact .of_putEntry rfl fun hn => hn rfl

theorem Mutation.footprint (O : Opendal) (P : Platform) (m : Mutation) :
    Footprint Stores.cell (m.Reads O) (m.Writes O) fun s => m.step O P s := by
  have hlocal := (m.within_reads O).isLocal P
  have halike : Alike (SameAt Stores.cell (m.Reads O)) (fun s => m.step O P s)
      fun s => m.step O P s := by
    intro s t hst
    obtain ⟨hout, hagree⟩ := hlocal.alike s t (sameAt_cell_iff.1 hst)
    exact ⟨hout, sameAt_cell_iff.2 hagree⟩
  cases m with
  | copy now src dst ifNotExists ifMatch =>
    refine ⟨halike, fun s => sameAt_cell_iff.2 ?_, fun key hkey => Or.inr hkey⟩
    exact agree_copy P now src dst ifNotExists ifMatch s
  | _ => exact ⟨halike, fun s => sameAt_cell_iff.2 (hlocal.frame s), fun _ h => h⟩

/-- The keys an operation depends on. -/
def Op.Reads (O : Opendal) : Op → Key → Prop
  | .mutate m, key => m.Reads O key
  | .stat root path _, key => key = .text (O.buildAbsPath root.text path)
  | .read root path _, key => key = .text (O.buildAbsPath root.text path)
  | .scanPage _ req, key => req.Reads key

/-- The keys it may change. -/
def Op.Writes (O : Opendal) : Op → Key → Prop
  | .mutate m, key => m.Writes O key
  | _, _ => False

/-- An operation that does not write has its reads for a footprint. -/
theorem footprint_of_reads {ο : Type} {R : Key → Prop} {f : Stores → ο × Stores} {g : Stores → ο}
    (hf : ∀ s, f s = (g s, s)) (hg : ∀ s t, AgreeOn R s t → g s = g t) :
    Footprint Stores.cell R (fun _ => False) f := by
  refine ⟨fun s t hst => ?_, fun s => ?_, fun _ h => h.elim⟩
  · rw [hf, hf]
    exact ⟨hg s t (sameAt_cell_iff.1 hst), hst⟩
  · rw [hf]
    exact fun _ _ => rfl

/-- **Every operation keeps to its footprint.** -/
theorem Op.footprint (O : Opendal) (P : Platform) (op : Op) :
    Footprint Stores.cell (op.Reads O) (op.Writes O) fun s => op.step O P s := by
  cases op with
  | mutate m => exact m.footprint O P
  | stat root path args =>
    refine footprint_of_reads (fun s => rfl) fun s t hst => ?_
    have hview : s.view (O.buildAbsPath root.text path) = t.view (O.buildAbsPath root.text path) :=
      hst.view rfl
    simp only [IndexeddbBackend.stat, stat_eq_view, hview]
  | read root path args =>
    refine footprint_of_reads (fun s => rfl) fun s t hst => ?_
    have hview : s.view (O.buildAbsPath root.text path) = t.view (O.buildAbsPath root.text path) :=
      hst.view rfl
    simp only [IndexeddbBackend.read, read_eq_view, hview]
  | scanPage root req =>
    refine footprint_of_reads (g := fun s => ((Op.scanPage root req).step O P s).1) (fun s => ?_)
      fun s t hst => ?_
    · simp only [Op.step]
      cases IndexeddbCore.scanPage P req s <;> rfl
    · simp only [Op.step, scanPage_eq_of_agree hst]
      cases IndexeddbCore.scanPage P req t <;> rfl

/-! ## Transactions that conflict -/

/-- **Two transactions conflict** where they are on the same stores, and
one writes a key the other depends on. -/
def DbTxn.Conflicts (O : Opendal) (t t' : DbTxn) : Prop :=
  t.core.name = t'.core.name ∧
    ∃ key, (t.op.Writes O key ∧ t'.op.Reads O key) ∨ (t.op.Reads O key ∧ t'.op.Writes O key)

/-- Whether the order of two transactions matters. -/
def DbTxn.Depends (O : Opendal) (t t' : DbTxn) : Prop := t = t' ∨ t.Conflicts O t'

/-- What the stores of a name hold under a key. -/
def namedCell (v : StoreName → Stores) (at' : StoreName × Key) :
    Option DataRecord × Option MetaValue := (v at'.1).cell at'.2

theorem namedCell_injective : Function.Injective namedCell := fun _ _ h =>
  funext fun name => Stores.cell_injective (funext fun key => congrFun h (name, key))

/-- A transaction keeps to the footprint of its operation, on its own
stores. -/
theorem DbTxn.footprint (O : Opendal) (P : Platform) (t : DbTxn) :
    Footprint namedCell (fun at' => at'.1 = t.core.name ∧ t.op.Reads O at'.2)
      (fun at' => at'.1 = t.core.name ∧ t.op.Writes O at'.2) fun v => serve O P v t := by
  have hop := t.op.footprint O P
  refine ⟨fun v v' hv => ?_, fun v => ?_, fun at' h => ⟨h.1, hop.reads_writes _ h.2⟩⟩
  · obtain ⟨hout, hcell⟩ := hop.alike (v t.core.name) (v' t.core.name)
      fun key hkey => hv (t.core.name, key) ⟨rfl, hkey⟩
    refine ⟨hout, ?_⟩
    rintro ⟨name, key⟩ ⟨rfl, hkey⟩
    simpa [serve, namedCell] using hcell key hkey
  · rintro ⟨name, key⟩ hkey
    by_cases hname : name = t.core.name
    · subst hname
      simpa [serve, namedCell] using hop.frame (v t.core.name) key fun h => hkey ⟨rfl, h⟩
    · simp [serve, namedCell, Function.update_of_ne hname]

theorem commutes_of_not_conflicts {t t' : DbTxn} (h : ¬ t.Conflicts O t') :
    Commutes (serve O P) t t' := by
  refine (t.footprint O P).commutes namedCell_injective (t'.footprint O P) ?_ ?_
  · rintro ⟨name, key⟩ ⟨rfl, hw⟩ ⟨hname, hr⟩
    exact h ⟨hname, key, Or.inl ⟨hw, hr⟩⟩
  · rintro ⟨name, key⟩ ⟨rfl, hw⟩ ⟨hname, hr⟩
    exact h ⟨hname.symm, key, Or.inr ⟨hr, hw⟩⟩

open Classical in
/-- **The order of conflicting transactions decides everything.** Take any
two interleavings of requests, with whatever faults, from the same
database. Where the same transactions came to an end in both, those that
conflict in the same order, every transaction returned the same, and the
stores of every name hold the same wherever nothing is writing to them. A
page of a listing conflicts with what writes under its prefix, or with
everything that writes where the prefix has no range end. -/
theorem conflicts_decide {ι ι' : Type} [DecidableEq ι] [DecidableEq ι'] {dbName : Str}
    {db₀ : ObjectStores} {w : DbWorld ι dbName} {w' : DbWorld ι' dbName}
    (h : DbReaches O P db₀ w) (h' : DbReaches O P db₀ w')
    (horder : SameOrder (DbTxn.Depends O) (w.log.map Ended.txn) (w'.log.map Ended.txn)) :
    (∀ t, (w.log.filter fun e => e.txn = t).map answer =
      (w'.log.filter fun e => e.txn = t).map answer) ∧
    ∀ name, w.Unwritten name → w'.Unwritten name →
      ObjectStores.named w.cells name = ObjectStores.named w'.cells name := by
  obtain ⟨D, hD⟩ := Reaches.sound h
  obtain ⟨D', hD'⟩ := Reaches.sound h'
  have hrefl (t : DbTxn) : t.Depends O t := Or.inl rfl
  have hcomm (t t' : DbTxn) (hdep : ¬ t.Depends O t') : Commutes (serve O P) t t' :=
    commutes_of_not_conflicts fun hc => hdep (Or.inr hc)
  obtain ⟨hstores, houts⟩ := run_of_sameOrder hrefl hcomm horder db₀.named
  rw [run_of_serial hD.serial, run_of_serial hD'.serial] at hstores houts
  refine ⟨fun t => ?_, fun name hname hname' => ?_⟩
  · have hout := houts t
    rwa [outputsOf_map, outputsOf_map] at hout
  · rw [named_of_unwritten hD hname, named_of_unwritten hD' hname']
    exact congrFun hstores name

/-! ### Two writes in either order -/

/-- A write of the byte 0, at whatever time. -/
def writeCallTo (path : Str) : DbCall "db".toList :=
  { writeCall with op := fun now => .mutate (.set now path [0] .overwrite) }

def writeTxn (path : Str) : DbTxn := ⟨dataCore, (writeCallTo path).op (.ofNat 7)⟩

/-- A write that nothing runs beside is made and returns. -/
theorem exists_written {ι : Type} [DecidableEq ι] {db₀ : ObjectStores}
    {w : DbWorld ι "db".toList} (h : DbReaches O P db₀ w) {i : ι} (hi : w.threads i = .idle)
    (hnone : ∀ j, w.active j = none) (path : Str) : ∃ w', DbReaches O P db₀ w' ∧
      w'.log.map Ended.txn = w.log.map Ended.txn ++ [writeTxn path] ∧
      (∀ j, w'.active j = none) ∧ ∀ j, j ≠ i → w'.threads j = w.threads j := by
  have hissue : (databaseTransactions O P "db".toList).Step w
      (w.set i (.waiting (writeCallTo path) 0)) := .issue _ hi
  have hnone' : ∀ j, (w.set i (.waiting (writeCallTo path) 0)).active j = none := by
    intro j
    rw [World.active_set]
    rcases eq_or_ne j i with rfl | hne
    · rw [Function.update_self]
      rfl
    · rw [Function.update_of_ne hne, hnone j]
  obtain ⟨w', out, hreach, -, hlog, hnone'', hother⟩ := World.return_alone
    (terminates_database O P _) hnone' (Function.update_self ..) ⟨.ofNat 7, rfl⟩
  refine ⟨w', (Reaches.step h hissue).trans hreach.reaches, ?_, hnone'', fun j hj => ?_⟩
  · rw [hlog, List.map_append]
    rfl
  · rw [hother j hj]
    exact Function.update_of_ne hj ..

/-- Two operators write, one after the other. -/
theorem exists_both_written (O : Opendal) (P : Platform) (i : Bool) (path path' : Str) :
    ∃ w : DbWorld Bool "db".toList, DbReaches O P (fun _ => .records .empty) w ∧
      w.log.map Ended.txn = [writeTxn path, writeTxn path'] ∧ ∀ name, w.Unwritten name := by
  obtain ⟨w, hw, hlog, hnone, hother⟩ := exists_written
    (O := O) (P := P) (i := i) .refl rfl (fun _ => rfl) path
  obtain ⟨w', hw', hlog', hnone', -⟩ := exists_written hw (i := !i)
    ((hother _ (by cases i <;> decide)).trans rfl) hnone path'
  refine ⟨w', hw', by rw [hlog', hlog]; rfl, fun name j a hj => ?_⟩
  cases (w'.active_of hj).symm.trans (hnone' j)

theorem not_depends_writeTxn {path path' : Str} (hne : path ≠ path') :
    ¬ (writeTxn path).Depends O (writeTxn path') := by
  rintro (heq | ⟨-, key, ⟨hkey, hkey'⟩ | ⟨hkey, hkey'⟩⟩)
  · simp only [writeTxn, writeCallTo, DbTxn.mk.injEq, Op.mutate.injEq, Mutation.set.injEq] at heq
    exact hne heq.2.2.1
  all_goals exact hne (Key.text.inj (Eq.trans (Eq.symm hkey) hkey'))

open Classical in
/-- Writes to two paths may be made in either order. -/
theorem conflicts_decide_writes :
    ∃ w w' : DbWorld Bool "db".toList,
      w.log.map Ended.txn = [writeTxn ['a'], writeTxn ['b']] ∧
      w'.log.map Ended.txn = [writeTxn ['b'], writeTxn ['a']] ∧
      ∀ name, ObjectStores.named w.cells name = ObjectStores.named w'.cells name := by
  obtain ⟨w, hw, hlog, hfree⟩ :=
    exists_both_written referenceOpendal referencePlatform true ['a'] ['b']
  obtain ⟨w', hw', hlog', hfree'⟩ :=
    exists_both_written referenceOpendal referencePlatform false ['b'] ['a']
  have horder : SameOrder (DbTxn.Depends referenceOpendal) (w.log.map Ended.txn)
      (w'.log.map Ended.txn) := by
    have hab : ¬ (writeTxn ['a']).Depends referenceOpendal (writeTxn ['b']) :=
      not_depends_writeTxn (by decide)
    rw [hlog, hlog']
    exact SameOrder.swap (fun heq => hab (Or.inl heq)) hab (not_depends_writeTxn (by decide)) [] []
  exact ⟨w, w', hlog, hlog', fun name => (conflicts_decide hw hw' horder).2 name (hfree name)
    (hfree' name)⟩

end OpendalIndexeddb
