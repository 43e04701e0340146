import OpendalIndexeddb.Termination
/-!
# Foreign keys do not show in a listing

Keys that are no strings take up places in the fetches of a scan, whose
length decides whether it fetches again. A scan that is misled by them
has nothing left to find: it ends where it would have, one iteration
earlier or later. So a page depends on the views of the string keys
alone, and a listing on its pages.
-/

namespace OpendalIndexeddb

open IndexeddbCore

variable {O : Opendal} {P : Platform} {s t : Stores}

namespace IndexeddbCore

variable {store store' : OrderedStore Key DataRecord DataRecord.k}
variable {req : ScanPageRequest} {st st' : ScanState} {upper : Option Str}
variable {result result' : ScanState × Bool} {visited visited' : List ScanState}

/-! ## Stores with the same string keys -/

/-- The string keys are in an order, so that they are those of the other
store where each is there. -/
theorem textKeys_eq_of_contains
    (h : ∀ k, store.contains (.text k) = store'.contains (.text k)) :
    textKeys store = textKeys store' := by
  refine eq_of_sorted (textKeys_sorted store) (textKeys_sorted store') ?_
  intro k
  rw [mem_textKeys_iff, mem_textKeys_iff, h]

/-- What is left of a scan is read off the string keys. -/
theorem rest_eq_of_textKeys (htext : textKeys store = textKeys store') :
    st.rest store upper = st.rest store' upper := by
  unfold ScanState.rest keysBetween
  rw [htext]

/-! ## One iteration -/

/-- **One iteration in terms of the string keys.** The count of the keys
fetched matters where all of them were looked at, and nowhere else: no
keys at all are no string keys. -/
theorem scanIteration_eq (store : OrderedStore Key DataRecord DataRecord.k)
    (req : ScanPageRequest) (upper : Option Str) (st : ScanState) :
    scanIteration store req upper st =
      if upper.any (fun upper => strLe upper st.lower) then .inl (st, true)
      else if (st.rest store upper).take (req.limit - st.keys.length) = [] then .inl (st, true)
      else match scanFetched req ((st.rest store upper).take (req.limit - st.keys.length)) st with
        | .breakScan st done => .inl (st, done)
        | .continueScan st => .inr st
        | .exhausted st' =>
          if (getAllStringKeysIn store st.lower st.lowerOpen upper
            (req.limit - st.keys.length)).2 < req.limit - st.keys.length then .inl (st', true)
          else .inr st' := by
  have hkeys := getAllStringKeysIn_keys store st.lower st.lowerOpen upper
    (req.limit - st.keys.length)
  have hcount := getAllStringKeysIn_length_le store st.lower st.lowerOpen upper
    (req.limit - st.keys.length)
  simp only [scanIteration, ScanState.rest, ← hkeys]
  generalize getAllStringKeysIn store st.lower st.lowerOpen upper
    (req.limit - st.keys.length) = fetch at hcount ⊢
  by_cases hzero : fetch.2 = 0
  · have hnil : fetch.1 = [] := List.eq_nil_of_length_eq_zero (by omega)
    simp only [if_pos hzero, if_pos hnil]
  · cases scanFetched req fetch.1 st <;> simp only [if_neg hzero]

/-- Fewer keys of any type than asked for are all that is left. -/
theorem rest_take_of_short (h : (getAllStringKeysIn store st.lower st.lowerOpen upper
    (req.limit - st.keys.length)).2 < req.limit - st.keys.length) :
    (st.rest store upper).take (req.limit - st.keys.length) = st.rest store upper := by
  have hkeys := getAllStringKeysIn_keys store st.lower st.lowerOpen upper
    (req.limit - st.keys.length)
  have hcount := getAllStringKeysIn_length_le store st.lower st.lowerOpen upper
    (req.limit - st.keys.length)
  rw [hkeys, List.length_take] at hcount
  unfold ScanState.rest
  rw [List.take_of_length_le]
  omega

/-- An iteration after which nothing is left: the scan ends there, or
goes on and finds so. -/
def Settles (store : OrderedStore Key DataRecord DataRecord.k) (req : ScanPageRequest)
    (upper : Option Str) (st st' : ScanState) : Prop :=
  st'.rest store upper = [] ∧
    (scanIteration store req upper st = .inl (st', true) ∨
      scanIteration store req upper st = .inr st')

/-- A scan with nothing left ends where it is. -/
theorem scanIteration_of_rest_nil (req : ScanPageRequest) (h : st.rest store upper = []) :
    scanIteration store req upper st = .inl (st, true) := by
  rw [scanIteration_eq, h, List.take_nil, if_pos rfl, ite_self]

/-- **A run settles** where its first iteration does. -/
theorem Settles.result_eq (hsettles : Settles store req upper st st')
    (h : ScanRun store req upper st visited result) : result = (st', true) := by
  obtain ⟨hnil, hstep | hstep⟩ := hsettles
  · exact h.of_inl hstep
  · obtain ⟨rest, hrun⟩ := h.of_inr hstep
    exact hrun.of_inl (scanIteration_of_rest_nil req hnil)

theorem settles_of_exhausted (hpast : ¬ upper.any (fun upper => strLe upper st.lower) = true)
    (hne : (st.rest store upper).take (req.limit - st.keys.length) ≠ [])
    (hflow : scanFetched req ((st.rest store upper).take (req.limit - st.keys.length)) st =
      .exhausted st') (hnil : st'.rest store upper = []) : Settles store req upper st st' := by
  refine ⟨hnil, ?_⟩
  rw [scanIteration_eq, if_neg hpast, if_neg hne, hflow]
  by_cases hshort : (getAllStringKeysIn store st.lower st.lowerOpen upper
      (req.limit - st.keys.length)).2 < req.limit - st.keys.length
  · exact Or.inl (if_pos hshort)
  · exact Or.inr (if_neg hshort)

/-- **An iteration that is left with the same is the same**, or both
settle in the same state. -/
theorem scanIteration_congr (req : ScanPageRequest)
    (hrest : ¬ upper.any (fun upper => strLe upper st.lower) = true →
      st.rest store upper = st.rest store' upper) :
    scanIteration store req upper st = scanIteration store' req upper st ∨
      ∃ st', Settles store req upper st st' ∧ Settles store' req upper st st' := by
  rw [scanIteration_eq store, scanIteration_eq store']
  by_cases hpast : upper.any (fun upper => strLe upper st.lower) = true
  · rw [if_pos hpast, if_pos hpast]
    exact Or.inl rfl
  · have hsame := hrest hpast
    rw [if_neg hpast, if_neg hpast, ← hsame]
    by_cases hne : (st.rest store upper).take (req.limit - st.keys.length) = []
    · rw [if_pos hne, if_pos hne]
      exact Or.inl rfl
    · rw [if_neg hne, if_neg hne]
      cases hflow : scanFetched req
          ((st.rest store upper).take (req.limit - st.keys.length)) st with
      | breakScan st' done => exact Or.inl rfl
      | continueScan st' => exact Or.inl rfl
      | exhausted st' =>
        -- the counts decide, and they differ only where all that is left was fetched
        by_cases hshort : (getAllStringKeysIn store st.lower st.lowerOpen upper
              (req.limit - st.keys.length)).2 < req.limit - st.keys.length ∨
            (getAllStringKeysIn store' st.lower st.lowerOpen upper
              (req.limit - st.keys.length)).2 < req.limit - st.keys.length
        · have hall : (st.rest store upper).take (req.limit - st.keys.length) =
              st.rest store upper := by
            rcases hshort with hshort | hshort
            · exact rest_take_of_short hshort
            · rw [hsame]
              exact rest_take_of_short hshort
          have hnil (store₁ : OrderedStore Key DataRecord DataRecord.k)
              (h : st.rest store₁ upper = st.rest store upper) : st'.rest store₁ upper = [] := by
            rw [hall, ← h] at hflow
            exact (rest_scanFetched (List.append_nil (st.rest store₁ upper)).symm).2 st' hflow
          refine Or.inr ⟨st', settles_of_exhausted hpast hne hflow (hnil store rfl), ?_⟩
          refine settles_of_exhausted hpast ?_ ?_ (hnil store' hsame.symm)
          · rwa [← hsame]
          · rwa [← hsame]
        · obtain ⟨hlong, hlong'⟩ := not_or.1 hshort
          left
          simp only [if_neg hlong, if_neg hlong']

/-- **Runs that are left with the same have the same result.** -/
theorem ScanRun.result_eq (h : ScanRun store req upper st visited result)
    (h' : ScanRun store' req upper st visited' result')
    (hrest : ∀ st ∈ visited, ¬ upper.any (fun upper => strLe upper st.lower) = true →
      st.rest store upper = st.rest store' upper) : result = result' := by
  induction h generalizing visited' with
  | stop hstep =>
    rcases scanIteration_congr req (hrest _ List.mem_cons_self) with heq | ⟨st', hset, hset'⟩
    · exact (h'.of_inl (heq.symm.trans hstep)).symm
    · exact (hset.result_eq (.stop hstep)).trans (hset'.result_eq h').symm
  | next hstep hrun ih =>
    rcases scanIteration_congr req (hrest _ List.mem_cons_self) with heq | ⟨st', hset, hset'⟩
    · obtain ⟨rest, hrun'⟩ := h'.of_inr (heq.symm.trans hstep)
      exact ih hrun' fun st hst => hrest st (List.mem_cons_of_mem _ hst)
    · exact (hset.result_eq (.next hstep hrun)).trans (hset'.result_eq h').symm

/-- The loops of a request find the same keys, each with its own fuel. -/
theorem scanKeys_eq (htext : textKeys store = textKeys store') (req : ScanPageRequest) :
    scanKeys store req = scanKeys store' req := by
  unfold scanKeys
  by_cases hzero : req.limit = 0
  · simp only [if_pos hzero]
  · simp only [if_neg hzero]
    have hpos := Nat.pos_of_ne_zero hzero
    obtain ⟨visited, result, hrun, hresult⟩ := exists_scanRun_start store req hpos
    obtain ⟨visited', result', hrun', hresult'⟩ := exists_scanRun_start store' req hpos
    rw [hresult, hresult', hrun.result_eq hrun' fun st _ _ => rest_eq_of_textKeys htext]

end IndexeddbCore

/-! ## Pages and listings -/

/-- **A page depends on the views** of the string keys alone. -/
theorem scanPage_eq_of_view (h : ∀ k, s.view k = t.view k) (req : ScanPageRequest) :
    scanPage P req s = scanPage P req t := by
  have htext : textKeys s.store = textKeys t.store := by
    refine textKeys_eq_of_contains fun k => ?_
    rw [← view_isSome, ← view_isSome, h]
  rw [scanPage_eq_view, scanPage_eq_view, scanKeys_eq htext, pageOf_eq_of_view h]

/-- A lister looks at the stores through its pages. -/
theorem IndexeddbLister.next_eq_of_scanPage
    (h : ∀ req, scanPage P req s = scanPage P req t) :
    IndexeddbLister.next O P s = IndexeddbLister.next O P t := by
  have hloop (fuel : ℕ) (l : IndexeddbLister) : nextLoop O P s fuel l = nextLoop O P t fuel l := by
    induction fuel generalizing l with
    | zero => rfl
    | succ fuel ih => simp only [nextLoop, h, ih]
  funext l
  exact hloop 2 l

/-! ## Adding foreign keys -/

/-- A record under a key that is no string, as external code adds it. -/
abbrev ForeignRecord := { v : DataRecord // v.k.asString = none }

/-- The stores with foreign records added to the data store. -/
def Stores.withForeign (s : Stores) (added : List ForeignRecord) : Stores :=
  { s with store := added.foldl (fun store v => store.put v.1) s.store }

/-- No string key is touched. -/
theorem get_withForeign (s : Stores) (added : List ForeignRecord) (k : Str) :
    (s.withForeign added).store.get (.text k) = s.store.get (.text k) := by
  show (added.foldl (fun store v => store.put v.1) s.store).get (.text k) = _
  generalize s.store = store
  induction added generalizing store with
  | nil => rfl
  | cons v added ih =>
    have hne : Key.text k ≠ v.1.k := fun h => by simpa [← h] using v.2
    rw [List.foldl_cons, ih, OrderedStore.get_put, if_neg hne]

theorem view_withForeign (s : Stores) (added : List ForeignRecord) (k : Str) :
    (s.withForeign added).view k = s.view k := by
  show ((s.withForeign added).store.get (.text k)).map _ = _
  rw [get_withForeign]
  rfl

/-- **Foreign keys are invisible to listings.** However many records
under keys that are no strings are added to the data store, every page is
the page without them: its entries, its resume point, its skipped prefix
and whether it is the last. So every lister yields the same entries, and
every listing is the same sequence. -/
theorem foreign_invisible (O : Opendal) (P : Platform) (s : Stores)
    (added : List ForeignRecord) :
    (∀ req, ∃ page, scanPage P req (s.withForeign added) = some page ∧
      scanPage P req s = some page) ∧
    (∀ (l : IndexeddbLister) (es : List Entry),
      Drains (IndexeddbLister.next O P (s.withForeign added)) l es ↔
        Drains (IndexeddbLister.next O P s) l es) ∧
    ∀ (build : Build) (root : Root) (path : Str) (args : OpList) (es : List Entry),
      IndexeddbBackend.Listing O P build (s.withForeign added) root path args es ↔
        IndexeddbBackend.Listing O P build s root path args es := by
  have hpages (req : ScanPageRequest) :
      scanPage P req (s.withForeign added) = scanPage P req s :=
    scanPage_eq_of_view (view_withForeign s added) req
  have hnext : IndexeddbLister.next O P (s.withForeign added) = IndexeddbLister.next O P s :=
    IndexeddbLister.next_eq_of_scanPage hpages
  refine ⟨fun req => ?_, fun l es => ?_, fun build root path args es => ?_⟩
  · obtain ⟨page, hpage⟩ := Option.isSome_iff_exists.1 (scanPage_isSome P req s)
    exact ⟨page, (hpages req).trans hpage, hpage⟩
  · rw [hnext]
  · unfold IndexeddbBackend.Listing
    rw [hnext]

/-- A foreign key fills the fetch, so that the scan fetches once more. -/
example : let s : Stores := ⟨OrderedStore.empty.put ⟨.text ['a'], .other⟩, .empty⟩
    let t := s.withForeign [⟨⟨.above 0, .other⟩, rfl⟩]
    let req : ScanPageRequest := ⟨[], none, none, 2⟩
    (scanIteration s.store req none req.start).isLeft = true ∧
      (scanIteration t.store req none req.start).isRight = true := by
  decide

end OpendalIndexeddb
