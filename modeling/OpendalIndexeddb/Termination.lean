import OpendalIndexeddb.Listing
import OpendalIndexeddb.View
/-!
# Scans and listings end

The lower bound of a scan moves in four ways, each guarded by a test in
the order of Rust strings; the measure that decreases is what is left in
the store's order. A page that is not the last takes a key off it, so a
lister over a store that does not change comes to its end.
-/

namespace OpendalIndexeddb

open IndexeddbCore

namespace IndexeddbCore

variable {store : OrderedStore Key DataRecord DataRecord.k}
variable {req : ScanPageRequest} {st st' : ScanState} {upper : Option Str} {fuel : ℕ}
variable {result : ScanState × Bool} {visited : List ScanState}

/-! ## The runs of the loop -/

/-- One iteration of the `'scan` loop: its result, or the state the next
iteration begins with. -/
def scanIteration (store : OrderedStore Key DataRecord DataRecord.k) (req : ScanPageRequest)
    (upper : Option Str) (st : ScanState) : (ScanState × Bool) ⊕ ScanState :=
  if upper.any (fun upper => strLe upper st.lower) then .inl (st, true)
  else
    let remaining := req.limit - st.keys.length
    let (fetched, fetchedLen) := getAllStringKeysIn store st.lower st.lowerOpen upper remaining
    if fetchedLen = 0 then .inl (st, true)
    else if fetched = [] then .inl (st, true)
    else match scanFetched req fetched st with
      | .breakScan st done => .inl (st, done)
      | .continueScan st => .inr st
      | .exhausted st => if fetchedLen < remaining then .inl (st, true) else .inr st

/-- The loop repeats the iteration. -/
theorem scanLoop_succ (store : OrderedStore Key DataRecord DataRecord.k) (req : ScanPageRequest)
    (upper : Option Str) (fuel : ℕ) (st : ScanState) :
    scanLoop store req upper (fuel + 1) st =
      match scanIteration store req upper st with
      | .inl result => some result
      | .inr st' => scanLoop store req upper fuel st' := by
  simp only [scanLoop, scanIteration]
  cases scanFetched req (getAllStringKeysIn store st.lower st.lowerOpen upper
    (req.limit - st.keys.length)).1 st <;> split_ifs <;> rfl

/-- **A run of the loop**: the states its iterations begin with, and its
result. -/
inductive ScanRun (store : OrderedStore Key DataRecord DataRecord.k) (req : ScanPageRequest)
    (upper : Option Str) : ScanState → List ScanState → ScanState × Bool → Prop
  | stop {st : ScanState} {result : ScanState × Bool} :
      scanIteration store req upper st = .inl result → ScanRun store req upper st [st] result
  | next {st st' : ScanState} {visited : List ScanState} {result : ScanState × Bool} :
      scanIteration store req upper st = .inr st' → ScanRun store req upper st' visited result →
      ScanRun store req upper st (st :: visited) result

/-- A run that stops at its first iteration. -/
theorem ScanRun.of_inl (h : ScanRun store req upper st visited result) {first : ScanState × Bool}
    (hfirst : scanIteration store req upper st = .inl first) : result = first := by
  cases h with
  | stop hstep => exact Sum.inl.inj (hstep.symm.trans hfirst)
  | next hstep => simp [hstep] at hfirst

/-- A run that goes on from its first iteration. -/
theorem ScanRun.of_inr (h : ScanRun store req upper st visited result)
    (hfirst : scanIteration store req upper st = .inr st') :
    ∃ visited, ScanRun store req upper st' visited result := by
  cases h with
  | stop hstep => simp [hstep] at hfirst
  | next hstep hrun => exact ⟨_, Sum.inr.inj (hstep.symm.trans hfirst) ▸ hrun⟩

/-- A loop that returns has run. -/
theorem exists_scanRun (h : scanLoop store req upper fuel st = some result) :
    ∃ visited, ScanRun store req upper st visited result := by
  induction fuel generalizing st with
  | zero => cases h
  | succ fuel ih =>
    rw [scanLoop_succ] at h
    cases hstep : scanIteration store req upper st with
    | inl result' =>
      rw [hstep] at h
      cases h
      exact ⟨[st], .stop hstep⟩
    | inr st' =>
      rw [hstep] at h
      obtain ⟨visited, hrun⟩ := ih h
      exact ⟨st :: visited, .next hstep hrun⟩

/-- **A run is returned** with fuel for its iterations. -/
theorem ScanRun.scanLoop_eq (h : ScanRun store req upper st visited result)
    (hfuel : visited.length ≤ fuel) : scanLoop store req upper fuel st = some result := by
  induction h generalizing fuel with
  | stop hstep =>
    obtain ⟨fuel, rfl⟩ := Nat.exists_eq_succ_of_ne_zero (by simp at hfuel; omega : fuel ≠ 0)
    rw [scanLoop_succ, hstep]
  | next hstep _ ih =>
    rw [List.length_cons] at hfuel
    obtain ⟨fuel, rfl⟩ := Nat.exists_eq_succ_of_ne_zero (by omega : fuel ≠ 0)
    rw [scanLoop_succ, hstep]
    exact ih (by omega)

/-- An iteration that goes on has room for more keys. -/
theorem length_scanIteration (hlen : st.keys.length < req.limit)
    (h : scanIteration store req upper st = .inr st') : st'.keys.length < req.limit := by
  simp only [scanIteration] at h
  cases hflow : scanFetched req (getAllStringKeysIn store st.lower st.lowerOpen upper
      (req.limit - st.keys.length)).1 st with
  | breakScan st₁ done =>
    simp only [hflow] at h
    split_ifs at h
  | continueScan st₁ =>
    simp only [hflow] at h
    split_ifs at h
    cases h
    exact (length_scanFetched hlen).1 _ hflow
  | exhausted st₁ =>
    simp only [hflow] at h
    split_ifs at h
    cases h
    exact (length_scanFetched hlen).2 _ hflow

/-- **Every iteration asks for a key at least**: `limit - keys.len()` does
not underflow. -/
theorem ScanRun.room (h : ScanRun store req upper st visited result)
    (hlen : st.keys.length < req.limit) : ∀ st' ∈ visited, st'.keys.length < req.limit := by
  induction h with
  | stop =>
    intro st' hst'
    exact List.mem_singleton.1 hst' ▸ hlen
  | next hstep _ ih =>
    intro st' hst'
    rcases List.mem_cons.1 hst' with rfl | hst'
    · exact hlen
    · exact ih (length_scanIteration hlen hstep) st' hst'

/-- The loop of every request has a run, which a scan has fuel for. -/
theorem exists_scanRun_start (store : OrderedStore Key DataRecord DataRecord.k)
    (req : ScanPageRequest) (hlimit : 0 < req.limit) :
    ∃ visited result,
      ScanRun store req (prefixUpperBound req.keyPrefix) req.start visited result ∧
        scanLoop store req (prefixUpperBound req.keyPrefix) (store.items.length + 1) req.start =
          some result := by
  have hfuel := length_rest_le req.start store (prefixUpperBound req.keyPrefix)
  have hsome := @scanLoop_isSome _ req _ _ _ (Nat.lt_succ_of_le hfuel) hlimit
  obtain ⟨result, hresult⟩ := Option.isSome_iff_exists.1 hsome
  obtain ⟨visited, hrun⟩ := exists_scanRun hresult
  exact ⟨visited, result, hrun, hresult⟩

end IndexeddbCore

/-! ## Pages and listers -/

variable {O : Opendal} {P : Platform} {s : Stores} {req : ScanPageRequest} {page : ScanPage}

/-- **A page that is not the last** holds a key, at the last of which the
next one resumes, with less left than before. -/
theorem scanPage_resumes (h : scanPage P req s = some page) (hdone : page.done = false) :
    ∃ last, page.nextStartAfter = some last ∧ req.keyPrefix <+: last ∧ last ∈ page.keys ∧
      (∀ k ∈ page.keys, unitRank k ≤ unitRank last) ∧
      last ∈ req.start.rest s.store (prefixUpperBound req.keyPrefix) := by
  have hlimit : req.limit ≠ 0 := by
    intro hzero
    rw [scanPage, if_pos hzero, Option.some_inj] at h
    rw [← h] at hdone
    cases hdone
  obtain ⟨hsub, hlists, -, hfull⟩ := scanPage_takes h
  obtain ⟨hlen, hresume⟩ := hfull hdone
  have hne : page.keys ≠ [] := List.ne_nil_of_length_pos (by omega)
  have hlast := List.getLast?_eq_some_getLast hne
  have hmem := List.getLast_mem hne
  refine ⟨page.keys.getLast hne, hresume.trans hlast, (lists_iff.1 (hlists _ hmem)).1, hmem,
    fun k hk => ?_, hsub.subset hmem⟩
  -- the keys of a page are in order
  have hsorted := keys_sorted_of_page h
  rw [← List.dropLast_append_getLast hne] at hsorted hk
  rcases List.mem_append.1 hk with hk | hk
  · exact le_of_lt ((List.pairwise_append.1 hsorted).2.2 k hk _ (List.mem_singleton_self _))
  · rw [List.mem_singleton.1 hk]

/-- A page that is not the last has an entry. -/
theorem entries_ne_nil (h : scanPage P req s = some page) (hdone : page.done = false) :
    page.entries ≠ [] := by
  obtain ⟨last, -, -, hmem, -⟩ := scanPage_resumes h hdone
  intro hnil
  rw [ScanPage.keys, hnil] at hmem
  exact absurd hmem List.not_mem_nil

/-- The request for the page after a page. -/
def IndexeddbCore.ScanPage.resume (page : ScanPage) (req : ScanPageRequest) : ScanPageRequest :=
  { req with startAfter := page.nextStartAfter, skipPrefix := page.skipPrefix }

/-- **The pages of a request**, one after another, each read from the
stores as they are by then. -/
inductive Fetches (P : Platform) : ScanPageRequest → List (Stores × ScanPage) → Prop
  /-- No more pages are asked for. -/
  | stop {req : ScanPageRequest} : Fetches P req []
  | last {req : ScanPageRequest} {s : Stores} {page : ScanPage} :
      scanPage P req s = some page → page.done = true → Fetches P req [(s, page)]
  | more {req : ScanPageRequest} {s : Stores} {page : ScanPage}
      {fetched : List (Stores × ScanPage)} : scanPage P req s = some page → page.done = false →
      Fetches P (page.resume req) fetched → Fetches P req ((s, page) :: fetched)

namespace Fetches

variable {fetched : List (Stores × ScanPage)}

/-- A page's keys are above a resume point under the prefix, in both
orders. -/
theorem lt_of_scanPage {sa k : Str} (h : scanPage P req s = some page)
    (hsa : req.startAfter = some sa) (hpre : req.keyPrefix <+: sa) (hk : k ∈ page.keys) :
    unitRank sa < unitRank k ∧ strLt sa k := by
  obtain ⟨hsub, hlists, -, -⟩ := scanPage_takes h
  exact ⟨lt_of_resume hsa hpre (hsub.subset hk),
    not_resumed_iff.1 (lists_iff.1 (hlists k hk)).2.1 sa hsa⟩

/-- So is what is fetched after it. -/
theorem lt_of_startAfter (h : Fetches P req fetched) {sa : Str} (hsa : req.startAfter = some sa)
    (hpre : req.keyPrefix <+: sa) :
    ∀ sp ∈ fetched, ∀ k ∈ sp.2.keys, unitRank sa < unitRank k ∧ strLt sa k := by
  induction h generalizing sa with
  | stop => exact fun sp hsp => absurd hsp List.not_mem_nil
  | last hpage _ =>
    intro sp hsp k hk
    rw [List.mem_singleton.1 hsp] at hk
    exact lt_of_scanPage hpage hsa hpre hk
  | more hpage hdone _ ih =>
    obtain ⟨last, hlast, hlastpre, hmem, -, -⟩ := scanPage_resumes hpage hdone
    intro sp hsp k hk
    rcases List.mem_cons.1 hsp with rfl | hsp
    · exact lt_of_scanPage hpage hsa hpre hk
    · obtain ⟨hunit, hpoint⟩ := ih hlast hlastpre sp hsp k hk
      obtain ⟨hunit', hpoint'⟩ := lt_of_scanPage hpage hsa hpre hmem
      exact ⟨lt_trans hunit' hunit, lt_trans hpoint' hpoint⟩

/-- **Pages come in the store's order**, whatever happens to the stores
between them. -/
theorem pairwise (h : Fetches P req fetched) :
    fetched.Pairwise fun sp sp' => ∀ k ∈ sp.2.keys, ∀ k' ∈ sp'.2.keys,
      unitRank k < unitRank k' := by
  induction h with
  | stop => exact List.Pairwise.nil
  | last => exact List.pairwise_singleton _ _
  | more hpage hdone hrest ih =>
    obtain ⟨last, hlast, hpre, -, hle, -⟩ := scanPage_resumes hpage hdone
    refine List.Pairwise.cons (fun sp hsp k hk k' hk' => ?_) ih
    exact lt_of_le_of_lt (hle k hk) (hrest.lt_of_startAfter hlast hpre sp hsp k' hk').1

/-- Every page is one of a request for the same prefix, of the same size. -/
theorem scanned (h : Fetches P req fetched) : ∀ sp ∈ fetched, ∃ req', scanPage P req' sp.1 =
    some sp.2 ∧ req'.keyPrefix = req.keyPrefix ∧ req'.limit = req.limit := by
  induction h with
  | stop => exact fun sp hsp => absurd hsp List.not_mem_nil
  | last hpage _ => exact fun sp hsp => ⟨_, List.mem_singleton.1 hsp ▸ hpage, rfl, rfl⟩
  | more hpage _ _ ih =>
    intro sp hsp
    rcases List.mem_cons.1 hsp with rfl | hsp
    · exact ⟨_, hpage, rfl, rfl⟩
    · exact ih sp hsp

end Fetches

namespace IndexeddbLister

/-- **A lister comes to its end**, a page after another. -/
theorem exists_drains_of_empty {l : IndexeddbLister} (hn : 1 ≤ l.pageSize)
    (hbuf : l.buffer = []) : ∃ pages : List ScanPage,
      Fetches P l.request (pages.map fun page => (s, page)) ∧
      Drains (next O P s) l ((pages.flatMap ScanPage.entries).map
        fun e => listedEntry O P l.root e.1 e.2) := by
  -- by induction on what the next scan is left with
  induction hk : (l.request.start.rest s.store (prefixUpperBound l.request.keyPrefix)).length
    using Nat.strong_induction_on generalizing l with
  | _ n ih =>
    subst hk
    cases hd : l.done with
    | true => exact ⟨[], .stop, drains_done hd hbuf⟩
    | false =>
      obtain ⟨page, hpage⟩ := Option.isSome_iff_exists.1 (scanPage_isSome P l.request s)
      cases hdone : page.done with
      | true =>
        have hdrain := drains_buffer (l := l.receive page) page.entries
          (drains_done (O := O) (P := P) (s := s) hdone rfl)
        refine ⟨[page], .last hpage hdone, ?_⟩
        refine .of_next_eq (next_eq_of_page hbuf hd hpage (by simp [hdone])) ?_
        rw [List.append_nil] at hdrain
        rw [List.flatMap_singleton]
        exact hdrain
      | false =>
        obtain ⟨last, hlast, hpre, -, -, hrest⟩ := scanPage_resumes hpage hdone
        have hreq : IndexeddbLister.request { l.receive page with buffer := [] } =
            { l.request with startAfter := some last } := by
          simp only [request, receive, hlast, (scanPage_takes hpage).2.2.1]
        obtain ⟨pages, hpages, hdrain⟩ := ih _ (length_rest_resume hpre hrest)
          (l := { l.receive page with buffer := [] }) hn rfl (by rw [hreq])
        refine ⟨page :: pages, .more hpage hdone hpages, ?_⟩
        refine .of_next_eq (next_eq_of_page hbuf hd hpage (entries_ne_nil hpage)) ?_
        rw [List.flatMap_cons, List.map_append]
        exact drains_buffer (l := l.receive page) page.entries hdrain

/-- The same with entries still in the buffer. -/
theorem exists_drains {l : IndexeddbLister} (hn : 1 ≤ l.pageSize) : ∃ pages : List ScanPage,
    Fetches P l.request (pages.map fun page => (s, page)) ∧
    Drains (next O P s) l ((l.buffer ++ pages.flatMap ScanPage.entries).map
      fun e => listedEntry O P l.root e.1 e.2) := by
  obtain ⟨pages, hpages, hdrain⟩ :=
    exists_drains_of_empty (O := O) (P := P) (s := s) (l := { l with buffer := [] }) hn rfl
  refine ⟨pages, hpages, ?_⟩
  rw [List.map_append]
  exact drains_buffer (l := l) l.buffer hdrain

end IndexeddbLister

/-- **Scans and listings end.** The loop of every request has a run, which
it returns with fuel for it, and in which room for a key is left whenever
keys are fetched. Over stores that do not change every lister reaches its
end: its pages follow each other in the store's order, and one that is
not the last has as many entries as asked for. -/
theorem scan_terminates (P : Platform) (s : Stores) :
    (∀ req : ScanPageRequest,
      (∃ page, scanPage P req s = some page) ∧
      (1 ≤ req.limit → ∃ visited result,
        ScanRun s.store req (prefixUpperBound req.keyPrefix) req.start visited result ∧
        (∀ fuel, visited.length ≤ fuel → scanLoop s.store req (prefixUpperBound req.keyPrefix)
          fuel req.start = some result) ∧
        ∀ st ∈ visited, st.keys.length ≤ req.limit ∧ 1 ≤ req.limit - st.keys.length)) ∧
    ∀ (O : Opendal) (l : IndexeddbLister), 1 ≤ l.pageSize → ∃ pages : List ScanPage,
      Fetches P l.request (pages.map fun page => (s, page)) ∧
      Drains (IndexeddbLister.next O P s) l ((l.buffer ++ pages.flatMap ScanPage.entries).map
        fun e => listedEntry O P l.root e.1 e.2) ∧
      (∀ page ∈ pages, page.done = false → page.entries.length = l.pageSize) ∧
      pages.Pairwise fun page page' => ∀ k ∈ page.keys, ∀ k' ∈ page'.keys,
        unitRank k < unitRank k' := by
  refine ⟨fun req => ⟨Option.isSome_iff_exists.1 (scanPage_isSome P req s), fun hlimit => ?_⟩,
    fun O l hn => ?_⟩
  · obtain ⟨visited, result, hrun, -⟩ := exists_scanRun_start s.store req hlimit
    refine ⟨visited, result, hrun, fun fuel hfuel => hrun.scanLoop_eq hfuel, fun st hst => ?_⟩
    have hroom := hrun.room (Nat.lt_of_lt_of_le Nat.zero_lt_one hlimit) st hst
    omega
  · obtain ⟨pages, hpages, hdrain⟩ := IndexeddbLister.exists_drains (O := O) (P := P) (s := s) hn
    refine ⟨pages, hpages, hdrain, fun page hpage hdone => ?_, List.pairwise_map.1 hpages.pairwise⟩
    obtain ⟨req, hscan, -, hlimit⟩ := hpages.scanned _ (List.mem_map_of_mem hpage)
    have hlen := ((scanPage_takes hscan).2.2.2 hdone).1
    rw [ScanPage.keys, List.length_map, hlimit] at hlen
    exact hlen

end OpendalIndexeddb
