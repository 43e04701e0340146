import OpendalIndexeddb.Conflicts
import OpendalIndexeddb.StableKeys
/-!
# Changes behind a listing

A listing reads every key at one page, and a page reads the keys behind
the one before it. What becomes of a key once its page is read does not
show in the listing, and so a client may change or delete what a listing
returns while it goes on.
-/

namespace OpendalIndexeddb

open IndexeddbCore

variable {O : Opendal} {P : Platform} {s t : Stores} {req : ScanPageRequest}
variable {page page' : ScanPage} {k last : Str} {l l' : IndexeddbLister}

/-! ## What a page depends on -/

/-- Stores that are the same in the keys a request selects have the same
keys left to list. -/
theorem pageKeys_selects (hsame : ∀ k, req.selects k = true → s.view k = t.view k) :
    pageKeys s.store req = pageKeys t.store req := by
  refine eq_of_sorted (pageKeys_sorted s.store req) (pageKeys_sorted t.store req) fun k => ?_
  rw [pageKeys, pageKeys, List.mem_filter, List.mem_filter, mem_textKeys_iff, mem_textKeys_iff]
  exact and_congr_left fun hk => by rw [← view_isSome, ← view_isSome, hsame k hk]

/-- **A page depends on the keys its request selects**, and a page that is
not the last resumes at the same key. -/
theorem scanPage_selects (hlimit : 0 < req.limit) (hreach : req.SkipReached)
    (hsame : ∀ k, req.selects k = true → s.view k = t.view k)
    (hs : scanPage P req s = some page) (ht : scanPage P req t = some page') :
    page.entries = page'.entries ∧ page.done = page'.done ∧
      page.skipPrefix = page'.skipPrefix ∧
      (page.done = false → page.nextStartAfter = page'.nextStartAfter) := by
  have hkeys := pageKeys_selects hsame
  obtain ⟨hentries, hdone, hskip, hnext⟩ := scanPage_spec hlimit hreach hs
  obtain ⟨hentries', hdone', hskip', hnext'⟩ := scanPage_spec hlimit hreach ht
  rw [← hkeys] at hentries' hdone' hnext'
  refine ⟨?_, hdone.trans hdone'.symm, hskip.trans hskip'.symm, fun hmore => ?_⟩
  · rw [hentries, hentries']
    refine List.map_congr_left fun k hk => ?_
    have hleft := List.mem_of_mem_take hk
    have hin : s.store.contains (.text k) = true :=
      mem_textKeys_iff.1 (List.mem_filter.1 hleft).1
    have hin' : t.store.contains (.text k) = true :=
      mem_textKeys_iff.1 (List.mem_filter.1 (hkeys ▸ hleft)).1
    rw [entryInfoForKey_eq_view hin, entryInfoForKey_eq_view hin',
      hsame k (List.mem_filter.1 hleft).2]
  · rw [hnext hmore, hnext' (hdone'.trans (hdone.symm.trans hmore))]

/-- Behind a key of the listing there is less to select. -/
theorem selects_of_resume (hlast : req.selects last = true)
    (hk : ScanPageRequest.selects { req with startAfter := some last } k = true) :
    req.selects k = true ∧ unitRank last < unitRank k := by
  obtain ⟨hlists, hunit⟩ := selects_iff.1 hk
  obtain ⟨hpre, hres, hmark, hskip⟩ := lists_iff.1 hlists
  have hlt : strLt last k := not_resumed_iff.1 hres last rfl
  have hlastpre := (lists_iff.1 (selects_iff.1 hlast).1).1
  have hunit' : unitRank last < unitRank k := by
    by_cases heq : req.keyPrefix = last
    · -- every other key under the prefix is above it
      refine lt_of_le_of_ne (unitRank_le_of_isPrefix (heq ▸ hpre)) fun h => ?_
      exact lt_irrefl _ (unitRank_injective h ▸ hlt)
    · exact hunit last rfl (lt_of_le_of_ne (pointRank_le_of_isPrefix hlastpre)
        fun h => heq (pointRank_injective h))
  refine ⟨selects_iff.2 ⟨lists_iff.2 ⟨hpre, ?_, hmark, hskip⟩, fun sa hsa hlow => ?_⟩, hunit'⟩
  · exact not_resumed_iff.2 fun sa hsa => lt_trans (lt_of_selects hlast hsa).1 hlt
  · exact lt_trans ((lt_of_selects hlast hsa).2 hlow) hunit'

/-! ## What a lister has ahead -/

namespace IndexeddbLister

/-- The keys a lister may still read. -/
def Ahead (l : IndexeddbLister) (k : Str) : Prop := l.done = false ∧ l.request.selects k = true

/-- A lister that a listing leads to: its page size is positive, and its
resume point is behind the prefix it skips. -/
structure Going (l : IndexeddbLister) : Prop where
  size : 0 < l.pageSize
  reached : l.done = false → l.request.SkipReached

/-- **Behind a page** is none of its keys, and what was ahead before. -/
theorem ahead_receive (hgoing : l.Going) (hdone : l.done = false)
    (hpage : scanPage P l.request s = some page) (hk : (l.receive page).Ahead k) :
    l.Ahead k ∧ k ∉ page.keys := by
  obtain ⟨hmore, hselects⟩ := hk
  change page.done = false at hmore
  obtain ⟨last, hlast, -, hmem, hle, -⟩ := scanPage_resumes hpage hmore
  have hreq : (l.receive page).request = { l.request with startAfter := some last } := by
    simp only [request, receive, hlast, (scanPage_takes hpage).2.2.1]
  have hsel : l.request.selects last = true := by
    rw [Fetches.keys_eq_take hgoing.size (hgoing.reached hdone) hpage] at hmem
    exact (List.mem_filter.1 (List.mem_of_mem_take hmem)).2
  obtain ⟨hbefore, hunit⟩ := selects_of_resume hsel (hreq ▸ hselects)
  exact ⟨⟨hdone, hbefore⟩, fun hin => absurd (hle k hin) (not_le.2 hunit)⟩

/-- A page leaves the lister going. -/
theorem Going.receive (hgoing : l.Going) (hdone : l.done = false)
    (hpage : scanPage P l.request s = some page) : (l.receive page).Going := by
  refine ⟨hgoing.size, fun hmore => ?_⟩
  change page.done = false at hmore
  obtain ⟨last, hlast, -, hmem, -, -⟩ := scanPage_resumes hpage hmore
  have hreq : (l.receive page).request = { l.request with startAfter := some last } := by
    simp only [request, IndexeddbLister.receive, hlast, (scanPage_takes hpage).2.2.1]
  rw [Fetches.keys_eq_take hgoing.size (hgoing.reached hdone) hpage] at hmem
  rw [hreq]
  exact skipReached_resume (hgoing.reached hdone)
    (List.mem_filter.1 (List.mem_of_mem_take hmem)).2

/-- **Two listers that cannot be told apart** by stores that are the same
ahead: the same one, or both at the end with the same buffer. -/
def Similar (l l' : IndexeddbLister) : Prop :=
  l = l' ∨ (l.done = true ∧ l'.done = true ∧ l.root = l'.root ∧ l.buffer = l'.buffer)

/-- **A call depends on what is ahead**: similar listers return the same
from stores that are the same there, and stay similar. -/
theorem Similar.call (h : l.Similar l') (hgoing : l.Going)
    (hsame : ∀ k, l.Ahead k → s.view k = t.view k) :
    (l.call O P s).1.1 = (l'.call O P t).1.1 ∧ (l.call O P s).2.Similar (l'.call O P t).2 := by
  rcases h with rfl | ⟨hdone, hdone', hroot, hbuf⟩
  · rcases hbuf : l.buffer with _ | ⟨e, buffer⟩
    · rcases hdone : l.done with _ | _
      · obtain ⟨page, hpage, hcall⟩ := call_page (O := O) (P := P) (s := s) hbuf hdone
        obtain ⟨page', hpage', hcall'⟩ := call_page (O := O) (P := P) (s := t) hbuf hdone
        obtain ⟨hentries, hend, hskip, hnext⟩ := scanPage_selects hgoing.size
          (hgoing.reached hdone) (fun k hk => hsame k ⟨hdone, hk⟩) hpage hpage'
        -- the last page's resume point is not used
        have hsimilar (buffer : List (Str × EntryInfo)) :
            Similar { l.receive page with buffer } { l.receive page' with buffer } := by
          rcases hmore : page.done with _ | _
          · left
            simp only [receive, hnext hmore, hskip, hend]
          · exact Or.inr ⟨hmore, hend.symm.trans hmore, rfl, rfl⟩
        rcases hcall with ⟨hnil, -, hcall⟩ | ⟨e, buffer, hcons, hcall⟩
        · rcases hcall' with ⟨hnil', -, hcall'⟩ | ⟨e', buffer', hcons', -⟩
          · rw [hcall, hcall']
            refine ⟨rfl, ?_⟩
            have h := hsimilar page.entries
            rw [show { l.receive page' with buffer := page.entries } = l.receive page' by
              rw [hentries]; rfl] at h
            exact h
          · rw [← hentries, hnil] at hcons'
            cases hcons'
        · rcases hcall' with ⟨hnil', -, -⟩ | ⟨e', buffer', hcons', hcall'⟩
          · rw [← hentries, hcons] at hnil'
            cases hnil'
          · rw [← hentries, hcons] at hcons'
            cases hcons'
            rw [hcall, hcall']
            exact ⟨rfl, hsimilar buffer⟩
      · rw [call_done hbuf hdone, call_done hbuf hdone]
        exact ⟨rfl, Or.inl rfl⟩
    · rw [call_buffered hbuf, call_buffered hbuf]
      exact ⟨rfl, Or.inl rfl⟩
  · rcases hbuf' : l.buffer with _ | ⟨e, buffer⟩
    · rw [call_done hbuf' hdone, call_done (hbuf.symm.trans hbuf') hdone']
      exact ⟨rfl, Or.inr ⟨hdone, hdone', hroot, hbuf⟩⟩
    · rw [call_buffered hbuf', call_buffered (hbuf.symm.trans hbuf')]
      exact ⟨by rw [hroot], Or.inr ⟨hdone, hdone', hroot, rfl⟩⟩

/-- A call does not change what is listed. -/
theorem call_listed (l : IndexeddbLister) (O : Opendal) (P : Platform) (s : Stores) :
    (l.call O P s).2.root = l.root ∧ (l.call O P s).2.keyPrefix = l.keyPrefix := by
  rcases call_cases O P l s with ⟨e, buffer, -, hcall⟩ | ⟨page, e, buffer, -, -, -, hcall⟩ |
    ⟨page, -, -, -, -, hcall⟩ | ⟨-, -, hcall⟩
  all_goals
    rw [hcall]
    exact ⟨rfl, rfl⟩

/-- A call keeps the lister going, and has nothing ahead that was not. -/
theorem Going.call (hgoing : l.Going) (O : Opendal) (P : Platform) (s : Stores) :
    (l.call O P s).2.Going ∧ ∀ k, (l.call O P s).2.Ahead k → l.Ahead k := by
  rcases hbuf : l.buffer with _ | ⟨e, buffer⟩
  · rcases hdone : l.done with _ | _
    · obtain ⟨page, hpage, ⟨-, -, hcall⟩ | ⟨e, buffer, -, hcall⟩⟩ :=
        call_page (O := O) (P := P) (s := s) hbuf hdone
      · rw [hcall]
        exact ⟨hgoing.receive hdone hpage, fun k hk => (ahead_receive hgoing hdone hpage hk).1⟩
      · rw [hcall]
        have hnext := hgoing.receive hdone hpage
        exact ⟨⟨hnext.size, hnext.reached⟩,
          fun k hk => (ahead_receive hgoing hdone hpage ⟨hk.1, hk.2⟩).1⟩
    · rw [call_done hbuf hdone]
      exact ⟨hgoing, fun k hk => hk⟩
  · rw [call_buffered hbuf]
    exact ⟨⟨hgoing.size, hgoing.reached⟩, fun k hk => ⟨hk.1, hk.2⟩⟩

end IndexeddbLister

theorem returned_cons (l : IndexeddbLister) (s : Stores) (calls : List Stores) :
    returned O P l (s :: calls) =
      (l.call O P s).1.1.toList ++ returned O P (l.call O P s).2 calls := by
  rw [returned, run_cons, List.filterMap_cons]
  cases (l.call O P s).1.1 <;> rfl

/-- Over stores that do not change, calls return the listing from its
beginning. -/
theorem returned_replicate {es : List Entry} (h : Drains (IndexeddbLister.next O P s) l es)
    (n : ℕ) : returned O P l (List.replicate n s) = es.take n := by
  induction h generalizing n with
  | @finish l l' hn =>
    have hcall : l.call O P s = ((none, l.transaction P s), l') := by
      rw [IndexeddbLister.call, hn]
    have hend : l'.buffer = [] ∧ l'.done = true := by
      have hone : Ended O P l [s] := by simp [Ended, run, hcall]
      simpa [run, hcall] using IndexeddbLister.run_ended hone
    have hrest (m : ℕ) : returned O P l' (List.replicate m s) = [] := by
      induction m with
      | zero => rfl
      | succ m ih =>
        rw [List.replicate_succ, returned_cons, IndexeddbLister.call_done hend.1 hend.2, ih]
        rfl
    cases n with
    | zero => rfl
    | succ n =>
      rw [List.replicate_succ, returned_cons, hcall, hrest, List.take_nil]
      rfl
  | @item l l' e es hn _ ih =>
    have hcall : l.call O P s = ((some e, l.transaction P s), l') := by
      rw [IndexeddbLister.call, hn]
    cases n with
    | zero => rfl
    | succ n =>
      rw [List.replicate_succ, returned_cons, hcall, ih n, List.take_succ_cons]
      rfl

/-! ## Walks -/

/-- What happens while a client goes through a listing. -/
inductive WalkInput where
  /-- The client calls `next`. -/
  | next
  /-- It hands paths to the deleter, which deletes them in a batch. -/
  | delete (paths : List Str)
  /-- It, or another client, changes the stores otherwise. -/
  | mutate (m : Mutation)

/-- A client that goes through a listing: its lister, the stores, and the
entries it has received. -/
structure Walk where
  lister : IndexeddbLister
  stores : Stores
  entries : List Entry

/-- The batch that deletes these paths. -/
def pathBatch (O : Opendal) (root : Str) (paths : List Str) : List (Str × Bool) :=
  paths.map fun path => (O.buildAbsPath root path, false)

theorem removed_pathBatch_iff {paths : List Str} {root : Str} {key : Key} :
    Removed (pathBatch O root paths) key ↔
      ∃ path ∈ paths, key = .text (O.buildAbsPath root path) := by
  simp [Removed, pathBatch, RemovedBy]

/-- The operation a change is, for a client with this root. -/
def WalkInput.mutation (O : Opendal) (root : Str) : WalkInput → Option Mutation
  | .next => none
  | .delete paths => some (.deleteMany (pathBatch O root paths))
  | .mutate m => some m

def WalkInput.isNext : WalkInput → Bool
  | .next => true
  | _ => false

/-- The paths handed to the deleter. -/
def WalkInput.deleted : WalkInput → List Str
  | .delete paths => paths
  | _ => []

namespace Walk

def start (req : IndexeddbListRequest) (s : Stores) : Walk := ⟨.new req, s, []⟩

/-- The walk after a call of `next`. -/
def received (O : Opendal) (P : Platform) (w : Walk) : Walk where
  lister := (w.lister.call O P w.stores).2
  stores := w.stores
  entries := w.entries ++ (w.lister.call O P w.stores).1.1.toList

/-- What a call of `next` or a change returns, and the walk it leads to. -/
def step (O : Opendal) (P : Platform) (w : Walk) (i : WalkInput) :
    Option Entry × Walk :=
  match i.mutation O w.lister.root with
  | none => ((w.lister.call O P w.stores).1.1, w.received O P)
  | some m => (none, { w with stores := (m.step O P w.stores).2 })

/-- **Changes behind the lister**: they change no key it may still read. -/
def Behind (O : Opendal) (w : Walk) (i : WalkInput) : Prop :=
  ∀ m, i.mutation O w.lister.root = some m → ∀ k, w.lister.Ahead k → ¬ m.Writes O (.text k)

/-- How often `next` is called. -/
def calls (is : List WalkInput) : ℕ := is.countP WalkInput.isNext

theorem step_change {w : Walk} {i : WalkInput} {m : Mutation}
    (h : i.mutation O w.lister.root = some m) :
    step O P w i = (none, { w with stores := (m.step O P w.stores).2 }) := by
  rw [step, h]

/-- **A walk is not disturbed by what changes behind it.** -/
theorem entries_of_behind {w : Walk} {is : List WalkInput} (hsimilar : w.lister.Similar l)
    (hgoing : w.lister.Going) (hsame : ∀ k, w.lister.Ahead k → w.stores.view k = s.view k)
    (hbehind : Along (step O P) (Behind O) w is) :
    (run (step O P) w is).2.entries =
      w.entries ++ returned O P l (List.replicate (calls is) s) := by
  induction is generalizing w l with
  | nil => exact (List.append_nil _).symm
  | cons i is ih =>
    obtain ⟨hbehind, hrest⟩ := hbehind
    rw [run_cons]
    rcases hm : i.mutation O w.lister.root with _ | m
    · cases i with
      | next =>
        obtain ⟨hout, hnext⟩ := hsimilar.call (O := O) (P := P) hgoing hsame
        obtain ⟨hgoing', hahead⟩ := hgoing.call O P w.stores
        have hcalls : calls (.next :: is) = calls is + 1 := List.countP_cons_of_pos rfl
        rw [hcalls, List.replicate_succ, returned_cons, ← hout, ← List.append_assoc]
        exact ih (w := w.received O P) hnext hgoing' (fun k hk => hsame k (hahead k hk)) hrest
      | delete paths => cases hm
      | mutate m => cases hm
    · have hcalls : calls (i :: is) = calls is := by
        cases i with
        | next => cases hm
        | delete paths => rfl
        | mutate m => rfl
      rw [step_change hm] at hrest ⊢
      rw [hcalls]
      refine ih (w := { w with stores := (m.step O P w.stores).2 }) hsimilar hgoing
        (fun k hk => ?_) hrest
      have hframe := sameAt_cell_iff.1 ((m.footprint O P).frame w.stores)
      exact (hframe.view (hbehind m hm k hk)).trans (hsame k hk)

/-- A lister without a page size returns nothing. -/
theorem entries_of_no_page {w : Walk} (hsize : w.lister.pageSize = 0)
    (hbuf : w.lister.buffer = []) (is : List WalkInput) :
    (run (step O P) w is).2.entries = w.entries := by
  induction is generalizing w with
  | nil => rfl
  | cons i is ih =>
    rw [run_cons]
    rcases hm : i.mutation O w.lister.root with _ | m
    · have hcall : (w.lister.call O P w.stores).1.1 = none ∧
          (w.lister.call O P w.stores).2.pageSize = 0 ∧
          (w.lister.call O P w.stores).2.buffer = [] := by
        rcases hdone : w.lister.done with _ | _
        · obtain ⟨page, hpage, hcall⟩ :=
            IndexeddbLister.call_page (O := O) (P := P) (s := w.stores) hbuf hdone
          have hnone : page.entries = [] := by
            have hlimit : w.lister.request.limit = 0 := hsize
            rw [scanPage, if_pos hlimit, Option.some_inj] at hpage
            rw [← hpage]
          rcases hcall with ⟨hnil, -, hcall⟩ | ⟨e, buffer, hcons, -⟩
          · rw [hcall]
            exact ⟨rfl, hsize, hnil⟩
          · rw [hnone] at hcons
            cases hcons
        · rw [IndexeddbLister.call_done hbuf hdone]
          exact ⟨rfl, hsize, hbuf⟩
      have hstep : (step O P w i).2 = w.received O P := by rw [step, hm]
      have hentries : (w.received O P).entries = w.entries := by
        rw [received, hcall.1]
        exact List.append_nil _
      rw [hstep, ih hcall.2.1 hcall.2.2, hentries]
    · rw [step_change hm]
      exact ih hsize hbuf

end Walk

open IndexeddbBackend in
/-- A lister that the backend makes is going. -/
theorem going_new {build : Build} {root : Root} {path : Str} {args : OpList}
    {lreq : IndexeddbListRequest} (hreq : listRequest O build root path args = some lreq)
    (hsize : 0 < lreq.pageSize) : (IndexeddbLister.new lreq).Going := by
  refine ⟨hsize, fun _ => ?_⟩
  rw [request_new hreq]
  exact skipReached_scanRequest O root path args

open IndexeddbBackend in
/-- **A listing is not disturbed by what changes behind it.** Between the
calls of `next` the client and others change what they like, but for the
keys the lister may still read: those it selects that are behind the last
page it has read. By any number of calls it has then returned what it
would have returned had nothing changed. -/
theorem walk_undisturbed (O : Opendal) (P : Platform) {build : Build} {root : Root}
    {path : Str} {args : OpList} {req : IndexeddbListRequest} {s : Stores} {es : List Entry}
    (hreq : listRequest O build root path args = some req)
    (hlisting : Drains (IndexeddbLister.next O P s) (.new req) es) (is : List WalkInput)
    (hbehind : Along (Walk.step O P) (Walk.Behind O) (.start req s) is) :
    (run (Walk.step O P) (.start req s) is).2.entries = es.take (Walk.calls is) := by
  rcases Nat.eq_zero_or_pos req.pageSize with hzero | hsize
  · -- a page size that has wrapped ends the listing at once
    have hnone : es = [] := hlisting.unique (IndexeddbLister.drains_zero hzero rfl rfl)
    rw [hnone, List.take_nil]
    exact Walk.entries_of_no_page hzero rfl is
  · have hentries := Walk.entries_of_behind (l := .new req) (s := s) (Or.inl rfl)
      (going_new hreq hsize) (fun k _ => rfl) hbehind
    exact hentries.trans (returned_replicate hlisting _)

/-- A listing in pages of four, which deletes a key it has read and not yet
returned, and one it has returned. -/
def siblingWalk : List WalkInput :=
  [.next, .delete ["sub/a".toList, "sub".toList], .next, .next, .next, .next]

theorem walk_undisturbed_siblings : ∃ es,
    Drains (IndexeddbLister.next referenceOpendal referencePlatform siblingStores)
      (.new ⟨['/'], [], none, none, 4⟩) es ∧
    (run (Walk.step referenceOpendal referencePlatform)
      (.start ⟨['/'], [], none, none, 4⟩ siblingStores) siblingWalk).2.entries = es.take 5 := by
  have hreq : IndexeddbBackend.listRequest referenceOpendal .release .slash ['/']
      ⟨some 1, none, true⟩ = some ⟨['/'], [], none, none, 4⟩ := by decide
  obtain ⟨pages, -, hdrains⟩ := IndexeddbLister.exists_drains (O := referenceOpendal)
    (P := referencePlatform) (s := siblingStores) (l := .new ⟨['/'], [], none, none, 4⟩) (by decide)
  refine ⟨_, hdrains, walk_undisturbed referenceOpendal referencePlatform hreq hdrains siblingWalk
    ⟨?_, ?_, ?_, ?_, ?_, ?_, trivial⟩⟩
  · rintro m ⟨⟩
  · rintro m ⟨⟩ k hahead hwrites
    obtain ⟨path, hpath, heq⟩ := removed_pathBatch_iff.1 hwrites
    cases heq
    unfold IndexeddbLister.Ahead at hahead
    rcases List.mem_pair.1 hpath with rfl | rfl
    · exact absurd hahead (by decide)
    · exact absurd hahead (by decide)
  all_goals rintro m ⟨⟩

end OpendalIndexeddb
