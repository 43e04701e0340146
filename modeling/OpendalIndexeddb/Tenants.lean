import OpendalIndexeddb.Common.Noninterference
import OpendalIndexeddb.Hierarchy
import OpendalIndexeddb.LiveListing
import OpendalIndexeddb.Locality
import OpendalIndexeddb.Model.ObjectStores
import OpendalIndexeddb.Model.Reference
/-!
# Operators that share a database

Operators with their own stores, or with roots apart in one store, on one
database. Their transactions run one at a time in any order, those of
their listings among them, a page each. What keeps them apart is the names
of the stores and the prefix of every key.
-/

namespace OpendalIndexeddb

open IndexeddbCore

/-! ## Operators and requests -/

/-- An operator on a database, as the builder accepted it. -/
structure Tenant (normalizeRoot : Str → Root) (dbName : Str) where
  core : IndexeddbCore
  root : Root
  accepted : ∃ config, IndexeddbBuilder.build normalizeRoot config = .ok (core, root)
  same_database : core.dbName = dbName

/-- A path as OpenDAL hands it to a backend. -/
abbrev PathArg := {path : Str // RelativePath path}

/-- The requests that write. The last two are `delete_once` and
`delete_batch` of the deleter. -/
inductive Change where
  | write (now : Number) (path : PathArg) (value : Bytes) (args : WriteArgs)
  | createDir (now : Number) (path : PathArg)
  | copy (now : Number) (src dst : PathArg) (ifNotExists : Bool) (ifMatch : Option Str)
  | rename (src dst : PathArg)
  | deleteOnce (path : PathArg) (recursive : Bool)
  | deleteBatch (batch : List (PathArg × Bool))

inductive Request where
  | change (c : Change)
  | stat (path : PathArg) (args : OpStat)
  | read (path : PathArg) (args : ReadArgs)
  /-- Opens a listing. -/
  | list (path : PathArg) (args : OpList)
  /-- Calls `next` on the lister of a listing, in the order of opening. -/
  | next (n : ℕ)

inductive Answer where
  | outcome (o : Outcome)
  /-- A listing is open. -/
  | opened
  /-- `list` panicked. -/
  | panicked
  /-- What a listing has returned so far, and whether its lister is at the
  end. -/
  | listed (es : List Entry) (ended : Bool)
  /-- There is no such listing. -/
  | unknown

/-- A listing with the entries its lister has returned. -/
structure OpenListing where
  path : Str
  args : OpList
  lister : IndexeddbLister
  raw : List Entry

/-- What an operator works on: its stores, and its open listings. -/
structure Session where
  stores : Stores
  listings : List OpenListing

/-- The operators' database, and the open listings of each. -/
structure Shared (ι : Type*) where
  database : ObjectStores
  listings : ι → List OpenListing

section Steps

variable (O : Opendal) (P : Platform) (build : Build)

/-- The operation on the stores that a request makes. -/
def Change.mutation (root : Root) : Change → Mutation
  | .write now path value args => .set now (O.buildAbsPath root.text path.1) value args
  | .createDir now path => .createDir now root path.1
  | .copy now src dst ifNotExists ifMatch =>
    .copy now (O.buildAbsPath root.text src.1) (O.buildAbsPath root.text dst.1) ifNotExists ifMatch
  | .rename src dst =>
    .rename (O.buildAbsPath root.text src.1) (O.buildAbsPath root.text dst.1)
  | .deleteOnce path recursive =>
    if recursive then .deleteRecursive (O.buildAbsPath root.text path.1)
    else .delete (O.buildAbsPath root.text path.1)
  | .deleteBatch batch =>
    .deleteMany (batch.map fun request => (O.buildAbsPath root.text request.1.1, request.2))

/-- A call of `next` on the lister of a listing. -/
def OpenListing.next (s : Stores) (x : OpenListing) : Answer × OpenListing :=
  let ((entry, _), lister) := x.lister.call O P s
  let raw := x.raw ++ entry.toList
  (.listed (cutAt x.args.limit (O.hierarchy x.path x.args.recursive raw)) entry.isNone,
    { x with lister, raw })

/-- An operator's answer to a request. -/
def Session.serve (root : Root) (x : Session) : Request → Answer × Session
  | .change c =>
    let (o, stores) := (c.mutation O root).step O P x.stores
    (.outcome o, { x with stores })
  | .stat path args =>
    (.outcome (.metadata (IndexeddbBackend.stat O P root path.1 args x.stores)), x)
  | .read path args =>
    (.outcome (.content (IndexeddbBackend.read O P root path.1 args x.stores)), x)
  | .list path args =>
    match IndexeddbBackend.listRequest O build root path.1 args with
    | some req => (.opened, { x with listings := x.listings ++ [⟨path.1, args, .new req, []⟩] })
    | none => (.panicked, x)
  | .next n =>
    match x.listings[n]? with
    | some listing =>
      let (answer, listing) := listing.next O P x.stores
      (answer, { x with listings := x.listings.set n listing })
    | none => (.unknown, x)

variable {ι : Type*} [DecidableEq ι] {normalizeRoot : Str → Root} {dbName : Str}

/-- What an operator sees of the database. -/
def Shared.session (tenants : ι → Tenant normalizeRoot dbName) (w : Shared ι) (i : ι) : Session :=
  ⟨(tenants i).core.stores w.database, w.listings i⟩

/-- A request to one of the operators. -/
def Shared.step (tenants : ι → Tenant normalizeRoot dbName) (w : Shared ι) (a : ι × Request) :
    Answer × Shared ι :=
  let (answer, x) := (w.session tenants a.1).serve O P build (tenants a.1).root a.2
  (answer, ⟨(tenants a.1).core.commit w.database x.stores,
    Function.update w.listings a.1 x.listings⟩)

end Steps

/-- The operators have different stores, or roots neither of which is a
prefix of the other. -/
def Tenant.Isolated {normalizeRoot : Str → Root} {dbName : Str}
    (a b : Tenant normalizeRoot dbName) : Prop :=
  a.core.objectStoreName ≠ b.core.objectStoreName ∨
    (¬ a.root.text <+: b.root.text ∧ ¬ b.root.text <+: a.root.text)

/-- The keys under a root. -/
def Root.keys (root : Root) : Key → Prop := underPrefix root.text.tail

variable {O : Opendal} {P : Platform} {build : Build} {root root' : Root} {s t : Stores}
variable {p p' k : Str}

/-! ## Keys under a root -/

theorem underPrefix_text : underPrefix p (.text k) ↔ p <+: k := by
  constructor
  · rintro (rfl | ⟨k', hk, hpre⟩)
    · exact List.nil_prefix
    · cases hk
      exact hpre
  · exact fun h => Or.inr ⟨k, rfl, h⟩

theorem underPrefix_mono (h : p <+: p') {key : Key} (hkey : underPrefix p' key) :
    underPrefix p key := by
  rcases hkey with rfl | ⟨k, rfl, hk⟩
  · exact Or.inl (List.prefix_nil.1 h)
  · exact Or.inr ⟨k, rfl, h.trans hk⟩

/-- A path of a request is under the root. -/
theorem isPrefix_buildAbsPath (O : Opendal) (root : Root) (path : PathArg) :
    root.text.tail <+: O.buildAbsPath root.text path.1 := by
  rw [buildAbsPath_eq O root path.2]
  exact List.prefix_append _ _

theorem keys_buildAbsPath (O : Opendal) (root : Root) (path : PathArg) :
    root.keys (.text (O.buildAbsPath root.text path.1)) :=
  underPrefix_text.2 (isPrefix_buildAbsPath O root path)

/-- Roots apart have no key in common. -/
theorem not_keys_of_not_isPrefix (h : ¬ root.text <+: root'.text) (h' : ¬ root'.text <+: root.text)
    {key : Key} (hkey : root.keys key) : ¬ root'.keys key := by
  have hcons (r : Root) : r.text = '/' :: r.text.tail :=
    List.eq_cons_of_mem_head? (Option.mem_def.2 r.starts)
  rw [hcons root, hcons root', List.cons_prefix_cons] at h h'
  rintro hkey'
  rcases hkey with hnil | ⟨k, rfl, hk⟩
  · exact h ⟨rfl, hnil ▸ List.nil_prefix⟩
  · rcases List.prefix_or_prefix_of_prefix hk (underPrefix_text.1 hkey') with hpre | hpre
    · exact h ⟨rfl, hpre⟩
    · exact h' ⟨rfl, hpre⟩

/-! ## Changes stay under the root -/

/-- What one request of a batch removes is under its path. -/
theorem underPrefix_of_removedBy {request : Str × Bool} {key : Key}
    (h : RemovedBy request key) : underPrefix request.1 key := by
  obtain ⟨path, recursive⟩ := request
  cases recursive with
  | false => exact h ▸ underPrefix_text.2 List.prefix_rfl
  | true =>
    rcases h with ⟨k, hk, rfl⟩ | h
    · have hkey : k = path := by
        simp only [recursiveDeleteTarget] at hk
        split_ifs at hk <;> simp_all
      exact underPrefix_text.2 (hkey ▸ List.prefix_rfl)
    · refine underPrefix_mono ?_ h
      simp only [recursiveDeleteTarget]
      split_ifs with hnil hslash
      · exact hnil ▸ List.prefix_rfl
      · exact List.prefix_rfl
      · exact List.prefix_append path _

/-- A batch removes nothing outside the root its paths are under. -/
theorem keys_of_removed {batch : List (Str × Bool)} {key : Key}
    (hbatch : ∀ request ∈ batch, root.text.tail <+: request.1) (h : Removed batch key) :
    root.keys key := by
  obtain ⟨request, hmem, hrem⟩ := h
  exact underPrefix_mono (hbatch request hmem) (underPrefix_of_removedBy hrem)

/-- **A change stays under the root.** -/
theorem Change.within (O : Opendal) (root : Root) (c : Change) :
    (c.mutation O root).Within O root.keys := by
  have hone (path : PathArg) (recursive : Bool) (key : Key)
      (h : Removed [(O.buildAbsPath root.text path.1, recursive)] key) : root.keys key := by
    refine keys_of_removed ?_ h
    simpa using isPrefix_buildAbsPath O root path
  cases c with
  | write now path value args => exact keys_buildAbsPath O root path
  | createDir now path => exact keys_buildAbsPath O root path
  | copy now src dst ifNotExists ifMatch =>
    exact ⟨keys_buildAbsPath O root src, keys_buildAbsPath O root dst⟩
  | rename src dst => exact ⟨keys_buildAbsPath O root src, keys_buildAbsPath O root dst⟩
  | deleteOnce path recursive =>
    cases recursive with
    | false => exact hone path false
    | true => exact hone path true
  | deleteBatch batch =>
    intro key
    refine keys_of_removed ?_
    simp only [List.mem_map, forall_exists_index, and_imp, forall_apply_eq_imp_iff₂]
    exact fun request _ => isPrefix_buildAbsPath O root request.1

/-! ## Listings stay under the root -/

/-- Stores that agree under a prefix have the same keys to list below
it. -/
theorem pageKeys_congr (h : AgreeOn (underPrefix p) s t) {req : ScanPageRequest}
    (hp : p <+: req.keyPrefix) : pageKeys s.store req = pageKeys t.store req := by
  refine eq_of_sorted (pageKeys_sorted s.store req) (pageKeys_sorted t.store req) ?_
  intro k
  rw [pageKeys, pageKeys, List.mem_filter, List.mem_filter]
  refine and_congr_left fun hsel => ?_
  have hk : p <+: k := hp.trans (lists_iff.1 (selects_iff.1 hsel).1).1
  rw [mem_textKeys_iff, mem_textKeys_iff, OrderedStore.contains, OrderedStore.contains,
    (h _ (underPrefix_text.2 hk)).1]

/-- **A page is the same from stores that agree under a prefix**, but for
where it would resume if it were not the last. -/
theorem scanPage_congr (h : AgreeOn (underPrefix p) s t) {req : ScanPageRequest}
    (hp : p <+: req.keyPrefix) (hreach : req.SkipReached) {page page' : ScanPage}
    (hpage : scanPage P req s = some page) (hpage' : scanPage P req t = some page') :
    page.entries = page'.entries ∧ page.done = page'.done ∧ page.skipPrefix = page'.skipPrefix ∧
      (page.done = false → page.nextStartAfter = page'.nextStartAfter ∧
        (page.resume req).SkipReached) := by
  rcases Nat.eq_zero_or_pos req.limit with hzero | hpos
  · simp only [scanPage, if_pos hzero, Option.some_inj] at hpage hpage'
    subst hpage hpage'
    exact ⟨rfl, rfl, rfl, by simp⟩
  · obtain ⟨hentries, hdone, hskip, hresume⟩ := scanPage_spec hpos hreach hpage
    obtain ⟨hentries', hdone', hskip', hresume'⟩ := scanPage_spec hpos hreach hpage'
    have hkeys := pageKeys_congr h hp
    refine ⟨?_, by rw [hdone, hdone', hkeys], hskip.trans hskip'.symm, fun hmore => ⟨?_, ?_⟩⟩
    · rw [hentries, hentries', ← hkeys]
      refine List.map_congr_left fun k hk => ?_
      obtain ⟨hin, hsel⟩ := List.mem_filter.1 (List.mem_of_mem_take hk)
      have hin' : k ∈ textKeys t.store :=
        (List.mem_filter.1 (hkeys ▸ List.mem_of_mem_take hk : k ∈ pageKeys t.store req)).1
      have hunder : p <+: k := hp.trans (lists_iff.1 (selects_iff.1 hsel).1).1
      rw [entryInfoForKey_eq_view (mem_textKeys_iff.1 hin),
        entryInfoForKey_eq_view (mem_textKeys_iff.1 hin'), h.view (underPrefix_text.2 hunder)]
    · have hmore' : page'.done = false := by rw [hdone', ← hkeys, ← hdone, hmore]
      rw [hresume hmore, hresume' hmore', hkeys]
    · -- it resumes at a key of the page
      have hlen : ¬ (pageKeys s.store req).length < req.limit := by
        rw [hmore] at hdone
        exact of_decide_eq_false hdone.symm
      have hne : (pageKeys s.store req).take req.limit ≠ [] := by
        rw [← List.length_pos_iff, List.length_take]
        omega
      rw [ScanPage.resume, hskip, hresume hmore, List.getLast?_eq_some_getLast hne]
      have hlast := List.mem_of_mem_take (List.getLast_mem hne)
      exact skipReached_resume hreach (List.mem_filter.1 hlast).2

/-- Two listers that a client cannot tell apart: the resume point of one
that is at its last page does not count. -/
structure SameLister (p : Str) (l l' : IndexeddbLister) : Prop where
  same : l' = { l with startAfter := l'.startAfter }
  resume : l.done = false → l.startAfter = l'.startAfter
  under : p <+: l.keyPrefix
  reached : l.done = false → l.request.SkipReached

/-- A listing that is opened lists below the root. -/
theorem SameLister.new {req : IndexeddbListRequest} {path : PathArg} {args : OpList}
    (h : IndexeddbBackend.listRequest O build root path.1 args = some req) :
    SameLister root.text.tail (.new req) (.new req) := by
  obtain ⟨n, -, rfl⟩ := Option.map_eq_some_iff.1 h
  refine ⟨rfl, fun _ => rfl, isPrefix_buildAbsPath O root path, fun _ => ?_⟩
  exact IndexeddbBackend.skipReached_scanRequest O root path.1 args

/-- Two calls that read a page return the same first entry of it. -/
theorem SameLister.call_page (h : AgreeOn (underPrefix p) s t) {l : IndexeddbLister}
    (hunder : p <+: l.keyPrefix) (hreach : l.request.SkipReached) (hbuf : l.buffer = [])
    (hdone : l.done = false) : (l.call O P s).1.1 = (l.call O P t).1.1 ∧
      SameLister p (l.call O P s).2 (l.call O P t).2 := by
  obtain ⟨page, hpage, hcase⟩ := IndexeddbLister.call_page (O := O) (P := P) (s := s) hbuf hdone
  obtain ⟨page', hpage', hcase'⟩ := IndexeddbLister.call_page (O := O) (P := P) (s := t) hbuf hdone
  obtain ⟨hentries, hend, hskip, hnext⟩ := scanPage_congr h hunder hreach hpage hpage'
  have hreceive (buffer : List (Str × EntryInfo)) : SameLister p
      { l.receive page with buffer } { l.receive page' with buffer } := by
    refine ⟨?_, fun hmore => (hnext hmore).1, hunder, fun hmore => (hnext hmore).2⟩
    simp only [IndexeddbLister.receive, hend, hskip]
  rcases hcase with ⟨hnil, -, hcall⟩ | ⟨e, buffer, hcons, hcall⟩ <;>
    rcases hcase' with ⟨hnil', -, hcall'⟩ | ⟨e', buffer', hcons', hcall'⟩
  · rw [hcall, hcall']
    refine ⟨rfl, ?_⟩
    show SameLister p { l.receive page with buffer := page.entries }
      { l.receive page' with buffer := page'.entries }
    rw [← hentries]
    exact hreceive page.entries
  · rw [← hentries, hnil] at hcons'
    cases hcons'
  · rw [← hentries, hcons] at hnil'
    cases hnil'
  · rw [← hentries, hcons] at hcons'
    cases hcons'
    rw [hcall, hcall']
    exact ⟨rfl, hreceive buffer⟩

/-- **A call of `next` is answered the same.** -/
theorem SameLister.call (h : AgreeOn (underPrefix p) s t) {l l' : IndexeddbLister}
    (hl : SameLister p l l') : (l.call O P s).1.1 = (l'.call O P t).1.1 ∧
      SameLister p (l.call O P s).2 (l'.call O P t).2 := by
  obtain ⟨hsame, hresume, hunder, hreach⟩ := hl
  have hbuf' : l'.buffer = l.buffer := by rw [hsame]
  have hroot : l'.root = l.root := by rw [hsame]
  rcases hbuf : l.buffer with _ | ⟨e, buffer⟩
  · rcases hdone : l.done with _ | _
    · have hll : l' = l := by rw [hsame, ← hresume hdone]
      rw [hll]
      exact SameLister.call_page h hunder (hreach hdone) hbuf hdone
    · have hdone' : l'.done = true := by rw [hsame, ← hdone]
      rw [IndexeddbLister.call_done hbuf hdone,
        IndexeddbLister.call_done (hbuf'.trans hbuf) hdone']
      exact ⟨rfl, hsame, hresume, hunder, hreach⟩
  · rw [IndexeddbLister.call_buffered hbuf, IndexeddbLister.call_buffered (hbuf'.trans hbuf), hroot]
    exact ⟨rfl, by rw [hsame], hresume, hunder, hreach⟩

/-! ## What an operator cannot tell apart -/

/-- Two listings that are the same to a client. -/
structure SameListing (p : Str) (x x' : OpenListing) : Prop where
  path : x.path = x'.path
  args : x.args = x'.args
  raw : x.raw = x'.raw
  lister : SameLister p x.lister x'.lister

theorem SameListing.next (h : AgreeOn (underPrefix p) s t) {x x' : OpenListing}
    (hx : SameListing p x x') : (x.next O P s).1 = (x'.next O P t).1 ∧
      SameListing p (x.next O P s).2 (x'.next O P t).2 := by
  obtain ⟨hpath, hargs, hraw, hlister⟩ := hx
  obtain ⟨hentry, hnext⟩ := hlister.call (O := O) (P := P) h
  simp only [OpenListing.next, hpath, hargs, hraw, hentry]
  exact ⟨trivial, rfl, rfl, rfl, hnext⟩

/-- Lists that are related have related items at each position, and stay
related with others there. -/
theorem forall₂_at {α β : Type*} {R : α → β → Prop} {l : List α} {l' : List β}
    (h : List.Forall₂ R l l') (n : ℕ) : (l[n]? = none ∧ l'[n]? = none) ∨
      ∃ a b, l[n]? = some a ∧ l'[n]? = some b ∧ R a b ∧
        ∀ a' b', R a' b' → List.Forall₂ R (l.set n a') (l'.set n b') := by
  induction h generalizing n with
  | nil => exact Or.inl ⟨rfl, rfl⟩
  | @cons a b l l' hab hl ih =>
    rcases n with _ | n
    · exact Or.inr ⟨a, b, rfl, rfl, hab, fun a' b' hnew => .cons hnew hl⟩
    · rcases ih n with hnone | ⟨c, d, hc, hd, hcd, hset⟩
      · exact Or.inl (by simpa using hnone)
      · exact Or.inr ⟨c, d, by simpa using hc, by simpa using hd, hcd,
          fun a' b' hnew => .cons hab (hset a' b' hnew)⟩

/-- **What an operator cannot tell apart**: stores with the same under its
root, and the same listings. -/
structure Session.Same (root : Root) (x x' : Session) : Prop where
  stores : AgreeOn root.keys x.stores x'.stores
  listings : List.Forall₂ (SameListing root.text.tail) x.listings x'.listings

/-- **A request is answered the same** in sessions that are the same. -/
theorem Session.alike_serve (O : Opendal) (P : Platform) (build : Build) (root : Root)
    (request : Request) : Alike (Session.Same root)
      (fun x => x.serve O P build root request) fun x => x.serve O P build root request := by
  intro x x' hx
  cases request with
  | change c =>
    obtain ⟨ho, hstores⟩ := ((c.within O root).isLocal P).alike _ _ hx.stores
    exact ⟨congrArg Answer.outcome ho, hstores, hx.listings⟩
  | stat path args =>
    have hview := hx.stores.view (keys_buildAbsPath O root path)
    simp only [Session.serve, IndexeddbBackend.stat, stat_eq_view, hview]
    exact ⟨trivial, hx⟩
  | read path args =>
    have hview := hx.stores.view (keys_buildAbsPath O root path)
    simp only [Session.serve, IndexeddbBackend.read, read_eq_view, hview]
    exact ⟨trivial, hx⟩
  | list path args =>
    simp only [Session.serve]
    cases hreq : IndexeddbBackend.listRequest O build root path.1 args with
    | none => exact ⟨rfl, hx⟩
    | some req =>
      refine ⟨rfl, hx.stores, List.rel_append hx.listings (.cons ?_ .nil)⟩
      exact ⟨rfl, rfl, rfl, .new hreq⟩
  | next n =>
    simp only [Session.serve]
    rcases forall₂_at hx.listings n with ⟨hnone, hnone'⟩ | ⟨a, b, ha, hb, hab, hset⟩
    · rw [hnone, hnone']
      exact ⟨rfl, hx⟩
    · obtain ⟨hanswer, hnext⟩ := hab.next (O := O) (P := P) hx.stores
      rw [ha, hb]
      exact ⟨hanswer, hx.stores, hset _ _ hnext⟩

/-- **A request leaves the keys outside the root alone.** -/
theorem Session.serve_frame (O : Opendal) (P : Platform) (build : Build) (root : Root)
    (x : Session) (request : Request) :
    AgreeOn (fun key => ¬ root.keys key) (x.serve O P build root request).2.stores x.stores := by
  cases request with
  | change c => exact ((c.within O root).isLocal P).frame x.stores
  | stat path args => exact .refl _ _
  | read path args => exact .refl _ _
  | list path args =>
    simp only [Session.serve]
    cases IndexeddbBackend.listRequest O build root path.1 args <;> exact .refl _ _
  | next n =>
    simp only [Session.serve]
    cases x.listings[n]? <;> exact .refl _ _

/-! ## Tenants do not interfere -/

section Tenants

variable {ι : Type*} [DecidableEq ι] {normalizeRoot : Str → Root} {dbName : Str}
variable {tenants : ι → Tenant normalizeRoot dbName} {i : ι}

/-- What an operator sees after its own request is what the request left
it. -/
theorem session_step_self (w : Shared ι) (request : Request) :
    (w.step O P build tenants (i, request)).2.session tenants i =
      ((w.session tenants i).serve O P build (tenants i).root request).2 := by
  simp [Shared.step, Shared.session]

/-- **Another operator's request does not show**, by its stores or by its
root. -/
theorem same_step_other {w w' : Shared ι} {j : ι} (hij : i ≠ j)
    (hiso : (tenants i).Isolated (tenants j)) (request : Request)
    (h : Session.Same (tenants i).root (w.session tenants i) (w'.session tenants i)) :
    Session.Same (tenants i).root
      ((w.step O P build tenants (j, request)).2.session tenants i) (w'.session tenants i) := by
  refine ⟨AgreeOn.trans ?_ h.stores, ?_⟩
  · by_cases hname : (tenants i).core.objectStoreName = (tenants j).core.objectStoreName
    · -- one store: the other's request stayed under its root
      obtain ⟨hroot, hroot'⟩ := hiso.resolve_left (not_not_intro hname)
      have hframe := (w.session tenants j).serve_frame O P build (tenants j).root request
      simp only [Shared.step, Shared.session, stores_congr hname, stores_commit] at hframe ⊢
      exact hframe.mono fun key hkey => not_keys_of_not_isPrefix hroot hroot' hkey
    · simp only [Shared.step, Shared.session, stores_commit_of_ne hname]
      exact .refl _ _
  · simpa [Shared.step, Shared.session, hij] using h.listings

/-- The unwinding conditions of an operator that is isolated from the
others. -/
theorem unwinding_step (O : Opendal) (P : Platform) (build : Build)
    (hiso : ∀ j, j ≠ i → (tenants i).Isolated (tenants j)) :
    Unwinding (Shared.step O P build tenants) (fun a => decide (a.1 = i)) fun w w' =>
      Session.Same (tenants i).root (w.session tenants i) (w'.session tenants i) := by
  constructor
  · rintro ⟨j, request⟩ hj w w' h
    have hj' : j = i := of_decide_eq_true hj
    subst hj'
    obtain ⟨hanswer, hnext⟩ :=
      Session.alike_serve O P build (tenants j).root request _ _ h
    refine ⟨hanswer, ?_⟩
    show Session.Same (tenants j).root _ _
    rw [session_step_self, session_step_self]
    exact hnext
  · rintro ⟨j, request⟩ hj w w' h
    have hj' : j ≠ i := of_decide_eq_false hj
    exact same_step_other hj'.symm (hiso j hj') request h

/-- **Tenants do not interfere.** Operators on one database, each with
other stores or with a root apart from that of operator `i`, are given
requests in any order. What operator `i` is answered is what it is
answered without the others' requests, and its stores have the same under
its root in the end. -/
theorem tenants_isolated (O : Opendal) (P : Platform) (build : Build)
    (tenants : ι → Tenant normalizeRoot dbName) (i : ι)
    (hiso : ∀ j, j ≠ i → (tenants i).Isolated (tenants j)) (database : ObjectStores)
    (acts : List (ι × Request)) :
    let step := Shared.step O P build tenants
    let start : Shared ι := ⟨database, fun _ => []⟩
    let alone := acts.filter fun a => a.1 = i
    outputsOf (fun a => decide (a.1 = i)) acts (run step start acts).1 =
        (run step start alone).1 ∧
      AgreeOn (tenants i).root.keys ((run step start acts).2.session tenants i).stores
        ((run step start alone).2.session tenants i).stores := by
  intro step start alone
  have hstart : Session.Same (tenants i).root (start.session tenants i)
      (start.session tenants i) := ⟨.refl _ _, .nil⟩
  obtain ⟨hanswers, hend⟩ := (unwinding_step O P build hiso).run_filter hstart acts
  exact ⟨hanswers, hend.stores⟩

end Tenants

/-- What `normalize_root` makes of the roots `a` and `/b/`. -/
def normalizeApart (root : Str) : Root :=
  if root = ['a'] then ⟨['/', 'a', '/'], rfl, rfl, by decide⟩
  else if root = ['/', 'b', '/'] then ⟨['/', 'b', '/'], rfl, rfl, by decide⟩
  else .slash

/-- Two operators in one store, with the roots `/a/` and `/b/`. -/
def tenantApart (first : Bool) : Tenant normalizeApart "opendal".toList where
  core := ⟨"opendal".toList, "notes".toList, metaStoreNameFor "notes".toList, rfl, by decide⟩
  root := normalizeApart (if first then ['a'] else ['/', 'b', '/'])
  accepted := ⟨⟨none, some "notes".toList, some (if first then ['a'] else ['/', 'b', '/'])⟩, by
    cases first <;> rfl⟩
  same_database := rfl

/-- A file written under `/a/` is read there, whatever is deleted under
`/b/` in between. -/
theorem tenants_isolated_apart :
    let start : Shared Bool := ⟨fun _ => .records .empty, fun _ => []⟩
    let path : PathArg := ⟨['x'], Or.inr (by decide)⟩
    let write : Bool × Request := (true, .change (.write (.finite 7) path [0] .overwrite))
    let clear : Bool × Request := (false, .change (.deleteOnce ⟨['/'], Or.inl rfl⟩ true))
    let read : Bool × Request := (true, .read path ⟨none, none, none, none, ⟨0, none⟩⟩)
    let step := Shared.step referenceOpendal referencePlatform .release tenantApart
    outputsOf (fun a => decide (a.1 = true)) [write, clear, read]
        (run step start [write, clear, read]).1 = (run step start [write, read]).1 := by
  intro start path write clear read step
  refine (tenants_isolated referenceOpendal referencePlatform .release tenantApart true ?_
    start.database [write, clear, read]).1
  intro j hj
  cases j with
  | true => exact absurd rfl hj
  | false => exact Or.inr ⟨by decide, by decide⟩

end OpendalIndexeddb
