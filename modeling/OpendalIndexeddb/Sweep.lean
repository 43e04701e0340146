import OpendalIndexeddb.Pagination
import OpendalIndexeddb.Walks
/-!
# Deleting what a listing returns

A client deletes the paths a recursive listing returns, in batches of any
size, while the listing goes on. The keys it deletes are behind its
lister, so that the listing is not disturbed, and in the end nothing that
it lists is left.
-/

namespace OpendalIndexeddb

open IndexeddbCore IndexeddbBackend

variable {O : Opendal} {P : Platform} {s t : Stores} {root : Root} {path k : Str} {w : Walk}

/-- The path a shown key is listed by is the key's. -/
theorem buildAbsPath_listedEntry (hk : Shown root path k) (info : EntryInfo) :
    O.buildAbsPath root.text (listedEntry O P root.text k info).path = k := by
  obtain ⟨r, rfl, hne, hhead, -⟩ := hk
  simp only [listedEntry, O.rel_path root r hhead, if_neg hne]
  exact O.abs_path root r hhead

namespace Walk

/-- **A sweep**: the client deletes paths it has received, and others
change what is not under the listed prefix. -/
def Sweeps (O : Opendal) (w : Walk) : WalkInput → Prop
  | .next => True
  | .delete paths => paths ⊆ w.entries.map Entry.path
  | .mutate m => ∀ k, w.lister.keyPrefix <+: k → ¬ m.Writes O (.text k)

/-- **Where a sweep is**: what it has received or read is shown by the
listing of the start, and is behind its lister. -/
structure Sweeping (O : Opendal) (root : Root) (path : Str) (s : Stores) (w : Walk) : Prop where
  going : w.lister.Going
  rooted : w.lister.root = root.text
  listed : w.lister.keyPrefix = root.text.tail ++ listBase path
  within : ∀ k, w.lister.keyPrefix <+: k → w.stores.store.contains (.text k) = true →
    s.store.contains (.text k) = true
  buffered : ∀ e ∈ w.lister.buffer, Shown root path e.1 ∧ ¬ w.lister.Ahead e.1
  received : ∀ e ∈ w.entries, ¬ w.lister.Ahead (O.buildAbsPath root.text e.path)

/-- A key ahead that is in the store is shown. -/
theorem Sweeping.shown (h : w.Sweeping O root path s) (hkeys : NormalKeys s)
    (hk : w.lister.request.selects k = true) (hin : w.stores.store.contains (.text k) = true) :
    Shown root path k := by
  obtain ⟨hpre, -, hmark, -⟩ := lists_iff.1 (selects_iff.1 hk).1
  have hnormal := hkeys k (mem_textKeys_iff.2 (h.within k hpre hin))
  change w.lister.keyPrefix <+: k at hpre
  have hmark' : ¬ (k = w.lister.keyPrefix ∧ w.lister.keyPrefix.getLast? = some '/') := by
    rintro ⟨heq, hslash⟩
    simp [ScanPageRequest.isMarker, IndexeddbLister.request, heq, hslash] at hmark
  rw [h.listed] at hpre hmark'
  exact shown_of_normal hnormal hpre hmark'

/-- What a page shows is behind the lister that read it. -/
theorem Sweeping.receive (h : w.Sweeping O root path s) (hkeys : NormalKeys s)
    (hdone : w.lister.done = false) {page : ScanPage}
    (hpage : scanPage P w.lister.request w.stores = some page) :
    ∀ e ∈ page.entries, Shown root path e.1 ∧ ¬ (w.lister.receive page).Ahead e.1 := by
  intro e he
  have hmem : e.1 ∈ page.keys := List.mem_map_of_mem he
  refine ⟨?_, fun hahead => (IndexeddbLister.ahead_receive h.going hdone hpage hahead).2 hmem⟩
  rw [Fetches.keys_eq_take h.going.size (h.going.reached hdone) hpage] at hmem
  obtain ⟨hin, hsel⟩ := List.mem_filter.1 (List.mem_of_mem_take hmem)
  exact h.shown hkeys hsel (mem_textKeys_iff.1 hin)

/-- A call of `next` keeps a sweep where it is. -/
theorem Sweeping.next (h : w.Sweeping O root path s) (hkeys : NormalKeys s) :
    (w.received O P).Sweeping O root path s := by
  obtain ⟨hgoing, hahead⟩ := h.going.call O P w.stores
  have hbehind {k : Str} (hk : ¬ w.lister.Ahead k) :
      ¬ (w.lister.call O P w.stores).2.Ahead k := fun hk' => hk (hahead k hk')
  have hreceived (e : Entry) (he : e ∈ w.entries) : ¬ (w.lister.call O P w.stores).2.Ahead
      (O.buildAbsPath root.text e.path) := hbehind (h.received e he)
  suffices hcall : (∀ e ∈ (w.lister.call O P w.stores).2.buffer,
        Shown root path e.1 ∧ ¬ (w.lister.call O P w.stores).2.Ahead e.1) ∧
      ∀ e ∈ (w.lister.call O P w.stores).1.1,
        ¬ (w.lister.call O P w.stores).2.Ahead (O.buildAbsPath root.text e.path) by
    obtain ⟨hbuffer, hentry⟩ := hcall
    obtain ⟨hroot, hlisted⟩ := w.lister.call_listed O P w.stores
    refine ⟨hgoing, hroot.trans h.rooted, hlisted.trans h.listed, fun k hk => ?_, hbuffer,
      fun e he => ?_⟩
    · exact h.within k (hlisted ▸ hk)
    · rcases List.mem_append.1 he with he | he
      · exact hreceived e he
      · exact hentry e (Option.mem_toList.1 he)
  rcases hbuf : w.lister.buffer with _ | ⟨e, buffer⟩
  · rcases hdone : w.lister.done with _ | _
    · obtain ⟨page, hpage, hcall⟩ :=
        IndexeddbLister.call_page (O := O) (P := P) (s := w.stores) hbuf hdone
      have hshown := h.receive hkeys hdone hpage
      rcases hcall with ⟨hnil, -, hcall⟩ | ⟨e, buffer, hcons, hcall⟩
      · rw [hcall]
        refine ⟨fun e he => ?_, fun e he => absurd he (by simp)⟩
        exact hshown e he
      · rw [hcons] at hshown
        obtain ⟨he, hbehind⟩ := hshown e List.mem_cons_self
        rw [hcall]
        refine ⟨fun e he => hshown e (List.mem_cons_of_mem _ he), ?_⟩
        rintro _ ⟨⟩
        rw [h.rooted, buildAbsPath_listedEntry he]
        exact hbehind
    · rw [IndexeddbLister.call_done hbuf hdone]
      exact ⟨h.buffered, fun e he => absurd he (by simp)⟩
  · have hshown := h.buffered
    rw [hbuf] at hshown
    obtain ⟨he, hbehind⟩ := hshown e List.mem_cons_self
    rw [IndexeddbLister.call_buffered hbuf]
    refine ⟨fun e he => hshown e (List.mem_cons_of_mem _ he), ?_⟩
    rintro _ ⟨⟩
    rw [h.rooted, buildAbsPath_listedEntry he]
    exact hbehind

/-- What a sweep changes is behind its lister. -/
theorem Sweeping.behind (h : w.Sweeping O root path s) {i : WalkInput} (hi : w.Sweeps O i) :
    w.Behind O i := by
  rintro m hm k hk hwrites
  cases i with
  | next => cases hm
  | mutate m' =>
    cases hm
    exact hi k (lists_iff.1 (selects_iff.1 hk.2).1).1 hwrites
  | delete paths =>
    cases hm
    obtain ⟨path, hpath, heq⟩ := removed_pathBatch_iff.1 hwrites
    obtain ⟨e, he, rfl⟩ := List.mem_map.1 (hi hpath)
    cases heq
    rw [h.rooted] at hk
    exact h.received e he hk

/-- A sweep's changes leave no key under the prefix that was not there. -/
theorem Sweeping.change (h : w.Sweeping O root path s) {m : Mutation}
    (hwithin : ∀ k, w.lister.keyPrefix <+: k →
      (m.step O P w.stores).2.store.contains (.text k) = true →
        w.stores.store.contains (.text k) = true) :
    Sweeping O root path s { w with stores := (m.step O P w.stores).2 } :=
  ⟨h.going, h.rooted, h.listed, fun k hk hin => h.within k hk (hwithin k hk hin),
    h.buffered, h.received⟩

theorem Sweeping.step (h : w.Sweeping O root path s) (hkeys : NormalKeys s) {i : WalkInput}
    (hi : w.Sweeps O i) : (w.step O P i).2.Sweeping O root path s := by
  cases i with
  | next => exact h.next hkeys
  | delete paths =>
    refine h.change (m := .deleteMany (pathBatch O w.lister.root paths)) fun k _ hin => ?_
    have herased := erased_deleteMany (pathBatch O w.lister.root paths) w.stores (.text k)
    by_cases hk : Removed (pathBatch O w.lister.root paths) (.text k)
    · rw [OrderedStore.contains, show (Mutation.step O P w.stores (.deleteMany _)).2.store.get _ =
        none from (herased.1 hk).1] at hin
      cases hin
    · rw [OrderedStore.contains, show (Mutation.step O P w.stores (.deleteMany _)).2.store.get _ =
        w.stores.store.get _ from (herased.2 hk).1] at hin
      exact hin
  | mutate m =>
    refine h.change (m := m) fun k hk hin => ?_
    have hframe := (sameAt_cell_iff.1 ((m.footprint O P).frame w.stores)).view (hi k hk)
    rw [← view_isSome] at hin ⊢
    exact hframe ▸ hin

/-- **A sweep goes on behind its lister.** -/
theorem Sweeping.along (h : w.Sweeping O root path s) (hkeys : NormalKeys s)
    {is : List WalkInput} (his : Along (Walk.step O P) (Sweeps O) w is) :
    Along (Walk.step O P) (Behind O) w is := by
  induction is generalizing w with
  | nil => trivial
  | cons i is ih => exact ⟨h.behind his.1, ih (h.step hkeys his.1) his.2⟩

/-- Two batches are one. -/
theorem deleteMany_append (batch batch' : List (Str × Bool)) (s : Stores) :
    deleteMany (batch ++ batch') s = deleteMany batch' (deleteMany batch s) := by
  have herased := (erased_deleteMany batch s).trans (erased_deleteMany batch' (deleteMany batch s))
  refine ((erased_deleteMany (batch ++ batch') s).congr fun key => ?_).unique herased
  simp only [Removed, List.mem_append, or_and_right, exists_or]

/-- **What a sweep deletes**: under the listed prefix the stores are those
that deleting everything that was handed to the deleter in one batch
leaves. -/
theorem agree_of_sweeps {b : List (Str × Bool)} {is : List WalkInput}
    (h : AgreeOn (HasPrefix w.lister.keyPrefix) w.stores (deleteMany b s))
    (his : Along (Walk.step O P) (Sweeps O) w is) :
    AgreeOn (HasPrefix w.lister.keyPrefix) (run (Walk.step O P) w is).2.stores
      (deleteMany (b ++ pathBatch O w.lister.root (is.flatMap WalkInput.deleted)) s) := by
  induction is generalizing w b with
  | nil =>
    rw [List.flatMap_nil, pathBatch, List.map_nil, List.append_nil]
    exact h
  | cons i is ih =>
    obtain ⟨hi, hrest⟩ := his
    rw [run_cons, List.flatMap_cons]
    cases i with
    | next =>
      obtain ⟨hroot, hlisted⟩ := w.lister.call_listed O P w.stores
      have hgo := ih (w := w.received O P) (b := b) (hlisted ▸ h) hrest
      rw [show (w.received O P).lister.root = w.lister.root from hroot,
        show (w.received O P).lister.keyPrefix = w.lister.keyPrefix from hlisted] at hgo
      exact hgo
    | delete paths =>
      have hnow := h.erased (erased_deleteMany (pathBatch O w.lister.root paths) w.stores)
        (erased_deleteMany (pathBatch O w.lister.root paths) (deleteMany b s))
      rw [← deleteMany_append] at hnow
      have hgo := ih (w := ⟨w.lister, deleteMany (pathBatch O w.lister.root paths) w.stores,
        w.entries⟩) hnow hrest
      rw [List.append_assoc, pathBatch, pathBatch, ← List.map_append] at hgo
      exact hgo
    | mutate m =>
      have hframe := sameAt_cell_iff.1 ((m.footprint O P).frame w.stores)
      have hnow := (hframe.mono (q := fun key => ¬ m.Writes O key) fun key hkey hwrites => by
        obtain ⟨k, rfl, hk⟩ := hkey
        exact hi k hk hwrites).trans h
      exact ih (w := { w with stores := (m.step O P w.stores).2 }) hnow hrest

end Walk

/-- The request of a recursive listing of everything. -/
theorem listRequest_whole {build : Build} {req : IndexeddbListRequest}
    (hreq : listRequest O build root path ⟨none, none, true⟩ = some req) :
    0 < req.pageSize ∧ req.root = root.text ∧
      req.keyPrefix = O.buildAbsPath root.text path := by
  have hreqeq : _ = req := Option.some_inj.1 hreq
  rw [← hreqeq]
  exact ⟨Nat.zero_lt_succ _, rfl, rfl⟩

/-- A recursive listing without a limit is what the inner lister yields. -/
theorem drains_of_listing {build : Build} {req : IndexeddbListRequest} {es : List Entry}
    (hreq : listRequest O build root path ⟨none, none, true⟩ = some req)
    (h : Listing O P build s root path ⟨none, none, true⟩ es) :
    Drains (IndexeddbLister.next O P s) (.new req) es := by
  obtain ⟨req', raw, hreq', hraw, hes⟩ := h
  rw [hreq, Option.some_inj] at hreq'
  rw [O.hierarchy_recursive] at hes
  rw [hreq', hes.unique (IndexeddbLimitLister.drains_none 0 raw)]
  exact hraw

/-- Off the supplementary planes it shows every key. -/
theorem listing_recursive {build : Build} {es : List Entry} (hbmp : BmpKeys s)
    (h : Listing O P build s root path ⟨none, none, true⟩ es) :
    es = (keysUnder s (O.buildAbsPath root.text path)).map (keyEntry O P s root.text) := by
  obtain ⟨n, hn, rfl⟩ := listing_iff.1 h
  have hsize : n = defaultPageSize := (Option.some_inj.1 hn).symm
  have hpos : 0 < n := by
    rw [hsize]
    decide
  have hordered := pageOrdered_of_bmp hbmp hpos
    ((listKeys_sublist O s root path ⟨none, none, true⟩).trans List.filter_sublist)
  rw [cutAt, entriesOf, O.hierarchy_recursive, pagesOf, if_neg (by omega),
    (paged_eq_self_iff hpos).2 hordered, listKeys_none]

/-- **Deleting what a recursive listing returns while it goes on.** The
keys are normalized paths, and the listing has no limit and no resume
point. The client hands paths it has received to the deleter, in batches
of its choice; others change what is not under the listed prefix. Whatever
the order of it all, the listing returns what it would have returned had
nothing changed; under the prefix the stores are those that one batch of
all these deletions leaves; and off the supplementary planes, once `next`
was called for every key and every path received was handed over, nothing
that the listing shows is left. -/
theorem sweep_deletes (O : Opendal) (P : Platform) {build : Build} {root : Root} {path : Str}
    {req : IndexeddbListRequest} {s : Stores} {es : List Entry}
    (hreq : listRequest O build root path ⟨none, none, true⟩ = some req)
    (hpath : RelativePath path) (hkeys : NormalKeys s)
    (hlisting : Listing O P build s root path ⟨none, none, true⟩ es) (is : List WalkInput)
    (hsweeps : Along (Walk.step O P) (Walk.Sweeps O) (.start req s) is) :
    (run (Walk.step O P) (.start req s) is).2.entries = es.take (Walk.calls is) ∧
    AgreeOn (HasPrefix (O.buildAbsPath root.text path))
      (run (Walk.step O P) (.start req s) is).2.stores
      (deleteMany (pathBatch O root.text (is.flatMap WalkInput.deleted)) s) ∧
    (BmpKeys s → (keysUnder s (O.buildAbsPath root.text path)).length ≤ Walk.calls is →
      (∀ e ∈ (run (Walk.step O P) (.start req s) is).2.entries,
        e.path ∈ is.flatMap WalkInput.deleted) →
      keysUnder (run (Walk.step O P) (.start req s) is).2.stores
        (O.buildAbsPath root.text path) = []) := by
  obtain ⟨hsize, hroot, hlisted⟩ := listRequest_whole hreq
  have hstart : (Walk.start req s).Sweeping O root path s :=
    ⟨going_new hreq hsize, hroot, hlisted.trans (buildAbsPath_eq O root hpath),
      fun k _ hin => hin, fun e he => absurd he List.not_mem_nil,
      fun e he => absurd he List.not_mem_nil⟩
  have hbehind := hstart.along hkeys hsweeps
  have hentries := (Walk.entries_of_behind (l := .new req) (s := s) (Or.inl rfl)
    (going_new hreq hsize) (fun k _ => rfl) hbehind).trans
      (returned_replicate (drains_of_listing hreq hlisting) (Walk.calls is))
  have hagree := Walk.agree_of_sweeps (b := []) (AgreeOn.refl _ s) hsweeps
  change AgreeOn (HasPrefix req.keyPrefix) _ (deleteMany ([] ++ pathBatch O req.root _) s) at hagree
  rw [hlisted, hroot, List.nil_append] at hagree
  refine ⟨hentries, hagree, fun hbmp hcalls hall => List.eq_nil_iff_forall_not_mem.2 ?_⟩
  intro k hk
  obtain ⟨hin, hcond⟩ := List.mem_filter.1 hk
  rw [mem_textKeys_iff] at hin
  have hunder : HasPrefix (O.buildAbsPath root.text path) (.text k) :=
    ⟨k, rfl, isPrefix_of_mem_keysUnder hk⟩
  have herased := erased_deleteMany
    (pathBatch O root.text (is.flatMap WalkInput.deleted)) s (.text k)
  rw [OrderedStore.contains, (hagree _ hunder).1] at hin
  by_cases hremoved : Removed (pathBatch O root.text (is.flatMap WalkInput.deleted)) (.text k)
  · rw [(herased.1 hremoved).1] at hin
    cases hin
  · -- a key that is left was listed, and so handed over
    rw [(herased.2 hremoved).1] at hin
    have hlisted : k ∈ keysUnder s (O.buildAbsPath root.text path) :=
      List.mem_filter.2 ⟨mem_textKeys_iff.2 hin, hcond⟩
    have hshown : Shown root path k :=
      shown_of_mem_keysUnder hkeys (buildAbsPath_eq O root hpath ▸ hlisted)
    have hes := listing_recursive hbmp hlisting
    rw [hentries, List.take_of_length_le (by rw [hes, List.length_map]; exact hcalls)] at hall
    refine hremoved (removed_pathBatch_iff.2 ⟨_, hall (keyEntry O P s root.text k) ?_, ?_⟩)
    · rw [hes]
      exact List.mem_map_of_mem hlisted
    · rw [keyEntry, buildAbsPath_listedEntry hshown]

/-- A sweep of the siblings, in three batches. -/
def siblingSweep : List WalkInput :=
  [.next, .delete ["sub".toList], .next, .next, .delete ["sub-x".toList, "sub/a".toList], .next,
    .next, .delete ["sub/b".toList, "sub0".toList]]

theorem sweep_deletes_siblings : keysUnder (run (Walk.step referenceOpendal referencePlatform)
    (.start ⟨['/'], [], none, none, 1024⟩ siblingStores) siblingSweep).2.stores [] = [] := by
  have hreq : listRequest referenceOpendal .release .slash ['/'] ⟨none, none, true⟩ =
      some ⟨['/'], [], none, none, 1024⟩ := by decide
  have hnormal : NormalKeys siblingStores := by
    unfold NormalKeys Normal
    decide
  have hsweeps : Along (Walk.step referenceOpendal referencePlatform)
      (Walk.Sweeps referenceOpendal) (.start ⟨['/'], [], none, none, 1024⟩ siblingStores)
      siblingSweep := by
    refine ⟨trivial, ?_, trivial, trivial, ?_, trivial, trivial, ?_, trivial⟩
    all_goals
      unfold Walk.Sweeps
      decide
  obtain ⟨-, -, hempty⟩ := sweep_deletes referenceOpendal referencePlatform hreq (Or.inl rfl)
    hnormal (listing_iff.2 ⟨1024, rfl, rfl⟩) siblingSweep hsweeps
  exact hempty bmpKeys_siblingStores (by decide) (by decide)

end OpendalIndexeddb
