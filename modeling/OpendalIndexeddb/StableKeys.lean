import OpendalIndexeddb.LiveListing
import OpendalIndexeddb.Pagination
/-!
# Keys that stay

A listing reads its pages from stores that change between them. A key
that is there at every page is passed over only where a page before it
ends at a key that is after it in the order of Rust strings: the key is
then taken for one that was listed.
-/

namespace OpendalIndexeddb

open IndexeddbCore

variable {O : Opendal} {P : Platform} {req : ScanPageRequest} {s : Stores} {page : ScanPage}
variable {pages : List (Stores × ScanPage)} {k r : Str}

/-! ## Resume points -/

/-- A key overtakes one behind it in the store's order where it is not
before it in the order of Rust strings. -/
def Overtakes (r k : Str) : Prop := unitRank r < unitRank k ∧ ¬ strLt r k

/-- The keys that the pages before the last one end at. -/
def resumePoints (pages : List (Stores × ScanPage)) : List Str :=
  pages.filterMap fun sp => if sp.2.done then none else sp.2.nextStartAfter

theorem resumePoints_more {last : Str} (hdone : page.done = false)
    (hlast : page.nextStartAfter = some last) :
    resumePoints ((s, page) :: pages) = last :: resumePoints pages := by
  simp [resumePoints, hdone, hlast]

theorem resumePoints_last (hdone : page.done = true) : resumePoints [(s, page)] = [] := by
  simp [resumePoints, hdone]

namespace Fetches

/-- A resume point is a key of its page. -/
theorem resumePoint_listed (h : Fetches P req pages) (hr : r ∈ resumePoints pages) :
    ∃ sp ∈ pages, r ∈ sp.2.keys := by
  obtain ⟨sp, hsp, hlast⟩ := List.mem_filterMap.1 hr
  obtain ⟨req', hpage, -⟩ := h.scanned sp hsp
  split_ifs at hlast with hdone
  obtain ⟨last, hnext, -, hmem, -⟩ := scanPage_resumes hpage (by simpa using hdone)
  rw [hnext, Option.some_inj] at hlast
  exact ⟨sp, hsp, hlast ▸ hmem⟩

/-- **A key that is listed was not overtaken**: resume points before it
are so in both orders, and those after it are behind it. -/
theorem not_overtakes (h : Fetches P req pages) (hk : k ∈ pages.flatMap fun sp => sp.2.keys) :
    ∀ r ∈ resumePoints pages, ¬ Overtakes r k := by
  induction h with
  | stop => exact fun r hr => absurd hr List.not_mem_nil
  | last _ hdone =>
    intro r hr
    rw [resumePoints_last hdone] at hr
    exact absurd hr List.not_mem_nil
  | more hpage hdone hrest ih =>
    obtain ⟨last, hlast, hpre, -, hle, -⟩ := scanPage_resumes hpage hdone
    have hafter := hrest.lt_of_startAfter hlast hpre
    rw [resumePoints_more hdone hlast]
    rw [List.flatMap_cons, List.mem_append] at hk
    rintro r hr ⟨hunit, hpoint⟩
    rcases List.mem_cons.1 hr with rfl | hr
    · rcases hk with hk | hk
      · exact absurd (hle k hk) (not_le.2 hunit)
      · obtain ⟨sp, hsp, hin⟩ := List.mem_flatMap.1 hk
        exact hpoint (hafter sp hsp k hin).2
    · rcases hk with hk | hk
      · obtain ⟨sp, hsp, hin⟩ := hrest.resumePoint_listed hr
        have hlt := lt_of_le_of_lt (hle k hk) (hafter sp hsp r hin).1
        exact lt_asymm hlt hunit
      · exact ih hk r hr ⟨hunit, hpoint⟩

/-- The keys of a page are the first that its listing has left. -/
theorem keys_eq_take (hlimit : 0 < req.limit) (hreach : req.SkipReached)
    (h : scanPage P req s = some page) :
    page.keys = (pageKeys s.store req).take req.limit := by
  rw [ScanPage.keys, (scanPage_spec hlimit hreach h).1, List.map_map]
  exact List.map_id _

/-- **A key that stays is listed unless it is overtaken.** It is among
the keys left at every page, until a page holds it. -/
theorem mem_of_stable (h : Fetches P req pages) (hlimit : 0 < req.limit)
    (hreach : req.SkipReached) (hend : ∃ sp ∈ pages, sp.2.done = true)
    (hstays : ∀ sp ∈ pages, sp.1.store.contains (.text k) = true)
    (hsel : req.selects k = true) (hby : ∀ r ∈ resumePoints pages, ¬ Overtakes r k) :
    k ∈ pages.flatMap fun sp => sp.2.keys := by
  induction h with
  | stop =>
    obtain ⟨sp, hsp, -⟩ := hend
    exact absurd hsp List.not_mem_nil
  | @last req s page hpage hdone =>
    have hleft : k ∈ pageKeys s.store req :=
      List.mem_filter.2 ⟨mem_textKeys_iff.2 (hstays _ List.mem_cons_self), hsel⟩
    have hall := of_decide_eq_true ((scanPage_spec hlimit hreach hpage).2.1.symm.trans hdone)
    rw [List.flatMap_singleton, keys_eq_take hlimit hreach hpage, List.take_of_length_le
      (le_of_lt hall)]
    exact hleft
  | @more req s page pages hpage hdone hrest ih =>
    have hleft : k ∈ pageKeys s.store req :=
      List.mem_filter.2 ⟨mem_textKeys_iff.2 (hstays _ List.mem_cons_self), hsel⟩
    obtain ⟨last, hlast, -, hmem, -⟩ := scanPage_resumes hpage hdone
    have hkeys := keys_eq_take hlimit hreach hpage
    rw [resumePoints_more hdone hlast] at hby
    rw [List.flatMap_cons, List.mem_append]
    by_cases hin : k ∈ page.keys
    · exact Or.inl hin
    · right
      -- the key is behind the page, and so behind the key it ends at
      have hlisted : (pageKeys s.store req)[req.limit - 1]? = some last := by
        have hgot := (scanPage_spec hlimit hreach hpage).2.2.2 hdone
        have hlen := (scanPage_takes hpage).2.2.2 hdone
        rw [hlast, List.getLast?_eq_getElem?, ← hkeys, hlen.1, hkeys, List.getElem?_take] at hgot
        rw [if_pos (by omega)] at hgot
        exact hgot.symm
      have hdrop : k ∈ (pageKeys s.store req).drop req.limit := by
        rw [← List.take_append_drop req.limit (pageKeys s.store req), List.mem_append] at hleft
        exact hleft.resolve_left (hkeys ▸ hin)
      have hunit : unitRank last < unitRank k := by
        have hsorted := pageKeys_sorted s.store req
        rw [← List.take_append_drop req.limit (pageKeys s.store req)] at hsorted
        exact (List.pairwise_append.1 hsorted).2.2 last (hkeys ▸ hmem) k hdrop
      have hpoint : strLt last k := by
        by_contra hnot
        exact hby last List.mem_cons_self ⟨hunit, hnot⟩
      have hresume : page.resume req = { req with startAfter := some last } := by
        rw [ScanPage.resume, hlast, (scanPage_takes hpage).2.2.1]
      have hnext : k ∈ pageKeys s.store { req with startAfter := some last } := by
        rw [pageKeys_resume s.store hlimit hlisted, afterPage, hlisted]
        exact List.mem_filter.2 ⟨hdrop, by simpa using hpoint⟩
      have hselects : req.selects last = true :=
        (List.mem_filter.1 (List.mem_of_getElem? hlisted)).2
      obtain ⟨sp, hsp, hspdone⟩ := hend
      have hsp' : sp ∈ pages := by
        rcases List.mem_cons.1 hsp with rfl | hsp
        · exact absurd hspdone (by simp [hdone])
        · exact hsp
      refine ih ?_ ?_ ⟨sp, hsp', hspdone⟩ ?_ ?_ fun r hr => hby r (List.mem_cons_of_mem _ hr)
      · rw [hresume]
        exact hlimit
      · rw [hresume]
        exact skipReached_resume hreach hselects
      · exact fun sp hsp => hstays sp (List.mem_cons_of_mem _ hsp)
      · rw [hresume]
        exact (List.mem_filter.1 hnext).2

end Fetches

/-! ## The end of a listing -/

/-- The lister returned `None`: the listing has come to its end. -/
def Ended (O : Opendal) (P : Platform) (l : IndexeddbLister) (calls : List Stores) : Prop :=
  none ∈ (run (IndexeddbLister.call O P) l calls).1.map Prod.fst

namespace IndexeddbLister

/-- **What a call of `next` does**: it returns a buffered entry, reads a
page and returns its first entry, reads a page that ends the listing, or
is at the end. -/
theorem call_cases (O : Opendal) (P : Platform) (l : IndexeddbLister) (s : Stores) :
    (∃ e buffer, l.buffer = e :: buffer ∧ call O P l s =
      ((some (listedEntry O P l.root e.1 e.2), []), { l with buffer })) ∨
    (∃ page e buffer, l.buffer = [] ∧ scanPage P l.request s = some page ∧
      page.entries = e :: buffer ∧ call O P l s =
        ((some (listedEntry O P l.root e.1 e.2), [(s, page)]),
          { l.receive page with buffer })) ∨
    (∃ page, l.buffer = [] ∧ scanPage P l.request s = some page ∧ page.entries = [] ∧
      page.done = true ∧ call O P l s = ((none, [(s, page)]), l.receive page)) ∨
    (l.buffer = [] ∧ l.done = true ∧ call O P l s = ((none, []), l)) := by
  rcases hbuf : l.buffer with _ | ⟨e, buffer⟩
  · rcases hdone : l.done with _ | _
    · obtain ⟨page, hpage, ⟨hnil, hend, hcall⟩ | ⟨e, buffer, hentries, hcall⟩⟩ :=
        call_page (O := O) (P := P) (s := s) hbuf hdone
      · exact Or.inr (Or.inr (Or.inl ⟨page, rfl, hpage, hnil, hend, hcall⟩))
      · exact Or.inr (Or.inl ⟨page, e, buffer, rfl, hpage, hentries, hcall⟩)
    · exact Or.inr (Or.inr (Or.inr ⟨rfl, rfl, call_done hbuf hdone⟩))
  · exact Or.inl ⟨e, buffer, rfl, call_buffered hbuf⟩

/-- A lister at its end stays there. -/
theorem run_done {l : IndexeddbLister} (hbuf : l.buffer = []) (hdone : l.done = true)
    (calls : List Stores) : (run (call O P) l calls).2 = l := by
  induction calls with
  | nil => rfl
  | cons s calls ih => rw [run_cons, call_done hbuf hdone, ih]

/-- **A listing that ended is at its end**: nothing is buffered, and its
last page was read. -/
theorem run_ended {l : IndexeddbLister} {calls : List Stores} (h : Ended O P l calls) :
    (run (call O P) l calls).2.buffer = [] ∧ (run (call O P) l calls).2.done = true := by
  induction calls generalizing l with
  | nil => exact absurd h List.not_mem_nil
  | cons s calls ih =>
    unfold Ended at h
    rw [run_cons, List.map_cons, List.mem_cons] at h
    rw [run_cons]
    rcases h with h | h
    · rcases call_cases O P l s with ⟨e, buffer, -, hcall⟩ | ⟨page, e, buffer, -, -, -, hcall⟩ |
        ⟨page, -, -, hnil, hend, hcall⟩ | ⟨hbuf, hdone, hcall⟩
      · rw [hcall] at h
        cases h
      · rw [hcall] at h
        cases h
      · rw [hcall, run_done (l := l.receive page) hnil hend]
        exact ⟨hnil, hend⟩
      · rw [hcall, run_done hbuf hdone]
        exact ⟨hbuf, hdone⟩
    · exact ih h

/-- The last page is among those read. -/
theorem exists_last_page {l : IndexeddbLister} {calls : List Stores}
    (h : (run (call O P) l calls).2.done = true) :
    l.done = true ∨ ∃ sp ∈ fetched O P l calls, sp.2.done = true := by
  induction calls generalizing l with
  | nil => exact Or.inl h
  | cons s calls ih =>
    have hcons : fetched O P l (s :: calls) =
        (l.call O P s).1.2 ++ fetched O P (l.call O P s).2 calls := rfl
    rw [run_cons] at h
    rw [hcons]
    have hrest := ih h
    rcases call_cases O P l s with ⟨e, buffer, -, hcall⟩ | ⟨page, e, buffer, -, -, -, hcall⟩ |
      ⟨page, -, -, -, hend, hcall⟩ | ⟨-, hdone, hcall⟩
    · rw [hcall] at hrest ⊢
      exact hrest
    · rw [hcall] at hrest ⊢
      right
      rcases hrest with hdone | ⟨sp, hsp, hdone⟩
      · exact ⟨(s, page), List.mem_cons_self, hdone⟩
      · exact ⟨sp, List.mem_cons_of_mem _ hsp, hdone⟩
    · rw [hcall]
      exact Or.inr ⟨(s, page), List.mem_cons_self, hend⟩
    · exact Or.inl hdone

/-- **What was read is what was returned and what is buffered.** -/
theorem returned_append (l : IndexeddbLister) (s₀ : Stores) (calls : List Stores) :
    ∃ raws rest,
      l.buffer.map (RawEntry.of s₀) ++ rawEntries (fetched O P l calls) = raws ++ rest ∧
      returned O P l calls = raws.map (fun raw => listedEntry O P l.root raw.key raw.info) ∧
      rest.map (fun raw => (raw.key, raw.info)) = (run (call O P) l calls).2.buffer := by
  induction calls generalizing l s₀ with
  | nil =>
    refine ⟨[], l.buffer.map (RawEntry.of s₀), by simp [fetched, rawEntries, run], rfl, ?_⟩
    rw [List.map_map]
    exact List.map_id _
  | cons s calls ih =>
    have hcons : fetched O P l (s :: calls) =
        (l.call O P s).1.2 ++ fetched O P (l.call O P s).2 calls := rfl
    have hcons' : returned O P l (s :: calls) =
        (l.call O P s).1.1.toList ++ returned O P (l.call O P s).2 calls := by
      rw [returned, run_cons, List.filterMap_cons]
      rcases h : (l.call O P s).1.1 with _ | e
      · rfl
      · rfl
    rw [hcons, hcons', run_cons]
    rcases call_cases O P l s with ⟨e, buffer, hbuf, hcall⟩ |
      ⟨page, e, buffer, hbuf, -, hentries, hcall⟩ | ⟨page, hbuf, -, hnil, -, hcall⟩ |
      ⟨hbuf, -, hcall⟩
    · obtain ⟨raws, rest, hsplit, hret, hleft⟩ := ih { l with buffer } s₀
      rw [hcall, hbuf]
      exact ⟨RawEntry.of s₀ e :: raws, rest, congrArg _ hsplit, congrArg _ hret, hleft⟩
    · obtain ⟨raws, rest, hsplit, hret, hleft⟩ := ih { l.receive page with buffer } s
      rw [hcall, hbuf]
      refine ⟨RawEntry.of s e :: raws, rest, ?_, congrArg _ hret, hleft⟩
      simpa [rawEntries, hentries] using hsplit
    · obtain ⟨raws, rest, hsplit, hret, hleft⟩ := ih (l.receive page) s
      have hbuf' : (l.receive page).buffer = [] := hnil
      rw [hbuf'] at hsplit
      rw [hcall, hbuf]
      exact ⟨raws, rest, by simpa [rawEntries, hnil] using hsplit, hret, hleft⟩
    · obtain ⟨raws, rest, hsplit, hret, hleft⟩ := ih l s₀
      rw [hcall]
      exact ⟨raws, rest, hsplit, hret, hleft⟩

/-- Every call returns an entry until the listing has ended. -/
theorem length_returned {l : IndexeddbLister} {calls : List Stores}
    (h : ¬ Ended O P l calls) : (returned O P l calls).length = calls.length := by
  induction calls generalizing l with
  | nil => rfl
  | cons s calls ih =>
    unfold Ended at h
    rw [run_cons, List.map_cons, List.mem_cons, not_or] at h
    obtain ⟨e, he⟩ := Option.ne_none_iff_exists'.1 (Ne.symm h.1)
    have hcons : returned O P l (s :: calls) = e :: returned O P (l.call O P s).2 calls := by
      rw [returned, run_cons, List.filterMap_cons_some he]
      rfl
    rw [hcons, List.length_cons, List.length_cons, ih h.2]

end IndexeddbLister

/-! ## Listings of stores that change -/

/-- **A listing ends** once it was called more often than there are keys
under its prefix, over all the stores it meets. -/
theorem ended_of_length (req : IndexeddbListRequest) (calls : List Stores) {keys : List Str}
    (hkeys : ∀ s ∈ calls, ∀ k, req.keyPrefix <+: k → s.store.contains (.text k) = true → k ∈ keys)
    (hlen : keys.length < calls.length) : Ended O P (.new req) calls := by
  by_contra hnot
  obtain ⟨raws, hpre, hret⟩ := returned_eq (O := O) (P := P) (.new req) ⟨.empty, .empty⟩ calls
  change raws <+: rawEntries (fetched O P (.new req) calls) at hpre
  have hfetches := (fetches_fetched (O := O) (P := P) (.new req) calls).1
  have hnodup : (raws.map RawEntry.key).Nodup := by
    have hsorted := (rawEntries_sorted hfetches).sublist hpre.sublist
    exact List.pairwise_map.2 (hsorted.imp fun hlt heq => absurd (congrArg unitRank heq) hlt.ne)
  have hsub : raws.map RawEntry.key ⊆ keys := by
    intro k hk
    obtain ⟨raw, hraw, rfl⟩ := List.mem_map.1 hk
    obtain ⟨hunder, hin, -⟩ := of_mem_rawEntries hfetches (hpre.subset hraw)
    obtain ⟨sp, hsp, hrawsp⟩ := List.mem_flatMap.1 (hpre.subset hraw)
    obtain ⟨e, -, rfl⟩ := List.mem_map.1 hrawsp
    have hcall : sp.1 ∈ calls :=
      (fetched_sublist (O := O) (P := P) (.new req) calls).subset (List.mem_map_of_mem hsp)
    exact hkeys _ hcall _ hunder hin
  have hle := hnodup.length_le_of_subset hsub
  have hcount := IndexeddbLister.length_returned hnot
  rw [hret, List.length_map] at hcount
  rw [List.length_map] at hle
  omega

namespace IndexeddbBackend

variable {build : Build} {root : Root} {path : Str} {args : OpList} {lreq : IndexeddbListRequest}

/-- The first page of a listing is read for the scan the listing asks
for. -/
theorem request_new (hreq : listRequest O build root path args = some lreq) :
    (IndexeddbLister.new lreq).request =
      { scanRequest O root path args with limit := lreq.pageSize } := by
  obtain ⟨n, -, rfl⟩ := Option.map_eq_some_iff.1 hreq
  rfl

/-- What was read is listed with what the page's stores say of it. -/
theorem info_of_mem_rawEntries {raw : RawEntry} (h : Fetches P req pages)
    (hraw : raw ∈ rawEntries pages) :
    raw.info = entryInfoForKey P raw.stores raw.key none := by
  obtain ⟨sp, hsp, hin⟩ := List.mem_flatMap.1 hraw
  obtain ⟨e, he, rfl⟩ := List.mem_map.1 hin
  obtain ⟨req', hpage, -⟩ := h.scanned sp hsp
  obtain ⟨st, done, hfound, hpageOf⟩ := page_entries hpage
  rw [hpageOf] at he
  obtain ⟨k, hk, rfl⟩ := List.mem_map.1 he
  exact (entryInfoForKey_eq_view (contains_of_mem_scanKeys hfound hk)).symm

end IndexeddbBackend

section Ended

open IndexeddbBackend

variable {build : Build} {root : Root} {path : Str} {args : OpList} {lreq : IndexeddbListRequest}
variable {calls : List Stores}

/-- A listing that ended has returned all it read. -/
theorem returned_of_ended (hend : Ended O P (.new lreq) calls) :
    returned O P (.new lreq) calls = (rawEntries (fetched O P (.new lreq) calls)).map
      fun raw => listedEntry O P lreq.root raw.key raw.info := by
  obtain ⟨raws, rest, hsplit, hret, hleft⟩ :=
    IndexeddbLister.returned_append (O := O) (P := P) (.new lreq) ⟨.empty, .empty⟩ calls
  rw [(IndexeddbLister.run_ended hend).1, List.map_eq_nil_iff] at hleft
  subst hleft
  rw [List.append_nil] at hsplit
  change rawEntries (fetched O P (.new lreq) calls) = raws at hsplit
  rw [hret, hsplit]
  rfl

theorem keys_rawEntries (pages : List (Stores × ScanPage)) :
    (rawEntries pages).map RawEntry.key = pages.flatMap fun sp => sp.2.keys := by
  rw [rawEntries, List.map_flatMap]
  simp [RawEntry.of, ScanPage.keys, Function.comp_def]

theorem mem_calls_of_mem_rawEntries {raw : RawEntry}
    (h : raw ∈ rawEntries (fetched O P (.new lreq) calls)) : raw.stores ∈ calls := by
  obtain ⟨sp, hsp, hin⟩ := List.mem_flatMap.1 h
  obtain ⟨e, -, rfl⟩ := List.mem_map.1 hin
  exact (fetched_sublist (O := O) (P := P) (.new lreq) calls).subset (List.mem_map_of_mem hsp)

/-- **A key that was there to list all the time** was read exactly if it
was not overtaken. -/
theorem mem_keys_iff_of_ended (hreq : listRequest O build root path args = some lreq)
    (hsize : 0 < lreq.pageSize) (hend : Ended O P (.new lreq) calls)
    (hk : ∀ s ∈ calls, k ∈ listKeys O s root path args) :
    k ∈ (rawEntries (fetched O P (.new lreq) calls)).map RawEntry.key ↔
      ∀ r ∈ resumePoints (fetched O P (.new lreq) calls), ¬ Overtakes r k := by
  have hfetches := (fetches_fetched (O := O) (P := P) (.new lreq) calls).1
  have hcalls := fetched_sublist (O := O) (P := P) (.new lreq) calls
  have hfrom : ∀ sp ∈ fetched O P (.new lreq) calls, sp.1 ∈ calls :=
    fun sp hsp => hcalls.subset (List.mem_map_of_mem hsp)
  have hlast : ∃ sp ∈ fetched O P (.new lreq) calls, sp.2.done = true :=
    (IndexeddbLister.exists_last_page (IndexeddbLister.run_ended hend).2).resolve_left
      Bool.false_ne_true
  rw [keys_rawEntries]
  refine ⟨hfetches.not_overtakes, fun hby => ?_⟩
  have hselects : (IndexeddbLister.request (.new lreq)).selects k = true := by
    obtain ⟨sp, hsp, -⟩ := hlast
    rw [request_new hreq]
    exact (List.mem_filter.1 (hk _ (hfrom sp hsp))).2
  have hreach : (IndexeddbLister.request (.new lreq)).SkipReached := by
    rw [request_new hreq]
    exact skipReached_scanRequest O root path args
  refine hfetches.mem_of_stable hsize hreach hlast (fun sp hsp => ?_) hselects hby
  exact mem_textKeys_iff.1 (List.mem_filter.1 (hk _ (hfrom sp hsp))).1

/-- Off the supplementary planes no key is overtaken. -/
theorem not_overtakes_of_bmp
    (hbmp : ∀ raw ∈ rawEntries (fetched O P (.new lreq) calls), ∀ c ∈ raw.key, c.toNat < 0x10000)
    (hkbmp : ∀ c ∈ k, c.toNat < 0x10000) :
    ∀ r ∈ resumePoints (fetched O P (.new lreq) calls), ¬ Overtakes r k := by
  rintro r hr ⟨hunit, hpoint⟩
  have hfetches := (fetches_fetched (O := O) (P := P) (.new lreq) calls).1
  obtain ⟨sp, hsp, hin⟩ := hfetches.resumePoint_listed hr
  have hread : r ∈ (rawEntries (fetched O P (.new lreq) calls)).map RawEntry.key := by
    rw [keys_rawEntries]
    exact List.mem_flatMap.2 ⟨sp, hsp, hin⟩
  obtain ⟨raw, hraw, rfl⟩ := List.mem_map.1 hread
  exact hpoint ((unitRank_lt_iff_of_bmp (hbmp raw hraw) hkbmp).1 hunit)

end Ended

open IndexeddbBackend in
/-- **Keys that stay are listed.** Between any two calls of `next` the
stores may become any others. A listing whose page size is positive ends
once it was called more often than there are keys under its prefix over
all of them. What it has
returned by then are the entries of keys in the store's order, each as it
was in the stores it was read from; a key that was there to list all the
time is among them, and once, exactly if no page ended at a key that
overtakes it, and so whenever the keys are off the supplementary
planes. -/
theorem stable_keys_listed (O : Opendal) (P : Platform) {build : Build} {root : Root}
    {path : Str} {args : OpList} {req : IndexeddbListRequest}
    (hreq : listRequest O build root path args = some req) (hsize : 0 < req.pageSize)
    (calls : List Stores) :
    (∀ keys : List Str,
      (∀ s ∈ calls, ∀ k, req.keyPrefix <+: k → s.store.contains (.text k) = true → k ∈ keys) →
      keys.length < calls.length → Ended O P (.new req) calls) ∧
    (Ended O P (.new req) calls → ∃ raws : List RawEntry,
      returned O P (.new req) calls =
        raws.map (fun raw => listedEntry O P req.root raw.key raw.info) ∧
      raws.Pairwise (fun raw raw' => unitRank raw.key < unitRank raw'.key) ∧
      (∀ raw ∈ raws, raw.stores ∈ calls ∧ raw.stores.store.contains (.text raw.key) = true ∧
        raw.info = entryInfoForKey P raw.stores raw.key none) ∧
      ∀ k, (∀ s ∈ calls, k ∈ listKeys O s root path args) →
        (k ∈ raws.map RawEntry.key ↔
          ∀ r ∈ resumePoints (fetched O P (.new req) calls), ¬ Overtakes r k) ∧
        ((∀ raw ∈ raws, ∀ c ∈ raw.key, c.toNat < 0x10000) → (∀ c ∈ k, c.toNat < 0x10000) →
          k ∈ raws.map RawEntry.key)) := by
  refine ⟨fun keys hkeys hlen => ended_of_length req calls hkeys hlen, fun hend => ?_⟩
  have hfetches := (fetches_fetched (O := O) (P := P) (.new req) calls).1
  refine ⟨_, returned_of_ended hend, rawEntries_sorted hfetches, fun raw hraw => ?_, fun k hk => ?_⟩
  · exact ⟨mem_calls_of_mem_rawEntries hraw, (of_mem_rawEntries hfetches hraw).2.1,
      info_of_mem_rawEntries hfetches hraw⟩
  · have hmem := mem_keys_iff_of_ended hreq hsize hend hk
    exact ⟨hmem, fun hbmp hkbmp => hmem.2 (not_overtakes_of_bmp hbmp hkbmp)⟩

/-- The stores at the calls of a listing, in which a first key goes and
comes back. -/
def changingStores : List Stores :=
  [siblingStores, siblingStores, IndexeddbCore.delete "sub".toList siblingStores, siblingStores,
    IndexeddbCore.delete "sub".toList siblingStores, siblingStores]

theorem stable_keys_listed_sibling : ∃ raws : List RawEntry,
    returned referenceOpendal referencePlatform (.new ⟨['/'], [], none, none, 4⟩) changingStores =
      raws.map (fun raw =>
        listedEntry referenceOpendal referencePlatform ['/'] raw.key raw.info) ∧
    "sub0".toList ∈ raws.map RawEntry.key := by
  have hreq : IndexeddbBackend.listRequest referenceOpendal .release .slash ['/']
      ⟨some 1, none, true⟩ = some ⟨['/'], [], none, none, 4⟩ := by decide
  have hwithin : ∀ s ∈ changingStores, textKeys s.store ⊆ textKeys siblingStores.store := by
    decide
  have hstays : ∀ s ∈ changingStores, "sub0".toList ∈
      IndexeddbBackend.listKeys referenceOpendal s .slash ['/'] ⟨some 1, none, true⟩ := by
    decide
  obtain ⟨hends, hlists⟩ :=
    stable_keys_listed referenceOpendal referencePlatform hreq (by decide) changingStores
  obtain ⟨raws, hret, -, hread, hstable⟩ := hlists (hends (textKeys siblingStores.store)
    (fun s hs k _ hk => hwithin s hs (mem_textKeys_iff.2 hk)) (by decide))
  refine ⟨raws, hret, (hstable _ hstays).2 (fun raw hraw => ?_)
    (bmpKeys_siblingStores _ (by decide))⟩
  obtain ⟨hcall, hin, -⟩ := hread raw hraw
  exact bmpKeys_siblingStores _ (hwithin _ hcall (mem_textKeys_iff.2 hin))

end OpendalIndexeddb
