import OpendalIndexeddb.Common.Run
import OpendalIndexeddb.Termination
/-!
# Listing a store that changes

Between two calls of `next` other clients may leave any stores behind. A
call reads one page at most, in a transaction of its own; the entries it
returns are those of the pages read so far, and pages come in the store's
order whatever happens between them.
-/

namespace OpendalIndexeddb

open IndexeddbCore

variable {O : Opendal} {P : Platform} {s : Stores}

namespace IndexeddbLister

/-- The page transaction of a call of `next`: none while the buffer
lasts, and none after the end. -/
def transaction (P : Platform) (s : Stores) (l : IndexeddbLister) : List (Stores × ScanPage) :=
  if l.buffer = [] ∧ l.done = false then
    ((scanPage P l.request s).map fun page => (s, page)).toList
  else []

/-- A call of `next` over the stores as they are by then: what it returns,
and the page it reads. -/
def call (O : Opendal) (P : Platform) (l : IndexeddbLister) (s : Stores) :
    (Option Entry × List (Stores × ScanPage)) × IndexeddbLister :=
  match next O P s l with
  | some (entry, l') => ((entry, l.transaction P s), l')
  | none => ((none, []), l)

/-- A buffered entry is returned without a transaction. -/
theorem call_buffered {l : IndexeddbLister} {e : Str × EntryInfo} {buffer : List (Str × EntryInfo)}
    (h : l.buffer = e :: buffer) : call O P l s =
      ((some (listedEntry O P l.root e.1 e.2), []), { l with buffer }) := by
  simp [call, next, nextLoop, transaction, h]

/-- After the end there is nothing more. -/
theorem call_done {l : IndexeddbLister} (hbuf : l.buffer = []) (hdone : l.done = true) :
    call O P l s = ((none, []), l) := by
  simp [call, next, nextLoop, transaction, hbuf, hdone]

/-- **Otherwise a page is read**, the first entry of which is returned; it
has one unless it is the last. -/
theorem call_page {l : IndexeddbLister} (hbuf : l.buffer = []) (hdone : l.done = false) :
    ∃ page, scanPage P l.request s = some page ∧
      ((page.entries = [] ∧ page.done = true ∧
        call O P l s = ((none, [(s, page)]), l.receive page)) ∨
      ∃ e buffer, page.entries = e :: buffer ∧ call O P l s =
        ((some (listedEntry O P l.root e.1 e.2), [(s, page)]),
          { l.receive page with buffer })) := by
  obtain ⟨page, hpage⟩ := Option.isSome_iff_exists.1 (scanPage_isSome P l.request s)
  have hne : page.done = false → page.entries ≠ [] := entries_ne_nil hpage
  have hcall : call O P l s = match next O P s (l.receive page) with
      | some (entry, l') => ((entry, [(s, page)]), l')
      | none => ((none, []), l) := by
    simp only [call, next_eq_of_page hbuf hdone hpage hne, transaction, hbuf, hdone, hpage]
    rfl
  refine ⟨page, hpage, ?_⟩
  rcases hentries : page.entries with _ | ⟨e, buffer⟩
  · have hend : page.done = true := by
      by_contra hmore
      exact hne (by simpa using hmore) hentries
    refine Or.inl ⟨rfl, hend, ?_⟩
    rw [hcall]
    simp [next, nextLoop, receive, hentries, hend]
  · refine Or.inr ⟨e, buffer, rfl, ?_⟩
    rw [hcall]
    simp [next, nextLoop, receive, hentries]

end IndexeddbLister

/-! ## Runs of a lister -/

/-- What a lister returns over a sequence of stores, one for each call. -/
def returned (O : Opendal) (P : Platform) (l : IndexeddbLister) (calls : List Stores) :
    List Entry :=
  (run (IndexeddbLister.call O P) l calls).1.filterMap Prod.fst

/-- The pages it reads for it, with the stores each is read from. -/
def fetched (O : Opendal) (P : Platform) (l : IndexeddbLister) (calls : List Stores) :
    List (Stores × ScanPage) :=
  (run (IndexeddbLister.call O P) l calls).1.flatMap Prod.snd

/-- A key that was read, with its entry and the stores of the transaction
that read it. -/
structure RawEntry where
  stores : Stores
  key : Str
  info : EntryInfo

/-- An entry of a page read from `s`. -/
def RawEntry.of (s : Stores) (e : Str × EntryInfo) : RawEntry := ⟨s, e.1, e.2⟩

/-- The entries of pages, in the order they were read. -/
def rawEntries (pages : List (Stores × ScanPage)) : List RawEntry :=
  pages.flatMap fun sp => sp.2.entries.map (RawEntry.of sp.1)

/-- **The pages a lister reads are those of its request.** -/
theorem fetches_fetched (l : IndexeddbLister) (calls : List Stores) :
    Fetches P l.request (fetched O P l calls) ∧ (l.done = true → fetched O P l calls = []) := by
  induction calls generalizing l with
  | nil => exact ⟨.stop, fun _ => rfl⟩
  | cons s calls ih =>
    have hcons : fetched O P l (s :: calls) =
        (l.call O P s).1.2 ++ fetched O P (l.call O P s).2 calls := rfl
    rw [hcons]
    rcases hbuf : l.buffer with _ | ⟨e, buffer⟩
    · rcases hdone : l.done with _ | _
      · obtain ⟨page, hpage, ⟨-, hend, hcall⟩ | ⟨e, buffer, -, hcall⟩⟩ :=
          IndexeddbLister.call_page (O := O) (P := P) (s := s) hbuf hdone
        · rw [hcall, (ih (l.receive page)).2 hend]
          exact ⟨.last hpage hend, fun h => absurd h Bool.false_ne_true⟩
        · rw [hcall]
          refine ⟨?_, fun h => absurd h Bool.false_ne_true⟩
          obtain ⟨hrest, hrest'⟩ := ih { l.receive page with buffer }
          rcases hend : page.done with _ | _
          · exact .more hpage hend hrest
          · rw [hrest' hend]
            exact .last hpage hend
      · rw [IndexeddbLister.call_done hbuf hdone]
        exact ⟨(ih l).1, fun _ => (ih l).2 hdone⟩
    · rw [IndexeddbLister.call_buffered hbuf]
      exact ih { l with buffer }

/-- The stores pages are read from are those of the calls, in their
order. -/
theorem fetched_sublist (l : IndexeddbLister) (calls : List Stores) :
    ((fetched O P l calls).map Prod.fst).Sublist calls := by
  induction calls generalizing l with
  | nil => exact List.Sublist.refl _
  | cons s calls ih =>
    have hone : ((l.call O P s).1.2.map Prod.fst).Sublist [s] := by
      rcases hbuf : l.buffer with _ | ⟨e, buffer⟩
      · rcases hdone : l.done with _ | _
        · obtain ⟨page, -, ⟨-, -, hcall⟩ | ⟨e, buffer, -, hcall⟩⟩ :=
            IndexeddbLister.call_page (O := O) (P := P) (s := s) hbuf hdone
          · rw [hcall]
            exact List.Sublist.refl _
          · rw [hcall]
            exact List.Sublist.refl _
        · rw [IndexeddbLister.call_done hbuf hdone]
          exact List.nil_sublist _
      · rw [IndexeddbLister.call_buffered hbuf]
        exact List.nil_sublist _
    have happ := hone.append (ih (l.call O P s).2)
    rw [← List.map_append] at happ
    exact happ

/-- **A lister returns the entries of the pages it read**, as far as it
has come, behind those it had. -/
theorem returned_eq (l : IndexeddbLister) (s₀ : Stores) (calls : List Stores) :
    ∃ raws, raws <+: l.buffer.map (RawEntry.of s₀) ++ rawEntries (fetched O P l calls) ∧
      returned O P l calls = raws.map fun raw => listedEntry O P l.root raw.key raw.info := by
  induction calls generalizing l s₀ with
  | nil => exact ⟨[], List.nil_prefix, rfl⟩
  | cons s calls ih =>
    have hcons : fetched O P l (s :: calls) =
        (l.call O P s).1.2 ++ fetched O P (l.call O P s).2 calls := rfl
    have hcons' : returned O P l (s :: calls) =
        (l.call O P s).1.1.toList ++ returned O P (l.call O P s).2 calls := by
      rw [returned, run_cons, List.filterMap_cons]
      rcases h : (l.call O P s).1.1 with _ | e
      · rfl
      · rfl
    rw [hcons, hcons']
    rcases hbuf : l.buffer with _ | ⟨e, buffer⟩
    · rcases hdone : l.done with _ | _
      · obtain ⟨page, -, ⟨hnil, hend, hcall⟩ | ⟨e, buffer, hentries, hcall⟩⟩ :=
          IndexeddbLister.call_page (O := O) (P := P) (s := s) hbuf hdone
        · obtain ⟨raws, hpre, hret⟩ := ih (l.receive page) s
          rw [hcall]
          refine ⟨raws, ?_, hret⟩
          have hbuf' : (l.receive page).buffer = [] := hnil
          rw [hbuf'] at hpre
          simpa [rawEntries, hnil] using hpre
        · obtain ⟨raws, hpre, hret⟩ := ih { l.receive page with buffer } s
          rw [hcall]
          refine ⟨RawEntry.of s e :: raws, ?_, by rw [hret]; rfl⟩
          simpa [rawEntries, hentries, List.cons_prefix_cons] using hpre
      · obtain ⟨raws, hpre, hret⟩ := ih l s₀
        rw [IndexeddbLister.call_done hbuf hdone]
        rw [hbuf] at hpre
        exact ⟨raws, hpre, hret⟩
    · obtain ⟨raws, hpre, hret⟩ := ih { l with buffer } s₀
      rw [IndexeddbLister.call_buffered hbuf]
      refine ⟨RawEntry.of s₀ e :: raws, ?_, by rw [hret]; rfl⟩
      simpa [List.cons_prefix_cons] using hpre

/-! ## What is returned -/

/-- The keys of pages that come in order are in order. -/
theorem rawEntries_sorted {req : ScanPageRequest} {pages : List (Stores × ScanPage)}
    (h : Fetches P req pages) :
    (rawEntries pages).Pairwise fun raw raw' => unitRank raw.key < unitRank raw'.key := by
  rw [rawEntries, List.pairwise_flatMap]
  constructor
  · intro sp hsp
    obtain ⟨req', hpage, -⟩ := h.scanned sp hsp
    have hsorted := keys_sorted_of_page hpage
    rw [ScanPage.keys, List.pairwise_map] at hsorted
    exact List.pairwise_map.2 hsorted
  · refine h.pairwise.imp fun {sp sp'} hlt raw hraw raw' hraw' => ?_
    obtain ⟨e, he, rfl⟩ := List.mem_map.1 hraw
    obtain ⟨e', he', rfl⟩ := List.mem_map.1 hraw'
    exact hlt _ (List.mem_map_of_mem he) _ (List.mem_map_of_mem he')

/-- A key that was read starts with the prefix, was in the store it was
read from, and is behind a resume point under the prefix. -/
theorem of_mem_rawEntries {req : ScanPageRequest} {pages : List (Stores × ScanPage)}
    (h : Fetches P req pages) {raw : RawEntry} (hraw : raw ∈ rawEntries pages) :
    req.keyPrefix <+: raw.key ∧ raw.stores.store.contains (.text raw.key) = true ∧
      ∀ sa, req.startAfter = some sa → req.keyPrefix <+: sa →
        unitRank sa < unitRank raw.key ∧ strLt sa raw.key := by
  obtain ⟨sp, hsp, hin⟩ := List.mem_flatMap.1 hraw
  obtain ⟨e, he, rfl⟩ := List.mem_map.1 hin
  have hkey : e.1 ∈ sp.2.keys := List.mem_map_of_mem he
  obtain ⟨req', hpage, hunder, -⟩ := h.scanned sp hsp
  obtain ⟨hsub, hlists, -, -⟩ := scanPage_takes hpage
  refine ⟨hunder ▸ (lists_iff.1 (hlists _ hkey)).1, ?_, fun sa hsa hpre => ?_⟩
  · exact mem_textKeys_iff.1 (List.mem_of_mem_filter (hsub.subset hkey))
  · exact h.lt_of_startAfter hsa hpre sp hsp _ hkey

/-- **A listing never repeats, reorders or invents a key.** Over any
sequence of stores, one for each call of `next`, a lister returns the
entries of keys that are strictly increasing in the store's order. Each
starts with the prefix and was in the data store at the transaction that
read its page, a call's; none is at or before a resume point that starts
with the prefix. -/
theorem listing_ordered (O : Opendal) (P : Platform) (req : IndexeddbListRequest)
    (calls : List Stores) : ∃ raws : List RawEntry,
      returned O P (.new req) calls =
        raws.map (fun raw => listedEntry O P req.root raw.key raw.info) ∧
      raws <+: rawEntries (fetched O P (.new req) calls) ∧
      ((fetched O P (.new req) calls).map Prod.fst).Sublist calls ∧
      raws.Pairwise (fun raw raw' => unitRank raw.key < unitRank raw'.key) ∧
      ∀ raw ∈ raws, req.keyPrefix <+: raw.key ∧ raw.stores ∈ calls ∧
        raw.stores.store.contains (.text raw.key) = true ∧
        ∀ sa, req.startAfter = some sa → req.keyPrefix <+: sa →
          unitRank sa < unitRank raw.key ∧ strLt sa raw.key := by
  obtain ⟨raws, hpre, hret⟩ := returned_eq (O := O) (P := P) (.new req) ⟨.empty, .empty⟩ calls
  change raws <+: rawEntries (fetched O P (.new req) calls) at hpre
  have hfetches := (fetches_fetched (O := O) (P := P) (.new req) calls).1
  have hcalls := fetched_sublist (O := O) (P := P) (.new req) calls
  refine ⟨raws, hret, hpre, hcalls, (rawEntries_sorted hfetches).sublist hpre.sublist, ?_⟩
  intro raw hraw
  have hmem := hpre.subset hraw
  obtain ⟨hunder, hin, hsa⟩ := of_mem_rawEntries hfetches hmem
  refine ⟨hunder, ?_, hin, hsa⟩
  obtain ⟨sp, hsp, hrawsp⟩ := List.mem_flatMap.1 hmem
  obtain ⟨e, -, rfl⟩ := List.mem_map.1 hrawsp
  exact hcalls.subset (List.mem_map_of_mem hsp)

end OpendalIndexeddb
