import OpendalIndexeddb.Common.Paging
import OpendalIndexeddb.Model.Access
import OpendalIndexeddb.PageScan
/-!
# What a listing yields

Page after page, the lister reads the keys `pageKeys` selects as the
paged reader of `Common/Paging` reads a list: the keys in the store's
order, the resume points in the order of Rust strings. The backend's
listing is that, folded and cut.
-/

namespace OpendalIndexeddb

open IndexeddbCore

variable {O : Opendal} {P : Platform} {s : Stores}

/-- The entry a key of the store is listed as. -/
def keyEntry (O : Opendal) (P : Platform) (s : Stores) (root : Str) (k : Str) : Entry :=
  listedEntry O P root k (entryInfoForKey P s k none)

/-! ## The keys of a listing -/

/-- The keys a listing of a prefix is made of: those under it, in the
store's order, without the marker of the listed directory. -/
def keysUnder (s : Stores) (keyPrefix : Str) : List Str :=
  (textKeys s.store).filter fun k =>
    (keyPrefix <+: k : Bool) && !(k = keyPrefix && keyPrefix.getLast? = some '/')

theorem keysUnder_sorted (s : Stores) (keyPrefix : Str) :
    (keysUnder s keyPrefix).Pairwise fun a b => unitRank a < unitRank b :=
  (textKeys_sorted s.store).filter _

/-- A listing without a resume point has all of them left. -/
theorem pageKeys_eq_keysUnder (s : Stores) (keyPrefix : Str) (limit : ℕ) :
    pageKeys s.store ⟨keyPrefix, none, none, limit⟩ = keysUnder s keyPrefix := by
  refine List.filter_congr ?_
  intro k _
  simp [ScanPageRequest.selects, ScanPageRequest.lists, ScanPageRequest.resumed,
    ScanPageRequest.isMarker]

/-! ## From page to page -/

theorem pageKeys_sorted (store : OrderedStore Key DataRecord DataRecord.k)
    (req : ScanPageRequest) :
    (pageKeys store req).Pairwise fun a b => unitRank a < unitRank b :=
  (textKeys_sorted store).filter _

/-- A key of the listing is above its resume point in both orders. -/
theorem lt_of_selects {req : ScanPageRequest} {k startAfter : Str} (h : req.selects k = true)
    (hsa : req.startAfter = some startAfter) : strLt startAfter k ∧
      (strLt req.keyPrefix startAfter → unitRank startAfter < unitRank k) :=
  ⟨not_resumed_iff.1 (lists_iff.1 (selects_iff.1 h).1).2.1 _ hsa, (selects_iff.1 h).2 _ hsa⟩

/-- **The next page's keys are what is left after this page**: above its
last key in the order of Rust strings. -/
theorem pageKeys_resume (store : OrderedStore Key DataRecord DataRecord.k)
    {req : ScanPageRequest} {n : ℕ} {last : Str} (hn : 0 < n)
    (hlast : (pageKeys store req)[n - 1]? = some last) :
    pageKeys store { req with startAfter := some last } =
      afterPage pointRank n (pageKeys store req) := by
  have hmem : req.selects last = true :=
    (List.mem_filter.1 (List.mem_of_getElem? hlast)).2
  have hpre := (lists_iff.1 (selects_iff.1 hmem).1).1
  -- the page is what is up to its last key in the store's order
  have hdrop : (pageKeys store req).drop n =
      (pageKeys store req).filter fun k => decide (unitRank last < unitRank k) := by
    obtain ⟨hlt, rfl⟩ := List.getElem?_eq_some_iff.1 hlast
    have hsplit := List.take_append_drop (n - 1) (pageKeys store req)
    rw [List.drop_eq_getElem_cons hlt, Nat.sub_add_cancel hn] at hsplit
    have hsorted := pageKeys_sorted store req
    rw [← hsplit] at hsorted
    have habove := filter_eq_of_sorted hsorted fun x => decide_eq_true_iff
    rw [hsplit] at habove
    exact habove.symm
  rw [afterPage, hdrop, hlast, pageKeys, pageKeys, List.filter_filter, List.filter_filter]
  refine List.filter_congr ?_
  intro k _
  rw [Bool.eq_iff_iff]
  simp only [Option.any_some, Bool.and_eq_true, decide_eq_true_iff, selects_iff, lists_iff,
    not_resumed_iff, Option.some.injEq, forall_eq']
  constructor
  · rintro ⟨⟨hk, hlt, hmark, hskip⟩, hunit⟩
    have hunit' : unitRank last < unitRank k := by
      by_cases heq : req.keyPrefix = last
      · -- the listed prefix itself, at which every other key is above
        refine lt_of_le_of_ne (unitRank_le_of_isPrefix (heq ▸ hk)) ?_
        intro h
        rw [unitRank_injective h] at hlt
        exact lt_irrefl _ hlt
      · exact hunit (lt_of_le_of_ne (pointRank_le_of_isPrefix hpre)
          fun h => heq (pointRank_injective h))
    refine ⟨⟨hlt, hunit'⟩, ⟨hk, fun sa hsa => ?_, hmark, hskip⟩, fun sa hsa hsaP => ?_⟩
    · exact lt_trans (lt_of_selects hmem hsa).1 hlt
    · exact lt_trans ((lt_of_selects hmem hsa).2 hsaP) hunit'
  · rintro ⟨⟨hlt, hunit⟩, ⟨hk, -, hmark, hskip⟩, -⟩
    exact ⟨⟨hk, hlt, hmark, hskip⟩, fun _ => hunit⟩

/-- A resume point taken from the listing is behind the skipped prefix. -/
theorem skipReached_resume {req : ScanPageRequest} {last : Str} (hreach : req.SkipReached)
    (hmem : req.selects last = true) :
    ScanPageRequest.SkipReached { req with startAfter := some last } := by
  have hlast := (lists_iff.1 (selects_iff.1 hmem).1).1
  refine fun skip hskip => ⟨(hreach skip hskip).1, fun hpre hne => ?_⟩
  obtain ⟨sa, hsa, hprefix, hle⟩ := (hreach skip hskip).2 hpre hne
  have hneq : req.keyPrefix ≠ sa := by
    rintro rfl
    exact hne (unitRank_injective (le_antisymm hle (unitRank_le_of_isPrefix hpre)))
  have hlt : strLt req.keyPrefix sa := lt_of_le_of_ne (pointRank_le_of_isPrefix hprefix)
    fun h => hneq (pointRank_injective h)
  exact ⟨last, rfl, hlast, le_trans hle (le_of_lt ((lt_of_selects hmem hsa).2 hlt))⟩

/-! ## The lister -/

namespace IndexeddbLister

/-- The buffered entries come first. -/
theorem drains_buffer {l : IndexeddbLister} {es : List Entry} (buffer : List (Str × EntryInfo))
    (h : Drains (next O P s) { l with buffer := [] } es) :
    Drains (next O P s) { l with buffer }
      (buffer.map (fun e => listedEntry O P l.root e.1 e.2) ++ es) := by
  induction buffer with
  | nil => exact h
  | cons e buffer ih => exact .item rfl ih

/-- A lister that is done has nothing behind its buffer. -/
theorem drains_done {l : IndexeddbLister} (hdone : l.done = true) (hbuf : l.buffer = []) :
    Drains (next O P s) l [] := by
  have hend : next O P s l = some (none, l) := by simp [next, nextLoop, hdone, hbuf]
  exact .finish hend

/-- An empty buffer is filled with the next page. -/
theorem next_eq_of_page {l : IndexeddbLister} {page : ScanPage} (hbuf : l.buffer = [])
    (hdone : l.done = false) (hpage : scanPage P l.request s = some page)
    (hne : page.done = false → page.entries ≠ []) :
    next O P s l = next O P s (l.receive page) := by
  have hrec : (l.receive page).buffer = page.entries ∧ (l.receive page).done = page.done :=
    ⟨rfl, rfl⟩
  simp only [next, nextLoop, hbuf, hdone, hpage, hrec.1, hrec.2]
  cases hentries : page.entries with
  | nil =>
    have hd : page.done = true := by
      by_contra h
      exact hne (by simpa using h) hentries
    simp [hd]
  | cons e entries => simp

/-- **The pages of a lister are the pages of its keys.** -/
theorem drains_pages {l : IndexeddbLister} (hn : 0 < l.pageSize)
    (hreach : l.request.SkipReached) (hbuf : l.buffer = []) (hdone : l.done = false) :
    Drains (next O P s) l ((paged pointRank l.pageSize (pageKeys s.store l.request)).map
      (keyEntry O P s l.root)) := by
  induction hk : (pageKeys s.store l.request).length using Nat.strong_induction_on
    generalizing l with
  | _ k ih =>
    subst hk
    obtain ⟨page, hpage⟩ := Option.isSome_iff_exists.1 (scanPage_isSome P l.request s)
    obtain ⟨hentries, hended, hskip, hresume⟩ := scanPage_spec hn hreach hpage
    change _ = ((pageKeys s.store l.request).take l.pageSize).map _ at hentries
    change _ = decide ((pageKeys s.store l.request).length < l.pageSize) at hended
    change page.done = false → page.nextStartAfter =
      ((pageKeys s.store l.request).take l.pageSize).getLast? at hresume
    have hlisted : page.entries.map (fun e => listedEntry O P l.root e.1 e.2) =
        ((pageKeys s.store l.request).take l.pageSize).map (keyEntry O P s l.root) := by
      rw [hentries, List.map_map]
      rfl
    -- a short page is the last one; a full one is resumed from its last key
    rcases Nat.lt_or_ge (pageKeys s.store l.request).length l.pageSize with hlt | hge
    · have hd : page.done = true := by simpa [hended] using hlt
      refine .of_next_eq (next_eq_of_page hbuf hdone hpage (by simp [hd])) ?_
      rw [paged_of_lt hlt]
      rw [List.take_of_length_le (le_of_lt hlt)] at hlisted
      have hdrain := drains_buffer (l := l.receive page) page.entries
        (drains_done (O := O) (P := P) (s := s) hd rfl)
      rw [List.append_nil] at hdrain
      rw [← hlisted]
      exact hdrain
    · have hd : page.done = false := by simpa [hended] using hge
      have hlast : (pageKeys s.store l.request)[l.pageSize - 1]? =
          some ((pageKeys s.store l.request)[l.pageSize - 1]) :=
        List.getElem?_eq_getElem (by omega)
      have hlast' : page.nextStartAfter = some ((pageKeys s.store l.request)[l.pageSize - 1]) := by
        rw [hresume hd, List.getLast?_take, if_neg (by omega), hlast, Option.some_or]
      have hne : page.entries ≠ [] := by
        rw [hentries, ← List.length_pos_iff, List.length_map, List.length_take]
        omega
      refine .of_next_eq (next_eq_of_page hbuf hdone hpage fun _ => hne) ?_
      rw [paged_of_le hn hge, List.map_append, ← hlisted]
      refine drains_buffer (l := l.receive page) page.entries ?_
      have hreq : IndexeddbLister.request { l.receive page with buffer := [] } =
          { l.request with startAfter := some (pageKeys s.store l.request)[l.pageSize - 1] } := by
        simp only [request, receive, hlast', hskip]
      have hkeys := pageKeys_resume s.store hn hlast
      have hmem : l.request.selects ((pageKeys s.store l.request)[l.pageSize - 1]) = true :=
        (List.mem_filter.1 (List.mem_of_getElem? hlast)).2
      have hnext := ih _ (length_afterPage_lt (f := pointRank) hn hge)
        (l := { l.receive page with buffer := [] }) hn (hreq ▸ skipReached_resume hreach hmem)
        rfl hd (by rw [hreq, hkeys])
      rw [hreq, hkeys] at hnext
      exact hnext

/-- A lister whose page size is zero reports the end at once. -/
theorem drains_zero {l : IndexeddbLister} (hn : l.pageSize = 0) (hbuf : l.buffer = [])
    (hdone : l.done = false) : Drains (next O P s) l [] := by
  have hpage : scanPage P l.request s = some ⟨[], l.startAfter, l.skipPrefix, true⟩ := by
    simp [scanPage, request, hn]
  refine .of_next_eq (next_eq_of_page hbuf hdone hpage (by simp)) ?_
  exact drains_done rfl rfl

end IndexeddbLister

/-- The first entries of a listing, as many as the limit allows. -/
def cutAt (limit : Option UInt32) (es : List Entry) : List Entry :=
  match limit with
  | some limit => es.take limit.toNat
  | none => es

namespace IndexeddbLimitLister

theorem drains_none (emitted : ℕ) (es : List Entry) :
    Drains (next yieldNext) ⟨es, none, emitted⟩ es := by
  induction es generalizing emitted with
  | nil => exact .finish rfl
  | cons e es ih => exact .item rfl (ih (emitted + 1))

theorem drains_some (limit : UInt32) (emitted : ℕ) (es : List Entry) :
    Drains (next yieldNext) ⟨es, some limit, emitted⟩ (es.take (limit.toNat - emitted)) := by
  induction es generalizing emitted with
  | nil =>
    rw [List.take_nil]
    have hend : next yieldNext ⟨[], some limit, emitted⟩ =
        some (none, ⟨[], some limit, emitted⟩) := by
      simp [next, yieldNext]
    exact .finish hend
  | cons e es ih =>
    by_cases hfull : limit.toNat ≤ emitted
    · rw [Nat.sub_eq_zero_of_le hfull, List.take_zero]
      have hend : next yieldNext ⟨e :: es, some limit, emitted⟩ =
          some (none, ⟨e :: es, some limit, emitted⟩) := by
        simp [next, hfull]
      exact .finish hend
    · have hsucc : limit.toNat - emitted = limit.toNat - (emitted + 1) + 1 := by omega
      rw [hsucc, List.take_succ_cons]
      have hitem : next yieldNext ⟨e :: es, some limit, emitted⟩ =
          some (some e, ⟨es, some limit, emitted + 1⟩) := by
        simp [next, hfull, yieldNext]
      exact .item hitem (ih (emitted + 1))

/-- **The outer lister only cuts.** -/
theorem drains (limit : Option UInt32) (es : List Entry) :
    Drains (next yieldNext) (new es limit) (cutAt limit es) :=
  match limit with
  | some limit => drains_some limit 0 es
  | none => drains_none 0 es

end IndexeddbLimitLister

/-! ## The backend's listing -/

namespace IndexeddbBackend

/-- What the scan of a listing asks for; the page size does not matter to
`pageKeys`. -/
def scanRequest (O : Opendal) (root : Root) (path : Str) (args : OpList) : ScanPageRequest where
  keyPrefix := O.buildAbsPath root.text path
  startAfter := args.startAfter.map (O.buildAbsPath root.text)
  skipPrefix := if !args.recursive then
      (args.startAfter.map (O.buildAbsPath root.text)).filter fun p => p.getLast? = some '/'
    else none
  limit := 0

/-- The keys a listing reads, were there no pages. -/
def listKeys (O : Opendal) (s : Stores) (root : Root) (path : Str) (args : OpList) : List Str :=
  pageKeys s.store (scanRequest O root path args)

/-- **The backend's skip prefix is its resume point**, which is therefore
reached. -/
theorem skipReached_scanRequest (O : Opendal) (root : Root) (path : Str) (args : OpList) :
    (scanRequest O root path args).SkipReached := by
  intro skip hskip
  simp only [scanRequest] at hskip ⊢
  split_ifs at hskip
  obtain ⟨hsa, hslash⟩ := Option.filter_eq_some_iff.1 hskip
  exact ⟨by simpa using hslash, fun hpre _ => ⟨skip, hsa, hpre, le_rfl⟩⟩

theorem listKeys_nodup (O : Opendal) (s : Stores) (root : Root) (path : Str) (args : OpList) :
    (listKeys O s root path args).Nodup := by
  refine List.Pairwise.imp (fun {a b} hab heq => ?_)
    (pageKeys_sorted s.store (scanRequest O root path args))
  rw [heq] at hab
  exact lt_irrefl _ hab

/-- Whether a key is behind the resume point of a listing: above it in the
order of Rust strings, in the store's order too where the resume point is
above the listed prefix, and not under a directory it names. -/
def behind (O : Opendal) (root : Root) (path : Str) (args : OpList) (k : Str) : Bool :=
  args.startAfter.all fun startAfter =>
    let S := O.buildAbsPath root.text startAfter
    decide (strLt S k) &&
      (!decide (strLt (O.buildAbsPath root.text path) S) || decide (unitRank S < unitRank k)) &&
      (args.recursive || !decide (S.getLast? = some '/') || !decide (S <+: k))

theorem behind_iff {root : Root} {path k : Str} {args : OpList} :
    behind O root path args k = true ↔ ∀ startAfter, args.startAfter = some startAfter →
      strLt (O.buildAbsPath root.text startAfter) k ∧
      (strLt (O.buildAbsPath root.text path) (O.buildAbsPath root.text startAfter) →
        unitRank (O.buildAbsPath root.text startAfter) < unitRank k) ∧
      (args.recursive = false → (O.buildAbsPath root.text startAfter).getLast? = some '/' →
        ¬ O.buildAbsPath root.text startAfter <+: k) := by
  rw [behind]
  cases args.startAfter with
  | none => simp
  | some startAfter =>
    simp only [Option.all_some, Bool.and_eq_true, Bool.or_eq_true, Bool.not_eq_true',
      decide_eq_true_iff, decide_eq_false_iff_not, Option.some.injEq, forall_eq', ← imp_iff_not_or,
      and_assoc]
    refine and_congr_right fun _ => and_congr_right fun _ => ?_
    cases args.recursive <;> simp [imp_iff_not_or]

/-- **A listing reads the keys behind its resume point.** -/
theorem listKeys_eq_filter (O : Opendal) (s : Stores) (root : Root) (path : Str) (args : OpList) :
    listKeys O s root path args =
      (keysUnder s (O.buildAbsPath root.text path)).filter (behind O root path args) := by
  rw [listKeys, pageKeys, keysUnder, List.filter_filter]
  refine List.filter_congr ?_
  intro k _
  have hskip : (∀ skip, (scanRequest O root path args).skipPrefix = some skip → ¬ skip <+: k) ↔
      ∀ startAfter, args.startAfter = some startAfter → args.recursive = false →
        (O.buildAbsPath root.text startAfter).getLast? = some '/' →
          ¬ O.buildAbsPath root.text startAfter <+: k := by
    cases hrec : args.recursive <;> cases hsa : args.startAfter <;>
      simp [scanRequest, hrec, hsa, Option.filter_eq_some_iff]
  have hsome : ∀ p : Str → Prop, (∀ S, (scanRequest O root path args).startAfter = some S → p S) ↔
      ∀ startAfter, args.startAfter = some startAfter →
        p (O.buildAbsPath root.text startAfter) := by
    intro p
    cases hsa : args.startAfter <;> simp [scanRequest, hsa]
  rw [Bool.eq_iff_iff, selects_iff, lists_iff, not_resumed_iff, hskip, hsome, hsome,
    Bool.and_eq_true, behind_iff]
  simp only [ScanPageRequest.isMarker, scanRequest, Bool.and_eq_true, Bool.not_eq_true',
    decide_eq_true_iff]
  constructor
  · rintro ⟨⟨hpre, hres, hmark, hnot⟩, hunit⟩
    exact ⟨fun sa hsa => ⟨hres sa hsa, hunit sa hsa, hnot sa hsa⟩, hpre, hmark⟩
  · rintro ⟨hbehind, hpre, hmark⟩
    exact ⟨⟨hpre, fun sa hsa => (hbehind sa hsa).1, hmark, fun sa hsa => (hbehind sa hsa).2.2⟩,
      fun sa hsa => (hbehind sa hsa).2.1⟩

theorem listKeys_sublist (O : Opendal) (s : Stores) (root : Root) (path : Str) (args : OpList) :
    List.Sublist (listKeys O s root path args) (keysUnder s (O.buildAbsPath root.text path)) := by
  rw [listKeys_eq_filter]
  exact List.filter_sublist

/-- Without a resume point these are all keys under the prefix. -/
theorem listKeys_none (O : Opendal) (s : Stores) (root : Root) (path : Str)
    (limit : Option UInt32) (recursive : Bool) :
    listKeys O s root path ⟨limit, none, recursive⟩ =
      keysUnder s (O.buildAbsPath root.text path) := by
  rw [listKeys_eq_filter]
  exact List.filter_eq_self.2 fun _ _ => rfl

/-- The entries of a listing whose inner lister yields these keys. -/
def entriesOf (O : Opendal) (P : Platform) (s : Stores) (root : Root) (path : Str)
    (recursive : Bool) (ks : List Str) : List Entry :=
  O.hierarchy path recursive (ks.map (keyEntry O P s root.text))

/-- What the inner lister yields with pages of `n` keys. -/
def pagesOf (n : ℕ) (ks : List Str) : List Str := if n = 0 then [] else paged pointRank n ks

/-- **What a listing is**: the keys that survive paging, folded, and cut
at the limit; the one way not to be is for the page size to overflow. -/
theorem listing_iff {build : Build} {root : Root} {path : Str} {args : OpList}
    {es : List Entry} : Listing O P build s root path args es ↔
      ∃ n, listPageSize build args.limit = some n ∧ es = cutAt args.limit
        (entriesOf O P s root path args.recursive (pagesOf n (listKeys O s root path args))) := by
  -- a page size of zero comes from a wrapped multiplication
  have hdrain : ∀ req, listRequest O build root path args = some req →
      Drains (IndexeddbLister.next O P s) (.new req) ((pagesOf req.pageSize
        (listKeys O s root path args)).map (keyEntry O P s root.text)) := by
    intro req hreq
    obtain ⟨n, -, rfl⟩ := Option.map_eq_some_iff.1 hreq
    rw [pagesOf]
    by_cases hn : n = 0
    · rw [if_pos hn]
      exact IndexeddbLister.drains_zero hn rfl rfl
    · rw [if_neg hn]
      exact IndexeddbLister.drains_pages (Nat.pos_of_ne_zero hn)
        (skipReached_scanRequest O root path args) rfl rfl
  constructor
  · rintro ⟨req, raw, hreq, hraw, hes⟩
    obtain ⟨n, hn, hreq'⟩ := Option.map_eq_some_iff.1 hreq
    have hsize : req.pageSize = n := by rw [← hreq']
    have hraw' := hraw.unique (hdrain req hreq)
    subst hraw'
    rw [hsize] at hes
    exact ⟨n, hn, hes.unique (IndexeddbLimitLister.drains _ _)⟩
  · rintro ⟨n, hn, rfl⟩
    have hreq : ∃ req, listRequest O build root path args = some req ∧ req.pageSize = n := by
      simp [listRequest, hn]
    obtain ⟨req, hreq, hsize⟩ := hreq
    refine ⟨req, _, hreq, hdrain req hreq, ?_⟩
    rw [hsize]
    exact IndexeddbLimitLister.drains _ _

/-- A listing has one result. -/
theorem Listing.unique {build : Build} {root : Root} {path : Str} {args : OpList}
    {es es' : List Entry} (h : Listing O P build s root path args es)
    (h' : Listing O P build s root path args es') : es = es' := by
  obtain ⟨n, hn, rfl⟩ := listing_iff.1 h
  obtain ⟨n', hn', rfl⟩ := listing_iff.1 h'
  rw [hn, Option.some_inj] at hn'
  rw [hn']

end IndexeddbBackend

end OpendalIndexeddb
