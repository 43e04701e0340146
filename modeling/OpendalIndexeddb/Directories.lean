import OpendalIndexeddb.Pagination
import OpendalIndexeddb.Refinement
/-!
# What a listing shows of the objects

A listing is compared with the map of objects: it shows each object below
the listed path as itself or, folded, by its first segment there, in the
store's order, with the metadata of the object or of a directory made
from its first one.
-/

namespace OpendalIndexeddb

open IndexeddbCore IndexeddbBackend

variable {O : Opendal} {P : Platform} {s : Stores} {m : Objects} {root : Root} {path k r : Str}
variable {recursive : Bool}

/-- **The path a listing shows an object by**, relative to the root: its
own, or that of its first segment below the listed path. A directory does
not show its own marker. -/
def ShownAs (root : Root) (path : Str) (recursive : Bool) (k r : Str) : Prop :=
  ∃ rest, k = root.text.tail ++ (listBase path ++ rest) ∧
    (rest = [] → (root.text.tail ++ listBase path).getLast? ≠ some '/') ∧
    r = listBase path ++ if recursive then rest else segment rest

theorem nameOf_append_rest (recursive : Bool) (p rest : Str) :
    nameOf recursive p (p ++ rest) = p ++ if recursive then rest else segment rest := by
  cases recursive with
  | true => rfl
  | false => exact childOf_append p rest

/-- It is the name of the key. -/
theorem shownAs_iff : ShownAs root path recursive k r ↔
    (root.text.tail ++ listBase path <+: k ∧ ¬ (k = root.text.tail ++ listBase path ∧
      (root.text.tail ++ listBase path).getLast? = some '/')) ∧
    root.text.tail ++ r = nameOf recursive (root.text.tail ++ listBase path) k := by
  constructor
  · rintro ⟨rest, rfl, hmark, rfl⟩
    rw [← List.append_assoc]
    refine ⟨⟨List.prefix_append _ _, fun h => hmark ?_ h.2⟩, ?_⟩
    · exact List.append_right_eq_self.1 h.1
    · rw [nameOf_append_rest, List.append_assoc]
  · rintro ⟨⟨⟨rest, rfl⟩, hmark⟩, hname⟩
    refine ⟨rest, List.append_assoc _ _ _, fun hnil hlast => hmark ⟨by rw [hnil, List.append_nil],
      hlast⟩, ?_⟩
    rw [nameOf_append_rest, List.append_assoc, List.append_cancel_left_eq] at hname
    exact hname

theorem segment_eq_nil_iff {rest : Str} : segment rest = [] ↔ rest = [] := by
  cases rest with
  | nil => exact Iff.rfl
  | cons c rest =>
    rw [segment]
    split_ifs <;> simp

/-- What an object is shown by is shown by itself. -/
theorem ShownAs.again (h : ShownAs root path recursive k r) :
    ShownAs root path recursive (root.text.tail ++ r) r := by
  obtain ⟨rest, -, hmark, rfl⟩ := h
  refine ⟨_, rfl, fun hnil => hmark ?_, ?_⟩
  · cases recursive with
    | true => exact hnil
    | false => exact segment_eq_nil_iff.1 hnil
  · cases recursive with
    | true => rfl
    | false => simp [segment_segment]

theorem mem_keysUnder_iff {p : Str} : k ∈ keysUnder s p ↔
    k ∈ textKeys s.store ∧ p <+: k ∧ ¬ (k = p ∧ p.getLast? = some '/') := by
  rw [keysUnder, List.mem_filter]
  simp only [Bool.and_eq_true, decide_eq_true_iff, Bool.not_eq_true', Bool.and_eq_false_imp,
    decide_eq_false_iff_not, not_and]

/-- The keys of the stores are the paths of the objects. -/
theorem Represents.textKeys_iff (h : Represents P s m) :
    k ∈ textKeys s.store ↔ ∃ o, m.get k = some o := by
  rw [mem_textKeys_iff, ← view_isSome, h.view, Option.isSome_map,
    Option.isSome_iff_exists]

/-- A key is listed with its object. -/
theorem Represents.keyEntry_eq (h : Represents P s m) {o : Object}
    (ho : m.get (root.text.tail ++ r) = some o) (hlen : o.bytes.length < 2 ^ 64) (hne : r ≠ [])
    (hhead : r.head? ≠ some '/') : keyEntry O P s root.text (root.text.tail ++ r) =
      ⟨r, entryMetadata P r (o.info P)⟩ := by
  have hin : s.store.contains (.text (root.text.tail ++ r)) = true :=
    mem_textKeys_iff.1 (h.textKeys_iff.2 ⟨o, ho⟩)
  have hinfo : entryInfoForKey P s (root.text.tail ++ r) none = o.info P := by
    rw [entryInfoForKey_eq_view hin, h.view, ho]
    simp only [Option.map_some, listedInfo, reduceCtorEq, false_and, if_false]
    exact viewInfo_object _ hlen
  simp only [keyEntry, listedEntry, O.rel_path root r hhead, if_neg hne, hinfo]

/-- What an entry is made of: the object of the first key it stands for,
as itself or as a directory. -/
structure EntryOf (O : Opendal) (P : Platform) (m : Objects) (root : Root) (path : Str)
    (recursive : Bool) (e : Entry) (r : Str) (o : Object) : Prop where
  object : m.get (root.text.tail ++ r) = some o
  shown : ShownAs root path recursive (root.text.tail ++ r) e.path
  first : ∀ k o', m.get k = some o' → ShownAs root path recursive k e.path →
    unitRank (root.text.tail ++ r) ≤ unitRank k
  itself : e.path = r → e.metadata = entryMetadata P r (o.info P)
  folded : e.path ≠ r → e.metadata = O.foldMetadata (entryMetadata P r (o.info P))

/-- An object that an entry is named after is the one it is made of. -/
theorem EntryOf.eq_of_get {e : Entry} {o o' : Object}
    (h : EntryOf O P m root path recursive e r o)
    (ho : m.get (root.text.tail ++ e.path) = some o') : e.path = r ∧ o' = o := by
  obtain ⟨⟨hpre, hmark⟩, hname⟩ := shownAs_iff.1 h.shown
  have hself : ShownAs root path recursive (root.text.tail ++ e.path) e.path :=
    h.shown.again
  have hle := h.first _ _ ho hself
  have hle' : unitRank (root.text.tail ++ e.path) ≤ unitRank (root.text.tail ++ r) := by
    rw [hname]
    exact unitRank_le_of_isPrefix (nameOf_isPrefix recursive hpre)
  have heq := List.append_cancel_left (unitRank_injective (le_antisymm hle' hle))
  refine ⟨heq, ?_⟩
  rw [heq, h.object, Option.some_inj] at ho
  exact ho.symm

/-- **Each entry of a listing is made of an object.** -/
theorem Represents.entryOf_nameEntry (h : Represents P s m) (hkeys : NormalKeys s)
    (hlen : ∀ k o, m.get k = some o → o.bytes.length < 2 ^ 64)
    (hk : k ∈ namedKeys recursive (root.text.tail ++ listBase path)
      (keysUnder s (root.text.tail ++ listBase path))) :
    ∃ r o, EntryOf O P m root path recursive (nameEntry O P s root path recursive k) r o := by
  have hunder := (firstsFrom_sublist _ [] _).subset hk
  have hshown := shown_of_mem_keysUnder hkeys hunder
  have hname : root.text.tail ++ (nameEntry O P s root path recursive k).path =
      nameOf recursive (root.text.tail ++ listBase path) k := path_nameEntry hshown
  obtain ⟨hin, hcond⟩ := mem_keysUnder_iff.1 hunder
  obtain ⟨o, ho⟩ := h.textKeys_iff.1 hin
  have hshownAs := shownAs_iff.2 ⟨hcond, hname⟩
  have hfirst : ∀ k' o', m.get k' = some o' →
      ShownAs root path recursive k' (nameEntry O P s root path recursive k).path →
        unitRank k ≤ unitRank k' := by
    intro k' o' ho' hshown'
    obtain ⟨hcond', hname'⟩ := shownAs_iff.1 hshown'
    have hunder' := mem_keysUnder_iff.2 ⟨h.textKeys_iff.2 ⟨o', ho'⟩, hcond'⟩
    rcases eq_or_rel_of_mem_firstsFrom (keysUnder_sorted s _) hk hunder'
      (hname'.symm.trans hname) with rfl | hlt
    · exact le_rfl
    · exact le_of_lt hlt
  obtain ⟨r, rfl, hne, hhead, hbase⟩ := hshown
  have hentry := h.keyEntry_eq (O := O) ho (hlen _ _ ho) hne hhead
  refine ⟨r, o, ho, hshownAs, hfirst, fun heq => ?_, fun hdiff => ?_⟩
  · cases recursive with
    | true => simp only [nameEntry, hentry, if_true]
    | false =>
      simp only [nameEntry, hentry, Bool.false_eq_true, if_false, foldEntry] at heq ⊢
      rw [if_pos]
      by_contra hfold
      rw [if_neg hfold] at heq
      exact hfold heq
  · cases recursive with
    | true => exact absurd (by simp only [nameEntry, hentry, if_true]) hdiff
    | false =>
      simp only [nameEntry, hentry, Bool.false_eq_true, if_false, foldEntry] at hdiff ⊢
      rw [if_neg]
      intro hself
      rw [if_pos hself] at hdiff
      exact hdiff rfl

/-- Objects under normalized paths off the supplementary planes, each of a
length that `u64` holds. -/
structure Objects.Listable (m : Objects) : Prop where
  normal : ∀ k o, m.get k = some o → Normal k
  bmp : ∀ k o, m.get k = some o → ∀ c ∈ k, c.toNat < 0x10000
  fits : ∀ k o, m.get k = some o → o.bytes.length < 2 ^ 64

theorem Objects.listable_empty : Objects.Listable .empty :=
  ⟨nofun, nofun, nofun⟩

theorem Objects.Listable.set {o : Object} (h : m.Listable) (hk : Normal k)
    (hbmp : ∀ c ∈ k, c.toNat < 0x10000) (ho : o.bytes.length < 2 ^ 64) :
    Objects.Listable (m.set k o) := by
  have hcase (l : Str) (x : Object) (hx : (m.set k o).get l = some x) :
      (l = k ∧ x = o) ∨ m.get l = some x := by
    by_cases hl : l = k
    · rw [hl, FiniteMap.get_set_self, Option.some_inj] at hx
      exact .inl ⟨hl, hx.symm⟩
    · rw [FiniteMap.get_set_of_ne hl] at hx
      exact .inr hx
  refine ⟨fun l x hx => ?_, fun l x hx => ?_, fun l x hx => ?_⟩ <;>
    rcases hcase l x hx with ⟨rfl, rfl⟩ | hx
  · exact hk
  · exact h.normal l x hx
  · exact hbmp
  · exact h.bmp l x hx
  · exact ho
  · exact h.fits l x hx

/-- **A listing shows the objects.** After any run of operations from
empty stores, the listing of a path has one result, in the store's order:
the paths it shows are those the objects below the listed path are shown
by; an entry whose path is an object's has the metadata of that object,
and any other is a directory made from the first object in it. -/
theorem listing_shows_objects (O : Opendal) (P : Platform) (build : Build) (ops : List Op)
    (root : Root) {path : Str} (recursive : Bool) (hpath : RelativePath path)
    (hm : (ops.foldl (Op.objects O P) .empty).Listable) :
    ∃ es, (∀ es', Listing O P build (run (Op.step O P) .empty ops).2 root path
        ⟨none, none, recursive⟩ es' ↔ es' = es) ∧
      es.Pairwise (fun e e' => unitRank (root.text.tail ++ e.path) <
        unitRank (root.text.tail ++ e'.path)) ∧
      (∀ r, r ∈ es.map Entry.path ↔ ∃ k o,
        (ops.foldl (Op.objects O P) .empty).get k = some o ∧ ShownAs root path recursive k r) ∧
      (∀ e ∈ es, ∀ o, (ops.foldl (Op.objects O P) .empty).get (root.text.tail ++ e.path) = some o →
        e.metadata = entryMetadata P e.path (o.info P)) ∧
      ∀ e ∈ es, (ops.foldl (Op.objects O P) .empty).get (root.text.tail ++ e.path) = none →
        ∃ r o, EntryOf O P (ops.foldl (Op.objects O P) .empty) root path recursive e r o ∧
          e.metadata = O.foldMetadata (entryMetadata P r (o.info P)) := by
  have h := (Represents.empty P).run (O := O) ops
  generalize (run (Op.step O P) .empty ops).2 = s at h ⊢
  generalize ops.foldl (Op.objects O P) .empty = m at h hm ⊢
  have hkeys : NormalKeys s := by
    intro k hk
    obtain ⟨o, ho⟩ := h.textKeys_iff.1 hk
    exact hm.normal k o ho
  have hbmp : BmpKeys s := by
    intro k hk
    obtain ⟨o, ho⟩ := h.textKeys_iff.1 hk
    exact hm.bmp k o ho
  have hsub := firstsFrom_sublist (nameOf recursive (root.text.tail ++ listBase path)) []
    (keysUnder s (root.text.tail ++ listBase path))
  have hname (k : Str) (hk : k ∈ fullKeys s root path recursive) :
      root.text.tail ++ (nameEntry O P s root path recursive k).path =
        nameOf recursive (root.text.tail ++ listBase path) k :=
    path_nameEntry (shown_of_mem_keysUnder hkeys (hsub.subset hk))
  refine ⟨(fullKeys s root path recursive).map (nameEntry O P s root path recursive),
    fun es' => ?_, ?_, fun r => ⟨fun hr => ?_, ?_⟩, fun e he o ho => ?_, fun e he hnone => ?_⟩
  · have hpos : 0 < defaultPageSize := by decide
    rw [listing_iff_named hpath hkeys hbmp hpos rfl, listKeys_none, buildAbsPath_eq O root hpath]
    rfl
  · refine List.pairwise_map.2 ((namedKeys_sorted recursive (root.text.tail ++ listBase path)
      (fun _ => isPrefix_of_mem_keysUnder) (keysUnder_sorted s _)).imp_of_mem ?_)
    intro a b ha hb hab
    rw [hname a ha, hname b hb]
    exact hab
  · rw [List.map_map] at hr
    obtain ⟨k, hk, rfl⟩ := List.mem_map.1 hr
    obtain ⟨r, o, hentry⟩ := h.entryOf_nameEntry (O := O) hkeys hm.fits hk
    exact ⟨_, o, hentry.object, hentry.shown⟩
  · rintro ⟨k, o, ho, hshown⟩
    obtain ⟨hcond, hr⟩ := shownAs_iff.1 hshown
    have hunder := mem_keysUnder_iff.2 ⟨h.textKeys_iff.2 ⟨o, ho⟩, hcond⟩
    obtain ⟨k', hk', hsame⟩ := exists_namedKeys recursive hunder
    refine List.mem_map.2 ⟨_, List.mem_map_of_mem hk', List.append_cancel_left
      ((hname k' hk').trans (hsame.trans hr.symm))⟩
  · obtain ⟨k, hk, rfl⟩ := List.mem_map.1 he
    obtain ⟨r, o', hentry⟩ := h.entryOf_nameEntry (O := O) hkeys hm.fits hk
    obtain ⟨heq, rfl⟩ := hentry.eq_of_get ho
    rw [hentry.itself heq, heq]
  · obtain ⟨k, hk, rfl⟩ := List.mem_map.1 he
    obtain ⟨r, o, hentry⟩ := h.entryOf_nameEntry (O := O) hkeys hm.fits hk
    refine ⟨r, o, hentry, hentry.folded fun heq => ?_⟩
    rw [heq, hentry.object] at hnone
    cases hnone

/-- Of `a/b` the listing of the root shows `a/`. -/
theorem listing_shows_objects_folded : ∃ es,
    Listing referenceOpendal referencePlatform .release
      (run (Op.step referenceOpendal referencePlatform) .empty
        [.mutate (.set (.ofNat 7) ['a', '/', 'b'] [0] .overwrite)]).2 .slash ['/']
        ⟨none, none, false⟩ es ∧ ['a', '/'] ∈ es.map Entry.path := by
  have hmeets : WriteArgs.Meets referencePlatform .overwrite
      ((FiniteMap.empty : Objects).get ['a', '/', 'b']) :=
    ⟨fun _ => rfl, by simp [WriteArgs.overwrite], by simp [WriteArgs.overwrite]⟩
  have hobjects : [Op.mutate (.set (.ofNat 7) ['a', '/', 'b'] [0] .overwrite)].foldl
      (Op.objects referenceOpendal referencePlatform) .empty =
        FiniteMap.set .empty ['a', '/', 'b'] ⟨[0], none, none, .ofNat 7⟩ := by
    simp only [List.foldl_cons, List.foldl_nil, Op.objects, Mutation.objectStep, if_pos hmeets,
      Option.getD_some]
    rfl
  have hnormal : Normal ['a', '/', 'b'] := by
    unfold Normal
    decide
  have hbmp : ∀ c ∈ ['a', '/', 'b'], c.toNat < 0x10000 := by
    simp only [List.forall_mem_cons]
    exact ⟨by decide, by decide, by decide, List.forall_mem_nil _⟩
  obtain ⟨es, hlists, -, hpaths, -⟩ := listing_shows_objects referenceOpendal referencePlatform
    .release [.mutate (.set (.ofNat 7) ['a', '/', 'b'] [0] .overwrite)] .slash false (.inl rfl)
    (hobjects ▸ Objects.listable_empty.set hnormal hbmp (by decide))
  refine ⟨es, (hlists es).2 rfl, (hpaths _).2 ⟨['a', '/', 'b'], ⟨[0], none, none, .ofNat 7⟩,
    ?_, ['a', '/', 'b'], rfl, (absurd · (List.cons_ne_nil _ _)), rfl⟩⟩
  rw [hobjects, FiniteMap.get_set_self]

end OpendalIndexeddb
