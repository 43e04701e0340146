import OpendalIndexeddb.Listing
/-!
# Folded listings

A folded listing shows each key by its first segment below the listed
path. Those names are in the order of the keys, a directory's keys are
next to one another, and resuming behind a name is resuming behind its
keys; so a folded listing may be cut anywhere between two entries.
-/

namespace OpendalIndexeddb

open IndexeddbCore IndexeddbBackend

variable {p k k' x S : Str}

/-! ## First segments -/

/-- A path up to its first `/`. -/
def segment : Str → Str
  | [] => []
  | c :: m => if c = '/' then ['/'] else c :: segment m

theorem segment_eq (m : Str) :
    segment m = if '/' ∈ m then m.takeWhile (· ≠ '/') ++ ['/'] else m := by
  induction m with
  | nil => rfl
  | cons c m ih =>
    rw [segment]
    by_cases hc : c = '/'
    · simp [hc]
    · rw [if_neg hc, ih]
      by_cases hm : '/' ∈ m
      · simp [hm, hc]
      · simp [hm, Ne.symm hc]

theorem segment_isPrefix (m : Str) : segment m <+: m := by
  induction m with
  | nil => exact List.prefix_rfl
  | cons c m ih =>
    rw [segment]
    split_ifs with hc
    · exact ⟨m, by rw [hc]; rfl⟩
    · exact List.cons_prefix_cons.2 ⟨rfl, ih⟩

/-- A segment that is not all of the path has a `/`. -/
theorem slash_mem_segment {m : Str} (h : segment m ≠ m) : '/' ∈ segment m := by
  rw [segment_eq] at h ⊢
  split_ifs with hm
  · simp
  · rw [if_neg hm] at h
    exact absurd rfl h

theorem segment_append {m : Str} (h : '/' ∈ m) (m' : Str) : segment (m ++ m') = segment m := by
  induction m with
  | nil => exact absurd h List.not_mem_nil
  | cons c m ih =>
    rw [List.cons_append, segment, segment]
    split_ifs with hc
    · rfl
    · -- the slash is behind the first character
      rw [ih ((List.mem_cons.1 h).resolve_left fun h => hc h.symm)]

theorem segment_segment (m : Str) : segment (segment m) = segment m := by
  induction m with
  | nil => rfl
  | cons c m ih =>
    by_cases hc : c = '/'
    · simp [segment, hc]
    · simp [segment, hc, ih]

/-! ## The children of a path -/

theorem childOf_append (p m : Str) : childOf p (p ++ m) = p ++ segment m := by
  have hdrop : (p ++ m).drop p.length = m := List.drop_left
  simp only [childOf, hdrop, segment_eq]
  split_ifs <;> simp

theorem childOf_isPrefix (h : p <+: k) : childOf p k <+: k := by
  obtain ⟨m, rfl⟩ := h
  rw [childOf_append]
  exact (List.prefix_append_right_inj p).2 (segment_isPrefix m)

theorem isPrefix_childOf (h : p <+: k) : p <+: childOf p k := by
  obtain ⟨m, rfl⟩ := h
  rw [childOf_append]
  exact List.prefix_append p _

/-- A key that is not shown as itself is shown as a directory. -/
theorem getLast?_childOf (h : p <+: k) (hne : childOf p k ≠ k) :
    (childOf p k).getLast? = some '/' := by
  obtain ⟨m, rfl⟩ := h
  rw [childOf_append] at hne ⊢
  have hmem : '/' ∈ m := by
    by_contra hm
    rw [segment_eq, if_neg hm] at hne
    exact hne rfl
  rw [segment_eq, if_pos hmem, ← List.append_assoc, List.getLast?_concat]

/-- **What lies under a child directory is shown as that directory.** -/
theorem childOf_of_isPrefix (h : p <+: k) (hne : childOf p k ≠ k) (hx : childOf p k <+: x) :
    childOf p x = childOf p k := by
  obtain ⟨m, rfl⟩ := h
  rw [childOf_append] at hne hx ⊢
  obtain ⟨t, rfl⟩ := hx
  have hmem := slash_mem_segment fun h => hne (congrArg (p ++ ·) h)
  rw [List.append_assoc, childOf_append, segment_append hmem, segment_segment]

/-- A directory below `p` has its child of `p` in common with what lies
under it. -/
theorem childOf_of_dir (h : p <+: S) (hne : S ≠ p) (hslash : S.getLast? = some '/')
    (hk : S <+: k) : childOf p k = childOf p S := by
  obtain ⟨m, rfl⟩ := h
  obtain ⟨t, rfl⟩ := hk
  have hm : m ≠ [] := fun h => hne (by rw [h, List.append_nil])
  have hmem : '/' ∈ m := by
    rw [List.getLast?_append_of_ne_nil p hm] at hslash
    exact List.mem_of_getLast? hslash
  rw [List.append_assoc, childOf_append, childOf_append, segment_append hmem]

/-! ## Names in order -/

/-- What a key is shown as: itself, or its child of the listed path. -/
def nameOf (recursive : Bool) (p k : Str) : Str := if recursive then k else childOf p k

variable {recursive : Bool}

theorem nameOf_isPrefix (recursive : Bool) (h : p <+: k) : nameOf recursive p k <+: k := by
  cases recursive
  · exact childOf_isPrefix h
  · exact List.prefix_rfl

theorem isPrefix_nameOf (recursive : Bool) (h : p <+: k) : p <+: nameOf recursive p k := by
  cases recursive
  · exact isPrefix_childOf h
  · exact h

/-- **Names keep the order of the keys.** -/
theorem unitRank_nameOf_le (h : p <+: k) (h' : p <+: k') (hlt : unitRank k < unitRank k') :
    unitRank (nameOf recursive p k) ≤ unitRank (nameOf recursive p k') := by
  have hname : unitRank (nameOf recursive p k) ≤ unitRank k :=
    unitRank_le_of_isPrefix (nameOf_isPrefix recursive h)
  by_cases hself : nameOf recursive p k' = k'
  · rw [hself]
    exact le_of_lt (lt_of_le_of_lt hname hlt)
  · cases recursive with
    | true => exact absurd rfl hself
    | false =>
      -- a key between a directory and what lies under it lies under it too
      by_contra hgt
      have hbetween : unitRank (childOf p k') <+: unitRank k :=
        Lexicographic.isPrefix_of_between List.prefix_rfl
          (unitRank_prefix_iff.2 (childOf_isPrefix h'))
          (le_trans (le_of_lt (not_le.1 hgt)) hname) (le_of_lt hlt)
      have heq := childOf_of_isPrefix h' hself (unitRank_prefix_iff.1 hbetween)
      exact hgt (by simp only [nameOf, Bool.false_eq_true, if_false, heq, le_refl])

theorem childOf_childOf (h : p <+: k) : childOf p (childOf p k) = childOf p k := by
  obtain ⟨m, rfl⟩ := h
  rw [childOf_append, childOf_append, segment_segment]

/-- A name is the listed path only where the key is. -/
theorem eq_of_nameOf_eq (recursive : Bool) (h : p <+: k) (heq : nameOf recursive p k = p) :
    k = p := by
  cases recursive with
  | true => exact heq
  | false =>
    obtain ⟨m, rfl⟩ := h
    have hseg : p ++ segment m = p := by rw [← childOf_append]; exact heq
    have hnil : segment m = [] := List.append_right_eq_self.1 hseg
    cases m with
    | nil => exact List.append_nil p
    | cons c m =>
      rw [segment] at hnil
      split_ifs at hnil

/-- **Resuming behind a name is resuming behind its keys.** `S` is the
resume point: not strictly below a child directory and, where it is a
directory that a key lies under, below the listed path. -/
theorem lt_nameOf_iff (recursive : Bool) (hk : p <+: k)
    (hchild : recursive = false → p <+: S → childOf p S = S)
    (hdir : recursive = false → S.getLast? = some '/' → S <+: k → p <+: S ∧ S ≠ p) :
    unitRank S < unitRank (nameOf recursive p k) ↔
      unitRank S < unitRank k ∧ (recursive = false → S.getLast? = some '/' → ¬ S <+: k) := by
  have hname : unitRank (nameOf recursive p k) ≤ unitRank k :=
    unitRank_le_of_isPrefix (nameOf_isPrefix recursive hk)
  constructor
  · refine fun hlt => ⟨lt_of_lt_of_le hlt hname, fun hrec hslash hSk => ?_⟩
    subst hrec
    obtain ⟨hpS, hne⟩ := hdir rfl hslash hSk
    have heq := childOf_of_dir hpS hne hslash hSk
    have hle : unitRank (childOf p k) ≤ unitRank S :=
      unitRank_le_of_isPrefix (heq ▸ childOf_isPrefix hpS)
    exact absurd hlt (not_lt.2 hle)
  · rintro ⟨hlt, hskip⟩
    by_cases hself : nameOf recursive p k = k
    · rwa [hself]
    · cases recursive with
      | true => exact absurd rfl hself
      | false =>
        by_contra hge
        -- the resume point is between the directory and the key, so it is that directory
        have hbetween : unitRank (childOf p k) <+: unitRank S :=
          Lexicographic.isPrefix_of_between List.prefix_rfl
            (unitRank_prefix_iff.2 (childOf_isPrefix hk)) (not_lt.1 hge) (le_of_lt hlt)
        have hdirS := unitRank_prefix_iff.1 hbetween
        have heq := childOf_of_isPrefix hk hself hdirS
        have hS : S = childOf p k :=
          (hchild rfl ((isPrefix_childOf hk).trans hdirS)).symm.trans heq
        exact hskip rfl (hS ▸ getLast?_childOf hk hself) (hS ▸ childOf_isPrefix hk)

/-! ## Entries -/

/-- A normalized path: not empty, without an empty segment. -/
def Normal (path : Str) : Prop :=
  path ≠ [] ∧ path.head? ≠ some '/' ∧ ¬ ['/', '/'] <:+: path

/-- A path as OpenDAL passes it on: `/` for the root, and otherwise
without a `/` in front. -/
def RelativePath (path : Str) : Prop := path = ['/'] ∨ path.head? ≠ some '/'

/-- Whether the string keys of the store are normalized paths. -/
def NormalKeys (s : Stores) : Prop := ∀ k ∈ textKeys s.store, Normal k

variable {O : Opendal} {P : Platform} {s : Stores} {root : Root} {path : Str}

/-- The path of a listing, in the key space of the store. -/
theorem buildAbsPath_eq (O : Opendal) (root : Root) (hpath : RelativePath path) :
    O.buildAbsPath root.text path = root.text.tail ++ listBase path := by
  rcases hpath with rfl | hhead
  · rw [O.abs_root, listBase, if_pos rfl, List.append_nil]
  · have hne : path ≠ ['/'] := fun h => hhead (by rw [h]; rfl)
    rw [O.abs_path root path hhead, listBase, if_neg hne]

/-- A key that a listing shows: below the root, by a path that begins with
the listed one. -/
def Shown (root : Root) (path k : Str) : Prop :=
  ∃ r, k = root.text.tail ++ r ∧ r ≠ [] ∧ r.head? ≠ some '/' ∧ listBase path <+: r

/-- The root without its leading `/` is empty or ends with one. -/
theorem Root.tail_eq_nil_or (root : Root) :
    root.text.tail = [] ∨ root.text.tail.getLast? = some '/' := by
  have htext := List.eq_cons_of_mem_head? (Option.mem_def.2 root.starts)
  cases htail : root.text.tail with
  | nil => exact Or.inl rfl
  | cons a l =>
    have hends := root.ends
    rw [htext, htail, List.getLast?_cons_cons] at hends
    exact Or.inr hends

/-- Two slashes in a row are not normal. -/
theorem Normal.head?_ne {a r : Str} (h : Normal (a ++ r)) (ha : a = [] ∨ a.getLast? = some '/') :
    r.head? ≠ some '/' := by
  rcases ha with rfl | hlast
  · exact h.2.1
  · intro hhead
    obtain ⟨b, rfl⟩ := List.getLast?_eq_some_iff.1 hlast
    have hr := List.eq_cons_of_mem_head? (Option.mem_def.2 hhead)
    exact h.2.2 ⟨b, r.tail, by rw [hr]; simp⟩

/-- The keys of a listing are shown by it. -/
theorem shown_of_normal (hk : Normal k) (hpre : root.text.tail ++ listBase path <+: k)
    (hmark : ¬ (k = root.text.tail ++ listBase path ∧
      (root.text.tail ++ listBase path).getLast? = some '/')) : Shown root path k := by
  obtain ⟨m, rfl⟩ := hpre
  rw [List.append_assoc] at hk hmark ⊢
  refine ⟨listBase path ++ m, rfl, fun hnil => ?_, hk.head?_ne root.tail_eq_nil_or,
    List.prefix_append _ m⟩
  -- the root itself would be the marker of the listed directory
  rw [hnil, List.append_nil] at hk hmark
  rw [(List.append_eq_nil_iff.1 hnil).1, List.append_nil] at hmark
  exact hmark ⟨rfl, root.tail_eq_nil_or.resolve_left hk.1⟩

/-- The entry a key is shown as. -/
def nameEntry (O : Opendal) (P : Platform) (s : Stores) (root : Root) (path : Str)
    (recursive : Bool) (k : Str) : Entry :=
  let e := keyEntry O P s root.text k
  if recursive then e else foldEntry O.foldMetadata (listBase path) e

theorem path_keyEntry {r : Str} (hne : r ≠ []) (hhead : r.head? ≠ some '/') :
    (keyEntry O P s root.text (root.text.tail ++ r)).path = r := by
  simp only [keyEntry, listedEntry, O.rel_path root r hhead, if_neg hne]

theorem nameOf_append (recursive : Bool) (root : Root) (base r : Str) (h : base <+: r) :
    nameOf recursive (root.text.tail ++ base) (root.text.tail ++ r) =
      root.text.tail ++ nameOf recursive base r := by
  obtain ⟨m, rfl⟩ := h
  cases recursive with
  | true => rfl
  | false =>
    simp only [nameOf, Bool.false_eq_true, if_false]
    rw [← List.append_assoc, childOf_append, childOf_append, List.append_assoc]

theorem path_nameEntry_append {r : Str} (hne : r ≠ []) (hhead : r.head? ≠ some '/') :
    (nameEntry O P s root path recursive (root.text.tail ++ r)).path =
      nameOf recursive (listBase path) r := by
  have hpath : (keyEntry O P s root.text (root.text.tail ++ r)).path = r :=
    path_keyEntry hne hhead
  cases recursive with
  | true => exact hpath
  | false =>
    simp only [nameEntry, foldEntry, nameOf, Bool.false_eq_true, if_false]
    split_ifs with hself
    · rw [← hself, hpath]
    · rw [hpath]

/-- **An entry's path is its name**, relative to the root. -/
theorem path_nameEntry (h : Shown root path k) :
    root.text.tail ++ (nameEntry O P s root path recursive k).path =
      nameOf recursive (root.text.tail ++ listBase path) k := by
  obtain ⟨r, rfl, hne, hhead, hbase⟩ := h
  rw [path_nameEntry_append hne hhead, nameOf_append _ _ _ _ hbase]

/-- An entry's path is one that may be put behind the root. -/
theorem head?_path_nameEntry (h : Shown root path k) :
    (nameEntry O P s root path recursive k).path.head? ≠ some '/' := by
  obtain ⟨r, rfl, hne, hhead, hbase⟩ := h
  rw [path_nameEntry_append hne hhead]
  obtain ⟨t, ht⟩ := nameOf_isPrefix recursive hbase
  cases hname : nameOf recursive (listBase path) r with
  | nil => simp
  | cons c m =>
    rw [hname] at ht
    rw [← ht] at hhead
    exact hhead

/-- **A folded listing shows the first key of each name.** -/
theorem entriesOf_eq (recursive : Bool) {ks : List Str} (hks : ∀ k ∈ ks, Shown root path k)
    (hnodup : ks.Nodup) :
    entriesOf O P s root path recursive ks =
      (firstsFrom (nameOf recursive (root.text.tail ++ listBase path)) [] ks).map
        (nameEntry O P s root path recursive) := by
  cases recursive with
  | true =>
    have hself : firstsFrom (nameOf true (root.text.tail ++ listBase path)) [] ks = ks :=
      firstsFrom_eq_self hnodup fun _ _ => List.not_mem_nil
    rw [entriesOf, O.hierarchy_recursive, hself]
    rfl
  | false =>
    have hbase : ∀ e ∈ ks.map (keyEntry O P s root.text), listBase path <+: e.path := by
      intro e he
      obtain ⟨k, hk, rfl⟩ := List.mem_map.1 he
      obtain ⟨r, rfl, hne, hhead, hbase⟩ := hks k hk
      rwa [path_keyEntry hne hhead]
    have hnames : ∀ k ∈ ks, nameOf false (root.text.tail ++ listBase path) k =
        root.text.tail ++ (nameEntry O P s root path false k).path :=
      fun k hk => (path_nameEntry (hks k hk)).symm
    -- repeated paths are repeated names: the root in front tells none apart
    have hfirsts := firstsFrom_of_injective (fun _ _ => List.append_cancel_left) hnames []
    rw [List.map_nil] at hfirsts
    rw [entriesOf, O.hierarchy_fold path _ hbase, List.map_map, firstsFrom_map, hfirsts]
    rfl

/-! ## The names of a listing -/

/-- The keys a listing of everything shows. -/
theorem shown_of_mem_keysUnder (hkeys : NormalKeys s)
    (h : k ∈ keysUnder s (root.text.tail ++ listBase path)) : Shown root path k := by
  obtain ⟨hk, hcond⟩ := List.mem_filter.1 h
  simp only [Bool.and_eq_true, decide_eq_true_iff, Bool.not_eq_true', Bool.and_eq_false_imp,
    decide_eq_false_iff_not] at hcond
  exact shown_of_normal (hkeys k hk) hcond.1 fun hmark => hcond.2 hmark.1 hmark.2

theorem isPrefix_of_mem_keysUnder (h : k ∈ keysUnder s p) : p <+: k := by
  have hcond := (List.mem_filter.1 h).2
  simp only [Bool.and_eq_true, decide_eq_true_iff] at hcond
  exact hcond.1

/-- The keys of a listing, one for each name. -/
def namedKeys (recursive : Bool) (p : Str) (ks : List Str) : List Str :=
  firstsFrom (nameOf recursive p) [] ks

/-- **The names are in strict order.** -/
theorem namedKeys_sorted (recursive : Bool) (p : Str) {ks : List Str} (hks : ∀ k ∈ ks, p <+: k)
    (hsorted : ks.Pairwise fun a b => unitRank a < unitRank b) :
    (namedKeys recursive p ks).Pairwise fun a b =>
      unitRank (nameOf recursive p a) < unitRank (nameOf recursive p b) := by
  have hsub := firstsFrom_sublist (nameOf recursive p) [] ks
  have hle : (namedKeys recursive p ks).Pairwise fun a b =>
      unitRank (nameOf recursive p a) ≤ unitRank (nameOf recursive p b) :=
    (hsorted.sublist hsub).imp_of_mem fun {a b} ha hb hab =>
      unitRank_nameOf_le (hks a (hsub.subset ha)) (hks b (hsub.subset hb)) hab
  refine hle.imp₂ (fun a b hab hne => ?_) (pairwise_ne_firstsFrom (nameOf recursive p) [] ks)
  exact lt_of_le_of_ne hab fun h => hne (unitRank_injective h)

/-- Restricting a listing by name. -/
theorem filter_namedKeys (recursive : Bool) (p : Str) (ks : List Str) (q : Str → Bool) :
    (namedKeys recursive p ks).filter (fun k => q (nameOf recursive p k)) =
      namedKeys recursive p (ks.filter fun k => q (nameOf recursive p k)) :=
  filter_firstsFrom q

/-- Every key has its name in the listing. -/
theorem exists_namedKeys (recursive : Bool) {ks : List Str} (hk : k ∈ ks) :
    ∃ k' ∈ namedKeys recursive p ks, nameOf recursive p k' = nameOf recursive p k :=
  exists_mem_firstsFrom hk List.not_mem_nil

end OpendalIndexeddb
