import OpendalIndexeddb.Model.Reference
import OpendalIndexeddb.View
/-!
# What the conditions on an ETag mean

A write, a copy, a stat and a read each find the current ETag in their
own way and compare it by their own rule. Over a record that holds bytes
they all decide by the ETag a plain `stat` reports, and a condition that
fails leaves the stores as they were.
-/

namespace OpendalIndexeddb

open IndexeddbCore

variable {O : Opendal} {P : Platform} {s : Stores} {root : Root} {path : Str}

/-- The record of a path, if there is one, holds bytes. -/
def HoldsBytes (s : Stores) (path : Str) : Prop :=
  ∀ v, s.store.get (.text path) = some v → ∃ bytes, v.v = .uint8Array bytes

/-- The error is a failed condition. -/
def Fails {α : Type} (outcome : Except Error α) : Prop :=
  ∃ err, outcome = .error err ∧ err.kind = .conditionNotMatch

/-! ## The meaning of the conditions -/

/-- `*` matches any entry, another value the entry with that ETag. -/
def Matches (want : Str) (current : Option Str) : Prop :=
  ∃ etag, current = some etag ∧ (want = ['*'] ∨ want = etag)

def IfMatch (ifMatch current : Option Str) : Prop := ∀ want ∈ ifMatch, Matches want current

def IfNoneMatch (ifNoneMatch current : Option Str) : Prop :=
  ∀ want ∈ ifNoneMatch, ¬ Matches want current

/-- What a plain `stat` of a path returns. -/
def plainStat (O : Opendal) (P : Platform) (root : Root) (path : Str) (s : Stores) :
    Except Error Metadata :=
  IndexeddbBackend.stat O P root path ⟨none, none, none, none⟩ s

/-- The ETag a plain `stat` returns. -/
def statEtag (O : Opendal) (P : Platform) (root : Root) (path : Str) (s : Stores) : Option Str :=
  (plainStat O P root path s).toOption.bind (·.etag)

/-- The conditions of a write, against a plain `stat`. -/
structure WriteAllowed (O : Opendal) (P : Platform) (root : Root) (path : Str) (s : Stores)
    (args : WriteArgs) : Prop where
  ifNotExists : args.ifNotExists = true →
    plainStat O P root path s = .error (IndexeddbBackend.notFound path)
  ifMatch : IfMatch args.ifMatch (statEtag O P root path s)
  ifNoneMatch : IfNoneMatch args.ifNoneMatch (statEtag O P root path s)

/-- The conditions of a copy on its destination, against a plain `stat`. -/
structure CopyAllowed (O : Opendal) (P : Platform) (root : Root) (path : Str) (s : Stores)
    (ifNotExists : Bool) (ifMatch : Option Str) : Prop where
  ifNotExists : ifNotExists = true →
    plainStat O P root path s = .error (IndexeddbBackend.notFound path)
  ifMatch : IfMatch ifMatch (statEtag O P root path s)

/-- The conditions of a stat or a read: those on the time, and those on
the ETag a plain `stat` returns. -/
structure ReadAllowed (O : Opendal) (P : Platform) (root : Root) (path : Str) (s : Stores)
    (ifMatch ifNoneMatch : Option Str) (ifModifiedSince ifUnmodifiedSince : Option Timestamp) :
    Prop where
  ifMatch : IfMatch ifMatch (statEtag O P root path s)
  ifNoneMatch : IfNoneMatch ifNoneMatch (statEtag O P root path s)
  modified : ∀ info, stat P (O.buildAbsPath root.text path) s = some info →
    checkModified P info ifModifiedSince ifUnmodifiedSince = .ok ()

/-! ## The current ETag -/

theorem etag_entryMetadata (P : Platform) (path : Str) (info : EntryInfo) :
    (entryMetadata P path info).etag = info.entryMeta.etag := by
  rw [entryMetadata]
  cases info.entryMeta.content <;> rfl

theorem checkModified_none (P : Platform) (info : EntryInfo) :
    checkModified P info none none = .ok () := by
  rw [checkModified]
  cases lastModified P info <;> rfl

/-- A plain `stat` returns what the view of the path tells. -/
theorem plainStat_eq (hroot : O.buildAbsPath root.text path ≠ O.buildAbsPath root.text []) :
    plainStat O P root path s =
      match s.view (O.buildAbsPath root.text path) with
      | some e => .ok (entryMetadata P path (viewInfo P e))
      | none => .error (IndexeddbBackend.notFound path) := by
  simp only [plainStat, IndexeddbBackend.stat, if_neg hroot, stat_eq_view]
  cases s.view (O.buildAbsPath root.text path) with
  | none => rfl
  | some e =>
    simp only [Option.map_some, checkModified_none]
    rfl

theorem statEtag_eq (hroot : O.buildAbsPath root.text path ≠ O.buildAbsPath root.text []) :
    statEtag O P root path s = viewEtag P (s.view (O.buildAbsPath root.text path)) := by
  rw [statEtag, plainStat_eq hroot]
  cases s.view (O.buildAbsPath root.text path) with
  | none => rfl
  | some e => exact etag_entryMetadata P path (viewInfo P e)

theorem plainStat_notFound_iff
    (hroot : O.buildAbsPath root.text path ≠ O.buildAbsPath root.text []) :
    plainStat O P root path s = .error (IndexeddbBackend.notFound path) ↔
      s.view (O.buildAbsPath root.text path) = none := by
  rw [plainStat_eq hroot]
  cases s.view (O.buildAbsPath root.text path) <;> simp

/-- Where records hold bytes, every entry has an ETag. -/
theorem viewEtag_isSome (h : HoldsBytes s path) :
    (viewEtag P (s.view path)).isSome = (s.view path).isSome := by
  unfold Stores.view
  cases hv : s.store.get (.text path) with
  | none => rfl
  | some v =>
    obtain ⟨bytes, hbytes⟩ := h v hv
    simp [viewEtag, etag_viewInfo, valueEtag, hbytes]

/-! ## One rule -/

/-- The rule of writes and copies. -/
theorem etagMatches_iff (h : HoldsBytes s path) (want : Str) :
    etagMatches want (s.view path).isSome (viewEtag P (s.view path)) = true ↔
      Matches want (viewEtag P (s.view path)) := by
  rw [← viewEtag_isSome (P := P) h, etagMatches, Matches]
  cases viewEtag P (s.view path) with
  | none => simp
  | some etag => simp [eq_comm (a := etag)]

theorem ifMatch_iff (h : HoldsBytes s path) (ifMatch : Option Str) :
    ifMatch.any (fun want =>
      !etagMatches want (s.view path).isSome (viewEtag P (s.view path))) = false ↔
      IfMatch ifMatch (viewEtag P (s.view path)) := by
  cases ifMatch with
  | none => simp [IfMatch]
  | some want => simp [IfMatch, ← etagMatches_iff h]

theorem ifNoneMatch_iff (h : HoldsBytes s path) (ifNoneMatch : Option Str) :
    ifNoneMatch.any (fun want =>
      etagMatches want (s.view path).isSome (viewEtag P (s.view path))) = false ↔
      IfNoneMatch ifNoneMatch (viewEtag P (s.view path)) := by
  cases ifNoneMatch with
  | none => simp [IfNoneMatch]
  | some want => simp [IfNoneMatch, ← etagMatches_iff h]

/-- The rule of stats and reads, over an entry with an ETag. -/
theorem checkEtag_spec {info : EntryInfo} (h : info.entryMeta.etag.isSome = true)
    (ifMatch ifNoneMatch : Option Str) :
    (IfMatch ifMatch info.entryMeta.etag ∧ IfNoneMatch ifNoneMatch info.entryMeta.etag →
      checkEtag info ifMatch ifNoneMatch = .ok ()) ∧
    (¬ (IfMatch ifMatch info.entryMeta.etag ∧ IfNoneMatch ifNoneMatch info.entryMeta.etag) →
      Fails (checkEtag info ifMatch ifNoneMatch)) := by
  obtain ⟨etag, hetag⟩ := Option.isSome_iff_exists.1 h
  have hrule (want : Str) : Matches want info.entryMeta.etag ↔
      (want = ['*'] || info.entryMeta.etag = some want) = true := by
    simp [Matches, hetag, eq_comm (a := etag)]
  have hmatch : IfMatch ifMatch info.entryMeta.etag ↔
      ¬ ifMatch.any (fun want => !(want = ['*'] || info.entryMeta.etag = some want)) = true := by
    cases ifMatch <;> simp [IfMatch, hrule, or_iff_not_imp_left]
  have hnone : IfNoneMatch ifNoneMatch info.entryMeta.etag ↔
      ¬ ifNoneMatch.any (fun want => want = ['*'] || info.entryMeta.etag = some want) = true := by
    cases ifNoneMatch <;> simp [IfNoneMatch, hrule]
  rw [hmatch, hnone, checkEtag]
  split_ifs with h1 h2
  · exact ⟨fun h => absurd h1 h.1, fun _ => ⟨_, rfl, rfl⟩⟩
  · exact ⟨fun h => absurd h2 h.2, fun _ => ⟨_, rfl, rfl⟩⟩
  · exact ⟨fun _ => rfl, fun h => absurd ⟨h1, h2⟩ h⟩

theorem checkModified_fails {info : EntryInfo} {since till : Option Timestamp}
    (h : checkModified P info since till ≠ .ok ()) : Fails (checkModified P info since till) := by
  rw [checkModified] at h ⊢
  cases hl : lastModified P info with
  | none => simp [hl] at h
  | some last =>
    simp only [hl] at h ⊢
    split_ifs at h ⊢
    · exact ⟨_, rfl, rfl⟩
    · exact ⟨_, rfl, rfl⟩
    · exact absurd rfl h

/-! ## The four operations -/

section Operations

variable (hroot : O.buildAbsPath root.text path ≠ O.buildAbsPath root.text [])

include hroot

theorem writeAllowed_iff (args : WriteArgs) : WriteAllowed O P root path s args ↔
    ¬ (args.ifNotExists && (s.view (O.buildAbsPath root.text path)).isSome) = true ∧
      IfMatch args.ifMatch (viewEtag P (s.view (O.buildAbsPath root.text path))) ∧
      IfNoneMatch args.ifNoneMatch (viewEtag P (s.view (O.buildAbsPath root.text path))) := by
  have hexists : (args.ifNotExists = true →
      plainStat O P root path s = .error (IndexeddbBackend.notFound path)) ↔
      ¬ (args.ifNotExists && (s.view (O.buildAbsPath root.text path)).isSome) = true := by
    rw [plainStat_notFound_iff hroot]
    simp
  rw [← hexists, ← statEtag_eq hroot]
  exact ⟨fun h => ⟨h.1, h.2, h.3⟩, fun h => ⟨h.1, h.2.1, h.2.2⟩⟩

variable (hbytes : HoldsBytes s (O.buildAbsPath root.text path))

include hbytes

theorem setPlan_conditions (value : Bytes) (args : WriteArgs) :
    (WriteAllowed O P root path s args →
      ∃ written, setPlan P (O.buildAbsPath root.text path) value args
        (s.view (O.buildAbsPath root.text path)) = .ok written) ∧
    (¬ WriteAllowed O P root path s args →
      Fails (setPlan P (O.buildAbsPath root.text path) value args
        (s.view (O.buildAbsPath root.text path)))) := by
  rw [writeAllowed_iff hroot]
  rw [← ifMatch_iff hbytes, ← ifNoneMatch_iff hbytes, ← Bool.not_eq_true, ← Bool.not_eq_true]
  simp only [setPlan]
  -- one case for each condition, in the order they are checked
  split_ifs with h1 h2 h3 happend
  · exact ⟨fun h => absurd h1 h.1, fun _ => ⟨_, rfl, rfl⟩⟩
  · exact ⟨fun h => absurd h2 h.2.1, fun _ => ⟨_, rfl, rfl⟩⟩
  · exact ⟨fun h => absurd h3 h.2.2, fun _ => ⟨_, rfl, rfl⟩⟩
  · refine ⟨fun _ => ?_, fun h => absurd ⟨h1, h2, h3⟩ h⟩
    unfold Stores.view
    cases hv : s.store.get (.text (O.buildAbsPath root.text path)) with
    | none => exact ⟨_, rfl⟩
    | some v =>
      obtain ⟨bytes, hv'⟩ := hbytes v hv
      simp only [Option.map_some, recordBytes, recordValueAsUint8Array, hv']
      exact ⟨_, rfl⟩
  · exact ⟨fun _ => ⟨_, rfl⟩, fun h => absurd ⟨h1, h2, h3⟩ h⟩

/-- **A write is made exactly when its conditions hold of a plain `stat`.** -/
theorem set_conditions (now : Number) (value : Bytes) (args : WriteArgs) :
    (WriteAllowed O P root path s args →
      ∃ info, (IndexeddbCore.set P now (O.buildAbsPath root.text path) value args s).1 = .ok info) ∧
    (¬ WriteAllowed O P root path s args →
      Fails (IndexeddbCore.set P now (O.buildAbsPath root.text path) value args s).1 ∧
        (IndexeddbCore.set P now (O.buildAbsPath root.text path) value args s).2 = s) := by
  obtain ⟨hok, hfail⟩ := setPlan_conditions hroot hbytes value args
  rw [set_eq_view]
  constructor
  · intro h
    obtain ⟨written, hplan⟩ := hok h
    simp only [hplan]
    exact ⟨_, rfl⟩
  · intro h
    obtain ⟨err, hplan, hkind⟩ := hfail h
    simp only [hplan]
    exact ⟨⟨err, rfl, hkind⟩, trivial⟩

/-- **A copy is made exactly when its source is there and its conditions
hold of a plain `stat` of the destination**, up to a source that holds no
bytes. -/
theorem copy_conditions {src : Str} (hsrc : src ≠ O.buildAbsPath root.text path) (now : Number)
    (ifNotExists : Bool) (ifMatch : Option Str) :
    (stat P src s = none →
      copy P now src (O.buildAbsPath root.text path) ifNotExists ifMatch s =
        (.error (notFoundFrom src), s)) ∧
    (stat P src s ≠ none → CopyAllowed O P root path s ifNotExists ifMatch →
      ¬ Fails (copy P now src (O.buildAbsPath root.text path) ifNotExists ifMatch s).1 ∧
      (HoldsBytes s src → ∃ md,
        (copy P now src (O.buildAbsPath root.text path) ifNotExists ifMatch s).1 = .ok md)) ∧
    (stat P src s ≠ none → ¬ CopyAllowed O P root path s ifNotExists ifMatch →
      Fails (copy P now src (O.buildAbsPath root.text path) ifNotExists ifMatch s).1 ∧
        (copy P now src (O.buildAbsPath root.text path) ifNotExists ifMatch s).2 = s) := by
  -- a copy asks for what a write without `if_none_match` asks for
  have hallowed : CopyAllowed O P root path s ifNotExists ifMatch ↔
      WriteAllowed O P root path s ⟨false, ifNotExists, ifMatch, none, none⟩ :=
    ⟨fun h => ⟨h.1, h.2, by simp [IfNoneMatch]⟩, fun h => ⟨h.1, h.2⟩⟩
  rw [hallowed, writeAllowed_iff hroot, stat_eq_view, copy_eq_view hsrc]
  rw [← ifMatch_iff hbytes, ← ifNoneMatch_iff hbytes, ← Bool.not_eq_true, ← Bool.not_eq_true]
  cases hview : s.view src with
  | none => simp [copyPlan]
  | some e =>
    simp only [copyPlan, Option.map_some, reduceCtorEq, ne_eq, not_false_eq_true, true_implies,
      false_implies, true_and, Option.any_none, Bool.false_eq_true, and_true]
    split_ifs with h1 h2
    · exact ⟨fun h => absurd h1 h.1, fun _ => ⟨⟨_, rfl, rfl⟩, rfl⟩⟩
    · exact ⟨fun h => absurd h2 h.2, fun _ => ⟨⟨_, rfl, rfl⟩, rfl⟩⟩
    · refine ⟨fun _ => ?_, fun h => absurd ⟨h1, h2⟩ h⟩
      obtain ⟨v, hv, rfl⟩ := Option.map_eq_some_iff.1 hview
      rw [sourceSize, recordValueAsUint8Array]
      -- a source that holds no bytes fails, and not by a condition
      cases hvalue : v.v with
      | uint8Array bytes =>
        refine ⟨?_, fun _ => ⟨_, rfl⟩⟩
        rintro ⟨_, h, -⟩
        cases h
      | other =>
        refine ⟨?_, fun hsource => ?_⟩
        · rintro ⟨_, h, hkind⟩
          cases h
          cases hkind
        · obtain ⟨bytes, hb⟩ := hsource v hv
          rw [hvalue] at hb
          cases hb

/-- The conditions of a stat or a read, evaluated over the view. -/
theorem checks_spec {e : DataRecord × Option MetaRecord}
    (hview : s.view (O.buildAbsPath root.text path) = some e) (ifMatch ifNoneMatch : Option Str)
    (since till : Option Timestamp) :
    (ReadAllowed O P root path s ifMatch ifNoneMatch since till →
      checkModified P (viewInfo P e) since till = .ok () ∧
        checkEtag (viewInfo P e) ifMatch ifNoneMatch = .ok ()) ∧
    (¬ ReadAllowed O P root path s ifMatch ifNoneMatch since till →
      Fails (checkModified P (viewInfo P e) since till) ∨
        checkModified P (viewInfo P e) since till = .ok () ∧
          Fails (checkEtag (viewInfo P e) ifMatch ifNoneMatch)) := by
  have hetag : statEtag O P root path s = (viewInfo P e).entryMeta.etag := by
    rw [statEtag_eq hroot, hview]
    rfl
  have hsome : (viewInfo P e).entryMeta.etag.isSome = true := by
    have hpresent := viewEtag_isSome (P := P) hbytes
    rwa [hview] at hpresent
  have hinfo : stat P (O.buildAbsPath root.text path) s = some (viewInfo P e) := by
    rw [stat_eq_view, hview, Option.map_some]
  obtain ⟨hok, hfail⟩ := checkEtag_spec hsome ifMatch ifNoneMatch
  constructor
  · intro h
    exact ⟨h.modified _ hinfo, hok ⟨hetag ▸ h.ifMatch, hetag ▸ h.ifNoneMatch⟩⟩
  · intro h
    by_cases hmodified : checkModified P (viewInfo P e) since till = .ok ()
    · refine Or.inr ⟨hmodified, hfail fun hetags => h ⟨hetag ▸ hetags.1, hetag ▸ hetags.2, ?_⟩⟩
      intro info hstat
      rw [hinfo, Option.some_inj] at hstat
      exact hstat ▸ hmodified
    · exact Or.inl (checkModified_fails hmodified)

/-- **A stat of an entry succeeds exactly under its conditions.** -/
theorem stat_conditions (hpresent : stat P (O.buildAbsPath root.text path) s ≠ none)
    (args : OpStat) :
    (ReadAllowed O P root path s args.ifMatch args.ifNoneMatch args.ifModifiedSince
        args.ifUnmodifiedSince → ∃ md, IndexeddbBackend.stat O P root path args s = .ok md) ∧
    (¬ ReadAllowed O P root path s args.ifMatch args.ifNoneMatch args.ifModifiedSince
        args.ifUnmodifiedSince → Fails (IndexeddbBackend.stat O P root path args s)) := by
  rw [stat_eq_view, ne_eq, Option.map_eq_none_iff] at hpresent
  obtain ⟨e, hview⟩ := Option.ne_none_iff_exists'.1 hpresent
  obtain ⟨hok, hfail⟩ := checks_spec (P := P) hroot hbytes hview args.ifMatch args.ifNoneMatch
    args.ifModifiedSince args.ifUnmodifiedSince
  simp only [IndexeddbBackend.stat, if_neg hroot, stat_eq_view, hview, Option.map_some]
  constructor
  · intro h
    obtain ⟨hmodified, hetags⟩ := hok h
    simp only [hmodified, hetags]
    exact ⟨_, rfl⟩
  · intro h
    rcases hfail h with ⟨err, hmodified, hkind⟩ | ⟨hmodified, err, hetags, hkind⟩
    · simp only [hmodified]
      exact ⟨_, rfl, hkind⟩
    · simp only [hmodified, hetags]
      exact ⟨_, rfl, hkind⟩

/-- **A read of an entry succeeds exactly under the same conditions.** -/
theorem read_conditions (hpresent : stat P (O.buildAbsPath root.text path) s ≠ none)
    (args : ReadArgs) :
    (ReadAllowed O P root path s args.ifMatch args.ifNoneMatch args.ifModifiedSince
        args.ifUnmodifiedSince →
      ∃ content, IndexeddbBackend.read O P root path args s = .ok content) ∧
    (¬ ReadAllowed O P root path s args.ifMatch args.ifNoneMatch args.ifModifiedSince
        args.ifUnmodifiedSince → Fails (IndexeddbBackend.read O P root path args s)) := by
  rw [stat_eq_view, ne_eq, Option.map_eq_none_iff] at hpresent
  obtain ⟨e, hview⟩ := Option.ne_none_iff_exists'.1 hpresent
  obtain ⟨hok, hfail⟩ := checks_spec (P := P) hroot hbytes hview args.ifMatch args.ifNoneMatch
    args.ifModifiedSince args.ifUnmodifiedSince
  obtain ⟨v, hv, rfl⟩ := Option.map_eq_some_iff.1 hview
  obtain ⟨bytes, hvalue⟩ := hbytes v hv
  simp only [IndexeddbBackend.read, read_eq_view, hview, readView, checkRead]
  constructor
  · intro h
    obtain ⟨hmodified, hetags⟩ := hok h
    simp only [hmodified, hetags, readValue_of_bytes hvalue]
    exact ⟨_, rfl⟩
  · intro h
    -- the modified times are checked first
    rcases hfail h with ⟨err, hmodified, hkind⟩ | ⟨hmodified, err, hetags, hkind⟩
    · simp only [hmodified]
      exact ⟨_, rfl, hkind⟩
    · simp only [hmodified, hetags]
      exact ⟨_, rfl, hkind⟩

end Operations

/-- **The conditions on an ETag mean the same everywhere**, and one that
fails changes nothing. Over a record of bytes, writes, copies, stats and
reads all go by what a plain `stat` of the path returns. -/
theorem conditions_agree (hroot : O.buildAbsPath root.text path ≠ O.buildAbsPath root.text [])
    (hbytes : HoldsBytes s (O.buildAbsPath root.text path)) :
    (∀ now value args,
      (WriteAllowed O P root path s args → ∃ info,
        (IndexeddbCore.set P now (O.buildAbsPath root.text path) value args s).1 = .ok info) ∧
      (¬ WriteAllowed O P root path s args →
        Fails (IndexeddbCore.set P now (O.buildAbsPath root.text path) value args s).1 ∧
          (IndexeddbCore.set P now (O.buildAbsPath root.text path) value args s).2 = s)) ∧
    (∀ src, src ≠ O.buildAbsPath root.text path → ∀ now ifNotExists ifMatch,
      (stat P src s = none →
        copy P now src (O.buildAbsPath root.text path) ifNotExists ifMatch s =
          (.error (notFoundFrom src), s)) ∧
      (stat P src s ≠ none → CopyAllowed O P root path s ifNotExists ifMatch →
        ¬ Fails (copy P now src (O.buildAbsPath root.text path) ifNotExists ifMatch s).1 ∧
        (HoldsBytes s src → ∃ md,
          (copy P now src (O.buildAbsPath root.text path) ifNotExists ifMatch s).1 = .ok md)) ∧
      (stat P src s ≠ none → ¬ CopyAllowed O P root path s ifNotExists ifMatch →
        Fails (copy P now src (O.buildAbsPath root.text path) ifNotExists ifMatch s).1 ∧
          (copy P now src (O.buildAbsPath root.text path) ifNotExists ifMatch s).2 = s)) ∧
    (stat P (O.buildAbsPath root.text path) s ≠ none → ∀ ifMatch ifNoneMatch since till range,
      (ReadAllowed O P root path s ifMatch ifNoneMatch since till →
        (∃ md, IndexeddbBackend.stat O P root path ⟨ifMatch, ifNoneMatch, since, till⟩ s = .ok md) ∧
        ∃ content, IndexeddbBackend.read O P root path
          ⟨ifMatch, ifNoneMatch, since, till, range⟩ s = .ok content) ∧
      (¬ ReadAllowed O P root path s ifMatch ifNoneMatch since till →
        Fails (IndexeddbBackend.stat O P root path ⟨ifMatch, ifNoneMatch, since, till⟩ s) ∧
        Fails (IndexeddbBackend.read O P root path
          ⟨ifMatch, ifNoneMatch, since, till, range⟩ s))) := by
  refine ⟨set_conditions hroot hbytes, fun src hsrc => copy_conditions hroot hbytes hsrc, ?_⟩
  intro hpresent ifMatch ifNoneMatch since till range
  have hstat := stat_conditions hroot hbytes hpresent ⟨ifMatch, ifNoneMatch, since, till⟩
  have hread := read_conditions hroot hbytes hpresent ⟨ifMatch, ifNoneMatch, since, till, range⟩
  exact ⟨fun h => ⟨hstat.1 h, hread.1 h⟩, fun h => ⟨hstat.2 h, hread.2 h⟩⟩

/-- The byte 0 under `a`, without a sidecar. -/
def legacyStores : Stores := ⟨OrderedStore.empty.put (KeyAndValue.toValue ⟨['a'], [0]⟩), .empty⟩

/-- A record without a sidecar takes part: its bytes give the ETag, which
passes `if_match` and fails `if_none_match`. -/
theorem conditions_agree_legacy :
    (∃ info, (IndexeddbCore.set referencePlatform (.ofNat 0) ['a'] []
      ⟨false, false, some (etagFromBytes referencePlatform [0]), none, none⟩ legacyStores).1 =
        .ok info) ∧
    Fails (IndexeddbBackend.stat referenceOpendal referencePlatform .slash ['a']
      ⟨none, some (etagFromBytes referencePlatform [0]), none, none⟩ legacyStores) := by
  have hetag : statEtag referenceOpendal referencePlatform .slash ['a'] legacyStores =
      some (etagFromBytes referencePlatform [0]) := by decide
  have hagree := @conditions_agree referenceOpendal referencePlatform legacyStores .slash ['a']
    (by decide) fun v hv => ⟨[0], by
      rw [← Option.some_inj.1 hv]
      rfl⟩
  refine ⟨(hagree.1 (.ofNat 0) [] _).1 ⟨by simp, ?_, by simp [IfNoneMatch]⟩,
    ((hagree.2.2 (by decide) none _ none none ⟨0, none⟩).2 fun h => ?_).1⟩
  · rintro want ⟨⟩
    exact ⟨_, hetag, Or.inr rfl⟩
  · exact h.ifNoneMatch _ rfl ⟨_, hetag, Or.inr rfl⟩

end OpendalIndexeddb
