import OpendalIndexeddb.Model.Reference
import OpendalIndexeddb.Objects
import OpendalIndexeddb.View
/-!
# A ranged read is a slice of the full read

The range of a read is clamped in `u64` by the length of the sidecar, or
by the measured one, cast to the 32-bit `usize` and clamped again by
`subarray`. For a value that fits the address space and a length that is
its own, this is the range over the integers: the clamp comes before the
cast, and saturation sets in above every length.
-/

namespace OpendalIndexeddb

open IndexeddbCore

variable {P : Platform} {s : Stores} {path : Str} {args : ReadArgs} {v : DataRecord}
variable {bytes : Bytes} {n : ℕ}

/-! ## The range over the integers -/

/-- Where a range of a value of `n` bytes starts. -/
def ReadRange.start (range : ReadRange) (n : ℕ) : ℕ := min range.offset n

/-- Where it stops, with nothing saturated and nothing cast. -/
def ReadRange.stop (range : ReadRange) (n : ℕ) : ℕ :=
  match range.size with
  | some size => min (range.offset + size) n
  | none => n

theorem ReadRange.start_le_stop (range : ReadRange) (n : ℕ) : range.start n ≤ range.stop n := by
  unfold ReadRange.start ReadRange.stop
  split <;> omega

theorem ReadRange.stop_le (range : ReadRange) (n : ℕ) : range.stop n ≤ n := by
  unfold ReadRange.stop
  split <;> omega

/-- **The clamped range is the range over the integers**, for a length
below `2 ^ 32`. -/
theorem clampReadRange_eq (range : ReadRange) (h : n < 2 ^ 32) :
    clampReadRange range n = (range.start n, range.stop n) := by
  have hstart : min range.offset n % 2 ^ 32 = range.start n := by
    unfold ReadRange.start
    exact Nat.mod_eq_of_lt (by omega)
  have hstop := range.stop_le n
  unfold ReadRange.stop at hstop ⊢
  cases hsize : range.size with
  | none => simp only [clampReadRange, hsize, hstart, Nat.mod_eq_of_lt h]
  | some size =>
    -- the saturated end is above every length
    have hmin : min (min (range.offset + size) (2 ^ 64 - 1)) n = min (range.offset + size) n := by
      omega
    simp only [hsize] at hstop
    simp only [clampReadRange, hsize, hstart, hmin]
    rw [Nat.mod_eq_of_lt (by omega)]

/-- The bytes of a range lie between its start and its stop. -/
theorem ReadRange.slice_eq (range : ReadRange) (bytes : Bytes) : range.slice bytes =
    (bytes.drop (range.start bytes.length)).take
      (range.stop bytes.length - range.start bytes.length) := by
  have hdrop : bytes.drop (range.start bytes.length) = bytes.drop range.offset := by
    unfold ReadRange.start
    rcases le_total range.offset bytes.length with hle | hle
    · rw [min_eq_left hle]
    · rw [min_eq_right hle, List.drop_length, List.drop_eq_nil_of_le hle]
  rw [hdrop]
  have hlen : (bytes.drop range.offset).length = bytes.length - range.offset := List.length_drop
  unfold ReadRange.slice ReadRange.start ReadRange.stop
  cases range.size with
  | none =>
    show bytes.drop range.offset = (bytes.drop range.offset).take
      (bytes.length - min range.offset bytes.length)
    rw [List.take_of_length_le]
    omega
  | some size =>
    show (bytes.drop range.offset).take size = (bytes.drop range.offset).take
      (min (range.offset + size) bytes.length - min range.offset bytes.length)
    rw [List.take_eq_take_iff]
    omega

/-- `subarray` of a clamped range is the slice. -/
theorem take_drop_clampReadRange (range : ReadRange) (bytes : Bytes)
    (h : bytes.length < 2 ^ 32) :
    (bytes.take (clampReadRange range bytes.length).2).drop
      (clampReadRange range bytes.length).1 = range.slice bytes := by
  rw [clampReadRange_eq range h, range.slice_eq, List.drop_take]

/-! ## Reading with a length that is right -/

/-- **A read with the right length returns the slice.** -/
theorem readValue_eq {info : EntryInfo} (hv : v.v = .uint8Array bytes)
    (h : bytes.length < 2 ^ 32) (hsize : info.entryMeta.size = some bytes.length)
    (args : ReadArgs) (path : Str) :
    readValue args path info v = .ok (some (info, args.range.slice bytes)) := by
  simp only [readValue_of_bytes hv, hsize, Option.getD_some, take_drop_clampReadRange _ _ h]

/-- The length of an entry is that of its bytes, measured or taken from a
sidecar that has it right. -/
theorem size_viewInfo {r : Option MetaRecord} (hv : v.v = .uint8Array bytes)
    (h : bytes.length < 2 ^ 64) (hr : ∀ r' ∈ r, r'.l = Number.ofNat bytes.length) :
    (viewInfo P (v, r)).entryMeta.size = some bytes.length := by
  rw [(fields_viewInfo (v, r)).1]
  cases r with
  | none => simp only [valueByteLength, hv]
  | some r => simp only [hr r rfl, Number.asU64_ofNat h]

/-- **A ranged read is a slice of the full read.** For a value that fits
the address space, with a sidecar of the right length, whether or not
that has an ETag, or with none that decodes, and conditions that pass:
the read returns the bytes between the start and the stop of its range
over the integers, in order and cast without loss, out of those the read
of everything returns, and the entry still has the full length. -/
theorem ranged_read_is_slice (hget : s.store.get (.text path) = some v)
    (hv : v.v = .uint8Array bytes) (hlen : bytes.length < 2 ^ 32)
    (hsidecar : ∀ r ∈ readMeta s.metaStore path, r.l = Number.ofNat bytes.length)
    (hpass : ∀ info ∈ stat P path s, checkRead P args path info = .ok ()) :
    ∃ info, stat P path s = some info ∧ info.entryMeta.size = some bytes.length ∧
      (P.fromPath path = .file →
        (entryMetadata P path info).contentLength = some bytes.length) ∧
      clampReadRange args.range bytes.length =
        (args.range.start bytes.length, args.range.stop bytes.length) ∧
      args.range.start bytes.length ≤ args.range.stop bytes.length ∧
      read P path { args with range := ⟨0, none⟩ } s = .ok (some (info, bytes)) ∧
      read P path args s = .ok (some (info, (bytes.drop (args.range.start bytes.length)).take
        (args.range.stop bytes.length - args.range.start bytes.length))) := by
  have hview := view_of_get hget
  have hstat : stat P path s = some (viewInfo P (v, readMeta s.metaStore path)) := by
    rw [stat_eq_view, hview, Option.map_some]
  have hsize : (viewInfo P (v, readMeta s.metaStore path)).entryMeta.size = some bytes.length :=
    size_viewInfo hv (by omega) hsidecar
  -- the conditions do not look at the range
  have hread (range : ReadRange) : read P path { args with range } s =
      .ok (some (viewInfo P (v, readMeta s.metaStore path), range.slice bytes)) := by
    have hcheck : checkRead P { args with range } path
        (viewInfo P (v, readMeta s.metaStore path)) = .ok () := hpass _ hstat
    rw [read_eq_view, hview]
    simp only [readView, hcheck]
    exact readValue_eq hv hlen hsize { args with range } path
  refine ⟨_, hstat, hsize, fun hfile => ?_, clampReadRange_eq _ hlen,
    args.range.start_le_stop _, hread ⟨0, none⟩, ?_⟩
  · rw [entryMetadata_eq_fields, if_pos hfile, hsize]
  · rw [← args.range.slice_eq]
    exact hread args.range

/-- A range whose end does not fit `u64`, of a value with its sidecar. -/
theorem ranged_read_saturated :
    let s : Stores := ⟨OrderedStore.empty.put (KeyAndValue.toValue ⟨['a'], [0, 1]⟩),
      OrderedStore.empty.put (.sidecar ⟨['a'], Number.ofNat 2, none,
        some (etagFromBytes referencePlatform [0, 1]), none, none⟩)⟩
    ∃ info, stat referencePlatform ['a'] s = some info ∧ info.entryMeta.size = some 2 ∧
      read referencePlatform ['a'] ⟨some ['*'], none, none, none, ⟨1, some (2 ^ 64 - 1)⟩⟩ s =
        .ok (some (info, [1])) := by
  intro s
  have hget : s.store.get (.text ['a']) = some (KeyAndValue.toValue ⟨['a'], [0, 1]⟩) := by
    simp [s, KeyAndValue.toValue]
  have hmeta : readMeta s.metaStore ['a'] = some ⟨['a'], Number.ofNat 2, none,
      some (etagFromBytes referencePlatform [0, 1]), none, none⟩ := by
    simp [s, readMeta, MetaValue.k, MetaValue.decode]
  have hpass (info : EntryInfo) (hinfo : info ∈ stat referencePlatform ['a'] s) :
      checkRead referencePlatform ⟨some ['*'], none, none, none, ⟨1, some (2 ^ 64 - 1)⟩⟩ ['a']
        info = .ok () := by
    simp only [checkRead, checkModified, checkEtag]
    cases lastModified referencePlatform info <;> rfl
  obtain ⟨info, hstat, hsize, -, -, -, -, hread⟩ := ranged_read_is_slice hget rfl (by decide)
    (by simp [hmeta]) hpass
  exact ⟨info, hstat, hsize, hread⟩

end OpendalIndexeddb
