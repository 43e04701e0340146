import OpendalIndexeddb.Clients
import OpendalIndexeddb.Common.Commutation
/-!
# Reading an object in ranges

A reader fetches an object range by range, each read on the condition
that the ETag is the one it began with. Between its reads others write,
copy, move and delete what they like. The reads that succeed saw one
content, so that what the reader puts together was there as a whole.
-/

namespace OpendalIndexeddb

open IndexeddbCore

variable {O : Opendal} {P : Platform} {ops : List Op} {root : Root} {path : Str}

/-! ## Ranges that follow each other -/

/-- **Ranges that follow each other**, from an offset up to a stop. -/
inductive Contiguous : ℕ → List ReadRange → ℕ → Prop
  | done (offset : ℕ) : Contiguous offset [] offset
  | range {offset size stop : ℕ} {ranges : List ReadRange} :
      Contiguous (offset + size) ranges stop →
      Contiguous offset (⟨offset, some size⟩ :: ranges) stop

theorem Contiguous.le {offset stop : ℕ} {ranges : List ReadRange}
    (h : Contiguous offset ranges stop) : offset ≤ stop := by
  induction h with
  | done => exact le_rfl
  | range _ ih => omega

/-- **The slices of such ranges join** to the slice of them all. -/
theorem Contiguous.join {offset stop : ℕ} {ranges : List ReadRange}
    (h : Contiguous offset ranges stop) (content : Bytes) :
    ranges.flatMap (fun range => range.slice content) =
      (content.drop offset).take (stop - offset) := by
  induction h with
  | done => simp
  | @range offset size stop ranges hrest ih =>
    have hle := hrest.le
    have hsplit : stop - offset = size + (stop - (offset + size)) := by omega
    rw [List.flatMap_cons, ih, hsplit, List.take_add, List.drop_drop]
    rfl

/-! ## What a run answers -/

/-- An answer of a run is that of its step, from where the run was. -/
theorem exists_of_mem_zip_run {σ ι ο : Type*} {step : σ → ι → ο × σ} {s : σ} {is : List ι}
    {i : ι} {o : ο} (h : (i, o) ∈ is.zip (run step s is).1) :
    ∃ before, before <+: is ∧ o = (step (run step s before).2 i).1 := by
  induction is generalizing s with
  | nil => exact absurd h List.not_mem_nil
  | cons j is ih =>
    rw [run_cons, List.zip_cons_cons, List.mem_cons] at h
    rcases h with h | h
    · cases h
      exact ⟨[], List.nil_prefix, rfl⟩
    · obtain ⟨before, hbefore, ho⟩ := ih h
      exact ⟨j :: before, List.cons_prefix_cons.2 ⟨rfl, hbefore⟩, ho⟩

/-- The contents a path has in the course of a run from empty stores. -/
def contentsAt (O : Opendal) (P : Platform) (ops : List Op) (path : Str) : Set Bytes :=
  {c | ∃ before, before <+: ops ∧ contentAt (run (Op.step O P) .empty before).2 path = some c}

/-- A read of a range that succeeded: its arguments and what it
returned. -/
structure Chunk where
  args : ReadArgs
  metadata : Metadata
  bytes : Bytes

/-- The read and its outcome. -/
def Chunk.event (root : Root) (path : Str) (c : Chunk) : Op × Outcome :=
  (.read root path c.args, .content (.ok (c.metadata, c.bytes)))

/-- A condition on the ETag that a read passed names the content's. -/
theorem Object.etag_of_checkRead {args : ReadArgs} {o : Object} {etag : Str}
    (hmatch : args.ifMatch = some etag) (hstar : etag ≠ ['*'])
    (h : checkRead P args path (o.info P) = .ok ()) : o.etag P = etag := by
  unfold checkRead at h
  split at h
  · cases h
  · rw [checkEtag, hmatch] at h
    by_contra hne
    simp [Object.info, hstar, hne] at h

/-- **A chunk is a slice of a content the path had**, the one its condition
names. -/
theorem Chunk.slice_of_event {c : Chunk} {etag : Str}
    (h : c.event root path ∈ ops.zip (run (Op.step O P) .empty ops).1)
    (hmatch : c.args.ifMatch = some etag) (hstar : etag ≠ ['*'])
    (hfit : ∀ v ∈ contentsAt O P ops (O.buildAbsPath root.text path), v.length < 2 ^ 32) :
    ∃ v ∈ contentsAt O P ops (O.buildAbsPath root.text path), etagFromBytes P v = etag ∧
      c.bytes = c.args.range.slice v ∧ c.metadata.etag = some etag ∧
      (P.fromPath path = .file → c.metadata.contentLength = some v.length) := by
  obtain ⟨before, hbefore, hout⟩ := exists_of_mem_zip_run h
  have hrep := (Represents.empty P).run (O := O) before
  generalize hm : before.foldl (Op.objects O P) .empty = m at hrep
  generalize hs : (run (Op.step O P) .empty before).2 = s at hrep hout
  rw [Op.step, Outcome.content.injEq, IndexeddbBackend.read] at hout
  cases hget : m.get (O.buildAbsPath root.text path) with
  | none =>
    rw [hrep.read_none hget] at hout
    cases hout
  | some o =>
    have hin : o.bytes ∈ contentsAt O P ops (O.buildAbsPath root.text path) := by
      refine ⟨before, hbefore, ?_⟩
      rw [hs, hrep.contentAt, hget]
      rfl
    rw [hrep.read_some hget (hfit _ hin)] at hout
    unfold Object.read at hout
    cases hcheck : checkRead P c.args (O.buildAbsPath root.text path) (o.info P) with
    | error err =>
      rw [hcheck] at hout
      cases hout
    | ok =>
      rw [hcheck] at hout
      simp only [Except.ok.injEq, Prod.mk.injEq] at hout
      have hetag := Object.etag_of_checkRead hmatch hstar hcheck
      refine ⟨o.bytes, hin, hetag, hout.2, ?_, fun hfile => ?_⟩
      · rw [hout.1, entryMetadata_eq_fields]
        exact congrArg some hetag
      · rw [hout.1, entryMetadata_eq_fields, if_pos hfile]
        rfl

/-- **A reader that asks for one ETag sees one content.** In any run of
operations from empty stores, take any of the ranged reads of a path that
succeeded on the condition of one ETag, whatever else they ask for and
whatever came between them. They read slices of one content, which the
path had, whose ETag that is and whose length they report; where their
ranges follow each other, what they return joins to the part of it that
they span. BLAKE3 tells the contents of the path apart, and each fits the
32-bit address space. -/
theorem chunks_of_one_content (O : Opendal) (P : Platform) {ops : List Op} {root : Root}
    {path etag : Str} {chunks : List Chunk} (hne : chunks ≠ [])
    (hreads : List.Sublist (chunks.map (Chunk.event root path))
      (ops.zip (run (Op.step O P) .empty ops).1))
    (hmatch : ∀ c ∈ chunks, c.args.ifMatch = some etag) (hstar : etag ≠ ['*'])
    (hinj : Set.InjOn P.blake3Hex (contentsAt O P ops (O.buildAbsPath root.text path)))
    (hfit : ∀ v ∈ contentsAt O P ops (O.buildAbsPath root.text path), v.length < 2 ^ 32) :
    ∃ v ∈ contentsAt O P ops (O.buildAbsPath root.text path), etagFromBytes P v = etag ∧
      (∀ c ∈ chunks, c.bytes = c.args.range.slice v ∧ c.metadata.etag = some etag ∧
        (P.fromPath path = .file → c.metadata.contentLength = some v.length)) ∧
      ∀ offset stop, Contiguous offset (chunks.map fun c => c.args.range) stop →
        chunks.flatMap Chunk.bytes = (v.drop offset).take (stop - offset) := by
  have hslice (c : Chunk) (hc : c ∈ chunks) :=
    Chunk.slice_of_event (hreads.subset (List.mem_map_of_mem hc)) (hmatch c hc) hstar hfit
  obtain ⟨c₀, hc₀⟩ := List.exists_mem_of_ne_nil chunks hne
  obtain ⟨v, hv, hetag, -⟩ := hslice c₀ hc₀
  have hall (c : Chunk) (hc : c ∈ chunks) : c.bytes = c.args.range.slice v ∧
      c.metadata.etag = some etag ∧
      (P.fromPath path = .file → c.metadata.contentLength = some v.length) := by
    obtain ⟨v', hv', hetag', hrest⟩ := hslice c hc
    obtain rfl := hinj hv' hv (blake3Hex_eq_of_etag (hetag'.trans hetag.symm))
    exact hrest
  refine ⟨v, hv, hetag, hall, fun offset stop hcont => ?_⟩
  rw [← hcont.join v, List.flatMap_map]
  exact List.flatMap_congr fun c hc => (hall c hc).1

/-- The read of a range of `a`, on the condition of the ETag it had
first. -/
def chunkArgs (range : ReadRange) : ReadArgs :=
  ⟨some (etagFromBytes referencePlatform [0, 1]), none, none, none, range⟩

/-- Reads of `a`, between which it has another content for a while; the
one in between is refused. -/
def chunkedRun : List Op :=
  [.mutate (.set (.ofNat 7) ['a'] [0, 1] .overwrite),
    .read .slash ['a'] (chunkArgs ⟨0, some 1⟩),
    .mutate (.set (.ofNat 8) ['a'] [0] .overwrite),
    .read .slash ['a'] (chunkArgs ⟨1, some 4⟩),
    .mutate (.set (.ofNat 9) ['a'] [0, 1] .overwrite),
    .read .slash ['a'] (chunkArgs ⟨1, some 4⟩)]

/-- What the other two return. -/
def chunksRead : List Chunk :=
  let metadata (time : ℤ) : Metadata := ⟨.file, some 2, referencePlatform.fromMillisecond time,
    some (etagFromBytes referencePlatform [0, 1]), none, none⟩
  [⟨chunkArgs ⟨0, some 1⟩, metadata 7, [0]⟩, ⟨chunkArgs ⟨1, some 4⟩, metadata 9, [1]⟩]

theorem chunks_of_one_content_joined :
    [0] ∈ contentsAt referenceOpendal referencePlatform chunkedRun ['a'] ∧
    ∃ v, v ∈ contentsAt referenceOpendal referencePlatform chunkedRun ['a'] ∧
      chunksRead.flatMap Chunk.bytes = v.take 5 := by
  have hcontents : ∀ before ∈ chunkedRun.inits,
      contentAt (run (Op.step referenceOpendal referencePlatform) .empty before).2 ['a'] = none ∨
      contentAt (run (Op.step referenceOpendal referencePlatform) .empty before).2 ['a'] =
        some [0] ∨
      contentAt (run (Op.step referenceOpendal referencePlatform) .empty before).2 ['a'] =
        some [0, 1] := by decide
  have htwo : ∀ v ∈ contentsAt referenceOpendal referencePlatform chunkedRun ['a'],
      v = [0] ∨ v = [0, 1] := by
    rintro v ⟨before, hbefore, hv⟩
    rcases hcontents before ((List.mem_inits _ _).2 hbefore) with h | h | h
    · rw [h] at hv
      cases hv
    · exact .inl (Option.some_inj.1 (hv.symm.trans h))
    · exact .inr (Option.some_inj.1 (hv.symm.trans h))
  have hinj : Set.InjOn referencePlatform.blake3Hex
      (contentsAt referenceOpendal referencePlatform chunkedRun ['a']) := by
    intro b hb c hc heq
    rcases htwo b hb with rfl | rfl <;> rcases htwo c hc with rfl | rfl
    · rfl
    · exact absurd heq (by decide)
    · exact absurd heq (by decide)
    · rfl
  have hfit : ∀ v ∈ contentsAt referenceOpendal referencePlatform chunkedRun ['a'],
      v.length < 2 ^ 32 := by
    intro v hv
    rcases htwo v hv with rfl | rfl <;> decide
  have hreads : List.Sublist (chunksRead.map (Chunk.event .slash ['a']))
      (chunkedRun.zip (run (Op.step referenceOpendal referencePlatform) .empty chunkedRun).1) :=
    .cons _ (.cons_cons _ (.cons _ (.cons _ (.cons _ (.cons_cons _ .slnil)))))
  have hmatch : ∀ c ∈ chunksRead,
      c.args.ifMatch = some (etagFromBytes referencePlatform [0, 1]) := by decide
  obtain ⟨v, hv, -, -, hjoin⟩ := chunks_of_one_content referenceOpendal referencePlatform
    (by decide) hreads hmatch (etagFromBytes_ne_star [0, 1]) hinj hfit
  refine ⟨⟨chunkedRun.take 3, List.take_prefix _ _, by decide⟩, v, hv, ?_⟩
  exact hjoin 0 5 (.range (.range (.done 5)))

end OpendalIndexeddb
