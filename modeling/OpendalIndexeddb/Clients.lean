import Mathlib.Logic.Relation
import OpendalIndexeddb.Common.History
import OpendalIndexeddb.Model.Transaction
import OpendalIndexeddb.Refinement
/-!
# Clients that read and write conditionally

Any number of clients over the same stores. A client reads a path, and
later writes what it computed from the content, on the condition that the
ETag is still the one it read, or that there is still nothing. Others
write, append, copy, move and delete as they like. Transactions run one
at a time, in any order, and each call makes its attempts among those of
the others.
-/

namespace OpendalIndexeddb

open IndexeddbCore

/-! ## The world -/

/-- What a client read of a path: the bytes and the ETag, or that there is
nothing. -/
structure Snapshot where
  path : Str
  content : Option (Bytes × Option Str)

/-- What a conditional write was computed from, and how. -/
structure Update where
  path : Str
  basis : Option Bytes
  compute : Option Bytes → Bytes

/-- A call that has not returned. -/
structure Call where
  id : ℕ
  /-- The operation. Its transaction reads the clock. -/
  mutation : Number → Mutation
  update : Option Update
  attempt : ℕ

inductive Client where
  | idle
  | seen (snapshot : Snapshot)
  | calling (call : Call)

/-- An attempt at a call: the reply, if the call returned with it, and the
stores before and after. -/
structure LogEntry where
  call : Call
  mutation : Mutation
  reply : Option Reply
  before : Stores
  after : Stores

structure World (ι : Type*) where
  stores : Stores
  clients : ι → Client
  /-- The number of the next call. -/
  next : ℕ
  log : List LogEntry

variable {ι : Type*}

def World.initial : World ι := ⟨.empty, fun _ => .idle, 0, []⟩

/-- A read of the whole value, without conditions. -/
def ReadArgs.whole : ReadArgs := ⟨none, none, none, none, ⟨0, none⟩⟩

/-- The conditions a client puts on the write of what it computed. -/
def Snapshot.Guards (snapshot : Snapshot) (args : WriteArgs) : Prop :=
  args.append = false ∧ match snapshot.content with
    | some (_, etag) => etag.isSome = true ∧ args.ifMatch = etag
    | none => args.ifNoneMatch = some ['*']

/-- The call of a conditional write. -/
def Snapshot.call (snapshot : Snapshot) (id : ℕ) (args : WriteArgs)
    (compute : Option Bytes → Bytes) : Call :=
  let basis := snapshot.content.map Prod.fst
  { id
    mutation := fun now => .set now snapshot.path (compute basis) args
    update := some ⟨snapshot.path, basis, compute⟩
    attempt := 0 }

section Step

variable [DecidableEq ι] (O : Opendal) (P : Platform) (dbName : Str)

def World.setClient (w : World ι) (i : ι) (client : Client) : World ι :=
  { w with clients := Function.update w.clients i client }

/-- A client makes a call. -/
def World.issue (w : World ι) (i : ι) (call : Call) : World ι :=
  { w.setClient i (.calling call) with next := w.next + 1 }

/-- A client's call makes an attempt. -/
def World.attempted (w : World ι) (i : ι) (call : Call) (now : Number)
    (connection : Connection) : World ι :=
  let result := runTransactionAttempt dbName call.attempt connection
    ((call.mutation now).step O P) w.stores
  { w.setClient i (if result.1.isSome then .idle
      else .calling { call with attempt := call.attempt + 1 }) with
    stores := result.2
    log := w.log ++ [⟨call, call.mutation now, result.1, w.stores, result.2⟩] }

/-- One transaction, or the beginning of a call. -/
inductive World.Step : World ι → World ι → Prop
  | read {w : World ι} {i : ι} {path : Str} {found : Option (EntryInfo × Bytes)} :
      (∀ call, w.clients i ≠ .calling call) →
      IndexeddbCore.read P path .whole w.stores = .ok found →
      Step w (w.setClient i (.seen ⟨path, found.map fun f => (f.2, f.1.entryMeta.etag)⟩))
  | update {w : World ι} {i : ι} {snapshot : Snapshot} {args : WriteArgs}
      {compute : Option Bytes → Bytes} :
      w.clients i = .seen snapshot → snapshot.Guards args →
      Step w (w.issue i (snapshot.call w.next args compute))
  | call {w : World ι} {i : ι} {mutation : Number → Mutation} :
      (∀ call, w.clients i ≠ .calling call) →
      Step w (w.issue i ⟨w.next, mutation, none, 0⟩)
  | attempt {w : World ι} {i : ι} {call : Call} (now : Number) (connection : Connection) :
      w.clients i = .calling call →
      Step w (w.attempted O P dbName i call now connection)

/-- The worlds a run reaches from empty stores. -/
def World.Reachable (w : World ι) : Prop :=
  Relation.ReflTransGen (World.Step O P dbName) .initial w

end Step

/-! ## What the log says -/

/-- The bytes under a path. -/
def contentAt (s : Stores) (path : Str) : Option Bytes :=
  (s.store.get (.text path)).bind fun v => match v.v with
    | .uint8Array bytes => some bytes
    | .other => none

/-- The call returned, having done its operation. -/
def LogEntry.Acknowledged (e : LogEntry) : Prop :=
  ∃ outcome, e.reply = some (.done outcome) ∧ outcome.Succeeds

/-- The call returned an error. -/
def LogEntry.Refused (e : LogEntry) : Prop := e.reply ≠ none ∧ ¬ e.Acknowledged

/-- A write that asks for nothing to be there was done. -/
def LogEntry.Created (e : LogEntry) (path : Str) : Prop :=
  e.Acknowledged ∧ ∃ now value args, e.mutation = .set now path value args ∧
    (args.ifNotExists = true ∨ args.ifNoneMatch = some ['*'])

/-- The operations that delete a path. -/
def Mutation.Deletes (path : Str) : Mutation → Prop
  | .rename src _ => src = path
  | .delete p => p = path
  | .deleteRecursive p => Below p path
  | .deleteMany batch => ∃ r ∈ batch, if r.2 then Below r.1 path else path = r.1
  | _ => False

/-- The contents that were in the stores before or after an attempt. -/
def World.contents (w : World ι) : Set Bytes :=
  {c | ∃ e ∈ w.log, ∃ path, contentAt e.before path = some c ∨ contentAt e.after path = some c}

theorem Represents.contentAt {P : Platform} {s : Stores} {m : Objects} (h : Represents P s m)
    (path : Str) : contentAt s path = (m.get path).map Object.bytes := by
  rw [OpendalIndexeddb.contentAt, h.store, Key.asString_text, Option.bind_some]
  cases m.get path <;> rfl

section Invariants

variable [DecidableEq ι] {O : Opendal} {P : Platform} {dbName : Str} {w w' : World ι}
variable {i j : ι} {call : Call} {client : Client}

/-- A client other than the one that moved is where it was. -/
theorem clients_setClient (h : (w.setClient i client).clients j = .calling call) :
    j = i ∧ client = .calling call ∨ j ≠ i ∧ w.clients j = .calling call := by
  rw [World.setClient] at h
  by_cases hj : j = i
  · subst hj
    exact Or.inl ⟨rfl, by simpa using h⟩
  · exact Or.inr ⟨hj, by simpa [hj] using h⟩

theorem seen_setClient {snapshot : Snapshot}
    (h : (w.setClient i client).clients j = .seen snapshot) :
    client = .seen snapshot ∨ w.clients j = .seen snapshot := by
  rw [World.setClient] at h
  by_cases hj : j = i
  · subst hj
    exact Or.inl (by simpa using h)
  · exact Or.inr (by simpa [hj] using h)

/-! ## The log accounts for the stores -/

/-- An entry ran its operation, or changed nothing. -/
structure LogEntry.Sound (O : Opendal) (P : Platform) (e : LogEntry) : Prop where
  represents : ∃ m, Represents P e.before m
  effect : (∃ outcome, e.reply = some (.done outcome) ∧
      (outcome, e.after) = e.mutation.step O P e.before) ∨
    (e.after = e.before ∧ ∀ outcome, e.reply ≠ some (.done outcome))

/-- The log leads from empty stores to the current ones. -/
structure World.Accounted (O : Opendal) (P : Platform) (w : World ι) : Prop where
  represents : ∃ m, Represents P w.stores m
  leads : Leads LogEntry.before LogEntry.after .empty w.log w.stores
  entries : ∀ e ∈ w.log, e.Sound O P

theorem World.Accounted.step (h : w.Accounted O P) (hstep : World.Step O P dbName w w') :
    w'.Accounted O P := by
  cases hstep with
  | read | update | call => exact ⟨h.represents, h.leads, h.entries⟩
  | @attempt i call now connection hcall =>
    obtain ⟨m, hm⟩ := h.represents
    -- the attempt ran the body, or changed nothing
    rcases runTransactionAttempt_cases dbName call.attempt connection
      ((call.mutation now).step O P) w.stores with hran | ⟨hsame, hnot⟩
    · refine ⟨⟨(Op.mutate (call.mutation now)).objects O P m, ?_⟩, h.leads.snoc, ?_⟩
      · rw [World.attempted, hran]
        exact hm.step (.mutate (call.mutation now))
      · intro e he
        rcases List.mem_append.1 he with he | he
        · exact h.entries e he
        · rw [List.mem_singleton.1 he, hran]
          exact ⟨⟨m, hm⟩, Or.inl ⟨_, rfl, rfl⟩⟩
    · refine ⟨⟨m, ?_⟩, h.leads.snoc, ?_⟩
      · rw [World.attempted, hsame]
        exact hm
      · intro e he
        rcases List.mem_append.1 he with he | he
        · exact h.entries e he
        · rw [List.mem_singleton.1 he]
          exact ⟨⟨m, hm⟩, Or.inr ⟨hsame, hnot⟩⟩

/-! ## Calls return once -/

/-- Calls are numbered, and one that returned makes no more attempts. -/
structure World.Numbered (w : World ι) : Prop where
  logged : ∀ e ∈ w.log, e.call.id < w.next
  called : ∀ i call, w.clients i = .calling call → call.id < w.next
  distinct : ∀ i j c d, w.clients i = .calling c → w.clients j = .calling d → c.id = d.id → i = j
  pending : ∀ i call, w.clients i = .calling call → ∀ e ∈ w.log, e.call.id = call.id →
    e.reply = none
  once : w.log.Pairwise fun e e' => e.reply ≠ none → e'.call.id ≠ e.call.id

theorem World.Numbered.issue (h : w.Numbered) (hid : call.id = w.next) :
    (w.issue i call).Numbered where
  logged e he := Nat.lt_succ_of_lt (h.logged e he)
  called j c hc := by
    rcases clients_setClient hc with ⟨-, hnew⟩ | ⟨-, hold⟩
    · cases hnew
      exact hid ▸ Nat.lt_succ_self _
    · exact Nat.lt_succ_of_lt (h.called j c hold)
  distinct j k c d hc hd hcd := by
    rcases clients_setClient hc with ⟨hj, hnew⟩ | ⟨-, hold⟩ <;>
      rcases clients_setClient hd with ⟨hk, hnew'⟩ | ⟨-, hold'⟩
    · -- both are the client that called
      rw [hj, hk]
    · cases hnew
      exact absurd (h.called k d hold') (by omega)
    · cases hnew'
      exact absurd (h.called j c hold) (by omega)
    · exact h.distinct j k c d hold hold' hcd
  pending j c hc e he heq := by
    rcases clients_setClient hc with ⟨-, hnew⟩ | ⟨-, hold⟩
    · cases hnew
      exact absurd (h.logged e he) (by omega)
    · exact h.pending j c hold e he heq
  once := h.once

theorem World.Numbered.step (h : w.Numbered) (hstep : World.Step O P dbName w w') :
    w'.Numbered := by
  cases hstep with
  | read hfree =>
    refine ⟨h.logged, fun j c hc => ?_, fun j k c d hc hd => ?_, fun j c hc => ?_, h.once⟩
    · rcases clients_setClient hc with ⟨-, hnew⟩ | ⟨-, hold⟩
      · cases hnew
      · exact h.called j c hold
    · rcases clients_setClient hc with ⟨-, hnew⟩ | ⟨-, hold⟩
      · cases hnew
      · rcases clients_setClient hd with ⟨-, hnew'⟩ | ⟨-, hold'⟩
        · cases hnew'
        · exact h.distinct j k c d hold hold'
    · rcases clients_setClient hc with ⟨-, hnew⟩ | ⟨-, hold⟩
      · cases hnew
      · exact h.pending j c hold
  | update => exact h.issue rfl
  | call => exact h.issue rfl
  | @attempt i call now connection hcall =>
    obtain ⟨result, hresult⟩ : ∃ result, result = runTransactionAttempt dbName call.attempt
      connection ((call.mutation now).step O P) w.stores := ⟨_, rfl⟩
    simp only [World.attempted, ← hresult]
    -- a call that goes on keeps its number
    have hgoes {c : Call} (h : (if result.1.isSome then Client.idle
        else .calling { call with attempt := call.attempt + 1 }) = .calling c) :
        result.1 = none ∧ c.id = call.id := by
      split_ifs at h with hreply
      cases h
      exact ⟨Option.not_isSome_iff_eq_none.1 hreply, rfl⟩
    have hid := h.called i call hcall
    refine ⟨fun e he => ?_, fun j c hc => ?_, fun j k c d hc hd hcd => ?_,
      fun j c hc e he heq => ?_,
      List.pairwise_append.2 ⟨h.once, List.pairwise_singleton _ _, fun e he e' he' hreply => ?_⟩⟩
    · rcases List.mem_append.1 he with he | he
      · exact h.logged e he
      · rw [List.mem_singleton.1 he]
        exact hid
    · rcases clients_setClient hc with ⟨-, hnew⟩ | ⟨-, hold⟩
      · exact (hgoes hnew).2 ▸ hid
      · exact h.called j c hold
    · rcases clients_setClient hc with ⟨hj, hnew⟩ | ⟨hj, hold⟩ <;>
        rcases clients_setClient hd with ⟨hk, hnew'⟩ | ⟨hk, hold'⟩
      · rw [hj, hk]
      · rw [(hgoes hnew).2] at hcd
        exact absurd (h.distinct i k call d hcall hold' hcd).symm hk
      · rw [(hgoes hnew').2] at hcd
        exact absurd (h.distinct j i c call hold hcall hcd) hj
      · exact h.distinct j k c d hold hold' hcd
    · rcases clients_setClient hc with ⟨-, hnew⟩ | ⟨hj, hold⟩ <;>
        rcases List.mem_append.1 he with he | he
      · exact h.pending i call hcall e he (heq.trans (hgoes hnew).2)
      · rw [List.mem_singleton.1 he]
        exact (hgoes hnew).1
      · exact h.pending j c hold e he heq
      · rw [List.mem_singleton.1 he] at heq
        exact absurd (h.distinct i j call c hcall hold heq).symm hj
    · rw [List.mem_singleton.1 he']
      exact fun heq => hreply (h.pending i call hcall e he heq.symm)

omit [DecidableEq ι] in
/-- No other attempt at a call that returned changed anything. -/
theorem World.Numbered.others_unchanged (h : w.Numbered) (hsound : w.Accounted O P)
    {l₁ l₂ : List LogEntry} {e : LogEntry} (hlog : w.log = l₁ ++ e :: l₂) (hreply : e.reply ≠ none)
    {e' : LogEntry} (he' : e' ∈ l₁ ++ l₂) (hid : e'.call.id = e.call.id) :
    e'.after = e'.before := by
  -- of the attempts at one call, only the last has a reply
  have hnone : e'.reply = none := by
    have honce := h.once
    rw [hlog] at honce
    obtain ⟨-, hright, hcross⟩ := List.pairwise_append.1 honce
    by_contra hne
    rcases List.mem_append.1 he' with he' | he'
    · exact hcross e' he' e List.mem_cons_self hne hid.symm
    · exact (List.pairwise_cons.1 hright).1 e' he' hreply hid
  have hmem : e' ∈ w.log := by
    rw [hlog]
    rcases List.mem_append.1 he' with he' | he'
    · exact List.mem_append_left _ he'
    · exact List.mem_append_right _ (List.mem_cons_of_mem e he')
  rcases (hsound.entries e' hmem).effect with ⟨outcome, hdone, -⟩ | ⟨hsame, -⟩
  · rw [hnone] at hdone
    cases hdone
  · exact hsame

/-! ## What conditional writes are computed from -/

/-- The ETag of a snapshot is that of a content of the stores, and the
bytes are that content where it fits the address space. -/
def Snapshot.Sound (P : Platform) (contents : Set Bytes) (snapshot : Snapshot) : Prop :=
  ∀ c etag, snapshot.content = some (c, etag) →
    ∃ x ∈ contents, etag = some (etagFromBytes P x) ∧ (x.length < 2 ^ 32 → c = x)

/-- A conditional write asks for the ETag of what it was computed from. -/
def Update.Sound (P : Platform) (contents : Set Bytes) (u : Update) (mutation : Mutation) : Prop :=
  ∃ now args, mutation = .set now u.path (u.compute u.basis) args ∧ args.append = false ∧
    match u.basis with
    | some c => ∃ x ∈ contents, args.ifMatch = some (etagFromBytes P x) ∧
        (x.length < 2 ^ 32 → c = x)
    | none => args.ifNoneMatch = some ['*']

theorem Snapshot.Sound.mono {C D : Set Bytes} {snapshot : Snapshot} (h : snapshot.Sound P C)
    (hCD : C ⊆ D) : snapshot.Sound P D := by
  intro c etag hc
  obtain ⟨x, hx, hetag⟩ := h c etag hc
  exact ⟨x, hCD hx, hetag⟩

theorem Update.Sound.mono {C D : Set Bytes} {u : Update} {mutation : Mutation}
    (h : u.Sound P C mutation) (hCD : C ⊆ D) : u.Sound P D mutation := by
  obtain ⟨now, args, hset, happend, hbasis⟩ := h
  refine ⟨now, args, hset, happend, ?_⟩
  cases hb : u.basis with
  | none =>
    rw [hb] at hbasis
    exact hbasis
  | some c =>
    rw [hb] at hbasis
    obtain ⟨x, hx, hetag⟩ := hbasis
    exact ⟨x, hCD hx, hetag⟩

structure World.Guarded (P : Platform) (w : World ι) : Prop where
  seen : ∀ i snapshot, w.clients i = .seen snapshot → snapshot.Sound P w.contents
  called : ∀ i call u, w.clients i = .calling call → call.update = some u →
    ∀ now, u.Sound P w.contents (call.mutation now)
  logged : ∀ e ∈ w.log, ∀ u, e.call.update = some u → u.Sound P w.contents e.mutation

omit [DecidableEq ι] in
/-- The content under a path is in the history. -/
theorem World.Accounted.mem_contents (h : w.Accounted O P) {path : Str} {c : Bytes}
    (hc : contentAt w.stores path = some c) : c ∈ w.contents := by
  rcases h.leads.end_eq with ⟨-, hempty⟩ | ⟨e, he, hafter⟩
  · rw [← hempty] at hc
    cases hc
  · exact ⟨e, he, path, Or.inr (hafter ▸ hc)⟩

omit [DecidableEq ι] in
/-- A read of the whole value gives the object's ETag, and its bytes where
they fit the address space. -/
theorem Represents.read_whole {s : Stores} {m : Objects} (h : Represents P s m) {path : Str}
    {info : EntryInfo} {bytes : Bytes}
    (hread : IndexeddbCore.read P path .whole s = .ok (some (info, bytes))) :
    ∃ o, m.get path = some o ∧ info.entryMeta.etag = some (o.etag P) ∧
      (o.bytes.length < 2 ^ 32 → bytes = o.bytes) := by
  cases hk : m.get path with
  | none =>
    rw [h.read_none hk] at hread
    cases hread
  | some o =>
    have hcheck (info : EntryInfo) : checkRead P .whole path info = .ok () :=
      checkRead_of_no_conditions rfl path info
    refine ⟨o, rfl, ?_, fun hlen => ?_⟩
    · rw [read_eq_view, h.view, hk, Option.map_some] at hread
      have hbytes : (o.record path).v = .uint8Array o.bytes := rfl
      simp only [readView, hcheck, readValue_of_bytes hbytes, Except.ok.injEq, Option.some_inj,
        Prod.mk.injEq] at hread
      rw [← hread.1]
      exact viewEtag_object path o
    · rw [h.read_some hk hlen, Object.read, hcheck] at hread
      cases hread
      exact List.drop_zero

theorem Snapshot.call_sound {C : Set Bytes} {snapshot : Snapshot} (h : snapshot.Sound P C)
    {args : WriteArgs} (hguards : snapshot.Guards args) {id : ℕ}
    {compute : Option Bytes → Bytes} {u : Update}
    (hu : (snapshot.call id args compute).update = some u) (now : Number) :
    u.Sound P C ((snapshot.call id args compute).mutation now) := by
  cases hu
  refine ⟨now, args, rfl, hguards.1, ?_⟩
  have hconditions := hguards.2
  cases hcontent : snapshot.content with
  | none =>
    rw [hcontent] at hconditions
    exact hconditions
  | some found =>
    obtain ⟨c, etag⟩ := found
    rw [hcontent] at hconditions
    obtain ⟨x, hx, hetag, hlen⟩ := h c etag hcontent
    exact ⟨x, hx, hconditions.2.trans hetag, hlen⟩

theorem World.contents_subset_attempted (now : Number) (connection : Connection) :
    w.contents ⊆ (w.attempted O P dbName i call now connection).contents := by
  rintro c ⟨e, he, hpath⟩
  exact ⟨e, List.mem_append_left _ he, hpath⟩

theorem World.Guarded.issue (h : w.Guarded P)
    (hcall : ∀ u, call.update = some u → ∀ now, u.Sound P w.contents (call.mutation now)) :
    (w.issue i call).Guarded P where
  seen j snapshot hseen := by
    rcases seen_setClient hseen with hnew | hold
    · cases hnew
    · exact h.seen j snapshot hold
  called j c u hc := by
    rcases clients_setClient hc with ⟨-, hnew⟩ | ⟨-, hold⟩
    · cases hnew
      exact hcall u
    · exact h.called j c u hold
  logged := h.logged

theorem World.Guarded.step (h : w.Guarded P) (hsound : w.Accounted O P)
    (hstep : World.Step O P dbName w w') : w'.Guarded P := by
  cases hstep with
  | @read i path found hfree hread =>
    refine ⟨fun j snapshot hseen => ?_, fun j c u hc => ?_, h.logged⟩
    · rcases seen_setClient hseen with hnew | hold
      · cases hnew
        rintro c etag hc
        obtain ⟨⟨info, bytes⟩, rfl, hpair⟩ := Option.map_eq_some_iff.1 hc
        cases hpair
        obtain ⟨m, hm⟩ := hsound.represents
        obtain ⟨o, hk, hetag, hlen⟩ := hm.read_whole hread
        -- what was read is in the history from now on
        have hcontent : contentAt w.stores path = some o.bytes := by
          rw [hm.contentAt, hk, Option.map_some]
        exact ⟨o.bytes, hsound.mem_contents hcontent, hetag, hlen⟩
      · exact h.seen j snapshot hold
    · rcases clients_setClient hc with ⟨-, hnew⟩ | ⟨-, hold⟩
      · cases hnew
      · exact h.called j c u hold
  | @update i snapshot args compute hseen hguards =>
    exact h.issue fun u hu => Snapshot.call_sound (h.seen i snapshot hseen) hguards hu
  | call => exact h.issue fun u hu => by cases hu
  | @attempt i call now connection hcall =>
    have hsub : w.contents ⊆ (w.attempted O P dbName i call now connection).contents :=
      contents_subset_attempted now connection
    refine ⟨fun j snapshot hseen => ?_, fun j c u hc hu now' => ?_, fun e he u hu => ?_⟩
    · rcases seen_setClient hseen with hnew | hold
      · split_ifs at hnew
      · exact (h.seen j snapshot hold).mono hsub
    · rcases clients_setClient hc with ⟨-, hnew⟩ | ⟨-, hold⟩
      · split_ifs at hnew
        cases hnew
        exact (h.called i call u hcall hu now').mono hsub
      · exact (h.called j c u hold hu now').mono hsub
    · rcases List.mem_append.1 he with he | he
      · exact (h.logged e he u hu).mono hsub
      · rw [List.mem_singleton.1 he] at hu ⊢
        exact (h.called i call u hcall hu now).mono hsub

/-- The three invariants, over every run. -/
theorem World.Reachable.invariants (h : World.Reachable O P dbName w) :
    w.Accounted O P ∧ w.Numbered ∧ w.Guarded P := by
  induction h with
  | refl =>
    refine ⟨⟨⟨.empty, Represents.empty P⟩, .nil _, by simp [World.initial]⟩,
      ⟨by simp [World.initial], ?_, ?_, ?_, .nil⟩, ⟨?_, ?_, by simp [World.initial]⟩⟩ <;>
      simp [World.initial]
  | tail _ hstep ih =>
    obtain ⟨haccounted, hnumbered, hguarded⟩ := ih
    exact ⟨haccounted.step hstep, hnumbered.step hstep, hguarded.step haccounted hstep⟩

end Invariants

/-! ## What acknowledged operations did -/

section Acknowledged

variable {O : Opendal} {P : Platform} {e : LogEntry} {path : Str}

theorem LogEntry.Sound.acknowledged (h : e.Sound O P) (hack : e.Acknowledged) :
    ∃ m m', Represents P e.before m ∧ e.mutation.objectStep O P m = some m' ∧
      Represents P e.after m' := by
  obtain ⟨m, hm⟩ := h.represents
  obtain ⟨outcome, hreply, hok⟩ := hack
  rcases h.effect with ⟨outcome', hreply', hstep⟩ | ⟨-, hnot⟩
  · cases hreply.symm.trans hreply'
    have hfollows := hm.mutation (O := O) e.mutation
    rw [← hstep] at hfollows
    cases hnext : e.mutation.objectStep O P m with
    | some m' =>
      rw [hnext] at hfollows
      exact ⟨m, m', hm, hnext, hfollows.2⟩
    | none =>
      rw [hnext] at hfollows
      exact absurd hok hfollows.1
  · exact absurd hreply (hnot outcome)

/-- What was not acknowledged changed nothing. -/
theorem LogEntry.Sound.unchanged (h : e.Sound O P) (hack : ¬ e.Acknowledged) :
    e.after = e.before := by
  obtain ⟨m, hm⟩ := h.represents
  rcases h.effect with ⟨outcome, hreply, hstep⟩ | ⟨hsame, -⟩
  · have hfollows := hm.mutation (O := O) e.mutation
    rw [← hstep] at hfollows
    cases hnext : e.mutation.objectStep O P m with
    | some m' =>
      rw [hnext] at hfollows
      exact absurd ⟨outcome, hreply, hfollows.1⟩ hack
    | none =>
      rw [hnext] at hfollows
      exact hfollows.2
  · exact hsame

/-- An acknowledged write met its conditions and replaced the object. -/
theorem LogEntry.Sound.set (h : e.Sound O P) (hack : e.Acknowledged) {now : Number}
    {value : Bytes} {args : WriteArgs} (hset : e.mutation = .set now path value args) :
    ∃ m, Represents P e.before m ∧ args.Meets P (m.get path) ∧
      contentAt e.after path = some (writeObject now value args (m.get path)).bytes := by
  obtain ⟨m, m', hm, hstep, hm'⟩ := h.acknowledged hack
  rw [hset, Mutation.objectStep] at hstep
  split_ifs at hstep with hmeets
  cases hstep
  exact ⟨m, hm, hmeets, by rw [hm'.contentAt, FiniteMap.get_set_self, Option.map_some]⟩

theorem etagFromBytes_ne_star (bytes : Bytes) : etagFromBytes P bytes ≠ ['*'] := by
  intro h
  exact absurd (List.cons.inj h).1 (by decide)

theorem blake3Hex_eq_of_etag {b c : Bytes} (h : etagFromBytes P b = etagFromBytes P c) :
    P.blake3Hex b = P.blake3Hex c :=
  List.append_cancel_right (List.cons.inj h).2

/-- **An acknowledged conditional write replaced what it was computed
from.** -/
theorem LogEntry.Sound.replaced {C : Set Bytes} (h : e.Sound O P) (hack : e.Acknowledged)
    {u : Update} (hu : u.Sound P C e.mutation)
    (hC : ∀ path c, contentAt e.before path = some c → c ∈ C)
    (hinj : Set.InjOn P.blake3Hex C) (hfit : ∀ c ∈ C, c.length < 2 ^ 32) :
    contentAt e.before u.path = u.basis ∧
      contentAt e.after u.path = some (u.compute u.basis) := by
  obtain ⟨now, args, hset, happend, hbasis⟩ := hu
  obtain ⟨m, hm, hmeets, hafter⟩ := h.set hack hset
  refine ⟨?_, by simp [hafter, bytes_writeObject, happend]⟩
  rw [hm.contentAt]
  cases hb : u.basis with
  | none =>
    rw [hb] at hbasis
    have hstar := hmeets.ifNoneMatch ['*'] hbasis
    cases hk : m.get u.path with
    | none => rfl
    | some o => exact absurd ⟨o, hk, Or.inl rfl⟩ hstar
  | some c =>
    rw [hb] at hbasis
    obtain ⟨x, hx, hetag, hlen⟩ := hbasis
    obtain ⟨o, hk, hstar | hsame⟩ := hmeets.ifMatch _ hetag
    · exact absurd hstar (etagFromBytes_ne_star x)
    · have ho : o.bytes ∈ C := hC u.path o.bytes (by rw [hm.contentAt, hk, Option.map_some])
      -- equal ETags are equal digests, and the digests tell contents apart
      have hxo := hinj hx ho (blake3Hex_eq_of_etag hsame)
      rw [hk, Option.map_some, ← hxo, hlen (hfit x hx)]

/-- **An acknowledged append added its chunk to what was there.** -/
theorem LogEntry.Sound.appended (h : e.Sound O P) (hack : e.Acknowledged) {now : Number}
    {chunk : Bytes} {args : WriteArgs} (hset : e.mutation = .set now path chunk args)
    (happend : args.append = true) :
    contentAt e.after path = some ((contentAt e.before path).getD [] ++ chunk) := by
  obtain ⟨m, hm, -, hafter⟩ := h.set hack hset
  rw [hafter, hm.contentAt, bytes_writeObject, if_pos happend]

/-- A write that asked for nothing to be there found nothing and left
something. -/
theorem LogEntry.Sound.created (h : e.Sound O P) (hcreated : e.Created path) :
    contentAt e.before path = none ∧ contentAt e.after path ≠ none := by
  obtain ⟨hack, now, value, args, hset, hasks⟩ := hcreated
  obtain ⟨m, hm, hmeets, hafter⟩ := h.set hack hset
  refine ⟨?_, by rw [hafter]; simp⟩
  rw [hm.contentAt]
  rcases hasks with hnot | hstar
  · rw [hmeets.ifNotExists hnot]
    rfl
  · cases hk : m.get path with
    | none => rfl
    | some o => exact absurd ⟨o, hk, Or.inl rfl⟩ (hmeets.ifNoneMatch ['*'] hstar)

/-- A path only disappears where it is deleted. -/
theorem deletes_of_lost {m m' : Objects} {mutation : Mutation}
    (hstep : mutation.objectStep O P m = some m') (hb : m.get path ≠ none)
    (ha : m'.get path = none) : mutation.Deletes path := by
  have hkept {k : Str} {o : Object} (h : (m.set k o).get path = none) : False := by
    by_cases hk : path = k
    · rw [hk, FiniteMap.get_set_self] at h
      cases h
    · rw [FiniteMap.get_set_of_ne hk] at h
      exact hb h
  have hremoved {m₁ : Objects} {q : Str → Prop} (h : (m₁.removeWhere q).get path = none)
      (hm : m₁.get path ≠ none) : q path := by
    by_contra hq
    rw [FiniteMap.get_removeWhere_of_not hq] at h
    exact hm h
  cases mutation with
  | set now p value args =>
    rw [Mutation.objectStep] at hstep
    split_ifs at hstep
    cases hstep
    exact hkept ha
  | createDir now root p =>
    rw [Mutation.objectStep] at hstep
    split_ifs at hstep <;> cases hstep
    · exact hb ha
    · exact hkept ha
  | copy now src dst ifNotExists ifMatch =>
    simp only [Mutation.objectStep] at hstep
    split at hstep
    · split_ifs at hstep
      cases hstep
      exact hkept ha
    · cases hstep
  | rename src dst =>
    simp only [Mutation.objectStep] at hstep
    split at hstep
    · split_ifs at hstep
      cases hstep
      exact (hremoved ha fun h => hkept h).symm
    · cases hstep
  | delete p =>
    cases hstep
    exact (hremoved ha hb).symm
  | deleteRecursive p =>
    cases hstep
    exact hremoved ha hb
  | deleteMany batch =>
    cases hstep
    exact hremoved ha hb

end Acknowledged

/-- **A call that returned an error changed nothing**, in no attempt. -/
theorem World.Numbered.refused_unchanged {w : World ι} (h : w.Numbered) (ha : w.Accounted O P)
    {e e' : LogEntry} (he : e ∈ w.log) (hrefused : e.Refused) (he' : e' ∈ w.log)
    (hid : e'.call.id = e.call.id) : e'.after = e'.before := by
  obtain ⟨l₁, l₂, hlog⟩ := List.append_of_mem he
  have hothers (hmem : e' ∈ l₁ ++ l₂) : e'.after = e'.before :=
    h.others_unchanged ha hlog hrefused.1 hmem hid
  rw [hlog] at he'
  rcases List.mem_append.1 he' with hmem | hmem
  · exact hothers (List.mem_append_left _ hmem)
  · rcases List.mem_cons.1 hmem with rfl | hmem
    · exact (ha.entries e' he).unchanged hrefused.2
    · exact hothers (List.mem_append_right _ hmem)

/-- **Between two writes that found nothing there is a deletion.** -/
theorem World.Accounted.deleted_between {w : World ι} (h : w.Accounted O P)
    {l₁ l₂ l₃ : List LogEntry} {e e' : LogEntry} (hlog : w.log = l₁ ++ e :: l₂ ++ e' :: l₃)
    (hcreated : e.Created path) (hcreated' : e'.Created path) :
    ∃ d ∈ l₂, d.Acknowledged ∧ d.mutation.Deletes path ∧
      contentAt d.before path ≠ none ∧ contentAt d.after path = none := by
  have hmem : ∀ d ∈ l₁ ++ e :: l₂ ++ e' :: l₃, d.Sound O P := by
    intro d hd
    exact h.entries d (hlog ▸ hd)
  have hleads := h.leads
  rw [hlog] at hleads
  obtain ⟨u, hleft, hright⟩ := hleads.split
  obtain ⟨v, -, hmiddle⟩ := hleft.split
  have hfound : contentAt e.after path ≠ none := ((hmem e (by simp)).created hcreated).2
  have hlost : ¬ contentAt u path ≠ none := by
    rw [← hright.before_eq]
    exact not_not.2 ((hmem e' (by simp)).created hcreated').1
  -- the content that the first write left is lost at some entry between
  obtain ⟨d, hd, hb, ha⟩ := hmiddle.of_cons.exists_lost (q := fun s => contentAt s path ≠ none)
    hfound hlost
  have hsound := hmem d (by simp [hd])
  have hack : d.Acknowledged := by
    by_contra hnot
    rw [hsound.unchanged hnot] at ha
    exact ha hb
  obtain ⟨m, m', hm, hstep, hm'⟩ := hsound.acknowledged hack
  refine ⟨d, hd, hack, deletes_of_lost hstep ?_ ?_, hb, not_not.1 ha⟩
  · rw [hm.contentAt] at hb
    exact fun hk => hb (by rw [hk]; rfl)
  · rw [not_not, hm'.contentAt] at ha
    exact Option.map_eq_none_iff.1 ha

/-- **No update is lost.** In every run of any number of clients, whose
log accounts for the stores: a conditional write that was acknowledged
replaced exactly what it was computed from; an acknowledged append added
its chunk, once, to what was there; a call that returned an error changed nothing, whatever it
retried; and two writes that each ask for nothing to be there have a
deletion between them. BLAKE3 tells the contents of the run apart, and
each fits the 32-bit address space. -/
theorem no_lost_update [DecidableEq ι] {O : Opendal} {P : Platform} {dbName : Str} {w : World ι}
    (h : World.Reachable O P dbName w) (hinj : Set.InjOn P.blake3Hex w.contents)
    (hfit : ∀ c ∈ w.contents, c.length < 2 ^ 32) :
    Leads LogEntry.before LogEntry.after .empty w.log w.stores ∧
    (∀ e ∈ w.log, ∀ u, e.call.update = some u → e.Acknowledged →
      contentAt e.before u.path = u.basis ∧
        contentAt e.after u.path = some (u.compute u.basis)) ∧
    (∀ l₁ e l₂, w.log = l₁ ++ e :: l₂ → e.Acknowledged → ∀ now path chunk args,
      e.mutation = .set now path chunk args → args.append = true →
      contentAt e.after path = some ((contentAt e.before path).getD [] ++ chunk) ∧
        ∀ e' ∈ l₁ ++ l₂, e'.call.id = e.call.id → e'.after = e'.before) ∧
    (∀ e ∈ w.log, e.Refused → ∀ e' ∈ w.log, e'.call.id = e.call.id → e'.after = e'.before) ∧
    (∀ l₁ e l₂ e' l₃, w.log = l₁ ++ e :: l₂ ++ e' :: l₃ → ∀ path, e.Created path →
      e'.Created path → ∃ d ∈ l₂, d.Acknowledged ∧ d.mutation.Deletes path ∧
        contentAt d.before path ≠ none ∧ contentAt d.after path = none) := by
  obtain ⟨haccounted, hnumbered, hguarded⟩ := h.invariants
  refine ⟨haccounted.leads, fun e he u hu hack => ?_,
    fun l₁ e l₂ hlog hack now path chunk args hset happend => ?_,
    fun e he hrefused e' he' hid => ?_, fun l₁ e l₂ e' l₃ hlog path hcreated hcreated' => ?_⟩
  · exact (haccounted.entries e he).replaced hack (hguarded.logged e he u hu)
      (fun path c hc => ⟨e, he, path, Or.inl hc⟩) hinj hfit
  · have he : e ∈ w.log := by
      rw [hlog]
      exact List.mem_append_right _ List.mem_cons_self
    have hreply : e.reply ≠ none := by
      obtain ⟨outcome, hreply, -⟩ := hack
      simp [hreply]
    exact ⟨(haccounted.entries e he).appended hack hset happend,
      fun e' he' hid => hnumbered.others_unchanged haccounted hlog hreply he' hid⟩
  · exact hnumbered.refused_unchanged haccounted he hrefused he' hid
  · exact haccounted.deleted_between hlog hcreated hcreated'

/-! ## Two conditional writes -/

/-- What a client that found nothing under `a` then writes. -/
def firstCall : Call :=
  Snapshot.call ⟨['a'], none⟩ 0 ⟨false, false, none, some ['*'], none⟩ fun _ => [0]

/-- The world after it. -/
def firstWorld : World Bool :=
  ((World.initial.setClient false (.seen ⟨['a'], none⟩)).issue false firstCall).attempted
    referenceOpendal referencePlatform [] false firstCall (.ofNat 7) .ran

/-- What another client then reads. -/
def secondSnapshot : Snapshot :=
  ⟨['a'], some ([0], some (etagFromBytes referencePlatform [0]))⟩

/-- What it adds to that. -/
def secondCall : Call :=
  secondSnapshot.call 1
    ⟨false, false, some (etagFromBytes referencePlatform [0]), none, none⟩
    fun basis => basis.getD [] ++ [1]

/-- The world after both. -/
def secondWorld : World Bool :=
  ((firstWorld.setClient true (.seen secondSnapshot)).issue true secondCall).attempted
    referenceOpendal referencePlatform [] true secondCall (.ofNat 8) .ran

theorem firstWorld_reachable :
    World.Reachable referenceOpendal referencePlatform [] firstWorld := by
  have hread : World.Step referenceOpendal referencePlatform [] (World.initial : World Bool)
      (World.initial.setClient false (.seen ⟨['a'], none⟩)) :=
    @World.Step.read Bool _ _ _ _ .initial false ['a'] none (by simp [World.initial]) rfl
  have hupdate : World.Step referenceOpendal referencePlatform []
      ((World.initial : World Bool).setClient false (.seen ⟨['a'], none⟩))
      ((World.initial.setClient false (.seen ⟨['a'], none⟩)).issue false firstCall) :=
    .update (by simp [World.setClient]) ⟨rfl, rfl⟩
  have hattempt : World.Step referenceOpendal referencePlatform []
      ((World.initial.setClient false (.seen ⟨['a'], none⟩)).issue false firstCall) firstWorld :=
    .attempt (.ofNat 7) .ran (by simp [World.issue, World.setClient])
  exact ((Relation.ReflTransGen.single hread).tail hupdate).tail hattempt

theorem secondWorld_reachable :
    World.Reachable referenceOpendal referencePlatform [] secondWorld := by
  have hfound : ∃ found, IndexeddbCore.read referencePlatform ['a'] .whole firstWorld.stores =
      .ok (some found) ∧ found.2 = [0] ∧
        found.1.entryMeta.etag = some (etagFromBytes referencePlatform [0]) :=
    ⟨_, rfl, rfl, rfl⟩
  obtain ⟨found, hread, hbytes, hetag⟩ := hfound
  have hread : World.Step referenceOpendal referencePlatform [] firstWorld
      (firstWorld.setClient true (.seen secondSnapshot)) := by
    have hidle : ∀ call, firstWorld.clients true ≠ .calling call := by
      simp [firstWorld, World.attempted, World.issue, World.setClient, World.initial]
    have hstep := @World.Step.read Bool _ referenceOpendal referencePlatform [] firstWorld true
      ['a'] (some found) hidle hread
    rwa [Option.map_some, hbytes, hetag] at hstep
  have hupdate : World.Step referenceOpendal referencePlatform []
      (firstWorld.setClient true (.seen secondSnapshot))
      ((firstWorld.setClient true (.seen secondSnapshot)).issue true secondCall) :=
    .update (by simp [World.setClient]) ⟨rfl, rfl, rfl⟩
  have hattempt : World.Step referenceOpendal referencePlatform []
      ((firstWorld.setClient true (.seen secondSnapshot)).issue true secondCall) secondWorld :=
    .attempt (.ofNat 8) .ran (by simp [World.issue, World.setClient])
  exact ((firstWorld_reachable.tail hread).tail hupdate).tail hattempt

/-- What the two entries of its log are. -/
theorem secondWorld_log : ∃ e e', secondWorld.log = [e, e'] ∧ e.Acknowledged ∧ e'.Acknowledged ∧
    e.call.update = some ⟨['a'], none, fun _ => [0]⟩ ∧
    e'.call.update = some ⟨['a'], some [0], fun basis => basis.getD [] ++ [1]⟩ ∧
    (∀ path, contentAt e.before path = none) ∧ e'.before = e.after ∧
    (∀ path c, contentAt e.after path = some c → c = [0]) ∧
    ∀ path c, contentAt e'.after path = some c → c = [0, 1] := by
  have hmeets : WriteArgs.Meets referencePlatform ⟨false, false, none, some ['*'], none⟩
      ((FiniteMap.empty : Objects).get ['a']) :=
    ⟨by simp, by simp, by simp [Object.Meets]⟩
  obtain ⟨⟨info, hinfo⟩, hafter⟩ :=
    ((Represents.empty referencePlatform).set (.ofNat 7) ['a'] [0] _).1 hmeets
  have hmeets' : WriteArgs.Meets referencePlatform
      ⟨false, false, some (etagFromBytes referencePlatform [0]), none, none⟩
      (((FiniteMap.empty : Objects).set ['a'] (writeObject (.ofNat 7) [0]
        ⟨false, false, none, some ['*'], none⟩ none)).get ['a']) := by
    refine ⟨by simp, fun want hwant => ⟨_, FiniteMap.get_set_self .., .inr ?_⟩, by simp⟩
    exact (Option.mem_some_iff.1 hwant).symm
  obtain ⟨⟨info', hinfo'⟩, hafter'⟩ := (hafter.set (.ofNat 8) ['a'] [0, 1] _).1 hmeets'
  have hwritten : ∀ {s : Stores} {m : Objects} {o : Object}, Represents referencePlatform s
      (m.set ['a'] o) → (∀ path, path ≠ ['a'] → m.get path = none) →
        ∀ path c, contentAt s path = some c → c = o.bytes := by
    intro s m o hrep hnone path c hc
    replace hc := (hrep.contentAt path).symm.trans hc
    by_cases hk : path = ['a']
    · rw [hk, FiniteMap.get_set_self] at hc
      cases hc
      rfl
    · rw [FiniteMap.get_set_of_ne hk, hnone path hk] at hc
      cases hc
  refine ⟨_, _, rfl, ⟨_, rfl, ⟨_, congrArg (Except.map _) hinfo⟩⟩,
    ⟨_, rfl, ⟨_, congrArg (Except.map _) hinfo'⟩⟩, rfl, rfl, fun path => rfl, rfl,
    hwritten hafter fun _ _ => rfl, hwritten hafter' fun path hk => ?_⟩
  rw [FiniteMap.get_set_of_ne hk]
  rfl

/-- A client that found nothing wrote its first content over nothing, and
another one wrote what it computed from that over just that. -/
theorem no_lost_update_second : ∃ e e', secondWorld.log = [e, e'] ∧
    (contentAt e.before ['a'] = none ∧ contentAt e.after ['a'] = some [0]) ∧
    contentAt e'.before ['a'] = some [0] ∧ contentAt e'.after ['a'] = some [0, 1] := by
  obtain ⟨e, e', hlog, hack, hack', hupdate, hupdate', hbefore, hbetween, hafter, hafter'⟩ :=
    secondWorld_log
  have hcontents : ∀ c ∈ secondWorld.contents, c = [0] ∨ c = [0, 1] := by
    rintro c ⟨d, hd, path, hc⟩
    rw [hlog, List.mem_pair] at hd
    rcases hd with rfl | rfl
    · rcases hc with hc | hc
      · rw [hbefore] at hc
        cases hc
      · exact .inl (hafter path c hc)
    · rcases hc with hc | hc
      · exact .inl (hafter path c (hbetween ▸ hc))
      · exact .inr (hafter' path c hc)
  have hinj : Set.InjOn referencePlatform.blake3Hex secondWorld.contents := by
    intro b hb c hc heq
    rcases hcontents b hb with rfl | rfl <;> rcases hcontents c hc with rfl | rfl
    · rfl
    · exact absurd heq (by decide)
    · exact absurd heq (by decide)
    · rfl
  have hfit : ∀ c ∈ secondWorld.contents, c.length < 2 ^ 32 := by
    intro c hc
    rcases hcontents c hc with rfl | rfl <;> decide
  have hreplaced := (no_lost_update secondWorld_reachable hinj hfit).2.1
  exact ⟨e, e', hlog, hreplaced e (by simp [hlog]) _ hupdate hack,
    hreplaced e' (by simp [hlog]) _ hupdate' hack'⟩

end OpendalIndexeddb
