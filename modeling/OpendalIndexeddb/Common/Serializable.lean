import Mathlib.Data.Fintype.Basic
import Mathlib.Data.Set.Piecewise
import Mathlib.Logic.Relation
import OpendalIndexeddb.Common.Program
/-!
# Transactions that interleave

Transactions on the named cells of a state. Each makes its requests one
at a time and in place, and others make theirs in between. Two whose
scopes meet are active together only where both were opened for reading.
A transaction can be lost at any moment, and what it found is then put
back.

Such transactions are serializable: those that came to an end, in the
order they did, have each the result and the effect they would have had
alone.
-/

namespace OpendalIndexeddb

open Program

variable {ι ρ V γ τ φ ε α : Type} {I : Interface}

/-- **A system of transactions** `τ` on cells `ρ`, as attempts at calls
`γ` that faults `φ` can meet. -/
structure Transactions (ρ V γ τ φ ε α : Type) (I : Interface) where
  /-- What an attempt at a call may turn out to be. -/
  attempt : γ → Set τ
  /-- Whether a call makes another attempt after a fault, given how many
  it made before. -/
  again : φ → ℕ → Bool
  scope : τ → Set ρ
  readwrite : τ → Bool
  program : τ → Program I ε α
  semantics : τ → Semantics I ε (ρ → V)
  /-- The requests and the loops that only read. -/
  reads : I.Request → Prop
  readLoops : I.Loop → Prop
  /-- A request is answered from the scope, and acts on it alike. -/
  alike : ∀ t r D D', Set.EqOn D D' (scope t) →
    ((semantics t).handle r D).1 = ((semantics t).handle r D').1 ∧
      Set.EqOn ((semantics t).handle r D).2 ((semantics t).handle r D').2 (scope t)
  frame : ∀ t r D, Set.EqOn ((semantics t).handle r D).2 D (scope t)ᶜ
  handle_reads : ∀ t r D, reads r → ((semantics t).handle r D).2 = D
  body_reads : ∀ t l, readLoops l → ((semantics t).body l).Only reads readLoops
  program_reads : ∀ t, readwrite t = false → (program t).Only reads readLoops

namespace Transactions

/-- A transaction under way: what it found, and what it has still to
do. -/
structure Active (ρ V γ τ ε α : Type) (I : Interface) where
  call : γ
  attempts : ℕ
  txn : τ
  start : ρ → V
  rest : Program I ε α

inductive Thread (ρ V γ τ φ ε α : Type) (I : Interface) where
  | idle
  | waiting (call : γ) (attempts : ℕ)
  | active (a : Active ρ V γ τ ε α I)
  /-- The transaction came to an end: it was committed, or its program
  failed. -/
  | returned (call : γ) (txn : τ) (out : Except ε α)
  /-- The call was given up after a fault. -/
  | refused (call : γ) (fault : φ)

/-- A transaction that came to an end. -/
structure Ended (ι τ ε α : Type) where
  id : ι
  txn : τ
  out : Except ε α

structure World (ι ρ V γ τ φ ε α : Type) (I : Interface) where
  /-- The cells as they are, with what active transactions wrote. -/
  cells : ρ → V
  threads : ι → Thread ρ V γ τ φ ε α I
  log : List (Ended ι τ ε α)

def Thread.active? : Thread ρ V γ τ φ ε α I → Option (Active ρ V γ τ ε α I)
  | .active a => some a
  | _ => none

variable (T : Transactions ρ V γ τ φ ε α I)

/-- The thread of a call whose attempt met a fault. -/
def afterFault (fault : φ) (call : γ) (attempts : ℕ) : Thread ρ V γ τ φ ε α I :=
  if T.again fault attempts then .waiting call (attempts + 1) else .refused call fault

open Classical in
/-- What a transaction found, put back. -/
noncomputable def rollback (a : Active ρ V γ τ ε α I) (cells : ρ → V) : ρ → V :=
  (T.scope a.txn).piecewise a.start cells

/-- Two transactions that can be active together. -/
def Compatible (t t' : τ) : Prop :=
  (∀ n ∈ T.scope t, n ∉ T.scope t') ∨ T.readwrite t = false ∧ T.readwrite t' = false

variable {T} in
theorem Compatible.symm {t t' : τ} (h : T.Compatible t t') : T.Compatible t' t :=
  h.imp (fun hd n hn' hn => hd n hn hn') And.symm

section Steps

variable [DecidableEq ι]

def World.set (w : World ι ρ V γ τ φ ε α I) (i : ι) (x : Thread ρ V γ τ φ ε α I) :
    World ι ρ V γ τ φ ε α I :=
  { w with threads := Function.update w.threads i x }

/-- **A step of one of the threads.** -/
inductive Step (w : World ι ρ V γ τ φ ε α I) : World ι ρ V γ τ φ ε α I → Prop where
  | issue {i : ι} (call : γ) (h : w.threads i = .idle) : Step w (w.set i (.waiting call 0))
  | begin {i : ι} {call : γ} {attempts : ℕ} (t : τ) (h : w.threads i = .waiting call attempts)
      (ht : t ∈ T.attempt call)
      (hfree : ∀ j a, w.threads j = .active a → T.Compatible t a.txn) :
      Step w (w.set i (.active ⟨call, attempts, t, w.cells, T.program t⟩))
  | request {i : ι} {a : Active ρ V γ τ ε α I} {r : I.Request} {k : I.Answer r → Program I ε α}
      (h : w.threads i = .active a) (hr : a.rest = .request r k) :
      Step w { w.set i (.active { a with rest := k ((T.semantics a.txn).handle r w.cells).1 }) with
        cells := ((T.semantics a.txn).handle r w.cells).2 }
  | loop {i : ι} {a : Active ρ V γ τ ε α I} {l : I.Loop} {k : I.Result l → Program I ε α}
      (h : w.threads i = .active a) (hr : a.rest = .call l k) :
      Step w (w.set i (.active { a with rest := ((T.semantics a.txn).body l).bind k }))
  | commit {i : ι} {a : Active ρ V γ τ ε α I} {x : α}
      (h : w.threads i = .active a) (hr : a.rest = .done x) :
      Step w { w.set i (.returned a.call a.txn (.ok x)) with
        log := w.log ++ [⟨i, a.txn, .ok x⟩] }
  | abort {i : ι} {a : Active ρ V γ τ ε α I} {err : ε}
      (h : w.threads i = .active a) (hr : a.rest = .fail err) :
      Step w { w.set i (.returned a.call a.txn (.error err)) with
        cells := T.rollback a w.cells
        log := w.log ++ [⟨i, a.txn, .error err⟩] }
  | lose {i : ι} {a : Active ρ V γ τ ε α I} (fault : φ) (h : w.threads i = .active a) :
      Step w { w.set i (T.afterFault fault a.call a.attempts) with cells := T.rollback a w.cells }
  | deny {i : ι} {call : γ} {attempts : ℕ} (fault : φ)
      (h : w.threads i = .waiting call attempts) :
      Step w (w.set i (T.afterFault fault call attempts))

/-- The worlds that steps lead to. -/
inductive Reaches (w₀ : World ι ρ V γ τ φ ε α I) : World ι ρ V γ τ φ ε α I → Prop where
  | refl : Reaches w₀ w₀
  | step {w w' : World ι ρ V γ τ φ ε α I} (h : Reaches w₀ w) (hstep : T.Step w w') :
      Reaches w₀ w'

end Steps

/-- Before any call is made. -/
def World.initial (ι γ τ φ ε α : Type) (I : Interface) (D : ρ → V) :
    World ι ρ V γ τ φ ε α I :=
  ⟨D, fun _ => .idle, []⟩

/-! ## Transactions alone -/

/-- The result and the effect of a transaction that nothing else runs
beside. -/
def Effect (t : τ) (out : Except ε α) (D D' : ρ → V) : Prop :=
  match out with
  | .ok x => Computes (T.semantics t) (T.program t) D (.ok (x, D'))
  | .error err => Computes (T.semantics t) (T.program t) D (.error err) ∧ D' = D

/-- Transactions one after the other. -/
def Serial (D : ρ → V) : List (Ended ι τ ε α) → (ρ → V) → Prop
  | [], D' => D' = D
  | e :: log, D' => ∃ D₁, T.Effect e.txn e.out D D₁ ∧ Serial D₁ log D'

variable {T} {D D' D₀ D₁ cells cells' : ρ → V} {t t' : τ} {p : Program I ε α}
variable {out : Except ε α} {a b : Active ρ V γ τ ε α I} {i j : ι} {log : List (Ended ι τ ε α)}

theorem Serial.concat {e : Ended ι τ ε α} (h : T.Serial D₀ log D)
    (he : T.Effect e.txn e.out D D') : T.Serial D₀ (log ++ [e]) D' := by
  induction log generalizing D₀ with
  | nil =>
    obtain rfl : D = D₀ := h
    exact ⟨D', he, rfl⟩
  | cons e' log ih =>
    obtain ⟨D₁, he', hlog⟩ := h
    exact ⟨D₁, he', ih hlog⟩

/-- From cells that agree in its scope, a transaction does the same
there. -/
theorem runs_congr (h : Runs (T.semantics t) p D out D') (heq : Set.EqOn D cells (T.scope t)) :
    ∃ cells', Runs (T.semantics t) p cells out cells' ∧ Set.EqOn D' cells' (T.scope t) :=
  h.simulate rfl (T.alike t) heq

/-- A transaction leaves the cells outside its scope. -/
theorem runs_frame (h : Runs (T.semantics t) p D out D') : Set.EqOn D' D (T.scope t)ᶜ :=
  h.invariant (J := fun E => Set.EqOn E D (T.scope t)ᶜ)
    (fun r E hE => (T.frame t r E).trans hE) (Set.eqOn_refl D _)

/-- A transaction opened for reading leaves all cells. -/
theorem runs_of_reads (hread : T.readwrite t = false)
    (h : Runs (T.semantics t) (T.program t) D out D') : D' = D :=
  (T.program_reads t hread).unchanged (T.handle_reads t) (T.body_reads t) h

/-! ## What active transactions see -/

/-- **Isolation**, of the active transactions from one another, given the
state that those before them left: what each found is that state, the
cells differ from it in the scopes of writers only, and what is left of
each comes to the end that all of it would have come to. -/
structure Isolated (T : Transactions ρ V γ τ φ ε α I) (D cells : ρ → V)
    (active : ι → Option (Active ρ V γ τ ε α I)) : Prop where
  apart : ∀ i j a b, i ≠ j → active i = some a → active j = some b → T.Compatible a.txn b.txn
  quiet : ∀ i a, active i = some a → T.readwrite a.txn = false → a.rest.Only T.reads T.readLoops
  start : ∀ i a, active i = some a → Set.EqOn a.start D (T.scope a.txn)
  outside : ∀ n, (∀ i a, active i = some a → T.readwrite a.txn = true → n ∉ T.scope a.txn) →
    cells n = D n
  runs : ∀ i a, active i = some a → ∀ out D', Runs (T.semantics a.txn) a.rest cells out D' →
    ∃ D'', Runs (T.semantics a.txn) (T.program a.txn) a.start out D'' ∧
      Set.EqOn D' D'' (T.scope a.txn)
  ends : ∀ i a, active i = some a → ∀ out D'',
    Runs (T.semantics a.txn) (T.program a.txn) a.start out D'' →
      ∃ D', Runs (T.semantics a.txn) a.rest cells out D'

namespace Isolated

variable {active : ι → Option (Active ρ V γ τ ε α I)}

theorem none (D : ρ → V) : T.Isolated D D fun _ : ι => (none : Option (Active ρ V γ τ ε α I)) where
  apart _ _ _ _ _ h := nomatch h
  quiet _ _ h := nomatch h
  start _ _ h := nomatch h
  outside _ _ := rfl
  runs _ _ h := nomatch h
  ends _ _ h := nomatch h

/-- A transaction that reads finds the state in its scope, still. -/
theorem cells_of_reads (h : T.Isolated D cells active) (hi : active i = some a)
    (hread : T.readwrite a.txn = false) : Set.EqOn cells D (T.scope a.txn) := by
  intro n hn
  refine h.outside n fun j b hj hwrite hnb => ?_
  by_cases hij : i = j
  · subst hij
    obtain rfl := Option.some.inj (hi.symm.trans hj)
    exact Bool.false_ne_true (hread.symm.trans hwrite)
  · rcases h.apart i j a b hij hi hj with hdisj | ⟨-, hreadb⟩
    · exact hdisj n hn hnb
    · exact Bool.false_ne_true (hreadb.symm.trans hwrite)

/-- So putting back what it found changes nothing. -/
theorem rollback_of_reads (h : T.Isolated D cells active) (hi : active i = some a)
    (hread : T.readwrite a.txn = false) : T.rollback a cells = cells := by
  classical
  funext n
  by_cases hn : n ∈ T.scope a.txn
  · rw [rollback, Set.piecewise_eq_of_mem _ _ _ hn, h.start i a hi hn,
      h.cells_of_reads hi hread hn]
  · rw [rollback, Set.piecewise_eq_of_notMem _ _ _ hn]

/-- What one transaction does, another that is active does not see. -/
theorem eqOn_other (h : T.Isolated D cells active) (hij : i ≠ j) (hi : active i = some a)
    (hj : active j = some b) {E E' : ρ → V} (hframe : Set.EqOn E E' (T.scope a.txn)ᶜ)
    (hread : T.readwrite a.txn = false → E = E') : Set.EqOn E E' (T.scope b.txn) := by
  rcases h.apart i j a b hij hi hj with hdisj | ⟨hread', -⟩
  · exact fun n hn => hframe fun hna => hdisj n hna hn
  · rw [hread hread']
    exact Set.eqOn_refl E' _

theorem runs_other (h : T.Isolated D cells active) (hj : active j = some b)
    (heq : Set.EqOn cells' cells (T.scope b.txn)) {out : Except ε α} {D' : ρ → V}
    (hrun : Runs (T.semantics b.txn) b.rest cells' out D') :
    ∃ D'', Runs (T.semantics b.txn) (T.program b.txn) b.start out D'' ∧
      Set.EqOn D' D'' (T.scope b.txn) := by
  obtain ⟨E, hE, hEeq⟩ := runs_congr hrun heq
  obtain ⟨D'', hD, hDeq⟩ := h.runs j b hj out E hE
  exact ⟨D'', hD, hEeq.trans hDeq⟩

theorem ends_other (h : T.Isolated D cells active) (hj : active j = some b)
    (heq : Set.EqOn cells' cells (T.scope b.txn)) {out : Except ε α} {D'' : ρ → V}
    (hrun : Runs (T.semantics b.txn) (T.program b.txn) b.start out D'') :
    ∃ D', Runs (T.semantics b.txn) b.rest cells' out D' := by
  obtain ⟨D', hD⟩ := h.ends j b hj out D'' hrun
  obtain ⟨E, hE, -⟩ := runs_congr hD heq.symm
  exact ⟨E, hE⟩

variable [DecidableEq ι]

/-- **A transaction begins.** -/
theorem begin (h : T.Isolated D cells active) (hi : active i = Option.none) {call : γ}
    {attempts : ℕ} (hfree : ∀ j b, active j = some b → T.Compatible t b.txn) :
    T.Isolated D cells
      (Function.update active i (some ⟨call, attempts, t, cells, T.program t⟩)) := by
  refine ⟨fun j k b c hjk hj hk => ?_, fun j b hj hread => ?_, fun j b hj => ?_,
    fun n hn => ?_, fun j b hj out D' hrun => ?_, fun j b hj out D'' hrun => ?_⟩
  · by_cases hji : j = i
    · subst hji
      rw [Function.update_self, Option.some.injEq] at hj
      rw [Function.update_of_ne hjk.symm] at hk
      exact hj ▸ hfree k c hk
    · rw [Function.update_of_ne hji] at hj
      by_cases hki : k = i
      · subst hki
        rw [Function.update_self, Option.some.injEq] at hk
        exact hk ▸ (hfree j b hj).symm
      · rw [Function.update_of_ne hki] at hk
        exact h.apart j k b c hjk hj hk
  · by_cases hji : j = i
    · subst hji
      rw [Function.update_self, Option.some.injEq] at hj
      subst hj
      exact T.program_reads t hread
    · rw [Function.update_of_ne hji] at hj
      exact h.quiet j b hj hread
  · by_cases hji : j = i
    · subst hji
      rw [Function.update_self, Option.some.injEq] at hj
      subst hj
      refine fun n hn => h.outside n fun k c hk hwrite hnc => ?_
      rcases hfree k c hk with hdisj | ⟨-, hread⟩
      · exact hdisj n hn hnc
      · exact Bool.false_ne_true (hread.symm.trans hwrite)
    · rw [Function.update_of_ne hji] at hj
      exact h.start j b hj
  · refine h.outside n fun j b hj hwrite => hn j b ?_ hwrite
    rw [Function.update_of_ne, hj]
    rintro rfl
    exact nomatch hi.symm.trans hj
  · by_cases hji : j = i
    · subst hji
      rw [Function.update_self, Option.some.injEq] at hj
      subst hj
      exact ⟨D', hrun, Set.eqOn_refl D' _⟩
    · rw [Function.update_of_ne hji] at hj
      exact h.runs j b hj out D' hrun
  · by_cases hji : j = i
    · subst hji
      rw [Function.update_self, Option.some.injEq] at hj
      subst hj
      exact ⟨D'', hrun⟩
    · rw [Function.update_of_ne hji] at hj
      exact h.ends j b hj out D'' hrun

/-- **A transaction goes on**, and what is left of it comes out as what
was left before. -/
theorem advance (h : T.Isolated D cells active) (hi : active i = some a)
    {rest : Program I ε α} (hframe : Set.EqOn cells' cells (T.scope a.txn)ᶜ)
    (hread : T.readwrite a.txn = false → cells' = cells ∧ rest.Only T.reads T.readLoops)
    (hruns : ∀ out D', Runs (T.semantics a.txn) rest cells' out D' ↔
      Runs (T.semantics a.txn) a.rest cells out D') :
    T.Isolated D cells' (Function.update active i (some { a with rest })) := by
  have hold : ∀ j b, Function.update active i (some { a with rest }) j = some b →
      ∃ b', active j = some b' ∧ b.txn = b'.txn ∧ b.start = b'.start := by
    intro j b hj
    by_cases hji : j = i
    · subst hji
      rw [Function.update_self, Option.some.injEq] at hj
      subst hj
      exact ⟨a, hi, rfl, rfl⟩
    · rw [Function.update_of_ne hji] at hj
      exact ⟨b, hj, rfl, rfl⟩
  refine ⟨fun j k b c hjk hj hk => ?_, fun j b hj hreadb => ?_, fun j b hj => ?_,
    fun n hn => ?_, fun j b hj out D' hrun => ?_, fun j b hj out D'' hrun => ?_⟩
  · obtain ⟨b', hj', hb, -⟩ := hold j b hj
    obtain ⟨c', hk', hc, -⟩ := hold k c hk
    rw [hb, hc]
    exact h.apart j k b' c' hjk hj' hk'
  · by_cases hji : j = i
    · subst hji
      rw [Function.update_self, Option.some.injEq] at hj
      subst hj
      exact (hread hreadb).2
    · rw [Function.update_of_ne hji] at hj
      exact h.quiet j b hj hreadb
  · obtain ⟨b', hj', hb, hstart⟩ := hold j b hj
    rw [hb, hstart]
    exact h.start j b' hj'
  · have hsame : cells' n = cells n := by
      rcases hrw : T.readwrite a.txn with _ | _
      · rw [(hread hrw).1]
      · exact hframe (hn i { a with rest } (Function.update_self ..) hrw)
    rw [hsame]
    refine h.outside n fun j b hj hwrite => ?_
    by_cases hji : j = i
    · subst hji
      obtain rfl := Option.some.inj (hi.symm.trans hj)
      exact hn j { a with rest } (Function.update_self ..) hwrite
    · exact hn j b (by rw [Function.update_of_ne hji, hj]) hwrite
  · by_cases hji : j = i
    · subst hji
      rw [Function.update_self, Option.some.injEq] at hj
      subst hj
      exact h.runs j a hi out D' ((hruns out D').1 hrun)
    · rw [Function.update_of_ne hji] at hj
      exact h.runs_other hj
        (h.eqOn_other (Ne.symm hji) hi hj hframe fun hr => (hread hr).1) hrun
  · by_cases hji : j = i
    · subst hji
      rw [Function.update_self, Option.some.injEq] at hj
      subst hj
      obtain ⟨D', hD⟩ := h.ends j a hi out D'' hrun
      exact ⟨D', (hruns out D').2 hD⟩
    · rw [Function.update_of_ne hji] at hj
      exact h.ends_other hj
        (h.eqOn_other (Ne.symm hji) hi hj hframe fun hr => (hread hr).1) hrun

/-- **A transaction ends**, and leaves its scope as the next state has
it. -/
theorem finish (h : T.Isolated D cells active) (hi : active i = some a)
    (hframe : Set.EqOn cells' cells (T.scope a.txn)ᶜ) (hframe' : Set.EqOn D' D (T.scope a.txn)ᶜ)
    (hscope : Set.EqOn cells' D' (T.scope a.txn))
    (hread : T.readwrite a.txn = false → cells' = cells ∧ D' = D) :
    T.Isolated D' cells' (Function.update active i Option.none) := by
  have hother : ∀ j b, Function.update active i Option.none j = some b →
      j ≠ i ∧ active j = some b := by
    intro j b hj
    by_cases hji : j = i
    · subst hji
      rw [Function.update_self] at hj
      cases hj
    · rw [Function.update_of_ne hji] at hj
      exact ⟨hji, hj⟩
  refine ⟨fun j k b c hjk hj hk => ?_, fun j b hj => ?_, fun j b hj => ?_, fun n hn => ?_,
    fun j b hj out E hrun => ?_, fun j b hj out E hrun => ?_⟩
  · exact h.apart j k b c hjk (hother j b hj).2 (hother k c hk).2
  · exact h.quiet j b (hother j b hj).2
  · obtain ⟨hji, hj⟩ := hother j b hj
    exact (h.start j b hj).trans
      (h.eqOn_other hji.symm hi hj hframe' fun hr => (hread hr).2).symm
  · by_cases hscopen : n ∈ T.scope a.txn
    · exact hscope hscopen
    · rw [hframe hscopen, hframe' hscopen]
      refine h.outside n fun j b hj hwrite => ?_
      by_cases hji : j = i
      · subst hji
        obtain rfl := Option.some.inj (hi.symm.trans hj)
        exact hscopen
      · exact hn j b (by rw [Function.update_of_ne hji, hj]) hwrite
  · obtain ⟨hji, hj⟩ := hother j b hj
    exact h.runs_other hj (h.eqOn_other hji.symm hi hj hframe fun hr => (hread hr).1) hrun
  · obtain ⟨hji, hj⟩ := hother j b hj
    exact h.ends_other hj (h.eqOn_other hji.symm hi hj hframe fun hr => (hread hr).1) hrun

/-- **A transaction is lost.** -/
theorem rollback (h : T.Isolated D cells active) (hi : active i = some a) :
    T.Isolated D (T.rollback a cells) (Function.update active i Option.none) := by
  classical
  refine h.finish hi (fun n hn => ?_) (Set.eqOn_refl D _) (fun n hn => ?_)
    fun hread => ⟨h.rollback_of_reads hi hread, rfl⟩
  · rw [Transactions.rollback, Set.piecewise_eq_of_notMem _ _ _ hn]
  · rw [Transactions.rollback, Set.piecewise_eq_of_mem _ _ _ hn, h.start i a hi hn]

end Isolated

/-! ## The log -/

/-- The log has the transactions that came to an end, each once. -/
structure Booked (T : Transactions ρ V γ τ φ ε α I) (w : World ι ρ V γ τ φ ε α I) : Prop where
  logged : ∀ e ∈ w.log, ∃ call, w.threads e.id = .returned call e.txn e.out
  returned : ∀ i call t out, w.threads i = .returned call t out →
    ⟨i, t, out⟩ ∈ w.log ∧ t ∈ T.attempt call
  tried : ∀ i a, w.threads i = .active a → a.txn ∈ T.attempt a.call
  once : (w.log.map Ended.id).Nodup

namespace Booked

variable {w : World ι ρ V γ τ φ ε α I} {x : Thread ρ V γ τ φ ε α I}

/-- A call that has not returned is not in the log. -/
theorem not_mem (h : T.Booked w) (hi : ∀ call t out, w.threads i ≠ .returned call t out) :
    i ∉ w.log.map Ended.id := by
  intro hmem
  obtain ⟨e, he, rfl⟩ := List.mem_map.1 hmem
  obtain ⟨call, hcall⟩ := h.logged e he
  exact hi _ _ _ hcall

variable [DecidableEq ι]

/-- A thread that goes on. -/
theorem set (h : T.Booked w) (cells : ρ → V)
    (hi : ∀ call t out, w.threads i ≠ .returned call t out)
    (hx : ∀ call t out, x ≠ .returned call t out)
    (hxa : ∀ a, x = .active a → a.txn ∈ T.attempt a.call) :
    T.Booked { w.set i x with cells := cells } := by
  refine ⟨fun e he => ?_, fun j call t out hj => ?_, fun j a hj => ?_, h.once⟩
  · obtain ⟨call, hcall⟩ := h.logged e he
    have hei : e.id ≠ i := fun hei => hi _ _ _ (hei ▸ hcall)
    exact ⟨call, (Function.update_of_ne hei ..).trans hcall⟩
  · by_cases hji : j = i
    · subst hji
      exact absurd ((Function.update_self ..).symm.trans hj) (hx call t out)
    · exact h.returned j call t out ((Function.update_of_ne hji ..).symm.trans hj)
  · by_cases hji : j = i
    · subst hji
      have hja : Function.update w.threads j x j = .active a := hj
      rw [Function.update_self] at hja
      exact hxa a hja
    · exact h.tried j a ((Function.update_of_ne hji ..).symm.trans hj)

/-- A thread that returns. -/
theorem finish (h : T.Booked w) (cells : ρ → V) (hi : w.threads i = .active a)
    (out : Except ε α) : T.Booked
      { w.set i (.returned a.call a.txn out) with
        cells := cells, log := w.log ++ [⟨i, a.txn, out⟩] } := by
  have hnot : ∀ call t out, w.threads i ≠ .returned call t out := fun call t out hr =>
    nomatch hi.symm.trans hr
  refine ⟨fun e he => ?_, fun j call t out hj => ?_, fun j b hj => ?_, ?_⟩
  · rcases List.mem_append.1 he with he | he
    · obtain ⟨call, hcall⟩ := h.logged e he
      have hei : e.id ≠ i := fun hei => hnot _ _ _ (hei ▸ hcall)
      exact ⟨call, (Function.update_of_ne hei ..).trans hcall⟩
    · obtain rfl := List.mem_singleton.1 he
      exact ⟨a.call, Function.update_self ..⟩
  · by_cases hji : j = i
    · subst hji
      have hout := (Function.update_self ..).symm.trans hj
      injection hout with hcall ht hout
      subst hcall ht hout
      exact ⟨List.mem_append_right _ (List.mem_singleton_self _), h.tried j a hi⟩
    · obtain ⟨hmem, hatt⟩ := h.returned j call t out ((Function.update_of_ne hji ..).symm.trans hj)
      exact ⟨List.mem_append_left _ hmem, hatt⟩
  · by_cases hji : j = i
    · subst hji
      exact nomatch (Function.update_self ..).symm.trans hj
    · exact h.tried j b ((Function.update_of_ne hji ..).symm.trans hj)
  · rw [List.map_append, List.map_singleton, List.nodup_append]
    refine ⟨h.once, List.pairwise_singleton _ i, fun k hk l hl => ?_⟩
    obtain rfl := List.mem_singleton.1 hl
    rintro rfl
    exact h.not_mem hnot hk

end Booked

/-! ## Steps -/

/-- The transactions that are under way. -/
def World.active (w : World ι ρ V γ τ φ ε α I) (i : ι) : Option (Active ρ V γ τ ε α I) :=
  (w.threads i).active?

theorem World.active_of (w : World ι ρ V γ τ φ ε α I) (h : w.threads i = .active a) :
    w.active i = some a := by
  rw [active, h]
  rfl

theorem World.threads_of_active (w : World ι ρ V γ τ φ ε α I) (h : w.active i = some a) :
    w.threads i = .active a := by
  unfold World.active at h
  cases hx : w.threads i with
  | active b =>
    rw [hx] at h
    rw [Option.some.inj h]
  | idle | waiting | returned | refused =>
    rw [hx] at h
    cases h

/-- **What holds of every world reached**: a serial order of the log leads
to a state from which the active transactions are isolated. -/
structure Sound (T : Transactions ρ V γ τ φ ε α I) (D₀ D : ρ → V)
    (w : World ι ρ V γ τ φ ε α I) : Prop where
  isolated : T.Isolated D w.cells w.active
  serial : T.Serial D₀ w.log D
  booked : T.Booked w

variable {w w' : World ι ρ V γ τ φ ε α I} {x : Thread ρ V γ τ φ ε α I}

theorem sound_initial (T : Transactions ρ V γ τ φ ε α I) (D₀ : ρ → V) :
    T.Sound D₀ D₀ (World.initial ι γ τ φ ε α I D₀) where
  isolated := .none D₀
  serial := rfl
  booked := ⟨fun _ h => (nomatch h), fun _ _ _ _ h => (nomatch h), fun _ _ h => (nomatch h),
    List.nodup_nil⟩

variable [DecidableEq ι]

theorem World.active_set : (w.set i x).active = Function.update w.active i x.active? := by
  funext j
  by_cases hji : j = i
  · subst hji
    simp [World.active, World.set]
  · simp [World.active, World.set, hji]

theorem active?_afterFault (fault : φ) (call : γ) (attempts : ℕ) :
    (T.afterFault fault call attempts).active? = none := by
  unfold afterFault
  split_ifs <;> rfl

theorem afterFault_ne_returned {fault : φ} {call call' : γ} {attempts : ℕ} :
    T.afterFault fault call attempts ≠ .returned call' t out := by
  unfold afterFault
  split_ifs <;> exact nofun

theorem afterFault_ne_active {fault : φ} {call : γ} {attempts : ℕ} :
    T.afterFault fault call attempts ≠ .active a := by
  unfold afterFault
  split_ifs <;> exact nofun

/-- A thread that was not active and is not either now. -/
theorem Sound.set_inactive (h : T.Sound D₀ D w) (hi : (w.threads i).active? = none)
    (hir : ∀ call t out, w.threads i ≠ .returned call t out) (hx : x.active? = none)
    (hxr : ∀ call t out, x ≠ .returned call t out) : T.Sound D₀ D (w.set i x) where
  isolated := by
    rw [World.active_set, hx, ← hi, show (w.threads i).active? = w.active i from rfl,
      Function.update_eq_self]
    exact h.isolated
  serial := h.serial
  booked := h.booked.set w.cells hir hxr fun a ha => by
    rw [ha] at hx
    cases hx

theorem Sound.step (h : T.Sound D₀ D w) (hstep : T.Step w w') : ∃ D', T.Sound D₀ D' w' := by
  cases hstep with
  | issue call hi =>
    exact ⟨D, h.set_inactive (by rw [hi]; rfl) (by simp [hi]) rfl (fun _ _ _ => nofun)⟩
  | deny fault hi =>
    exact ⟨D, h.set_inactive (by rw [hi]; rfl) (by simp [hi]) (active?_afterFault ..)
      fun _ _ _ => afterFault_ne_returned⟩
  | @begin i call attempts t hi ht hfree =>
    have hnone : w.active i = none := by rw [World.active, hi]; rfl
    refine ⟨D, ⟨?_, h.serial, ?_⟩⟩
    · rw [World.active_set]
      exact h.isolated.begin hnone fun j b hj => hfree j b (w.threads_of_active hj)
    · exact h.booked.set w.cells (by simp [hi]) (fun _ _ _ => nofun) fun a ha => by
        injection ha with ha
        exact ha ▸ ht
  | @request i a r k hi hr =>
    refine ⟨D, ⟨?_, h.serial, ?_⟩⟩
    · show T.Isolated D _ (w.set i _).active
      rw [World.active_set]
      refine h.isolated.advance (w.active_of hi) (T.frame _ _ _) (fun hread => ?_)
        fun out D' => hr ▸ (runs_request_iff ..).symm
      have hquiet := hr ▸ h.isolated.quiet i a (w.active_of hi) hread
      exact ⟨T.handle_reads _ _ _ hquiet.1, hquiet.2 _⟩
    · exact h.booked.set _ (by simp [hi]) (fun _ _ _ => nofun) fun b hb => by
        injection hb with hb
        exact hb ▸ h.booked.tried i a hi
  | @loop i a l k hi hr =>
    refine ⟨D, ⟨?_, h.serial, ?_⟩⟩
    · rw [World.active_set]
      refine h.isolated.advance (w.active_of hi) (Set.eqOn_refl _ _) (fun hread => ?_)
        fun out D' => hr ▸ (runs_call_iff ..).symm
      have hquiet := hr ▸ h.isolated.quiet i a (w.active_of hi) hread
      exact ⟨rfl, (T.body_reads _ _ hquiet.1).bind hquiet.2⟩
    · exact h.booked.set w.cells (by simp [hi]) (fun _ _ _ => nofun) fun b hb => by
        injection hb with hb
        exact hb ▸ h.booked.tried i a hi
  | @commit i a x hi hr =>
    have hact := w.active_of hi
    obtain ⟨E, hE, hcells⟩ := h.isolated.runs i a hact (.ok x) w.cells (hr ▸ .done x w.cells)
    obtain ⟨D', hD', hEeq⟩ := runs_congr hE (h.isolated.start i a hact)
    refine ⟨D', ⟨?_, h.serial.concat hD', h.booked.finish w.cells hi (.ok x)⟩⟩
    show T.Isolated D' w.cells (w.set i _).active
    rw [World.active_set]
    exact h.isolated.finish hact (Set.eqOn_refl _ _) (runs_frame hD') (hcells.trans hEeq)
      fun hread => ⟨rfl, runs_of_reads hread hD'⟩
  | @abort i a err hi hr =>
    have hact := w.active_of hi
    obtain ⟨E, hE, -⟩ := h.isolated.runs i a hact (.error err) w.cells (hr ▸ .fail err w.cells)
    obtain ⟨D', hD', -⟩ := runs_congr hE (h.isolated.start i a hact)
    refine ⟨D, ⟨?_, h.serial.concat ⟨⟨D', hD'⟩, rfl⟩, h.booked.finish _ hi (.error err)⟩⟩
    show T.Isolated D _ (w.set i _).active
    rw [World.active_set]
    exact h.isolated.rollback hact
  | @lose i a fault hi =>
    refine ⟨D, ⟨?_, h.serial, ?_⟩⟩
    · show T.Isolated D _ (w.set i _).active
      rw [World.active_set, active?_afterFault]
      exact h.isolated.rollback (w.active_of hi)
    · exact h.booked.set _ (by simp [hi]) (fun _ _ _ => afterFault_ne_returned)
        fun _ ha => absurd ha afterFault_ne_active

/-- **The run rule**: transactions that interleave are serializable. -/
theorem Reaches.sound (h : T.Reaches (World.initial ι γ τ φ ε α I D₀) w) :
    ∃ D, T.Sound D₀ D w := by
  induction h with
  | refl => exact ⟨D₀, sound_initial T D₀⟩
  | step _ hstep ih =>
    obtain ⟨D, hD⟩ := ih
    exact hD.step hstep

/-! ## Progress -/

/-- Every transaction, alone, comes to an end from any cells. -/
def Terminates (T : Transactions ρ V γ τ φ ε α I) : Prop :=
  ∀ t D, ∃ out D', Runs (T.semantics t) (T.program t) D out D'

theorem Reaches.trans (h : T.Reaches w₀ w) (h' : T.Reaches w w') : T.Reaches w₀ w' := by
  induction h' with
  | refl => exact h
  | step _ hstep ih => exact .step ih hstep

/-- **A step without a fault**: a transaction begins, goes on, or comes to
its end. -/
inductive Advance (T : Transactions ρ V γ τ φ ε α I) (w : World ι ρ V γ τ φ ε α I) :
    World ι ρ V γ τ φ ε α I → Prop where
  | begin {i : ι} {call : γ} {attempts : ℕ} (t : τ) (h : w.threads i = .waiting call attempts)
      (ht : t ∈ T.attempt call)
      (hfree : ∀ j a, w.threads j = .active a → T.Compatible t a.txn) :
      Advance T w (w.set i (.active ⟨call, attempts, t, w.cells, T.program t⟩))
  | request {i : ι} {a : Active ρ V γ τ ε α I} {r : I.Request} {k : I.Answer r → Program I ε α}
      (h : w.threads i = .active a) (hr : a.rest = .request r k) :
      Advance T w
        { w.set i (.active { a with rest := k ((T.semantics a.txn).handle r w.cells).1 }) with
          cells := ((T.semantics a.txn).handle r w.cells).2 }
  | loop {i : ι} {a : Active ρ V γ τ ε α I} {l : I.Loop} {k : I.Result l → Program I ε α}
      (h : w.threads i = .active a) (hr : a.rest = .call l k) :
      Advance T w (w.set i (.active { a with rest := ((T.semantics a.txn).body l).bind k }))
  | commit {i : ι} {a : Active ρ V γ τ ε α I} {x : α}
      (h : w.threads i = .active a) (hr : a.rest = .done x) :
      Advance T w { w.set i (.returned a.call a.txn (.ok x)) with
        log := w.log ++ [⟨i, a.txn, .ok x⟩] }
  | abort {i : ι} {a : Active ρ V γ τ ε α I} {err : ε}
      (h : w.threads i = .active a) (hr : a.rest = .fail err) :
      Advance T w { w.set i (.returned a.call a.txn (.error err)) with
        cells := T.rollback a w.cells
        log := w.log ++ [⟨i, a.txn, .error err⟩] }

theorem Advance.step (h : T.Advance w w') : T.Step w w' := by
  cases h with
  | begin t h ht hfree => exact .begin t h ht hfree
  | request h hr => exact .request h hr
  | loop h hr => exact .loop h hr
  | commit h hr => exact .commit h hr
  | abort h hr => exact .abort h hr

/-- The worlds that steps without a fault lead to. -/
abbrev Advances (T : Transactions ρ V γ τ φ ε α I) :
    World ι ρ V γ τ φ ε α I → World ι ρ V γ τ φ ε α I → Prop :=
  Relation.ReflTransGen T.Advance

theorem Advances.reaches (h : T.Advances w w') : T.Reaches w w' := by
  induction h with
  | refl => exact .refl
  | tail _ hstep ih => exact ih.step hstep.step

/-- **An active transaction can come to its end** by steps of its own. -/
theorem World.drain {call : γ} {attempts : ℕ} {start : ρ → V}
    (hrun : Runs (T.semantics t) p cells out D') (hw : w.cells = cells)
    (hi : w.threads i = .active ⟨call, attempts, t, start, p⟩) :
    ∃ w', T.Advances w w' ∧ w'.threads i = .returned call t out ∧
      w'.log = w.log ++ [⟨i, t, out⟩] ∧ ∀ j, j ≠ i → w'.threads j = w.threads j := by
  induction hrun generalizing w with
  | done x D =>
    exact ⟨_, .single (.commit hi rfl), Function.update_self .., rfl,
      fun j hj => Function.update_of_ne hj ..⟩
  | fail err D =>
    exact ⟨_, .single (.abort hi rfl), Function.update_self .., rfl,
      fun j hj => Function.update_of_ne hj ..⟩
  | @request r k D D' out _ ih =>
    subst hw
    let a : Active ρ V γ τ ε α I :=
      ⟨call, attempts, t, start, k ((T.semantics t).handle r w.cells).1⟩
    obtain ⟨w', hreach, hret, hlog, hother⟩ :=
      ih (w := { w.set i (.active a) with cells := ((T.semantics t).handle r w.cells).2 }) rfl
        (Function.update_self ..)
    exact ⟨w', .head (.request hi rfl) hreach, hret, hlog,
      fun j hj => (hother j hj).trans (Function.update_of_ne hj ..)⟩
  | @call l k D D' out _ ih =>
    obtain ⟨w', hreach, hret, hlog, hother⟩ :=
      ih (w := w.set i (.active ⟨call, attempts, t, start, ((T.semantics t).body l).bind k⟩)) hw
        (Function.update_self ..)
    exact ⟨w', .head (.loop hi rfl) hreach, hret, hlog,
      fun j hj => (hother j hj).trans (Function.update_of_ne hj ..)⟩

/-- **The active transactions of some threads can come to their ends.** -/
theorem Reaches.drain_all (hend : T.Terminates) (h : T.Reaches (World.initial ι γ τ φ ε α I D₀) w)
    (s : Finset ι) : ∃ w', T.Advances w w' ∧ (∀ i ∈ s, w'.active i = none) ∧
      ∀ i, w'.threads i = w.threads i ∨
        ∃ a out, w.threads i = .active a ∧ w'.threads i = .returned a.call a.txn out := by
  induction s using Finset.induction_on with
  | empty => exact ⟨w, .refl, fun i hi => absurd hi (Finset.notMem_empty i), fun _ => .inl rfl⟩
  | insert i s _ ih =>
    obtain ⟨w₁, hreach, hdone, hkept⟩ := ih
    cases hact : w₁.active i with
    | none =>
      refine ⟨w₁, hreach, fun j hj => ?_, hkept⟩
      rcases Finset.mem_insert.1 hj with rfl | hj
      · exact hact
      · exact hdone j hj
    | some a =>
      have hthread := w₁.threads_of_active hact
      obtain ⟨D, hD⟩ := (h.trans hreach.reaches).sound
      obtain ⟨out, D'', hrun⟩ := hend a.txn a.start
      obtain ⟨D', hrest⟩ := hD.isolated.ends i a hact out D'' hrun
      obtain ⟨w₂, hreach', hret, -, hother⟩ := World.drain hrest rfl hthread
      refine ⟨w₂, hreach.trans hreach', fun j hj => ?_, fun j => ?_⟩
      · by_cases hji : j = i
        · subst hji
          rw [World.active, hret]
          rfl
        · rw [World.active, hother j hji]
          exact hdone j (Finset.mem_of_mem_insert_of_ne hj hji)
      · by_cases hji : j = i
        · subst hji
          -- it was active from the start, as it has not returned
          rcases hkept j with hsame | ⟨b, out', -, hret'⟩
          · exact .inr ⟨a, out, hsame.symm.trans hthread, hret⟩
          · cases hret'.symm.trans hthread
        · rw [hother j hji]
          exact hkept j

/-- **A call that waits can return**, where nothing is active. -/
theorem World.return_alone {call : γ} {attempts : ℕ} (hend : T.Terminates)
    (hnone : ∀ j, w.active j = none) (hi : w.threads i = .waiting call attempts)
    (ht : t ∈ T.attempt call) : ∃ w' out, T.Advances w w' ∧ w'.threads i = .returned call t out ∧
      w'.log = w.log ++ [⟨i, t, out⟩] ∧ (∀ j, w'.active j = none) ∧
      ∀ j, j ≠ i → w'.threads j = w.threads j := by
  obtain ⟨out, D', hrun⟩ := hend t w.cells
  have hbegin : T.Advance w _ := .begin t hi ht fun j a hj =>
    nomatch (w.active_of hj).symm.trans (hnone j)
  obtain ⟨w', hreach, hret, hlog, hother⟩ :=
    World.drain (w := w.set i (.active ⟨call, attempts, t, w.cells, T.program t⟩)) hrun rfl
      (Function.update_self ..)
  have hother' : ∀ j, j ≠ i → w'.threads j = w.threads j := fun j hj =>
    (hother j hj).trans (Function.update_of_ne hj ..)
  refine ⟨w', out, .head hbegin hreach, hret, hlog, fun j => ?_, hother'⟩
  by_cases hji : j = i
  · subst hji
    rw [World.active, hret]
    rfl
  · rw [World.active, hother' j hji]
    exact hnone j

/-- Calls that wait can return one after the other. -/
theorem Reaches.return_all (hend : T.Terminates) (hattempt : ∀ call, (T.attempt call).Nonempty)
    (hnone : ∀ i, w.active i = none) (s : Finset ι) :
    ∃ w', T.Advances w w' ∧ (∀ i, w'.active i = none) ∧
      (∀ i ∈ s, ∀ call attempts, w.threads i = .waiting call attempts →
        ∃ t out, w'.threads i = .returned call t out) ∧
      ∀ i, (i ∈ s → ∀ call attempts, w.threads i ≠ .waiting call attempts) →
        w'.threads i = w.threads i := by
  induction s using Finset.induction_on with
  | empty =>
    exact ⟨w, .refl, hnone, fun i hi => absurd hi (Finset.notMem_empty i), fun _ _ => rfl⟩
  | insert i s hi ih =>
    obtain ⟨w₁, hreach, hnone₁, hdone, hkept⟩ := ih
    have hsame : w₁.threads i = w.threads i := hkept i fun his => absurd his hi
    by_cases hwaiting : ∃ call attempts, w.threads i = .waiting call attempts
    · obtain ⟨call, attempts, hx⟩ := hwaiting
      obtain ⟨t, ht⟩ := hattempt call
      obtain ⟨w₂, out, hreach', hret, -, hnone₂, hother⟩ :=
        World.return_alone hend hnone₁ (hsame.trans hx) ht
      refine ⟨w₂, hreach.trans hreach', hnone₂, fun j hj call' attempts' hj' => ?_,
        fun j hj => ?_⟩
      · by_cases hji : j = i
        · subst hji
          obtain ⟨rfl, -⟩ := Thread.waiting.inj (hx.symm.trans hj')
          exact ⟨t, out, hret⟩
        · rw [hother j hji]
          exact hdone j (Finset.mem_of_mem_insert_of_ne hj hji) call' attempts' hj'
      · have hji : j ≠ i := by
          rintro rfl
          exact hj (Finset.mem_insert_self j s) call attempts hx
        rw [hother j hji]
        exact hkept j fun hjs => hj (Finset.mem_insert_of_mem hjs)
    · refine ⟨w₁, hreach, hnone₁, fun j hj call attempts hj' => ?_, fun j hj => ?_⟩
      · rcases Finset.mem_insert.1 hj with rfl | hj
        · exact absurd ⟨call, attempts, hj'⟩ hwaiting
        · exact hdone j hj call attempts hj'
      · exact hkept j fun hjs => hj (Finset.mem_insert_of_mem hjs)

/-- The call that a thread is making. -/
def Thread.pending : Thread ρ V γ τ φ ε α I → Option γ
  | .waiting c _ => some c
  | .active a => some a.call
  | _ => none

/-- **The progress rule**: from every world reached, the calls that are
being made can all return without another fault. -/
theorem Reaches.can_return [Fintype ι] (hend : T.Terminates)
    (hattempt : ∀ call, (T.attempt call).Nonempty)
    (h : T.Reaches (World.initial ι γ τ φ ε α I D₀) w) :
    ∃ w', T.Advances w w' ∧
      (∀ i call, (w.threads i).pending = some call → ∃ t out, w'.threads i = .returned call t out) ∧
      ∀ i, (w.threads i).pending = none → w'.threads i = w.threads i := by
  obtain ⟨w₁, hreach, hnone, hkept⟩ := h.drain_all hend Finset.univ
  obtain ⟨w₂, hreach', -, hdone, hrest⟩ := Reaches.return_all hend hattempt
    (fun i => hnone i (Finset.mem_univ i)) Finset.univ
  have hreturned : ∀ i call t out, w₁.threads i = .returned call t out →
      w₂.threads i = .returned call t out := fun i call t out hi =>
    (hrest i fun _ call' attempts hi' => by cases hi.symm.trans hi').trans hi
  refine ⟨w₂, hreach.trans hreach', fun i call hpending => ?_, fun i hpending => ?_⟩
  · cases hx : w.threads i with
    | idle | returned | refused => rw [hx] at hpending; cases hpending
    | waiting call' attempts =>
      rw [hx] at hpending
      obtain rfl : call' = call := Option.some.inj hpending
      rcases hkept i with hsame | ⟨a, out, hact, -⟩
      · exact hdone i (Finset.mem_univ i) _ attempts (hsame.trans hx)
      · cases hx.symm.trans hact
    | active a =>
      rw [hx] at hpending
      obtain rfl : a.call = call := Option.some.inj hpending
      rcases hkept i with hsame | ⟨b, out, hact, hret⟩
      · cases (w₁.active_of (hsame.trans hx)).symm.trans (hnone i (Finset.mem_univ i))
      · obtain rfl := Thread.active.inj (hx.symm.trans hact)
        exact ⟨a.txn, out, hreturned i _ _ _ hret⟩
  · rcases hkept i with hsame | ⟨a, out, hact, -⟩
    · refine (hrest i fun _ call attempts hi => ?_).trans hsame
      rw [← hsame, hi] at hpending
      cases hpending
    · rw [hact] at hpending
      cases hpending

/-- The attempts that a call has behind it. -/
def Thread.attempts : Thread ρ V γ τ φ ε α I → ℕ
  | .waiting _ attempts => attempts
  | .active a => a.attempts
  | _ => 0

/-- **Attempts are bounded** where faults do not make another one after
the `n`-th. -/
theorem Reaches.attempts_le {n : ℕ} (hagain : ∀ fault k, T.again fault k = true → k < n)
    (h : T.Reaches (World.initial ι γ τ φ ε α I D₀) w) (i : ι) : (w.threads i).attempts ≤ n := by
  have hset : ∀ {w : World ι ρ V γ τ φ ε α I} {j : ι} {x : Thread ρ V γ τ φ ε α I},
      (∀ i, (w.threads i).attempts ≤ n) → x.attempts ≤ n →
        ∀ i, ((w.set j x).threads i).attempts ≤ n := by
    intro w j x hw hx i
    by_cases hij : i = j
    · subst hij
      simpa [World.set] using hx
    · simpa [World.set, hij] using hw i
  have hfault : ∀ fault (call : γ) k, (T.afterFault fault call k).attempts ≤ n := by
    intro fault call k
    unfold afterFault
    split_ifs with hk
    · exact hagain fault k hk
    · exact Nat.zero_le n
  have hall : ∀ i, (w.threads i).attempts ≤ n := by
    induction h with
    | refl => exact fun _ => Nat.zero_le n
    | @step w w' _ hstep ih =>
      have hat : ∀ {i x}, w.threads i = x → x.attempts ≤ n := fun {i x} hi => hi ▸ ih i
      cases hstep with
      | issue | commit | abort => exact hset ih (Nat.zero_le n)
      | begin t hi =>
        have hattempts := hat hi
        exact hset ih hattempts
      | request hi | loop hi =>
        have hattempts := hat hi
        exact hset ih hattempts
      | lose fault => exact hset ih (hfault fault _ _)
      | deny fault => exact hset ih (hfault fault _ _)
  exact hall i

/-- The log only grows. -/
theorem Reaches.log_prefix (h : T.Reaches w w') : w.log <+: w'.log := by
  induction h with
  | refl => exact List.prefix_rfl
  | step _ hstep ih =>
    cases hstep with
    | commit | abort => exact ih.trans (List.prefix_append _ _)
    | issue | begin | request | loop | lose | deny => exact ih

end Transactions

end OpendalIndexeddb
