import OpendalIndexeddb.Common.Serializable
/-!
# What interleaved transactions request

A transaction under way makes no request that it would not make alone,
from what it found: what is to be said of the requests of a transaction
can be said of it alone.
-/

namespace OpendalIndexeddb

open Program

namespace Transactions

variable {ι ρ V γ τ φ ε α : Type} {I : Interface}
variable {T : Transactions ρ V γ τ φ ε α I} {D₀ D cells cells' : ρ → V}
variable {w w' : World ι ρ V γ τ φ ε α I} {i j : ι}
variable {a b : Active ρ V γ τ ε α I}

/-- What is left of a transaction requests what all of it would alone. -/
def Foreseen (T : Transactions ρ V γ τ φ ε α I) (cells : ρ → V) (a : Active ρ V γ τ ε α I) :
    Prop :=
  ∀ r u, Asks (T.semantics a.txn) r u a.rest cells →
    ∃ u', Asks (T.semantics a.txn) r u' (T.program a.txn) a.start ∧
      Set.EqOn u u' (T.scope a.txn)

/-- From cells that agree in its scope, it requests the same. -/
theorem Foreseen.congr (h : T.Foreseen cells a) (heq : Set.EqOn cells' cells (T.scope a.txn)) :
    T.Foreseen cells' a := by
  intro r u hask
  obtain ⟨v, hv, huv⟩ := hask.simulate rfl (T.alike a.txn) heq
  obtain ⟨u', hu', hvu⟩ := h r v hv
  exact ⟨u', hu', huv.trans hvu⟩

/-- A transaction that goes on still requests what it was to request. -/
theorem Foreseen.advance (h : T.Foreseen cells a) {rest : Program I ε α}
    (hrest : ∀ r u, Asks (T.semantics a.txn) r u rest cells' →
      Asks (T.semantics a.txn) r u a.rest cells) : T.Foreseen cells' { a with rest } :=
  fun r u hask => h r u (hrest r u hask)

/-- What one transaction does leaves what another is to request. -/
theorem Sound.foreseen_other (h : T.Sound D₀ D w) (hw : T.Foreseen w.cells b) (hji : j ≠ i)
    (hi : w.threads i = .active a) (hj : w.threads j = .active b)
    (hframe : Set.EqOn cells' w.cells (T.scope a.txn)ᶜ)
    (hread : T.readwrite a.txn = false → cells' = w.cells) : T.Foreseen cells' b :=
  hw.congr (h.isolated.eqOn_other hji.symm (w.active_of hi) (w.active_of hj) hframe hread)

/-- Losing what a transaction did leaves what another is to request. -/
theorem Sound.foreseen_rollback (h : T.Sound D₀ D w) (hw : T.Foreseen w.cells b) (hji : j ≠ i)
    (hi : w.threads i = .active a) (hj : w.threads j = .active b) :
    T.Foreseen (T.rollback a w.cells) b := by
  classical
  refine h.foreseen_other hw hji hi hj (fun n hn => ?_) fun hread =>
    h.isolated.rollback_of_reads (w.active_of hi) hread
  rw [Transactions.rollback, Set.piecewise_eq_of_notMem _ _ _ hn]

variable [DecidableEq ι]

theorem Sound.foreseen_step (h : T.Sound D₀ D w)
    (hw : ∀ i a, w.threads i = .active a → T.Foreseen w.cells a) (hstep : T.Step w w')
    (hj : w'.threads j = .active b) : T.Foreseen w'.cells b := by
  have hother {i : ι} {x : Thread ρ V γ τ φ ε α I} (hji : j ≠ i)
      (hj : Function.update w.threads i x j = .active b) : w.threads j = .active b :=
    (Function.update_of_ne hji ..).symm.trans hj
  have hown {x : Thread ρ V γ τ φ ε α I} (hj : Function.update w.threads j x j = .active b) :
      x = .active b :=
    (Function.update_self (f := w.threads) ..).symm.trans hj
  cases hstep with
  | @issue i call hi =>
    by_cases hji : j = i
    · subst hji
      exact nomatch hown hj
    · exact hw j b (hother hji hj)
  | @deny i call attempts fault hi =>
    by_cases hji : j = i
    · subst hji
      exact absurd (hown hj) afterFault_ne_active
    · exact hw j b (hother hji hj)
  | @begin i call attempts t hi ht hfree =>
    by_cases hji : j = i
    · subst hji
      obtain rfl := Thread.active.inj (hown hj)
      exact fun r u hask => ⟨u, hask, Set.eqOn_refl u _⟩
    · exact hw j b (hother hji hj)
  | @request i a r k hi hr =>
    by_cases hji : j = i
    · subst hji
      obtain rfl := Thread.active.inj (hown hj)
      exact (hw j a hi).advance fun r' u hask => hr ▸ hask.later
    · refine h.foreseen_other (hw j b (hother hji hj)) hji hi (hother hji hj) (T.frame _ _ _)
        fun hread => ?_
      have hquiet := hr ▸ h.isolated.quiet i a (w.active_of hi) hread
      exact T.handle_reads _ _ _ hquiet.1
  | @loop i a l k hi hr =>
    by_cases hji : j = i
    · subst hji
      obtain rfl := Thread.active.inj (hown hj)
      exact (hw j a hi).advance fun r u hask => hr ▸ hask.call
    · exact hw j b (hother hji hj)
  | @commit i a x hi hr =>
    by_cases hji : j = i
    · subst hji
      exact nomatch hown hj
    · exact hw j b (hother hji hj)
  | @abort i a err hi hr =>
    by_cases hji : j = i
    · subst hji
      exact nomatch hown hj
    · exact h.foreseen_rollback (hw j b (hother hji hj)) hji hi (hother hji hj)
  | @lose i a fault hi =>
    by_cases hji : j = i
    · subst hji
      exact absurd (hown hj) afterFault_ne_active
    · exact h.foreseen_rollback (hw j b (hother hji hj)) hji hi (hother hji hj)

/-- **Each request is one the transaction makes alone**, from what it
found, and there it finds the same in its scope. -/
theorem Reaches.foreseen (h : T.Reaches (World.initial ι γ τ φ ε α I D₀) w)
    (hi : w.threads i = .active a) : T.Foreseen w.cells a := by
  induction h generalizing i a with
  | refl => exact nomatch hi
  | step hreach hstep ih =>
    obtain ⟨D, hD⟩ := hreach.sound
    exact hD.foreseen_step (fun i a hi => ih hi) hstep hi

end Transactions

end OpendalIndexeddb
