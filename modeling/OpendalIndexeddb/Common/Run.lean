import Mathlib.Data.List.Forall2
/-!
# Runs of a deterministic machine

A machine is a step function: from a state and an input, an output and
the next state. A run feeds it a list of inputs. Invariants, simulations
and the conditions under which two machines agree are shown for one step
and hold over runs by the rules below.
-/

namespace OpendalIndexeddb

variable {σ τ ι ο ο' : Type*}

/-- The outputs of a run and the state it ends in. -/
def run (step : σ → ι → ο × σ) : σ → List ι → List ο × σ
  | s, [] => ([], s)
  | s, i :: is => ((step s i).1 :: (run step (step s i).2 is).1, (run step (step s i).2 is).2)

section Rules

variable {step : σ → ι → ο × σ} {step' : τ → ι → ο' × τ} {s : σ} {t : τ} {is : List ι}

theorem run_cons (i : ι) : run step s (i :: is) =
    ((step s i).1 :: (run step (step s i).2 is).1, (run step (step s i).2 is).2) := rfl

/-- **The invariant rule.** -/
theorem run_invariant {I : σ → Prop} (hstep : ∀ s i, I s → I (step s i).2)
    (h : I s) (is : List ι) : I (run step s is).2 := by
  induction is generalizing s with
  | nil => exact h
  | cons i is ih => exact ih (hstep s i h)

/-- **The simulation rule**: related states stay related, and the outputs
are related one by one. -/
theorem run_simulates {R : σ → τ → Prop} {Q : ο → ο' → Prop}
    (hstep : ∀ s t i, R s t → Q (step s i).1 (step' t i).1 ∧ R (step s i).2 (step' t i).2)
    (h : R s t) (is : List ι) :
    List.Forall₂ Q (run step s is).1 (run step' t is).1 ∧
      R (run step s is).2 (run step' t is).2 := by
  induction is generalizing s t with
  | nil => exact ⟨.nil, h⟩
  | cons i is ih =>
    obtain ⟨hout, hnext⟩ := hstep s t i h
    obtain ⟨houts, hend⟩ := ih hnext
    exact ⟨.cons hout houts, hend⟩

/-- The simulation rule for the states alone. -/
theorem run_related {R : σ → τ → Prop}
    (hstep : ∀ s t i, R s t → R (step s i).2 (step' t i).2) (h : R s t) (is : List ι) :
    R (run step s is).2 (run step' t is).2 :=
  (run_simulates (Q := fun _ _ => True) (fun s t i h => ⟨trivial, hstep s t i h⟩) h is).2

/-- **The refinement rule**: where each step follows one of an abstract
transition function, a run follows the fold of them. -/
theorem run_refines {R : σ → τ → Prop} {next : τ → ι → τ}
    (hstep : ∀ s t i, R s t → R (step s i).2 (next t i)) (h : R s t) (is : List ι) :
    R (run step s is).2 (is.foldl next t) := by
  induction is generalizing s t with
  | nil => exact h
  | cons i is ih => exact ih (hstep s t i h)

end Rules

section Agreement

variable {step : σ → ι → ο × σ} {step' : τ → ι → ο × τ} {s : σ} {t : τ}

/-- Two operations answer alike from related states, and leave related
states. -/
def Alike (R : σ → τ → Prop) (f : σ → ο × σ) (f' : τ → ο × τ) : Prop :=
  ∀ s t, R s t → (f s).1 = (f' t).1 ∧ R (f s).2 (f' t).2

/-- What is made of the answer alone is alike as well. -/
theorem Alike.map {R : σ → τ → Prop} {f : σ → ο × σ} {f' : τ → ο × τ} (h : Alike R f f')
    (g : ο → ο') : Alike R (fun s => (g (f s).1, (f s).2)) fun t => (g (f' t).1, (f' t).2) := by
  intro s t hst
  obtain ⟨hout, hnext⟩ := h s t hst
  exact ⟨congrArg g hout, hnext⟩

/-- **The bisimulation rule**: machines that answer alike from related
states cannot be told apart by a run. -/
theorem run_eq_of_bisim {R : σ → τ → Prop}
    (hstep : ∀ i, Alike R (fun s => step s i) fun t => step' t i) (h : R s t) (is : List ι) :
    (run step s is).1 = (run step' t is).1 ∧ R (run step s is).2 (run step' t is).2 := by
  obtain ⟨houts, hend⟩ := run_simulates (Q := Eq) (fun s t i => hstep i s t) h is
  exact ⟨List.forall₂_eq_eq_eq ▸ houts, hend⟩

/-- A condition on every step of a run, and the state it is taken from. -/
def Along (step : σ → ι → ο × σ) (cond : σ → ι → Prop) : σ → List ι → Prop
  | _, [] => True
  | s, i :: is => cond s i ∧ Along step cond (step s i).2 is

/-- **The agreement rule**: where one step answers alike exactly under a
condition, a run does exactly when all its steps meet it. -/
theorem run_outputs_eq_iff {R : σ → τ → Prop} {cond : σ → ι → Prop}
    (hout : ∀ s t i, R s t → ((step s i).1 = (step' t i).1 ↔ cond s i))
    (hnext : ∀ s t i, R s t → R (step s i).2 (step' t i).2) (h : R s t) (is : List ι) :
    (run step s is).1 = (run step' t is).1 ↔ Along step cond s is := by
  induction is generalizing s t with
  | nil => exact ⟨fun _ => trivial, fun _ => rfl⟩
  | cons i is ih =>
    rw [run_cons, run_cons, List.cons.injEq, hout s t i h, ih (hnext s t i h), Along]

end Agreement

end OpendalIndexeddb
