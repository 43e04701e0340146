import OpendalIndexeddb.Common.Run
/-!
# Non-interference

A machine that several parties give inputs to. One party's outputs do not
depend on the others' inputs where two conditions hold on what it can
tell apart: it is answered alike from states it cannot tell apart, and it
cannot tell what another's step changed.
-/

namespace OpendalIndexeddb

variable {σ ι ο : Type*} {mine : ι → Bool} {i : ι} {is : List ι} {o : ο} {os : List ο}

/-- The outputs of a party, out of those of a run. -/
def outputsOf (mine : ι → Bool) (is : List ι) (os : List ο) : List ο :=
  ((is.zip os).filter fun io => mine io.1).map Prod.snd

@[simp] theorem outputsOf_nil : outputsOf mine [] os = [] := rfl

theorem outputsOf_cons_own (h : mine i = true) :
    outputsOf mine (i :: is) (o :: os) = o :: outputsOf mine is os := by
  simp [outputsOf, h]

theorem outputsOf_cons_other (h : mine i = false) :
    outputsOf mine (i :: is) (o :: os) = outputsOf mine is os := by
  simp [outputsOf, h]

/-- **The unwinding conditions** on the states a party cannot tell
apart. -/
structure Unwinding (step : σ → ι → ο × σ) (mine : ι → Bool) (R : σ → σ → Prop) : Prop where
  /-- The party's own inputs are answered alike. -/
  own : ∀ i, mine i = true → Alike R (fun s => step s i) fun t => step t i
  /-- An input of another leaves what the party could not tell apart. -/
  other : ∀ i, mine i = false → ∀ s t, R s t → R (step s i).2 t

/-- **The unwinding rule**: a party's outputs are those of the run without
the others. -/
theorem Unwinding.run_filter {step : σ → ι → ο × σ} {R : σ → σ → Prop}
    (h : Unwinding step mine R) {s t : σ} (hst : R s t) (is : List ι) :
    outputsOf mine is (run step s is).1 = (run step t (is.filter mine)).1 ∧
      R (run step s is).2 (run step t (is.filter mine)).2 := by
  induction is generalizing s t with
  | nil => exact ⟨rfl, hst⟩
  | cons i is ih =>
    rcases hi : mine i with _ | _
    · rw [List.filter_cons_of_neg (by simp [hi]), run_cons, outputsOf_cons_other hi]
      exact ih (h.other i hi s t hst)
    · obtain ⟨hout, hnext⟩ := h.own i hi s t hst
      obtain ⟨houts, hend⟩ := ih hnext
      rw [List.filter_cons_of_pos hi, run_cons, run_cons, outputsOf_cons_own hi]
      exact ⟨congrArg₂ List.cons hout houts, hend⟩

end OpendalIndexeddb
