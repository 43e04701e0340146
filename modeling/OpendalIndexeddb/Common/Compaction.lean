import Mathlib.Data.List.Induction
import Mathlib.Data.List.Nodup
import OpendalIndexeddb.Common.Commutation
/-!
# Compacting a log of inputs

Inputs have keys. Those with one key merge: giving one and then the other
is giving one input made of both. Those with different keys commute. A
log of inputs may then be compacted to one input for each key, given in
any order.
-/

namespace OpendalIndexeddb

variable {σ ι ο κ : Type*} {key : ι → κ} {merge : ι → ι → ι}
variable {step : σ → ι → ο × σ} {i j : ι} {is js : List ι}

/-- **When a log may be compacted.** -/
structure Merges (step : σ → ι → ο × σ) (key : ι → κ) (merge : ι → ι → ι) : Prop where
  key_merge : ∀ i j, key i = key j → key (merge i j) = key i
  step_merge : ∀ i j, key i = key j → ∀ s, step (step s i).2 j = step s (merge i j)
  commutes : ∀ i j, key i ≠ key j → Commutes step i j

variable [DecidableEq κ]

/-- **Inputs with different keys may be given in any order**: this leads to
one state, and each is answered alike. -/
theorem Merges.run_perm (h : Merges step key merge) (hperm : is.Perm js) (his : (is.map key).Nodup)
    (s : σ) : (run step s is).2 = (run step s js).2 ∧
      ∀ k, outputsOf (fun i => decide (key i = k)) is (run step s is).1 =
        outputsOf (fun i => decide (key i = k)) js (run step s js).1 := by
  induction hperm generalizing s with
  | nil => exact ⟨rfl, fun _ => rfl⟩
  | @cons i is js _ ih =>
    obtain ⟨hstate, houts⟩ := ih (List.nodup_cons.1 his).2 (step s i).2
    refine ⟨hstate, fun k => ?_⟩
    rw [run_cons, run_cons]
    by_cases hk : key i = k
    · rw [outputsOf_cons_own (by simpa using hk), outputsOf_cons_own (by simpa using hk), houts k]
    · rw [outputsOf_cons_other (by simpa using hk), outputsOf_cons_other (by simpa using hk),
        houts k]
  | swap i j is =>
    have hne : key j ≠ key i := fun heq => (List.nodup_cons.1 his).1 (heq ▸ List.mem_cons_self)
    obtain ⟨hfirst, hsecond, hstate⟩ := h.commutes j i hne
    rw [run_cons, run_cons, run_cons, run_cons, hstate, hsecond s, hfirst s]
    refine ⟨rfl, fun k => ?_⟩
    by_cases hj : key j = k
    · -- the other one has another key
      have hi : ¬ key i = k := fun hi => hne (hj.trans hi.symm)
      rw [outputsOf_cons_own (by simpa using hj), outputsOf_cons_other (by simpa using hi),
        outputsOf_cons_other (by simpa using hi), outputsOf_cons_own (by simpa using hj)]
    · rw [outputsOf_cons_other (by simpa using hj)]
      by_cases hi : key i = k
      · rw [outputsOf_cons_own (by simpa using hi), outputsOf_cons_own (by simpa using hi),
          outputsOf_cons_other (by simpa using hj)]
      · rw [outputsOf_cons_other (by simpa using hi), outputsOf_cons_other (by simpa using hi),
          outputsOf_cons_other (by simpa using hj)]
  | trans hperm _ ih ih' =>
    obtain ⟨hstate, houts⟩ := ih his s
    obtain ⟨hstate', houts'⟩ := ih' ((hperm.map key).nodup_iff.1 his) s
    exact ⟨hstate.trans hstate', fun k => (houts k).trans (houts' k)⟩

/-- Adds an input to a log: into the one with its key, or at the end. -/
def addInput (key : ι → κ) (merge : ι → ι → ι) : List ι → ι → List ι
  | [], j => [j]
  | i :: is, j => if key i = key j then merge i j :: is else i :: addInput key merge is j

/-- **The compacted log**: one input for each key. -/
def compact (key : ι → κ) (merge : ι → ι → ι) (is : List ι) : List ι :=
  is.foldl (addInput key merge) []

namespace Merges

/-- Adding an input adds its key. -/
theorem mem_keys_addInput (h : Merges step key merge) {k : κ} :
    k ∈ (addInput key merge is j).map key ↔ k ∈ is.map key ∨ k = key j := by
  induction is with
  | nil => simp [addInput]
  | cons i is ih =>
    rw [addInput]
    split_ifs with hkey
    · rw [List.map_cons, List.map_cons, h.key_merge i j hkey, hkey]
      simp only [List.mem_cons]
      tauto
    · rw [List.map_cons, List.map_cons, List.mem_cons, List.mem_cons, ih, or_assoc]

theorem nodup_addInput (h : Merges step key merge) (his : (is.map key).Nodup) :
    ((addInput key merge is j).map key).Nodup := by
  induction is with
  | nil => simp [addInput]
  | cons i is ih =>
    rw [List.map_cons, List.nodup_cons] at his
    rw [addInput]
    split_ifs with hkey
    · rw [List.map_cons, h.key_merge i j hkey, List.nodup_cons]
      exact his
    · rw [List.map_cons, List.nodup_cons, h.mem_keys_addInput, not_or]
      exact ⟨⟨his.1, hkey⟩, ih his.2⟩

/-- **Adding an input to a log is giving it after the log.** -/
theorem run_addInput (h : Merges step key merge) (his : (is.map key).Nodup) (s : σ) :
    (run step s (addInput key merge is j)).2 = (step (run step s is).2 j).2 := by
  induction is generalizing s with
  | nil => rfl
  | cons i is ih =>
    rw [List.map_cons, List.nodup_cons] at his
    rw [addInput, run_cons]
    split_ifs with hkey
    · -- the inputs behind have other keys
      have hcomm : ∀ x ∈ is, Commutes step j x := fun x hx =>
        h.commutes j x fun heq => his.1 (hkey.trans heq ▸ List.mem_map_of_mem hx)
      rw [run_cons, ← h.step_merge i j hkey, (run_commutes hcomm _).2]
    · rw [run_cons, ih his.2]

/-- **What the inputs of a key are answered** when one is added: the added
one alone where it is its key, and else what they were. -/
theorem outputs_addInput (h : Merges step key merge) (his : (is.map key).Nodup) (k : κ) (s : σ) :
    outputsOf (fun i => decide (key i = k)) (addInput key merge is j)
        (run step s (addInput key merge is j)).1 =
      if key j = k then [(step (run step s is).2 j).1]
      else outputsOf (fun i => decide (key i = k)) is (run step s is).1 := by
  induction is generalizing s with
  | nil =>
    rw [addInput, run_cons]
    split_ifs with hk
    · rw [outputsOf_cons_own (by simpa using hk)]
      rfl
    · rw [outputsOf_cons_other (by simpa using hk)]
      rfl
  | cons i is ih =>
    rw [List.map_cons, List.nodup_cons] at his
    rw [addInput, run_cons]
    by_cases hkey : key i = key j
    · have hcomm : ∀ x ∈ is, Commutes step j x := fun x hx =>
        h.commutes j x fun heq => his.1 (hkey.trans heq ▸ List.mem_map_of_mem hx)
      obtain ⟨hrest, hlast⟩ := run_commutes hcomm (step s i).2
      have hmerged := h.key_merge i j hkey
      rw [if_pos hkey, run_cons, ← h.step_merge i j hkey, hlast, hrest]
      split_ifs with hk
      · have hown : key (merge i j) = k := hmerged.trans (hkey.trans hk)
        rw [outputsOf_cons_own (by simpa using hown)]
        refine congrArg (List.cons _) ?_
        -- the inputs behind have other keys
        rw [outputsOf, List.map_eq_nil_iff, List.filter_eq_nil_iff]
        rintro ⟨x, o⟩ hx heq
        obtain rfl : key x = k := by simpa using heq
        exact his.1 (hkey.trans hk ▸ List.mem_map_of_mem (List.of_mem_zip hx).1)
      · have hother : ¬ key i = k := fun heq => hk (hkey ▸ heq)
        have hother' : ¬ key (merge i j) = k := hmerged ▸ hother
        rw [outputsOf_cons_other (by simpa using hother'),
          outputsOf_cons_other (by simpa using hother)]
    · rw [if_neg hkey, run_cons]
      by_cases hk : key i = k
      · have hne : ¬ key j = k := fun heq => hkey (hk.trans heq.symm)
        rw [outputsOf_cons_own (by simpa using hk), ih his.2, if_neg hne, if_neg hne,
          outputsOf_cons_own (by simpa using hk)]
      · rw [outputsOf_cons_other (by simpa using hk), ih his.2,
          outputsOf_cons_other (by simpa using hk)]

/-- A compacted log has one input for each key. -/
theorem keys_compact (h : Merges step key merge) (is : List ι) :
    ((compact key merge is).map key).Nodup ∧
      ∀ k, k ∈ (compact key merge is).map key ↔ k ∈ is.map key := by
  induction is using List.reverseRecOn with
  | nil => exact ⟨List.nodup_nil, fun k => Iff.rfl⟩
  | append_singleton is j ih =>
    rw [compact, List.foldl_append]
    refine ⟨h.nodup_addInput ih.1, fun k => ?_⟩
    rw [List.foldl_cons, List.foldl_nil, h.mem_keys_addInput]
    change k ∈ (compact key merge is).map key ∨ _ ↔ _
    rw [ih.2, List.map_append, List.mem_append, List.map_singleton, List.mem_singleton]

/-- **A compacted log leads where the log leads.** -/
theorem run_compact (h : Merges step key merge) (is : List ι) (s : σ) :
    (run step s (compact key merge is)).2 = (run step s is).2 := by
  induction is using List.reverseRecOn with
  | nil => rfl
  | append_singleton is j ih =>
    rw [compact, List.foldl_append, List.foldl_cons, List.foldl_nil, run_append]
    have hadd := h.run_addInput (j := j) (h.keys_compact is).1 s
    rw [ih] at hadd
    exact hadd

/-- **What it is answered** for a key is what the last input of the key is
answered. -/
theorem outputs_compact (h : Merges step key merge) (is : List ι) (k : κ) (s : σ) :
    outputsOf (fun i => decide (key i = k)) (compact key merge is)
        (run step s (compact key merge is)).1 =
      (outputsOf (fun i => decide (key i = k)) is (run step s is).1).getLast?.toList := by
  induction is using List.reverseRecOn with
  | nil => rfl
  | append_singleton is j ih =>
    rw [compact, List.foldl_append, List.foldl_cons, List.foldl_nil]
    have hadd := h.outputs_addInput (j := j) (h.keys_compact is).1 k s
    rw [compact] at hadd ih
    have hrun := h.run_compact is s
    rw [compact] at hrun
    rw [hadd, ih, hrun, run_append, outputsOf_append (length_run step s is).symm, run_cons]
    split_ifs with hk
    · rw [outputsOf_cons_own (by simpa using hk)]
      simp [run, outputsOf]
    · rw [outputsOf_cons_other (by simpa using hk)]
      simp [run, outputsOf]

end Merges

end OpendalIndexeddb
