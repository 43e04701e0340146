import Mathlib.Logic.Function.Basic
import OpendalIndexeddb.Common.Noninterference
/-!
# Commuting inputs

Inputs of a machine that commute may be given in either order. Lists of
inputs that differ in the order of such inputs only lead to one state and
are answered alike. Two inputs commute where neither writes what the
other reads.
-/

namespace OpendalIndexeddb

variable {σ ι ο κ α : Type*}

/-! ## Runs -/

section Runs

variable {step : σ → ι → ο × σ} {s : σ} {i j : ι} {is js : List ι}

theorem run_append (step : σ → ι → ο × σ) (s : σ) (is js : List ι) :
    run step s (is ++ js) = ((run step s is).1 ++ (run step (run step s is).2 js).1,
      (run step (run step s is).2 js).2) := by
  induction is generalizing s with
  | nil => rfl
  | cons i is ih => rw [List.cons_append, run_cons, run_cons, ih, List.cons_append]

theorem length_run (step : σ → ι → ο × σ) (s : σ) (is : List ι) :
    (run step s is).1.length = is.length := by
  induction is generalizing s with
  | nil => rfl
  | cons i is ih => rw [run_cons, List.length_cons, List.length_cons, ih]

theorem outputsOf_append {mine : ι → Bool} {os os' : List ο} (h : is.length = os.length) :
    outputsOf mine (is ++ js) (os ++ os') = outputsOf mine is os ++ outputsOf mine js os' := by
  rw [outputsOf, List.zip_append h, List.filter_append, List.map_append]
  rfl

theorem outputsOf_map {mine : ι → Bool} {f : α → ι} {g : α → ο} (l : List α) :
    outputsOf mine (l.map f) (l.map g) = (l.filter fun a => mine (f a)).map g := by
  rw [outputsOf, List.zip_map', List.filter_map, List.map_map]
  rfl

/-- **Two inputs commute**: in either order they are answered alike and
lead to the same state. -/
structure Commutes (step : σ → ι → ο × σ) (i j : ι) : Prop where
  first : ∀ s, (step (step s j).2 i).1 = (step s i).1
  second : ∀ s, (step (step s i).2 j).1 = (step s j).1
  state : ∀ s, (step (step s j).2 i).2 = (step (step s i).2 j).2

/-- An input that commutes with those before it may be given first. -/
theorem run_commutes (h : ∀ j ∈ is, Commutes step i j) (s : σ) :
    (run step (step s i).2 is).1 = (run step s is).1 ∧
      step (run step s is).2 i = ((step s i).1, (run step (step s i).2 is).2) := by
  induction is generalizing s with
  | nil => exact ⟨rfl, rfl⟩
  | cons j is ih =>
    have hj := h j List.mem_cons_self
    obtain ⟨hout, hlast⟩ := ih (fun x hx => h x (List.mem_cons_of_mem _ hx)) (step s j).2
    rw [hj.state] at hout hlast
    rw [run_cons, run_cons, hj.second, hout, hlast, hj.first]
    exact ⟨rfl, rfl⟩

end Runs

/-! ## Inputs in the same order -/

section SameOrder

variable [DecidableEq ι] {step : σ → ι → ο × σ} {dep : ι → ι → Prop} {i j a : ι}
variable {is is' l m : List ι}

/-- The occurrences of two inputs. -/
def occurrences (i j : ι) (is : List ι) : List ι := is.filter fun x => x = i ∨ x = j

theorem occurrences_append :
    occurrences i j (is ++ is') = occurrences i j is ++ occurrences i j is' :=
  List.filter_append ..

theorem occurrences_cons_of (h : a = i ∨ a = j) :
    occurrences i j (a :: is) = a :: occurrences i j is :=
  List.filter_cons_of_pos (decide_eq_true h)

theorem occurrences_cons_other (h : ¬ (a = i ∨ a = j)) :
    occurrences i j (a :: is) = occurrences i j is :=
  List.filter_cons_of_neg (by simpa using h)

theorem mem_occurrences {x : ι} : x ∈ occurrences i j is ↔ x ∈ is ∧ (x = i ∨ x = j) := by
  rw [occurrences, List.mem_filter, decide_eq_true_iff]

/-- **Lists with the same inputs, in the same order where it matters.** -/
def SameOrder (dep : ι → ι → Prop) (is is' : List ι) : Prop :=
  ∀ i j, dep i j → occurrences i j is = occurrences i j is'

/-- Before its first occurrence, an input that comes first elsewhere has
none of the inputs that depend on it. -/
theorem occurrences_eq_nil (ha : a ∉ l) (h : a :: m = occurrences i j l ++ is) :
    occurrences i j l = [] := by
  rcases hl : occurrences i j l with _ | ⟨x, xs⟩
  · rfl
  · rw [hl, List.cons_append, List.cons.injEq] at h
    have hx : x ∈ occurrences i j l := hl ▸ List.mem_cons_self
    exact absurd (h.1 ▸ (mem_occurrences.1 hx).1) ha

/-- The order of a first input and the others, and what is left. -/
theorem SameOrder.split (hrefl : ∀ i, dep i i) (h : SameOrder dep (a :: is) is') :
    ∃ l m, is' = l ++ a :: m ∧ (∀ x ∈ l, ¬ dep a x) ∧ SameOrder dep is (l ++ m) := by
  have hmem : a ∈ is' := by
    have heq := h a a (hrefl a)
    rw [occurrences_cons_of (Or.inl rfl)] at heq
    exact (mem_occurrences.1 (heq ▸ List.mem_cons_self)).1
  obtain ⟨l, m, rfl, ha⟩ := List.eq_append_cons_of_mem hmem
  refine ⟨l, m, rfl, fun x hx hdep => ?_, fun i j hdep => ?_⟩
  · have heq := h a x hdep
    rw [occurrences_cons_of (Or.inl rfl), occurrences_append] at heq
    have hin : x ∈ occurrences a x l := mem_occurrences.2 ⟨hx, Or.inr rfl⟩
    rw [occurrences_eq_nil ha heq] at hin
    exact absurd hin List.not_mem_nil
  · have heq := h i j hdep
    rw [occurrences_append] at heq ⊢
    by_cases hij : a = i ∨ a = j
    · rw [occurrences_cons_of hij, occurrences_cons_of hij] at heq
      have hnil := occurrences_eq_nil ha heq
      rw [hnil] at heq ⊢
      exact List.tail_eq_of_cons_eq heq
    · rwa [occurrences_cons_other hij, occurrences_cons_other hij] at heq

/-- Inputs that do not depend on each other may change places. -/
theorem SameOrder.swap {b : ι} (hne : a ≠ b) (hab : ¬ dep a b) (hba : ¬ dep b a) (l m : List ι) :
    SameOrder dep (l ++ a :: b :: m) (l ++ b :: a :: m) := by
  intro i j hdep
  rw [occurrences_append, occurrences_append]
  refine congrArg _ ?_
  by_cases ha : a = i ∨ a = j
  · by_cases hb : b = i ∨ b = j
    · rcases ha with rfl | rfl
      · exact absurd ((hb.resolve_left hne.symm) ▸ hdep) hab
      · exact absurd ((hb.resolve_right hne.symm) ▸ hdep) hba
    · rw [occurrences_cons_of ha, occurrences_cons_other hb, occurrences_cons_other hb,
        occurrences_cons_of ha]
  · by_cases hb : b = i ∨ b = j
    · rw [occurrences_cons_other ha, occurrences_cons_of hb, occurrences_cons_of hb,
        occurrences_cons_other ha]
    · rw [occurrences_cons_other ha, occurrences_cons_other hb, occurrences_cons_other hb,
        occurrences_cons_other ha]

/-- **The order of inputs that commute does not matter**: every input has
the same answers, and the state is the same. -/
theorem run_of_sameOrder (hrefl : ∀ i, dep i i) (hcomm : ∀ i j, ¬ dep i j → Commutes step i j)
    (h : SameOrder dep is is') (s : σ) :
    (run step s is).2 = (run step s is').2 ∧
      ∀ i, outputsOf (fun x => decide (x = i)) is (run step s is).1 =
        outputsOf (fun x => decide (x = i)) is' (run step s is').1 := by
  induction is generalizing is' s with
  | nil =>
    rcases is' with _ | ⟨a, is'⟩
    · exact ⟨rfl, fun _ => rfl⟩
    · have heq := h a a (hrefl a)
      rw [occurrences_cons_of (Or.inl rfl)] at heq
      exact absurd heq (List.cons_ne_nil _ _).symm
  | cons a is ih =>
    obtain ⟨l, m, rfl, hindep, hrest⟩ := h.split hrefl
    obtain ⟨hstate, houts⟩ := ih hrest (step s a).2
    obtain ⟨hout, hlast⟩ := run_commutes (fun x hx => hcomm a x (hindep x hx)) s
    have hmoved : run step s (l ++ a :: m) = ((run step s l).1 ++ (step s a).1 ::
        (run step (run step (step s a).2 l).2 m).1,
        (run step (run step (step s a).2 l).2 m).2) := by
      rw [run_append, run_cons, hlast]
    rw [run_append, hout] at hstate houts
    rw [hmoved, run_cons]
    refine ⟨hstate, fun i => ?_⟩
    have hlen := (length_run step s l).symm
    have hrest := houts i
    rw [outputsOf_append hlen] at hrest ⊢
    by_cases hi : a = i
    · -- the inputs before are others
      have hnone : outputsOf (fun x => decide (x = i)) l (run step s l).1 = [] := by
        rw [outputsOf, List.map_eq_nil_iff, List.filter_eq_nil_iff]
        rintro ⟨x, o⟩ hx heq
        obtain rfl : x = i := by simpa using heq
        exact hindep x (List.of_mem_zip hx).1 (hi ▸ hrefl a)
      rw [hnone, List.nil_append] at hrest ⊢
      rw [outputsOf_cons_own (by simpa using hi), outputsOf_cons_own (by simpa using hi), hrest]
    · rw [outputsOf_cons_other (by simpa using hi), outputsOf_cons_other (by simpa using hi),
        hrest]

end SameOrder

/-! ## Footprints -/

section Footprints

variable {cell : σ → κ → α} {R R' W W' : κ → Prop} {step : σ → ι → ο × σ} {i j : ι}

/-- Two states are the same in the cells of a set. -/
def SameAt (cell : σ → κ → α) (q : κ → Prop) (s t : σ) : Prop := ∀ k, q k → cell s k = cell t k

/-- **What an operation reads and writes**, of a state that is made of
cells. -/
structure Footprint (cell : σ → κ → α) (R W : κ → Prop) (f : σ → ο × σ) : Prop where
  alike : Alike (SameAt cell R) f f
  frame : ∀ s, SameAt cell (fun k => ¬ W k) (f s).2 s
  reads_writes : ∀ k, W k → R k

/-- **Inputs commute where neither writes what the other reads.** -/
theorem Footprint.commutes (hcell : Function.Injective cell)
    (hi : Footprint cell R W fun s => step s i) (hj : Footprint cell R' W' fun s => step s j)
    (h : ∀ k, W k → ¬ R' k) (h' : ∀ k, W' k → ¬ R k) : Commutes step i j := by
  have hseen (s : σ) : SameAt cell R (step s j).2 s :=
    fun k hk => hj.frame s k fun hw => h' k hw hk
  have hseen' (s : σ) : SameAt cell R' (step s i).2 s :=
    fun k hk => hi.frame s k fun hw => h k hw hk
  refine ⟨fun s => (hi.alike _ _ (hseen s)).1, fun s => (hj.alike _ _ (hseen' s)).1, fun s => ?_⟩
  refine hcell (funext fun k => ?_)
  by_cases hk : W k
  · have hk' : ¬ W' k := fun hw => h' k hw (hi.reads_writes k hk)
    exact ((hi.alike _ _ (hseen s)).2 k (hi.reads_writes k hk)).trans (hj.frame _ k hk').symm
  · by_cases hk' : W' k
    · exact (hi.frame _ k hk).trans ((hj.alike _ _ (hseen' s)).2 k (hj.reads_writes k hk')).symm
    · calc cell (step (step s j).2 i).2 k = cell (step s j).2 k := hi.frame _ k hk
        _ = cell s k := hj.frame _ k hk'
        _ = cell (step s i).2 k := (hi.frame _ k hk).symm
        _ = cell (step (step s i).2 j).2 k := (hj.frame _ k hk').symm

end Footprints

end OpendalIndexeddb
