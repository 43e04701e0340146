import OpendalIndexeddb.Common.Commutation
import OpendalIndexeddb.Model.Handles
import OpendalIndexeddb.Model.Reference
/-!
# Writers among other operations

A writer keeps what it is given to itself until it is closed. However the
calls on any number of writers fall among each other and among other
operations, what happens to the stores is one write for each close.
-/

namespace OpendalIndexeddb

variable {O : Opendal} {P : Platform} {ι : Type} [DecidableEq ι] {i : ι}
variable {before calls : List (HandleCall ι)} {x : Handles ι}

/-! ## What calls come to -/

/-- **What a writer is to write**, by the calls before, the last of them
first: where, how, and the bytes since it was opened or aborted. -/
def pending (i : ι) : List (HandleCall ι) → Option (Str × WriteArgs × Bytes)
  | [] => none
  | .openWriter j path args :: before =>
    if j = i then some (path, args, []) else pending i before
  | .write j bs :: before =>
    if j = i then (pending i before).map fun (path, args, bytes) => (path, args, bytes ++ bs)
    else pending i before
  | .abort j :: before =>
    if j = i then (pending i before).map fun (path, args, _) => (path, args, [])
    else pending i before
  | .close _ _ :: before => pending i before
  | .other _ :: before => pending i before

/-- The operation that a call is, if it is one: a close is the write of
what is pending. -/
def HandleCall.op (before : List (HandleCall ι)) : HandleCall ι → Option Op
  | .close i (.ok now) =>
    (pending i before).map fun (path, args, bytes) => .mutate (.set now path bytes args)
  | .other op => some op
  | _ => none

/-- The operations that calls are, in their order. -/
def opsOf : List (HandleCall ι) → List (HandleCall ι) → List Op
  | _, [] => []
  | before, c :: calls => (c.op before).toList ++ opsOf (c :: before) calls

/-! ## One call -/

/-- What a writer is to write. -/
def IndexeddbWriter.pending (w : IndexeddbWriter) : Str × WriteArgs × Bytes :=
  (w.path, w.args, w.buffer.flatten)

/-- Every writer holds what is pending. -/
def Handles.Holds (x : Handles ι) (before : List (HandleCall ι)) : Prop :=
  ∀ i, (x.writers i).map IndexeddbWriter.pending = pending i before

/-- Where the writers stay, they hold what they held. -/
theorem Handles.Holds.keep (h : x.Holds before) {c : HandleCall ι} {s : Stores}
    (hc : ∀ i, pending i (c :: before) = pending i before) :
    Handles.Holds { x with stores := s } (c :: before) := fun i => (h i).trans (hc i).symm

/-- **A call that changes a writer** changes what is pending there. -/
theorem Handles.Holds.change (h : x.Holds before) {c : HandleCall ι}
    {f : IndexeddbWriter → IndexeddbWriter} {g : Str × WriteArgs × Bytes → Str × WriteArgs × Bytes}
    (hc : ∀ j, pending j (c :: before) = if i = j then (pending j before).map g
      else pending j before)
    (hf : ∀ w, (f w).pending = g w.pending) : (x.change i f).2.Holds (c :: before) := by
  intro j
  rw [hc, ← h j]
  unfold Handles.change
  rcases hw : x.writers i with _ | w
  · show (x.writers j).map _ = _
    split_ifs with hij
    · rw [← hij, hw]
      rfl
    · rfl
  · show (Function.update x.writers i (some (f w)) j).map _ = _
    split_ifs with hij
    · rw [← hij, Function.update_self, hw]
      exact congrArg some (hf w)
    · rw [Function.update_of_ne (Ne.symm hij)]

@[simp] theorem Handles.change_stores (x : Handles ι) (i : ι)
    (f : IndexeddbWriter → IndexeddbWriter) : (x.change i f).2.stores = x.stores := by
  unfold Handles.change
  cases x.writers i <;> rfl

@[simp] theorem Handles.change_outcome? (x : Handles ι) (i : ι)
    (f : IndexeddbWriter → IndexeddbWriter) : (x.change i f).1.outcome? = none := by
  unfold Handles.change
  cases x.writers i <;> rfl

/-- **One call**: the stores change, and an outcome is reported, as by the
operation that the call is. -/
theorem Handles.serve_spec (h : x.Holds before) (c : HandleCall ι) :
    (x.serve O P c).2.Holds (c :: before) ∧
      ((x.serve O P c).1.outcome?.toList, (x.serve O P c).2.stores) =
        run (Op.step O P) x.stores (c.op before).toList := by
  cases c with
  | openWriter i path args =>
    refine ⟨fun j => ?_, rfl⟩
    show (Function.update x.writers i (some (.new path args)) j).map _ = if i = j then _ else _
    split_ifs with hij
    · subst hij
      rw [Function.update_self]
      rfl
    · rw [Function.update_of_ne (Ne.symm hij), h j]
  | write i bs =>
    refine ⟨h.change (g := fun w => (w.1, w.2.1, w.2.2 ++ bs)) (fun j => rfl) fun w => ?_, ?_⟩
    · simp [IndexeddbWriter.pending, IndexeddbWriter.write]
    · simp [serve, HandleCall.op, run]
  | abort i =>
    refine ⟨h.change (g := fun w => (w.1, w.2.1, [])) (fun j => rfl) fun w => rfl, ?_⟩
    simp [serve, HandleCall.op, run]
  | close i attempt =>
    have hpending := h i
    rcases hw : x.writers i with _ | w
    · rw [hw] at hpending
      cases attempt <;> simp only [serve, hw, HandleCall.op, ← hpending] <;>
        exact ⟨h.keep fun _ => rfl, rfl⟩
    · rw [hw] at hpending
      cases attempt with
      | error err =>
        simp only [serve, hw, HandleCall.op]
        exact ⟨h.keep fun _ => rfl, rfl⟩
      | ok now =>
        simp only [serve, hw, HandleCall.op, ← hpending]
        exact ⟨h.keep fun _ => rfl, rfl⟩
  | other op => exact ⟨h.keep fun _ => rfl, rfl⟩

/-! ## Runs -/

theorem Handles.run_spec (h : x.Holds before) (calls : List (HandleCall ι)) :
    ((run (Handles.serve O P) x calls).1.filterMap HandleAnswer.outcome?,
      (run (Handles.serve O P) x calls).2.stores) =
        run (Op.step O P) x.stores (opsOf before calls) := by
  induction calls generalizing x before with
  | nil => rfl
  | cons c calls ih =>
    obtain ⟨hholds, hstep⟩ := x.serve_spec (O := O) (P := P) h c
    obtain ⟨houts, hstores⟩ := Prod.ext_iff.1 (ih hholds)
    obtain ⟨hout, hstore⟩ := Prod.ext_iff.1 hstep
    have hcons : ∀ (a : HandleAnswer) (as : List HandleAnswer),
        (a :: as).filterMap HandleAnswer.outcome? =
          a.outcome?.toList ++ as.filterMap HandleAnswer.outcome? := by
      intro a as
      cases a <;> rfl
    rw [run_cons, hcons, opsOf, run_append]
    refine Prod.ext ?_ ?_
    · dsimp only at houts hout hstore ⊢
      rw [houts, hout, hstore]
    · dsimp only at hstores hstore ⊢
      rw [hstores, hstore]

/-! ## How the chunks are cut -/

/-- A call on a writer. -/
def HandleCall.On (i : ι) : HandleCall ι → Prop
  | .openWriter j _ _ => j = i
  | .write j _ => j = i
  | .close j _ => j = i
  | .abort j => j = i
  | .other _ => False

variable {before' : List (HandleCall ι)} {c : HandleCall ι}

/-- What is pending after a call depends on what was pending before. -/
theorem pending_cons_congr (h : pending i before = pending i before') :
    pending i (c :: before) = pending i (c :: before') := by
  cases c <;> simp only [pending, h]

theorem pending_cons_of_not_on (hc : ¬ c.On i) : pending i (c :: before) = pending i before := by
  cases c with
  | openWriter j path args => exact if_neg hc
  | write j bs => exact if_neg hc
  | abort j => exact if_neg hc
  | close j attempt => rfl
  | other op => rfl

/-- A call is an operation by what is pending on its writer. -/
theorem op_congr (h : ∀ j, c.On j → pending j before = pending j before') :
    c.op before = c.op before' := by
  cases c with
  | close j attempt => cases attempt <;> simp only [HandleCall.op, h j rfl]
  | _ => rfl

theorem opsOf_congr (h : ∀ j, pending j before = pending j before') :
    opsOf before calls = opsOf before' calls := by
  induction calls generalizing before before' with
  | nil => rfl
  | cons c calls ih =>
    rw [opsOf, opsOf, op_congr fun j _ => h j, ih fun j => pending_cons_congr (h j)]

/-- **A chunk may wait** while nothing is done with its writer, and be
handed over with the next. -/
theorem opsOf_joined (a b : Bytes) {mid : List (HandleCall ι)} (hmid : ∀ c ∈ mid, ¬ c.On i)
    (post : List (HandleCall ι)) :
    opsOf (.write i a :: before) (mid ++ .write i b :: post) =
      opsOf before (mid ++ .write i (a ++ b) :: post) := by
  -- writers other than `i` are in step, and `i` is behind by the chunk
  have hgen : ∀ {before before' : List (HandleCall ι)},
      (∀ j, j ≠ i → pending j before = pending j before') →
      pending i before = (pending i before').map (fun w => (w.1, w.2.1, w.2.2 ++ a)) →
      opsOf before (mid ++ .write i b :: post) =
        opsOf before' (mid ++ .write i (a ++ b) :: post) := by
    induction mid with
    | nil =>
      intro before before' hother hown
      refine congrArg _ (opsOf_congr fun j => ?_)
      by_cases hj : i = j
      · subst hj
        simp only [pending, if_true, hown, Option.map_map]
        refine Option.map_congr fun w _ => ?_
        simp [List.append_assoc]
      · simp only [pending, if_neg hj, hother j (Ne.symm hj)]
    | cons c mid ih =>
      intro before before' hother hown
      have hc := hmid c List.mem_cons_self
      have hop : c.op before = c.op before' :=
        op_congr fun j hj => hother j fun hji => hc (hji ▸ hj)
      rw [List.cons_append, List.cons_append, opsOf, opsOf, hop]
      refine congrArg _ (ih (fun c' h' => hmid c' (List.mem_cons_of_mem _ h')) ?_ ?_)
      · exact fun j hj => pending_cons_congr (hother j hj)
      · rw [pending_cons_of_not_on hc, pending_cons_of_not_on hc, hown]
  refine hgen (fun j hj => ?_) ?_
  · exact if_neg (Ne.symm hj)
  · exact if_pos rfl

theorem opsOf_append (pre post : List (HandleCall ι)) :
    opsOf before (pre ++ post) = opsOf before pre ++ opsOf (pre.reverse ++ before) post := by
  induction pre generalizing before with
  | nil => rfl
  | cons c pre ih =>
    rw [List.cons_append, opsOf, ih, opsOf, List.reverse_cons, List.append_assoc, List.append_assoc]
    rfl

/-- The handles of a client that has opened none. -/
def Handles.initial (ι : Type) (s : Stores) : Handles ι := ⟨fun _ => none, s⟩

/-- **A writer writes once for each close.** However calls on any number of
writers and other operations fall among each other, the outcomes and the
stores are those of the operations alone, each close the write of the
bytes since its writer was opened or aborted. A close that failed writes
nothing and leaves them for the next, one that wrote leaves them too, and
what is aborted or never closed is not written at all. How the bytes are
cut into chunks does not matter, nor when each chunk is handed over. -/
theorem writers_write_once (O : Opendal) (P : Platform) (s : Stores)
    (calls : List (HandleCall ι)) :
    ((run (Handles.serve O P) (.initial ι s) calls).1.filterMap HandleAnswer.outcome?,
      (run (Handles.serve O P) (.initial ι s) calls).2.stores) =
        run (Op.step O P) s (opsOf [] calls) ∧
    ∀ (pre mid post : List (HandleCall ι)) (i : ι) (a b : Bytes), (∀ c ∈ mid, ¬ c.On i) →
      calls = pre ++ .write i a :: (mid ++ .write i b :: post) →
        opsOf [] calls = opsOf [] (pre ++ (mid ++ .write i (a ++ b) :: post)) := by
  refine ⟨Handles.run_spec (fun _ => rfl) calls, ?_⟩
  rintro pre mid post i a b hmid rfl
  rw [opsOf_append, opsOf_append]
  refine congrArg _ ?_
  rw [opsOf]
  exact opsOf_joined a b hmid post

end OpendalIndexeddb
