import OpendalIndexeddb.Model.Handles
import OpendalIndexeddb.StableKeys
/-!
# Listings whose transactions fail

A page transaction that fails leaves the lister where it was, and the
outer lister counts what it returned. So failures show in a listing as
errors and in no other way, and the limit holds whatever the lister under
it does.
-/

namespace OpendalIndexeddb

open IndexeddbCore

variable {O : Opendal} {P : Platform}

/-! ## A limit over any lister -/

namespace IndexeddbLimitLister

variable {σ κ : Type} {f : σ → κ → Except Error (Option Entry) × σ}
variable {l : IndexeddbLimitLister σ} {limit : UInt32} {k : κ} {ks : List κ}

/-- The entry of a result that has one. -/
def emittedEntry? : Except Error (Option Entry) → Option Entry
  | .ok entry => entry
  | .error _ => none

/-- The entries among the results of calls. -/
def emittedEntries (results : List (Except Error (Option Entry))) : List Entry :=
  results.filterMap emittedEntry?

theorem length_emittedEntries_cons (r : Except Error (Option Entry))
    (rs : List (Except Error (Option Entry))) :
    (emittedEntries (r :: rs)).length =
      (emittedEntries [r]).length + (emittedEntries rs).length := by
  unfold emittedEntries
  rw [← List.length_append, ← List.filterMap_append]
  rfl

/-- Whether the limit is reached. -/
def full (l : IndexeddbLimitLister σ) : Bool := l.limit.any fun limit => limit.toNat ≤ l.emitted

/-- Below its limit the outer lister returns what the inner one does, and
counts the entries. -/
theorem tryNext_of_not_full (h : l.full = false) :
    l.tryNext f k = ((f l.inner k).1,
      { l with
        inner := (f l.inner k).2
        emitted := l.emitted + (emittedEntries [(f l.inner k).1]).length }) := by
  rw [tryNext, if_neg (by simpa [full] using h)]
  rcases f l.inner k with ⟨_ | _ | _, inner⟩ <;> rfl

/-- At its limit it does not ask the inner one. -/
theorem run_full (h : l.full = true) (ks : List κ) :
    run (fun l k => tryNext f l k) l ks = (List.replicate ks.length (.ok none), l) := by
  induction ks with
  | nil => rfl
  | cons k ks ih =>
    have hnext : tryNext f l k = (.ok none, l) := if_pos h
    rw [run_cons, hnext, ih]
    rfl

/-- **What the outer lister does over any calls**: those of a first part go
to the inner lister, whose results it returns, and the rest find the
limit reached. -/
theorem run_tryNext (l : IndexeddbLimitLister σ) (ks : List κ) :
    ∃ asked rest, ks = asked ++ rest ∧
      run (fun l k => tryNext f l k) l ks =
        ((run f l.inner asked).1 ++ List.replicate rest.length (.ok none),
          { l with
            inner := (run f l.inner asked).2
            emitted := l.emitted + (emittedEntries (run f l.inner asked).1).length }) ∧
      (rest ≠ [] → ∃ limit, l.limit = some limit ∧
        limit.toNat ≤ l.emitted + (emittedEntries (run f l.inner asked).1).length) ∧
      ∀ limit, l.limit = some limit → l.emitted ≤ limit.toNat →
        l.emitted + (emittedEntries (run f l.inner asked).1).length ≤ limit.toNat := by
  induction ks generalizing l with
  | nil => exact ⟨[], [], rfl, rfl, fun h => absurd rfl h, fun limit _ hle => hle⟩
  | cons k ks ih =>
    rcases hfull : l.full with _ | _
    · have hnext := tryNext_of_not_full (f := f) (k := k) hfull
      obtain ⟨asked, rest, rfl, hrun, hreached, hwithin⟩ := ih (l.tryNext f k).2
      have hcount := length_emittedEntries_cons (f l.inner k).1
        (run f (f l.inner k).2 asked).1
      rw [hnext] at hrun hreached hwithin
      dsimp only at hrun hreached hwithin
      refine ⟨k :: asked, rest, rfl, ?_, fun hne => ?_, fun limit hlimit hle => ?_⟩
      · rw [run_cons, run_cons, hnext]
        dsimp only
        rw [hrun, hcount, Nat.add_assoc]
        rfl
      · obtain ⟨limit, hlimit, hle⟩ := hreached hne
        refine ⟨limit, hlimit, ?_⟩
        rw [run_cons]
        dsimp only
        omega
      · have hlt : l.emitted < limit.toNat := by simpa [full, hlimit] using hfull
        have hone : (emittedEntries [(f l.inner k).1]).length ≤ 1 :=
          List.length_filterMap_le ..
        have hle' := hwithin limit hlimit (by omega)
        rw [run_cons]
        dsimp only
        omega
    · refine ⟨[], k :: ks, rfl, run_full hfull _, fun _ => ?_, fun limit hlimit hle => hle⟩
      obtain ⟨limit, hlimit, hle⟩ := (Option.any_eq_true _ _).1 hfull
      exact ⟨limit, hlimit, of_decide_eq_true hle⟩

end IndexeddbLimitLister

/-! ## Page transactions that fail -/

namespace IndexeddbLister

variable {l : IndexeddbLister} {s s₀ : Stores} {calls : List (Except Error Stores)}

/-- A call of `next`, given the stores its page transaction would find or
the error it would return. -/
def attempt (O : Opendal) (P : Platform) (l : IndexeddbLister) (page : Except Error Stores) :
    Except Error (Option Entry) × IndexeddbLister :=
  (l.tryNext O P page).getD (.ok none, l)

/-- A call whose transaction does not fail. -/
theorem attempt_ok : attempt O P l (.ok s) = (.ok (call O P l s).1.1, (call O P l s).2) := by
  rw [attempt, tryNext]
  rcases hbuf : l.buffer with _ | ⟨e, buffer⟩
  · rcases hdone : l.done with _ | _
    · simp only [Bool.false_eq_true, if_false, call]
      cases next O P s l <;> rfl
    · rw [call_done hbuf hdone]
      rfl
  · rw [call_buffered hbuf]
    rfl

/-- **A call whose transaction would fail** needs none, or leaves the
lister as it was. -/
theorem attempt_error (err : Error) :
    attempt O P l (.error err) = (.error err, l) ∨
      ∀ s, attempt O P l (.error err) = (.ok (call O P l s).1.1, (call O P l s).2) := by
  rcases hbuf : l.buffer with _ | ⟨e, buffer⟩
  · rcases hdone : l.done with _ | _
    · left
      simp [attempt, tryNext, hbuf, hdone]
    · right
      intro s
      rw [call_done hbuf hdone]
      simp [attempt, tryNext, hbuf, hdone]
  · right
    intro s
    rw [call_buffered hbuf]
    simp [attempt, tryNext, hbuf]

/-- **Without its errors, a listing is one without faults**, of some of the
stores its transactions found, or of any where it needs none. -/
theorem run_attempt (s₀ : Stores) (l : IndexeddbLister) (calls : List (Except Error Stores)) :
    ∃ calls' : List Stores, (∀ s ∈ calls', s = s₀ ∨ .ok s ∈ calls) ∧
      (run (attempt O P) l calls).1.filterMap Except.toOption =
        (run (call O P) l calls').1.map Prod.fst ∧
      (run (attempt O P) l calls).2 = (run (call O P) l calls').2 := by
  induction calls generalizing l with
  | nil => exact ⟨[], fun s hs => absurd hs List.not_mem_nil, rfl, rfl⟩
  | cons page calls ih =>
    -- a call that succeeds is one of the listing without faults
    have hsuccess (s : Stores) (hs : s = s₀ ∨ .ok s ∈ page :: calls)
        (hcall : attempt O P l page = (.ok (call O P l s).1.1, (call O P l s).2)) :
        ∃ calls' : List Stores, (∀ s ∈ calls', s = s₀ ∨ .ok s ∈ page :: calls) ∧
          (run (attempt O P) l (page :: calls)).1.filterMap Except.toOption =
            (run (call O P) l calls').1.map Prod.fst ∧
          (run (attempt O P) l (page :: calls)).2 = (run (call O P) l calls').2 := by
      obtain ⟨calls', hfrom, hout, hend⟩ := ih (call O P l s).2
      refine ⟨s :: calls', fun s' hs' => ?_, ?_, ?_⟩
      · rcases List.mem_cons.1 hs' with rfl | hs'
        · exact hs
        · exact (hfrom s' hs').imp_right (List.mem_cons_of_mem _)
      · rw [run_cons, run_cons, hcall]
        exact congrArg _ hout
      · rw [run_cons, run_cons, hcall]
        exact hend
    cases page with
    | ok s => exact hsuccess s (Or.inr List.mem_cons_self) attempt_ok
    | error err =>
      rcases attempt_error (O := O) (P := P) (l := l) err with hfail | hcall
      · obtain ⟨calls', hfrom, hout, hend⟩ := ih l
        refine ⟨calls', fun s hs => (hfrom s hs).imp_right (List.mem_cons_of_mem _), ?_, ?_⟩
        · rw [run_cons, hfail]
          exact hout
        · rw [run_cons, hfail]
          exact hend
      · exact hsuccess s₀ (Or.inl rfl) (hcall s₀)

/-- A listing begins with a transaction, so that none of its calls needs
other stores than those found. -/
theorem run_attempt_new (req : IndexeddbListRequest) (calls : List (Except Error Stores)) :
    ∃ calls' : List Stores, (∀ s ∈ calls', .ok s ∈ calls) ∧
      (run (attempt O P) (.new req) calls).1.filterMap Except.toOption =
        (run (call O P) (.new req) calls').1.map Prod.fst ∧
      (run (attempt O P) (.new req) calls).2 = (run (call O P) (.new req) calls').2 := by
  induction calls with
  | nil => exact ⟨[], fun s hs => absurd hs List.not_mem_nil, rfl, rfl⟩
  | cons page calls ih =>
    cases page with
    | error err =>
      have hfail : attempt O P (.new req) (.error err) = (.error err, .new req) := rfl
      obtain ⟨calls', hfrom, hout, hend⟩ := ih
      refine ⟨calls', fun s hs => List.mem_cons_of_mem _ (hfrom s hs), ?_, ?_⟩
      · rw [run_cons, hfail]
        exact hout
      · rw [run_cons, hfail]
        exact hend
    | ok s =>
      obtain ⟨calls', hfrom, hout, hend⟩ :=
        run_attempt (O := O) (P := P) s (.new req) (.ok s :: calls)
      refine ⟨calls', fun s' hs' => ?_, hout, hend⟩
      rcases hfrom s' hs' with rfl | hs'
      · exact List.mem_cons_self
      · exact hs'

end IndexeddbLister

open IndexeddbLimitLister in
/-- The entries of calls are those of the calls that succeeded. -/
theorem emittedEntries_eq (results : List (Except Error (Option Entry))) :
    emittedEntries results = (results.filterMap Except.toOption).filterMap id := by
  rw [emittedEntries, List.filterMap_filterMap]
  refine List.filterMap_congr fun r _ => ?_
  rcases r with _ | _ | _ <;> rfl

open IndexeddbLimitLister in
/-- **Faults lose and repeat nothing.** Over any calls, the stores of each
or the error of its transaction, a listing with a limit returns, but for
the errors, what a listing without faults and without a limit returns over
some of these stores, up to the limit, and from there on that it is at its
end. An error counts for nothing: where the limit was not reached, every
call was made. -/
theorem faults_lose_nothing (O : Opendal) (P : Platform) (req : IndexeddbListRequest)
    (limit : Option UInt32) (calls : List (Except Error Stores)) :
    ∃ (asked rest : List (Except Error Stores)) (calls' : List Stores),
      calls = asked ++ rest ∧ (∀ s ∈ calls', .ok s ∈ asked) ∧
      (run (fun l k => tryNext (IndexeddbLister.attempt O P) l k) (.new (.new req) limit)
        calls).1.filterMap Except.toOption =
          (run (IndexeddbLister.call O P) (.new req) calls').1.map Prod.fst ++
            List.replicate rest.length none ∧
      (rest ≠ [] → ∃ n, limit = some n ∧ (returned O P (.new req) calls').length = n.toNat) ∧
      ∀ n, limit = some n → (returned O P (.new req) calls').length ≤ n.toNat := by
  obtain ⟨asked, rest, rfl, hrun, hreached, hwithin⟩ := run_tryNext
    (f := IndexeddbLister.attempt O P) (.new (.new req) limit) calls
  obtain ⟨calls', hfrom, hout, -⟩ :=
    IndexeddbLister.run_attempt_new (O := O) (P := P) req asked
  have hentries : emittedEntries (run (IndexeddbLister.attempt O P) (.new req) asked).1 =
      returned O P (.new req) calls' := by
    rw [emittedEntries_eq, hout, returned, List.filterMap_map]
    rfl
  change (rest ≠ [] → ∃ n, limit = some n ∧ n.toNat ≤ 0 + (emittedEntries
    (run (IndexeddbLister.attempt O P) (.new req) asked).1).length) at hreached
  change ∀ n, limit = some n → 0 ≤ n.toNat → 0 + (emittedEntries
    (run (IndexeddbLister.attempt O P) (.new req) asked).1).length ≤ n.toNat at hwithin
  rw [hentries, Nat.zero_add] at hreached hwithin
  have hmost (n : UInt32) (hn : limit = some n) := hwithin n hn (Nat.zero_le _)
  refine ⟨asked, rest, calls', rfl, hfrom, ?_, fun hne => ?_, hmost⟩
  · rw [hrun, List.filterMap_append]
    refine congrArg₂ _ hout ?_
    simp [List.filterMap_replicate, Except.toOption]
  · obtain ⟨n, hn, hle⟩ := hreached hne
    exact ⟨n, hn, le_antisymm (hmost n hn) hle⟩

end OpendalIndexeddb
