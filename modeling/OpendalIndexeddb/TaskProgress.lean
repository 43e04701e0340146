import Mathlib.Data.Finset.Insert
import Mathlib.Logic.Relation
import OpendalIndexeddb.SharedRealm
/-!
# Tasks come to their ends

What others do can hold up a call of `run_transaction`, but not for good:
a call makes a bounded number of moves, and who has the upgrade lock never
waits for one. So from every state all calls can return.
-/

namespace OpendalIndexeddb

open IndexeddbCore

/-! ## What is left of a call -/

/-- The moves `open_client` can still make, at most: two for each iteration
of its loop that is left. -/
def OpenPoint.work : OpenPoint → ℕ
  | .entered => 20
  | .checking => 19
  | .latest iteration => 2 * (8 - iteration) + 2
  | .opening iteration _ => 2 * (8 - iteration) + 1
  | .returned _ => 0

/-- The moves of the second attempt, before it is made. -/
def attemptsLeft (attempt : ℕ) : ℕ := if attempt = 0 then 28 else 0

/-- The moves `run_transaction` can still make, at most. -/
def TaskPoint.work : TaskPoint → ℕ
  | .idle => 0
  | .running attempt => attemptsLeft attempt + 1
  | .retrying attempt => attemptsLeft attempt + 1
  | .ensured attempt => attemptsLeft attempt + 2
  | .opening attempt point => attemptsLeft attempt + (point.work + 3)
  | .evicting attempt => attemptsLeft attempt + 24
  | .locked attempt => attemptsLeft attempt + 25
  | .locking attempt => attemptsLeft attempt + 26
  | .ensuring attempt => attemptsLeft attempt + 27

/-- Between taking the upgrade lock and leaving it. -/
def TaskPoint.UnderLock : TaskPoint → Prop
  | .locked _ => True
  | .evicting _ => True
  | .opening _ _ => True
  | _ => False

theorem OpenPoint.work_le (point : OpenPoint) : point.work ≤ 20 := by
  cases point <;> simp only [work] <;> omega

theorem attemptsLeft_le (attempt : ℕ) : attemptsLeft attempt ≤ 28 := by
  unfold attemptsLeft
  split_ifs <;> omega

theorem TaskPoint.work_le (point : TaskPoint) : point.work ≤ 55 := by
  cases point with
  | idle => exact Nat.zero_le 55
  | opening attempt point =>
    have hattempt := attemptsLeft_le attempt
    have hpoint := point.work_le
    show attemptsLeft attempt + (point.work + 3) ≤ 55
    omega
  | ensuring attempt | locking attempt | locked attempt | evicting attempt
  | ensured attempt | retrying attempt | running attempt =>
    have hattempt := attemptsLeft_le attempt
    simp only [work]
    omega

/-- An iteration that is lost leaves one less. -/
theorem IndexeddbCore.work_iterate (iteration : ℕ) :
    (iterate (iteration + 1)).work < 2 * (8 - iteration) + 1 := by
  unfold iterate
  split_ifs with hlt
  · simp only [OpenPoint.work]
    omega
  · exact Nat.succ_pos _

/-- **A segment of `open_client` brings it nearer to its end.** -/
theorem IndexeddbCore.work_resumeOpen {core : IndexeddbCore} {point point' : OpenPoint}
    {answer : OpenAnswer} {effects : List OpenEffect}
    (h : core.resumeOpen point answer = some (point', effects)) : point'.work < point.work := by
  unfold resumeOpen at h
  split at h
  · rename_i result
    rcases result with _ | db <;> simp only [afterCheck] at h
    · obtain ⟨rfl, rfl⟩ := h
      decide
    · split_ifs at h <;> obtain ⟨rfl, rfl⟩ := h
      · exact Nat.succ_pos _
      · decide
  · rename_i iteration result
    rcases result with _ | db <;> simp only [afterLatest] at h
    · obtain ⟨rfl, rfl⟩ := h
      exact Nat.lt_succ_self _
    · split_ifs at h <;> obtain ⟨rfl, rfl⟩ := h
      · exact Nat.succ_pos _
      · exact Nat.lt_succ_self _
  · rename_i iteration version result
    rcases result with (_ | text) | db <;> simp only [afterOpen] at h
    · obtain ⟨rfl, rfl⟩ := h
      exact work_iterate iteration
    · obtain ⟨rfl, rfl⟩ := h
      exact Nat.succ_pos _
    · split_ifs at h <;> obtain ⟨rfl, rfl⟩ := h
      · exact Nat.succ_pos _
      · exact work_iterate iteration
  · obtain ⟨rfl, rfl⟩ := h
    exact Nat.succ_pos _
  · cases h

namespace Operators

variable {cores : ℕ → IndexeddbCore} {core : IndexeddbCore} {w w' : Operators} {i j : ℕ}

/-! ## Moves -/

/-- **A move of a call brings it nearer to its end.** -/
theorem Advance.work_lt (h : Advance core i w w') (hbusy : w.points i ≠ .idle) :
    (w'.points i).work < (w.points i).work := by
  cases h with
  | enter h => exact absurd h hbusy
  | resumeOpen h hresume =>
    have hwork := work_resumeOpen hresume
    simp only [goTo, Function.update_self, h, TaskPoint.work]
    omega
  | enterOpen noFactory h =>
    have hwork : (IndexeddbCore.enterOpen noFactory).work ≤ 19 := by
      cases noFactory with
      | none => exact le_rfl
      | some text => exact Nat.zero_le 19
    have hentered : OpenPoint.entered.work = 20 := rfl
    simp only [goTo, Function.update_self, h, TaskPoint.work, hentered]
    omega
  | @retry attempt h =>
    simp only [goTo, Function.update_self, h, TaskPoint.work]
    split_ifs with hfirst
    · obtain rfl : attempt = 0 := by omega
      decide
    · exact Nat.succ_pos _
  | stale h =>
    simp only [goTo, Function.update_self, h]
    decide
  | found h | missing h | lock h | foundLocked h | missingLocked h | evict h | cache h
  | openFailed h | transaction h | noTransaction h | finish h =>
    simp only [goTo, Function.update_self, h, TaskPoint.work, OpenPoint.work]
    omega

/-- A move leaves the other tasks where they stand, and the task that runs
running. -/
theorem Advance.frame (h : Advance core i w w') :
    (∀ j, j ≠ i → w'.points j = w.points j) ∧ w'.segment = w.segment := by
  cases h <;> exact ⟨fun j hj => Function.update_of_ne hj .., rfl⟩

/-- The lock of the database is left as it is, taken or left by the task
that moves. -/
theorem Advance.holder (h : Advance core i w w') :
    w'.holder core.dbName = w.holder core.dbName ∨ w'.holder core.dbName = some i ∨
      w'.holder core.dbName = none := by
  cases h with
  | lock h => exact .inr (.inl (Function.update_self ..))
  | foundLocked h | cache h | openFailed h => exact .inr (.inr (Function.update_self ..))
  | enter h | found h | missing h | missingLocked h | evict h | enterOpen noFactory h
  | resumeOpen h | transaction h | noTransaction h | retry h | finish h | stale h => exact .inl rfl

/-- **A call can always make a move**, unless it waits for the lock. -/
theorem exists_advance (core : IndexeddbCore) (hbusy : w.points i ≠ .idle)
    (hfree : ∀ attempt, w.points i = .locking attempt → w.holder core.dbName = none) :
    ∃ w', Advance core i w w' := by
  cases h : w.points i with
  | idle => exact absurd h hbusy
  | ensuring attempt =>
    cases hfound : (w.realm.cachedClientHasStores core).1 with
    | true => exact ⟨_, .found h hfound⟩
    | false => exact ⟨_, .missing h hfound⟩
  | locking attempt => exact ⟨_, .lock h (hfree attempt h)⟩
  | locked attempt =>
    cases hfound : (w.realm.cachedClientHasStores core).1 with
    | true => exact ⟨_, .foundLocked h hfound⟩
    | false => exact ⟨_, .missingLocked h hfound⟩
  | evicting attempt => exact ⟨_, .evict h⟩
  | opening attempt point =>
    cases point with
    | entered => exact ⟨_, .enterOpen none h⟩
    | checking =>
      exact ⟨_, .resumeOpen h (show core.resumeOpen .checking (.latest none) = some _ from rfl)⟩
    | latest iteration =>
      exact ⟨_, .resumeOpen h (show core.resumeOpen (.latest iteration) (.latest none) = some _
        from rfl)⟩
    | opening iteration version =>
      exact ⟨_, .resumeOpen h (show core.resumeOpen (.opening iteration version) .timedOut = some _
        from rfl)⟩
    | returned result =>
      cases result with
      | ok db => exact ⟨_, .cache h⟩
      | error failure => exact ⟨_, .openFailed h⟩
  | ensured attempt =>
    cases hsome : (w.realm.cachedTransaction core).1 with
    | true => exact ⟨_, .transaction h hsome⟩
    | false => exact ⟨_, .noTransaction h hsome⟩
  | retrying attempt => exact ⟨_, .retry h⟩
  | running attempt => exact ⟨_, .finish h⟩

/-! ## Runs of the tasks -/

/-- **A call that has not returned**, and the moves it makes while others
do what they do. -/
inductive Busy (cores : ℕ → IndexeddbCore) (i : ℕ) (w : Operators) : ℕ → Operators → Prop
  | start : Busy cores i w 0 w
  | move {n : ℕ} {w' w'' : Operators} {since : Millis} (h : Busy cores i w n w')
      (hbusy : w'.points i ≠ .idle) (hruns : w'.segment = some (i, since))
      (hadvance : Advance (cores i) i w' w'') : Busy cores i w (n + 1) w''
  | other {n : ℕ} {w' w'' : Operators} (h : Busy cores i w n w') (hstep : Step cores w' w'')
      (hpoint : w''.points i = w'.points i) : Busy cores i w n w''

/-- Whatever others do, a call comes nearer to its end with each of its
moves. -/
theorem Busy.work_le {n : ℕ} (h : Busy cores i w n w') :
    n + (w'.points i).work ≤ (w.points i).work := by
  induction h with
  | start => omega
  | move _ hbusy _ hadvance ih =>
    have hlt := hadvance.work_lt hbusy
    omega
  | other _ _ hpoint ih => rwa [hpoint]

/-- A step of the tasks alone, in which none is dropped. -/
inductive Serves (cores : ℕ → IndexeddbCore) (w : Operators) : Operators → Prop
  | resume (i : ℕ) (hidle : w.segment = none) :
      Serves cores w { w with segment := some (i, w.realm.now) }
  | advance {w' : Operators} {i : ℕ} {since : Millis} (hruns : w.segment = some (i, since))
      (h : Advance (cores i) i w w') : Serves cores w w'
  | suspend {i : ℕ} {since : Millis} (hruns : w.segment = some (i, since))
      (hawaits : (w.points i).awaits = true) : Serves cores w { w with segment := none }

theorem Serves.step (h : Serves cores w w') : Step cores w w' := by
  cases h with
  | resume i hidle => exact .resume i hidle
  | advance hruns h => exact .advance hruns h
  | suspend hruns hawaits => exact .suspend hruns hawaits

theorem Safe.serves (hsafe : Safe cores w) (h : Relation.ReflTransGen (Serves cores) w w') :
    Safe cores w' := by
  induction h with
  | refl => exact hsafe
  | tail _ hstep ih => exact hstep.step.safe ih

/-- A task that waits for a lock or has returned has none. -/
theorem Safe.not_holder (hsafe : Safe cores w)
    (h : w.points i = .idle ∨ ∃ attempt, w.points i = .locking attempt) :
    w.holder (cores i).dbName ≠ some i := by
  have hsound := hsafe.tasks i
  rcases h with h | ⟨attempt, h⟩
  · simpa only [Sound, h] using hsound
  · simpa only [Sound, h] using hsound

/-- **A task that runs can come to its end**, where no other has the lock:
it never waits for another then. -/
theorem Safe.exists_idle {since : Millis} (hsafe : Safe cores w)
    (hruns : w.segment = some (i, since))
    (hlock : w.holder (cores i).dbName = none ∨ w.holder (cores i).dbName = some i) :
    ∃ w', Relation.ReflTransGen (Serves cores) w w' ∧ w'.segment = some (i, since) ∧
      w'.points i = .idle ∧ w'.holder (cores i).dbName = none ∧
      ∀ j, j ≠ i → w'.points j = w.points j := by
  induction hn : (w.points i).work using Nat.strong_induction_on generalizing w with
  | h n ih =>
    by_cases hidle : w.points i = .idle
    · exact ⟨w, .refl, hruns, hidle, hlock.resolve_right (hsafe.not_holder (.inl hidle)),
        fun _ _ => rfl⟩
    · have hfree : ∀ attempt, w.points i = .locking attempt →
          w.holder (cores i).dbName = none := fun attempt h =>
        hlock.resolve_right (hsafe.not_holder (.inr ⟨attempt, h⟩))
      obtain ⟨w₁, hadvance⟩ := exists_advance (cores i) hidle hfree
      obtain ⟨hothers, hsegment⟩ := hadvance.frame
      have hlock₁ : w₁.holder (cores i).dbName = none ∨
          w₁.holder (cores i).dbName = some i := by
        rcases hadvance.holder with h | h | h
        · rwa [h]
        · exact .inr h
        · exact .inl h
      obtain ⟨w', hserves, hruns', hidle', hleft, hothers'⟩ :=
        ih _ (hn ▸ hadvance.work_lt hidle) (hadvance.safe hruns hsafe) (hsegment.trans hruns)
          hlock₁ rfl
      exact ⟨w', .head (.advance hruns hadvance) hserves, hruns', hidle', hleft, fun j hj =>
        (hothers' j hj).trans (hothers j hj)⟩

/-- A task that runs can go on to where it awaits something. -/
theorem exists_suspended {since : Millis} (hruns : w.segment = some (i, since)) :
    ∃ w', Relation.ReflTransGen (Serves cores) w w' ∧ w'.segment = none := by
  induction hn : (w.points i).work using Nat.strong_induction_on generalizing w with
  | h n ih =>
    cases hawaits : (w.points i).awaits with
    | true => exact ⟨_, .single (.suspend hruns hawaits), rfl⟩
    | false =>
      have hbusy : w.points i ≠ .idle := fun h => by simp [h, TaskPoint.awaits] at hawaits
      obtain ⟨w₁, hadvance⟩ := exists_advance (cores i) hbusy fun attempt h => by
        simp [h, TaskPoint.awaits] at hawaits
      obtain ⟨w', hserves, hidle⟩ :=
        ih _ (hn ▸ hadvance.work_lt hbusy) (hadvance.frame.2.trans hruns) rfl
      exact ⟨w', .head (.advance hruns hadvance) hserves, hidle⟩

/-- Where no other has the lock, a call can return undisturbed. -/
theorem Safe.exists_returned (hsafe : Safe cores w) (hidle : w.segment = none)
    (hlock : w.holder (cores i).dbName = none ∨ w.holder (cores i).dbName = some i) :
    ∃ w', Relation.ReflTransGen (Serves cores) w w' ∧ w'.segment = none ∧
      w'.points i = .idle ∧ w'.holder (cores i).dbName = none ∧
      ∀ j, j ≠ i → w'.points j = w.points j := by
  have hresume : Serves cores w { w with segment := some (i, w.realm.now) } := .resume i hidle
  obtain ⟨w', hserves, hruns, hreturned, hleft, hothers⟩ :=
    (hresume.step.safe hsafe).exists_idle (i := i) rfl hlock
  have hawaits : (w'.points i).awaits = true := by
    rw [hreturned]
    rfl
  exact ⟨_, (hserves.tail (.suspend hruns hawaits)).head hresume, rfl, hreturned, hleft, hothers⟩

/-- **Every call can return**: whoever has its lock can, and then it can. -/
theorem Safe.can_return (hsafe : Safe cores w) (hidle : w.segment = none) (i : ℕ) :
    ∃ w', Relation.ReflTransGen (Serves cores) w w' ∧ w'.segment = none ∧
      w'.points i = .idle ∧ ∀ j, w'.points j = w.points j ∨ w'.points j = .idle := by
  cases hholder : w.holder (cores i).dbName with
  | none =>
    obtain ⟨w', hserves, hidle', hreturned, -, hothers⟩ :=
      hsafe.exists_returned hidle (.inl hholder)
    refine ⟨w', hserves, hidle', hreturned, fun j => ?_⟩
    by_cases hj : j = i
    · exact .inr (hj ▸ hreturned)
    · exact .inl (hothers j hj)
  | some k =>
    have hname := hsafe.holder _ k hholder
    obtain ⟨w₁, hserves₁, hidle₁, hreturned₁, hleft, hothers₁⟩ :=
      hsafe.exists_returned (i := k) hidle (.inr (hname ▸ hholder))
    rw [← hname] at hleft
    obtain ⟨w', hserves, hidle', hreturned, -, hothers⟩ :=
      (hsafe.serves hserves₁).exists_returned (i := i) hidle₁ (.inl hleft)
    refine ⟨w', hserves₁.trans hserves, hidle', hreturned, fun j => ?_⟩
    by_cases hj : j = i
    · exact .inr (hj ▸ hreturned)
    · rw [hothers j hj]
      by_cases hjk : j = k
      · exact .inr (hjk ▸ hreturned₁)
      · exact .inl (hothers₁ j hjk)

/-- And so can any number of calls. -/
theorem Safe.can_all_return (hsafe : Safe cores w) (hidle : w.segment = none) (tasks : Finset ℕ) :
    ∃ w', Relation.ReflTransGen (Serves cores) w w' ∧ w'.segment = none ∧
      ∀ i ∈ tasks, w'.points i = .idle := by
  induction tasks using Finset.induction_on with
  | empty => exact ⟨w, .refl, hidle, fun i hi => absurd hi (Finset.notMem_empty i)⟩
  | insert i tasks _ ih =>
    obtain ⟨w₁, hserves₁, hidle₁, hdone⟩ := ih
    obtain ⟨w', hserves, hidle', hreturned, hothers⟩ :=
      (hsafe.serves hserves₁).can_return hidle₁ i
    refine ⟨w', hserves₁.trans hserves, hidle', fun j hj => ?_⟩
    rcases Finset.mem_insert.1 hj with rfl | hj
    · exact hreturned
    · rcases hothers j with h | h
      · rw [h, hdone j hj]
      · exact h

/-- A lock is had by the task that is under it. -/
theorem Safe.holder_iff (hsafe : Safe cores w) {dbName : Str} :
    w.holder dbName = some i ↔ dbName = (cores i).dbName ∧ (w.points i).UnderLock := by
  have hsound : w.holder (cores i).dbName = some i ↔ (w.points i).UnderLock := by
    have hsound := hsafe.tasks i
    unfold Sound at hsound
    cases h : w.points i with
    | idle | locking attempt | running attempt =>
      simp only [h] at hsound
      exact iff_of_false hsound id
    | ensuring attempt | ensured attempt =>
      simp only [h] at hsound
      exact iff_of_false hsound.1 id
    | locked attempt | evicting attempt | opening attempt point =>
      simp only [h] at hsound
      exact iff_of_true hsound.1 trivial
    | retrying attempt =>
      simp only [h] at hsound
  constructor
  · intro hholder
    obtain rfl := hsafe.holder _ i hholder
    exact ⟨rfl, hsound.1 hholder⟩
  · rintro ⟨rfl, hunder⟩
    exact hsound.2 hunder

/-- **No call is stuck.** A task has the upgrade lock of its database
exactly from where it takes it to where it leaves it, so that it never
waits for another one and no two are there at once; a call that was entered
makes 55 moves at most before it returns, whatever others do meanwhile; and
from wherever the tasks of a realm come, any number of calls can return
without one being dropped. -/
theorem tasks_progress (h : Reachable cores w) :
    (∀ dbName i, w.holder dbName = some i ↔
      dbName = (cores i).dbName ∧ (w.points i).UnderLock) ∧
    (∀ i n w', Busy cores i w n w' → n ≤ 55) ∧
    ∀ tasks : Finset ℕ, ∃ w', Relation.ReflTransGen (Serves cores) w w' ∧
      ∀ i ∈ tasks, w'.points i = .idle := by
  refine ⟨fun dbName i => h.safe.holder_iff, fun i n w' hbusy => ?_, fun tasks => ?_⟩
  · have hwork := hbusy.work_le
    have hmost := (w.points i).work_le
    omega
  · obtain ⟨w₁, hserves₁, hidle₁⟩ :
        ∃ w₁, Relation.ReflTransGen (Serves cores) w w₁ ∧ w₁.segment = none := by
      cases hruns : w.segment with
      | none => exact ⟨w, .refl, hruns⟩
      | some running => exact exists_suspended hruns
    obtain ⟨w', hserves, -, hdone⟩ := (h.safe.serves hserves₁).can_all_return hidle₁ tasks
    exact ⟨w', hserves₁.trans hserves, hdone⟩

/-- A realm in which one task has evicted what there was, under the lock. -/
def openingRealm : Operators :=
  let w := { start 0 with segment := some (0, 0) }
  let w := w.goTo 0 (.ensuring 0)
  let w := (w.setRealm (w.realm.cachedClientHasStores defaultCore).2).goTo 0 (.locking 0)
  let w := (w.setHolder defaultCore.dbName (some 0)).goTo 0 (.locked 0)
  let w := (w.setRealm (w.realm.cachedClientHasStores defaultCore).2).goTo 0 (.evicting 0)
  (w.setRealm (w.realm.evictCachedConnection defaultCore.dbName)).goTo 0 (.opening 0 .entered)

theorem openingRealm_reachable : Reachable (fun _ => defaultCore) openingRealm := by
  have hstart : Reachable (fun _ => defaultCore) (start 0) := .start 0
  have hruns := hstart.step (.resume 0 rfl)
  have hentered := hruns.step (.advance rfl (.enter rfl))
  have hmissing := hentered.step (.advance rfl (.missing rfl rfl))
  have hlocked := hmissing.step (.advance rfl (.lock rfl rfl))
  have hevicting := hlocked.step (.advance rfl (.missingLocked rfl rfl))
  exact hevicting.step (.advance rfl (.evict rfl))

theorem tasks_progress_opening : ∃ w', Relation.ReflTransGen (Serves fun _ => defaultCore)
    openingRealm w' ∧ ∀ i ∈ ({0, 1} : Finset ℕ), w'.points i = .idle :=
  (tasks_progress openingRealm_reachable).2.2 {0, 1}

end Operators

end OpendalIndexeddb
