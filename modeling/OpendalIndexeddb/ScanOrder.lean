import OpendalIndexeddb.PageScan
/-!
# What every scan keeps

Whatever a request asks for, a scan takes keys in the store's order: what
it has taken lies before what it has left. A page that is not the last is
full, and resumes behind its last key.
-/

namespace OpendalIndexeddb

namespace IndexeddbCore

variable {store : OrderedStore Key DataRecord DataRecord.k}
variable {req : ScanPageRequest} {st st' : ScanState} {upper : Option Str} {k : Str}

/-- The state a loop over fetched keys ends in. -/
def ScanFlow.state : ScanFlow → ScanState
  | .breakScan st _ => st
  | .continueScan st => st
  | .exhausted st => st

/-- What a stretch of the scan that is left with `rest` takes: listed keys
of `rest`, in order, behind those it has. -/
structure Takes (req : ScanPageRequest) (st : ScanState) (rest taken : List Str)
    (st' : ScanState) : Prop where
  keys : st'.keys = st.keys ++ taken
  listed : ∀ k ∈ taken, req.lists k = true
  sublist : taken.Sublist rest

/-- Taking nothing. -/
theorem Takes.none (rest : List Str) (h : st'.keys = st.keys) : Takes req st rest [] st' :=
  ⟨by rw [h, List.append_nil], fun _ h => absurd h List.not_mem_nil, List.nil_sublist rest⟩

/-- Taking the next key, and then more. -/
theorem Takes.cons {l taken : List Str} (hk : req.lists k = true)
    (h : Takes req (st.take k) l taken st') : Takes req st (k :: l) (k :: taken) st' := by
  refine ⟨?_, ?_, h.sublist.cons_cons k⟩
  · rw [h.keys]
    simp [ScanState.take]
  · intro x hx
    exact (List.mem_cons.1 hx).elim (fun hxk => hxk ▸ hk) (h.listed x)

/-- **What the loop over fetched keys takes** lies before what it leaves
to look at. -/
theorem scanFetched_takes (req : ScanPageRequest) {fetched l : List Str}
    (h : st.rest store upper = fetched ++ l) :
    ∃ taken, Takes req st (st.rest store upper) taken (scanFetched req fetched st).state ∧
      ∀ st', (scanFetched req fetched st).goesOn st' →
        (taken ++ st'.rest store upper).Sublist (st.rest store upper) := by
  induction fetched generalizing st with
  | nil =>
    refine ⟨[], .none _ rfl, ?_⟩
    rintro st' (h' | h') <;> cases h'
    exact List.Sublist.refl _
  | cons k fetched ih =>
    rw [List.cons_append] at h
    have hrest := rest_of_cons h
    have hstep := fetchStep req st k fetched
    generalize scanFetched req (k :: fetched) st = flow at hstep ⊢
    rw [h]
    cases hstep with
    | beyond | stuck => exact ⟨[], .none _ rfl, by rintro st' (h' | h') <;> cases h'⟩
    | pass =>
      obtain ⟨taken, htakes, hon⟩ := @ih (st.pass k) hrest
      rw [rest_pass, hrest] at htakes hon
      exact ⟨taken, ⟨htakes.keys, htakes.listed, htakes.sublist.cons k⟩,
        fun st' h' => (hon st' h').cons k⟩
    | jump _ _ _ hskipk hup =>
      refine ⟨[], .none _ rfl, ?_⟩
      rintro st' (h' | h') <;> cases h'
      rw [List.nil_append, rest_jump h (unitRank_lt_upperBound hup hskipk)]
      exact List.filter_sublist
    | full hlists =>
      refine ⟨[k], .cons hlists (.none _ rfl), ?_⟩
      rintro st' (h' | h') <;> cases h'
    | take hlists =>
      obtain ⟨taken, htakes, hon⟩ := @ih (st.take k) hrest
      rw [rest_take, hrest] at htakes hon
      exact ⟨k :: taken, .cons hlists htakes, fun st' h' => (hon st' h').cons_cons k⟩

/-- A stretch that goes on takes what comes after it as well. -/
theorem takes_of_goesOn {fetched l : List Str} {st'' : ScanState}
    (h : st.rest store upper = fetched ++ l) (hon : (scanFetched req fetched st).goesOn st')
    (hnext : ∃ taken, Takes req st' (st'.rest store upper) taken st'') :
    ∃ taken, Takes req st (st.rest store upper) taken st'' := by
  obtain ⟨taken, htakes, hsub⟩ := scanFetched_takes req h
  obtain ⟨taken', htakes'⟩ := hnext
  have hstate : (scanFetched req fetched st).state = st' := by
    rcases hon with hon | hon <;> rw [hon] <;> rfl
  rw [hstate] at htakes
  refine ⟨taken ++ taken', ?_, fun k hk => ?_, ?_⟩
  · rw [htakes'.keys, htakes.keys, List.append_assoc]
  · exact (List.mem_append.1 hk).elim (htakes.listed k) (htakes'.listed k)
  · exact ((List.Sublist.refl taken).append htakes'.sublist).trans (hsub st' hon)

/-- A page that is not the last is full, and resumes at its last key. -/
theorem scanFetched_full {fetched : List Str} (hlen : st.keys.length < req.limit)
    (h : scanFetched req fetched st = .breakScan st' false) :
    st'.keys.length = req.limit ∧ st'.nextStartAfter = st'.keys.getLast? := by
  induction fetched generalizing st with
  | nil => cases h
  | cons k fetched ih =>
    have hstep := fetchStep req st k fetched
    rw [h] at hstep
    generalize hflow : ScanFlow.breakScan st' false = flow at hstep
    cases hstep with
    | beyond | stuck | jump => cases hflow
    | pass => exact @ih (st.pass k) hlen hflow.symm
    | take _ hroom => exact @ih (st.take k) (by simpa [ScanState.take] using hroom) hflow.symm
    | full _ hfull =>
      cases hflow
      refine ⟨?_, by simp [ScanState.take]⟩
      simp only [ScanState.take, List.length_append, List.length_singleton]
      omega

/-- **What a scan takes.** -/
theorem scanLoop_takes {fuel : ℕ} {done : Bool} (hlen : st.keys.length < req.limit)
    (h : scanLoop store req upper fuel st = some (st', done)) :
    (∃ taken, Takes req st (st.rest store upper) taken st') ∧
      (done = false → st'.keys.length = req.limit ∧ st'.nextStartAfter = st'.keys.getLast?) := by
  induction fuel generalizing st with
  | zero => simp [scanLoop] at h
  | succ fuel ih =>
    have hstep := loopStep store req upper fuel hlen
    rw [h] at hstep
    generalize hres : some (st', done) = result at hstep
    cases hstep with
    | past | empty =>
      cases hres
      exact ⟨⟨[], .none _ rfl⟩, by simp⟩
    | stopped hsplit hflow =>
      cases hres
      obtain ⟨taken, htakes, -⟩ := scanFetched_takes req hsplit
      rw [hflow] at htakes
      refine ⟨⟨taken, htakes⟩, fun hdone => ?_⟩
      subst hdone
      exact scanFetched_full hlen hflow
    | jumped hsplit hflow =>
      obtain ⟨htakes, hfull⟩ := ih ((length_scanFetched hlen).1 _ hflow) hres.symm
      exact ⟨takes_of_goesOn hsplit (Or.inl hflow) htakes, hfull⟩
    | ended hflow =>
      cases hres
      refine ⟨takes_of_goesOn (List.append_nil _).symm (Or.inr hflow) ⟨[], .none _ rfl⟩, by simp⟩
    | next _ hsplit hflow =>
      obtain ⟨htakes, hfull⟩ := ih ((length_scanFetched hlen).2 _ hflow) hres.symm
      exact ⟨takes_of_goesOn hsplit (Or.inr hflow) htakes, hfull⟩

/-! ## Resuming -/

/-- A scan that resumes under the listed prefix starts behind its resume
point, in the store's order. -/
theorem start_of_resume {sa : Str} (hsa : req.startAfter = some sa) (hpre : req.keyPrefix <+: sa) :
    req.start = ⟨[], some sa, sa, true⟩ := by
  rcases start_eq req with ⟨sa', hsa', -, hst⟩ | ⟨sa', hsa', hlt, hst⟩ | ⟨hnone, -⟩
  · rw [hsa, Option.some_inj] at hsa'
    rw [hst, hsa']
  · rw [hsa, Option.some_inj] at hsa'
    subst hsa'
    -- the resume point is the prefix itself
    have heq : req.keyPrefix = sa :=
      pointRank_injective (le_antisymm (pointRank_le_of_isPrefix hpre) (not_lt.1 hlt))
    rw [hst, heq]
    simp
  · rw [hsa] at hnone
    cases hnone

/-- What is left there is above the resume point. -/
theorem lt_of_resume {sa : Str} (hsa : req.startAfter = some sa) (hpre : req.keyPrefix <+: sa)
    (hk : k ∈ req.start.rest store upper) : unitRank sa < unitRank k := by
  have hrange := inRange_of_mem_rest hk
  rw [start_of_resume hsa hpre] at hrange
  exact (inRange_iff.1 hrange).1.2 rfl

/-- **Resuming at a key leaves less than before**: the key is behind. -/
theorem length_rest_resume {last : Str} (hpre : req.keyPrefix <+: last)
    (hlast : last ∈ req.start.rest store upper) :
    (ScanState.rest (ScanPageRequest.start { req with startAfter := some last }) store
      upper).length < (req.start.rest store upper).length := by
  have hup := (inRange_iff.1 (inRange_of_mem_rest hlast)).2
  have hlow := lower_le_of_mem_rest hlast
  rw [@start_of_resume { req with startAfter := some last } last rfl hpre]
  show (keysBetween store last true upper).length < _
  rw [keysBetween_advance req.start.lower req.start.lowerOpen]
  · refine List.length_filter_lt_length_iff_exists.2 ⟨last, hlast, fun hin => ?_⟩
    exact lt_irrefl _ ((inRange_iff.1 hin).1.2 rfl)
  · intro x hx
    obtain ⟨⟨-, hlt⟩, hxup⟩ := inRange_iff.1 hx
    have hx' := lt_of_le_of_lt hlow (hlt rfl)
    exact inRange_iff.2 ⟨⟨le_of_lt hx', fun _ => hx'⟩, hxup⟩

end IndexeddbCore

end OpendalIndexeddb
