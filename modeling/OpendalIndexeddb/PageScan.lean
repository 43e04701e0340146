import OpendalIndexeddb.Model.Scan
import OpendalIndexeddb.PrefixRange
/-!
# What a page scan lists

The scan moves a lower bound through the store, fetch after fetch, past
the keys it does not list. Here it is shown to be a filter: the keys
`pageKeys` selects from the store, cut at the page size. Two orders stay
in the answer, the store's and that of Rust strings.
-/

namespace OpendalIndexeddb

namespace IndexeddbCore

variable {store : OrderedStore Key DataRecord DataRecord.k}
variable {req : ScanPageRequest} {st st' : ScanState} {upper : Option Str}

/-! ## The string keys of the store -/

/-- The string keys of the data store, in the store's order. -/
def textKeys (store : OrderedStore Key DataRecord DataRecord.k) : List Str :=
  store.keys.filterMap Key.asString

theorem textKeys_sorted (store : OrderedStore Key DataRecord DataRecord.k) :
    (textKeys store).Pairwise fun a b => unitRank a < unitRank b := by
  refine List.pairwise_filterMap.2 (store.keys_sorted.imp ?_)
  intro a b hab k hk l hl
  rw [Key.asString_eq_some_iff.1 hk, Key.asString_eq_some_iff.1 hl] at hab
  exact Key.text_lt_text.1 hab

theorem mem_textKeys_iff {k : Str} : k ∈ textKeys store ↔ store.contains (.text k) = true := by
  rw [← OrderedStore.mem_keys_iff, textKeys, List.mem_filterMap]
  constructor
  · rintro ⟨key, hkey, hk⟩
    rwa [← Key.asString_eq_some_iff.1 hk]
  · exact fun h => ⟨.text k, h, rfl⟩

/-- Whether a key is in the range of a fetch. -/
def inRange (lower : Str) (lowerOpen : Bool) (upper : Option Str) (k : Str) : Bool :=
  (scanRange lower lowerOpen upper).contains (.text k)

theorem inRange_iff {lower : Str} {lowerOpen : Bool} {k : Str} :
    inRange lower lowerOpen upper k = true ↔
      (unitRank lower ≤ unitRank k ∧ (lowerOpen = true → unitRank lower < unitRank k)) ∧
        ∀ u, upper = some u → unitRank k < unitRank u := by
  have hlow : (if lowerOpen then Bound.excluded (Key.text lower)
      else .included (.text lower)).below (.text k) = true ↔
      unitRank lower ≤ unitRank k ∧ (lowerOpen = true → unitRank lower < unitRank k) := by
    cases lowerOpen
    · simp [Bound.below]
    · simpa [Bound.below] using le_of_lt
  simp only [inRange, scanRange, KeyRange.contains, Bool.and_eq_true, hlow]
  cases upper <;> simp [Bound.above]

/-- The string keys of a range, in the store's order. -/
def keysBetween (store : OrderedStore Key DataRecord DataRecord.k) (lower : Str)
    (lowerOpen : Bool) (upper : Option Str) : List Str :=
  (textKeys store).filter (inRange lower lowerOpen upper)

theorem keysBetween_sorted {lower : Str} {lowerOpen : Bool} :
    (keysBetween store lower lowerOpen upper).Pairwise fun a b => unitRank a < unitRank b :=
  (textKeys_sorted store).filter _

/-- Where nothing is mapped behind an item that is not, taking items and
mapping them commute. -/
theorem filterMap_take {α β : Type*} {f : α → Option β} {l : List α}
    (h : l.Pairwise fun a b => f a = none → f b = none) (n : ℕ) :
    (l.take n).filterMap f = (l.filterMap f).take n := by
  induction l generalizing n with
  | nil => simp
  | cons a l ih =>
    obtain ⟨ha, hl⟩ := List.pairwise_cons.1 h
    cases n with
    | zero => simp
    | succ n =>
      cases hfa : f a with
      | some b => rw [List.take_succ_cons, List.filterMap_cons_some hfa,
          List.filterMap_cons_some hfa, List.take_succ_cons, ih hl]
      | none =>
        -- nothing is mapped from here on, so both sides are empty
        have hnone : ∀ b ∈ l, f b = none := fun b hb => ha b hb hfa
        rw [List.take_succ_cons, List.filterMap_cons_none hfa, List.filterMap_cons_none hfa,
          List.filterMap_eq_nil_iff.2 hnone,
          List.filterMap_eq_nil_iff.2 fun b hb => hnone b (List.mem_of_mem_take hb)]
        simp

/-- **A fetch returns the first string keys of the range.** The keys of
other types that a range with a string lower bound holds are all behind
them. -/
theorem getAllStringKeysIn_keys (store : OrderedStore Key DataRecord DataRecord.k) (lower : Str)
    (lowerOpen : Bool) (upper : Option Str) (n : ℕ) :
    (getAllStringKeysIn store lower lowerOpen upper n).1 =
      (keysBetween store lower lowerOpen upper).take n := by
  -- the string keys of a range, however many are fetched
  have hfilter : (store.keys.filter (scanRange lower lowerOpen upper).contains).filterMap
      Key.asString = keysBetween store lower lowerOpen upper := by
    rw [keysBetween, textKeys, List.filterMap_filter, List.filter_filterMap]
    refine List.filterMap_congr ?_
    intro key _
    cases hk : key.asString with
    | none => simp
    | some k =>
      rw [Key.asString_eq_some_iff.1 hk]
      cases hc : (scanRange lower lowerOpen upper).contains (.text k) <;>
        simp [inRange, Option.filter, hc]
  rw [← hfilter]
  refine filterMap_take ?_ n
  refine (store.keys_sorted.filter _).imp_of_mem fun {a b} ha hb hab hnone => ?_
  -- a key above the lower bound that is no string is above all strings
  have ha' := (List.mem_filter.1 ha).2
  rw [KeyRange.contains, Bool.and_eq_true] at ha'
  cases a with
  | text k => simp at hnone
  | below m =>
    have := Key.below_lt_text m lower
    cases lowerOpen
    · simp [scanRange, Bound.below, not_le.2 this] at ha'
    · simp [scanRange, Bound.below, not_lt.2 (le_of_lt this)] at ha'
  | above m =>
    cases b with
    | text k => exact absurd hab (not_lt.2 (le_of_lt (Key.text_lt_above k m)))
    | below j => rfl
    | above j => rfl

theorem getAllStringKeysIn_length_le (store : OrderedStore Key DataRecord DataRecord.k)
    (lower : Str) (lowerOpen : Bool) (upper : Option Str) (n : ℕ) :
    (getAllStringKeysIn store lower lowerOpen upper n).1.length ≤
      (getAllStringKeysIn store lower lowerOpen upper n).2 :=
  List.length_filterMap_le _ _

/-! ## The lower bound -/

/-- Raising the lower bound keeps the keys from the new one on. -/
theorem keysBetween_advance (lower : Str) (lowerOpen : Bool) {lower' : Str} {lowerOpen' : Bool}
    (h : ∀ k, inRange lower' lowerOpen' upper k = true → inRange lower lowerOpen upper k = true) :
    keysBetween store lower' lowerOpen' upper =
      (keysBetween store lower lowerOpen upper).filter (inRange lower' lowerOpen' upper) := by
  rw [keysBetween, keysBetween, List.filter_filter]
  refine List.filter_congr ?_
  intro k _
  cases hk : inRange lower' lowerOpen' upper k
  · rfl
  · simp [h k hk]

/-- The keys a scan has not looked at. -/
def ScanState.rest (st : ScanState) (store : OrderedStore Key DataRecord DataRecord.k)
    (upper : Option Str) : List Str := keysBetween store st.lower st.lowerOpen upper

theorem inRange_of_mem_rest {k : Str} (h : k ∈ st.rest store upper) :
    inRange st.lower st.lowerOpen upper k = true := (List.mem_filter.1 h).2

theorem lower_le_of_mem_rest {k : Str} (h : k ∈ st.rest store upper) :
    unitRank st.lower ≤ unitRank k := (inRange_iff.1 (inRange_of_mem_rest h)).1.1

/-- The keys behind the first of those left. -/
theorem rest_of_cons {k : Str} {l : List Str} (h : st.rest store upper = k :: l) :
    keysBetween store k true upper = l := by
  have hmem : k ∈ st.rest store upper := h ▸ List.mem_cons_self
  have hlow := lower_le_of_mem_rest hmem
  have hsorted : (k :: l).Pairwise fun a b => unitRank a < unitRank b := h ▸ keysBetween_sorted
  have hbehind := (List.pairwise_cons.1 hsorted).1
  have hup := (inRange_iff.1 (inRange_of_mem_rest hmem)).2
  rw [keysBetween_advance st.lower st.lowerOpen]
  · show (st.rest store upper).filter _ = l
    rw [h, List.filter_cons, if_neg, List.filter_eq_self.2]
    · intro x hx
      have hxup := (inRange_iff.1 (inRange_of_mem_rest (h ▸ List.mem_cons_of_mem k hx))).2
      exact inRange_iff.2 ⟨⟨le_of_lt (hbehind x hx), fun _ => hbehind x hx⟩, hxup⟩
    · intro hk
      exact lt_irrefl _ ((inRange_iff.1 hk).1.2 rfl)
  · intro x hx
    obtain ⟨⟨-, hlt⟩, hxup⟩ := inRange_iff.1 hx
    have hx' := lt_of_le_of_lt hlow (hlt rfl)
    exact inRange_iff.2 ⟨⟨le_of_lt hx', fun _ => hx'⟩, hxup⟩

@[simp] theorem rest_pass {k : Str} :
    (st.pass k).rest store upper = keysBetween store k true upper := rfl

@[simp] theorem rest_take {k : Str} :
    (st.take k).rest store upper = keysBetween store k true upper := rfl

/-- A jump keeps the keys from its target on. -/
theorem rest_jump {k nextLower : Str} {l : List Str} (h : st.rest store upper = k :: l)
    (hlt : unitRank k < unitRank nextLower) :
    (st.jump k nextLower).rest store upper =
      (k :: l).filter fun x => decide (unitRank nextLower ≤ unitRank x) := by
  have hlow := lower_le_of_mem_rest (h ▸ List.mem_cons_self : k ∈ st.rest store upper)
  rw [← h]
  show keysBetween store nextLower false upper =
    (keysBetween store st.lower st.lowerOpen upper).filter _
  rw [keysBetween_advance st.lower st.lowerOpen]
  · refine List.filter_congr ?_
    intro x hx
    have hup := (inRange_iff.1 (List.mem_filter.1 hx).2).2
    rw [Bool.eq_iff_iff, inRange_iff, decide_eq_true_iff]
    exact ⟨fun hx => hx.1.1, fun hx => ⟨⟨hx, by simp⟩, hup⟩⟩
  · intro x hx
    obtain ⟨⟨hle, -⟩, hxup⟩ := inRange_iff.1 hx
    have hx' := lt_of_le_of_lt hlow (lt_of_lt_of_le hlt hle)
    exact inRange_iff.2 ⟨⟨le_of_lt hx', fun _ => hx'⟩, hxup⟩

/-! ## One key at a time -/

/-- Whether a scan lists a key it looks at. -/
def ScanPageRequest.lists (req : ScanPageRequest) (k : Str) : Bool :=
  (req.keyPrefix <+: k : Bool) && !req.resumed k && !req.isMarker k &&
    !req.skipPrefix.any (· <+: k)

/-- What the loop over fetched keys does with the next of them. -/
inductive FetchStep (req : ScanPageRequest) (st : ScanState) (k : Str) (fetched : List Str) :
    ScanFlow → Prop
  | beyond : ¬ req.keyPrefix <+: k → FetchStep req st k fetched (.breakScan st true)
  | pass : req.keyPrefix <+: k → req.lists k = false →
      FetchStep req st k fetched (scanFetched req fetched (st.pass k))
  | jump {skip nextLower : Str} : req.keyPrefix <+: k → req.resumed k = false →
      req.skipPrefix = some skip → skip <+: k → prefixUpperBound skip = some nextLower →
      FetchStep req st k fetched (.continueScan (st.jump k nextLower))
  | stuck {skip : Str} : req.keyPrefix <+: k → req.resumed k = false →
      req.skipPrefix = some skip → skip <+: k →
      (∀ u, prefixUpperBound skip = some u → ¬ strLt st.lower u) →
      FetchStep req st k fetched (.breakScan { st with nextStartAfter := some k } true)
  | full : req.lists k = true → req.limit ≤ st.keys.length + 1 →
      FetchStep req st k fetched (.breakScan (st.take k) false)
  | take : req.lists k = true → st.keys.length + 1 < req.limit →
      FetchStep req st k fetched (scanFetched req fetched (st.take k))

theorem fetchStep (req : ScanPageRequest) (st : ScanState) (k : Str) (fetched : List Str) :
    FetchStep req st k fetched (scanFetched req (k :: fetched) st) := by
  rw [scanFetched]
  by_cases hpre : req.keyPrefix <+: k
  · rw [if_neg (by simpa using hpre)]
    by_cases hres : req.resumed k = true
    · rw [if_pos hres]
      exact .pass hpre (by simp [ScanPageRequest.lists, hres])
    · rw [if_neg hres]
      rw [Bool.not_eq_true] at hres
      by_cases hmark : req.isMarker k = true
      · rw [if_pos hmark]
        exact .pass hpre (by simp [ScanPageRequest.lists, hmark])
      · rw [if_neg hmark]
        cases hskip : req.skipPrefix.filter (· <+: k) with
        | some skip =>
          obtain ⟨hsome, hskipk⟩ := Option.filter_eq_some_iff.1 hskip
          have hskipk' : skip <+: k := by simpa using hskipk
          cases hup : prefixUpperBound skip with
          | some nextLower =>
            by_cases hlt : strLt st.lower nextLower
            · simp only [hup, if_pos hlt]
              exact .jump hpre hres hsome hskipk' hup
            · simp only [hup, if_neg hlt]
              refine .stuck hpre hres hsome hskipk' ?_
              intro u hu
              rw [hup, Option.some_inj] at hu
              exact hu ▸ hlt
          | none =>
            simp only [hup]
            exact .stuck hpre hres hsome hskipk' fun u hu => by simp [hup] at hu
        | none =>
          have hnone := Option.filter_eq_none_iff.1 hskip
          have hlists : req.lists k = true := by
            have hany : req.skipPrefix.any (· <+: k) = false := by
              cases hs : req.skipPrefix with
              | none => rfl
              | some skip => simpa using hnone skip hs
            simp [ScanPageRequest.lists, hpre, hres, hmark, hany]
          by_cases hfull : req.limit ≤ (st.take k).keys.length
          · simp only [if_pos hfull]
            exact .full hlists (by simpa [ScanState.take] using hfull)
          · simp only [if_neg hfull]
            exact .take hlists (by simpa [ScanState.take] using hfull)
  · rw [if_pos (by simpa using hpre)]
    exact .beyond hpre

/-! ## The scan returns -/

/-- What the loop over fetched keys leaves: fewer keys where it goes on,
and those behind the fetched ones where it came to their end. -/
theorem rest_scanFetched {fetched l : List Str} (h : st.rest store upper = fetched ++ l) :
    (∀ st', scanFetched req fetched st = .continueScan st' →
      (st'.rest store upper).length < (st.rest store upper).length) ∧
    ∀ st', scanFetched req fetched st = .exhausted st' → st'.rest store upper = l := by
  induction fetched generalizing st with
  | nil =>
    rw [scanFetched]
    refine ⟨by simp, ?_⟩
    intro st' h'
    cases h'
    exact h
  | cons k fetched ih =>
    rw [List.cons_append] at h
    have hless : (keysBetween store k true upper).length < (st.rest store upper).length := by
      rw [rest_of_cons h, h]
      simp
    -- one case for each thing the loop does with a key
    have hstep := fetchStep req st k fetched
    generalize scanFetched req (k :: fetched) st = flow at hstep ⊢
    cases hstep with
    | beyond | stuck | full => simp
    | pass =>
      have hpass := ih (rest_of_cons h : (st.pass k).rest store upper = _)
      exact ⟨fun st' h' => lt_trans (hpass.1 st' h') hless, hpass.2⟩
    | take =>
      have htake := ih (rest_of_cons h : (st.take k).rest store upper = _)
      exact ⟨fun st' h' => lt_trans (htake.1 st' h') hless, htake.2⟩
    | jump _ _ _ hskipk hup =>
      refine ⟨fun st' h' => ?_, by simp⟩
      cases h'
      have hlt := unitRank_lt_upperBound hup hskipk
      rw [rest_jump h hlt, h, List.filter_cons, if_neg (by simpa using hlt)]
      exact Nat.lt_succ_of_le (List.length_filter_le _ _)

/-- A loop that goes on has room for more keys. -/
theorem length_scanFetched {fetched : List Str} (hlen : st.keys.length < req.limit) :
    (∀ st', scanFetched req fetched st = .continueScan st' → st'.keys.length < req.limit) ∧
    ∀ st', scanFetched req fetched st = .exhausted st' → st'.keys.length < req.limit := by
  induction fetched generalizing st with
  | nil => simpa [scanFetched] using hlen
  | cons k fetched ih =>
    have hstep := fetchStep req st k fetched
    generalize scanFetched req (k :: fetched) st = flow at hstep ⊢
    cases hstep with
    | beyond | stuck | full => simp
    | pass => exact ih hlen
    | take _ hroom => exact ih (by simpa [ScanState.take] using hroom)
    | jump => simpa [ScanState.jump] using hlen

/-- One iteration of the scan. -/
inductive LoopStep (store : OrderedStore Key DataRecord DataRecord.k) (req : ScanPageRequest)
    (upper : Option Str) (fuel : ℕ) (st : ScanState) : Option (ScanState × Bool) → Prop
  | past {u : Str} : upper = some u → strLe u st.lower →
      LoopStep store req upper fuel st (some (st, true))
  | empty : st.rest store upper = [] → LoopStep store req upper fuel st (some (st, true))
  | stopped {st' : ScanState} {done : Bool} {fetched l : List Str} :
      st.rest store upper = fetched ++ l → scanFetched req fetched st = .breakScan st' done →
      LoopStep store req upper fuel st (some (st', done))
  | jumped {st' : ScanState} {fetched l : List Str} :
      st.rest store upper = fetched ++ l → scanFetched req fetched st = .continueScan st' →
      LoopStep store req upper fuel st (scanLoop store req upper fuel st')
  | ended {st' : ScanState} :
      scanFetched req (st.rest store upper) st = .exhausted st' →
      LoopStep store req upper fuel st (some (st', true))
  | next {st' : ScanState} {fetched l : List Str} : fetched ≠ [] →
      st.rest store upper = fetched ++ l → scanFetched req fetched st = .exhausted st' →
      LoopStep store req upper fuel st (scanLoop store req upper fuel st')

theorem loopStep (store : OrderedStore Key DataRecord DataRecord.k) (req : ScanPageRequest)
    (upper : Option Str) (fuel : ℕ) (hlen : st.keys.length < req.limit) :
    LoopStep store req upper fuel st (scanLoop store req upper (fuel + 1) st) := by
  have hkeys := getAllStringKeysIn_keys store st.lower st.lowerOpen upper
    (req.limit - st.keys.length)
  have hcount := getAllStringKeysIn_length_le store st.lower st.lowerOpen upper
    (req.limit - st.keys.length)
  change _ = (st.rest store upper).take _ at hkeys
  simp only [scanLoop]
  generalize getAllStringKeysIn store st.lower st.lowerOpen upper
    (req.limit - st.keys.length) = fetch at hkeys hcount ⊢
  obtain ⟨fetched, fetchedLen⟩ := fetch
  simp only at hkeys hcount ⊢
  have hsplit : st.rest store upper =
      fetched ++ (st.rest store upper).drop (req.limit - st.keys.length) := by
    rw [hkeys, List.take_append_drop]
  -- at least one key was asked for, so none fetched means none left
  have hempty : fetched = [] → st.rest store upper = [] := by
    intro hnil
    rw [hkeys, List.take_eq_nil_iff] at hnil
    exact hnil.resolve_left (by omega)
  by_cases hpast : upper.any (fun upper => strLe upper st.lower) = true
  · rw [if_pos hpast]
    obtain ⟨u, hu, hle⟩ := (Option.any_eq_true _ _).1 hpast
    exact .past hu (by simpa using hle)
  · rw [if_neg hpast]
    by_cases hzero : fetchedLen = 0
    · rw [if_pos hzero]
      exact .empty (hempty (List.eq_nil_of_length_eq_zero (by omega)))
    · rw [if_neg hzero]
      by_cases hnil : fetched = []
      · rw [if_pos hnil]
        exact .empty (hempty hnil)
      · rw [if_neg hnil]
        cases hflow : scanFetched req fetched st with
        | breakScan st' done => exact .stopped hsplit hflow
        | continueScan st' => exact .jumped hsplit hflow
        | exhausted st' =>
          by_cases hshort : fetchedLen < req.limit - st.keys.length
          · simp only [if_pos hshort]
            -- fewer keys than asked for are all there are
            have hall : fetched = st.rest store upper := by
              rw [hkeys, List.length_take] at hcount
              rw [hkeys, List.take_of_length_le (by omega)]
            exact .ended (hall ▸ hflow)
          · simp only [if_neg hshort]
            exact .next hnil hsplit hflow

/-- **The scan ends** while it has more fuel than keys to look at. -/
theorem scanLoop_isSome {fuel : ℕ} (h : (st.rest store upper).length < fuel)
    (hlen : st.keys.length < req.limit) : (scanLoop store req upper fuel st).isSome = true := by
  -- every iteration that goes on has fewer keys left, and spends one of the fuel
  induction fuel generalizing st with
  | zero => omega
  | succ fuel ih =>
    have hstep := loopStep store req upper fuel hlen
    generalize scanLoop store req upper (fuel + 1) st = result at hstep ⊢
    cases hstep with
    | past | empty | stopped | ended => rfl
    | jumped hsplit hflow =>
      have hless := (rest_scanFetched hsplit).1 _ hflow
      exact ih (by omega) ((length_scanFetched hlen).1 _ hflow)
    | next hne hsplit hflow =>
      have hrest := (rest_scanFetched hsplit).2 _ hflow
      have hpos := List.length_pos_iff.2 hne
      refine ih ?_ ((length_scanFetched hlen).2 _ hflow)
      rw [hrest]
      rw [hsplit, List.length_append] at h
      omega

/-! ## The scan is a filter -/

/-- A skip prefix is a directory and, where it is below the listed
prefix, the resume point has reached it. The backend's requests are so. -/
def ScanPageRequest.SkipReached (req : ScanPageRequest) : Prop :=
  ∀ skip, req.skipPrefix = some skip → skip.getLast? = some '/' ∧
    (req.keyPrefix <+: skip → skip ≠ req.keyPrefix → ∃ startAfter,
      req.startAfter = some startAfter ∧ req.keyPrefix <+: startAfter ∧
        unitRank skip ≤ unitRank startAfter)

/-- **The invariant of the scan**: where the lower bound is with respect
to the listed prefix and to the skipped one. -/
structure ScanInv (req : ScanPageRequest) (st : ScanState) : Prop where
  place : (∀ k, req.keyPrefix <+: k → req.resumed k = true) ∨ req.keyPrefix <+: st.lower ∨
    ∀ k, req.keyPrefix <+: k → unitRank k < unitRank st.lower
  reached : ∀ skip, req.skipPrefix = some skip → req.keyPrefix <+: skip → skip ≠ req.keyPrefix →
    unitRank skip ≤ unitRank st.lower

/-- What a scan that has `keys` and is left with `listed` to list comes
to. -/
structure ScanYields (req : ScanPageRequest) (keys listed : List Str) (st : ScanState)
    (done : Bool) : Prop where
  taken : st.keys = keys ++ listed.take (req.limit - keys.length)
  ended : done = decide (keys.length + listed.length < req.limit)
  resume : done = false → st.nextStartAfter = st.keys.getLast?

theorem lists_iff {k : Str} : req.lists k = true ↔ req.keyPrefix <+: k ∧ req.resumed k = false ∧
    req.isMarker k = false ∧ ∀ skip, req.skipPrefix = some skip → ¬ skip <+: k := by
  have hany : req.skipPrefix.any (· <+: k) = false ↔
      ∀ skip, req.skipPrefix = some skip → ¬ skip <+: k := by
    cases req.skipPrefix <;> simp
  simp [ScanPageRequest.lists, ← hany, and_assoc]

/-- Nothing is left to list. -/
theorem ScanYields.nil (hkeys : st'.keys = st.keys) (hlen : st.keys.length < req.limit) :
    ScanYields req st.keys [] st' true :=
  ⟨by simp [hkeys], by simpa using hlen, by simp⟩

/-- The page is full. -/
theorem ScanYields.full {k : Str} {l : List Str} (hlen : st.keys.length < req.limit)
    (hfull : req.limit ≤ st.keys.length + 1) :
    ScanYields req st.keys (k :: l) (st.take k) false := by
  refine ⟨?_, ?_, fun _ => ?_⟩
  · have hone : req.limit - st.keys.length = 1 := by omega
    simp [ScanState.take, hone]
  · symm
    simpa using by omega
  · simp [ScanState.take]

/-- One more key is listed. -/
theorem ScanYields.cons {k : Str} {l : List Str} {st'' : ScanState} {done : Bool}
    (hlen : st.keys.length < req.limit) (h : ScanYields req (st.take k).keys l st'' done) :
    ScanYields req st.keys (k :: l) st'' done := by
  have hlength : (st.take k).keys.length = st.keys.length + 1 := by simp [ScanState.take]
  refine ⟨?_, ?_, h.resume⟩
  · have hsucc : req.limit - st.keys.length = req.limit - (st.take k).keys.length + 1 := by omega
    rw [h.taken, hsucc, List.take_succ_cons]
    simp [ScanState.take]
  · rw [h.ended, hlength, List.length_cons]
    congr 1
    apply propext
    omega

/-- The invariant moves with the lower bound. -/
theorem ScanInv.advance {k : Str} (hinv : ScanInv req st) (hk : req.keyPrefix <+: k)
    (hlow : unitRank st.lower ≤ unitRank k) (hst : st'.lower = k) : ScanInv req st' := by
  refine ⟨Or.inr (Or.inl (hst ▸ hk)), ?_⟩
  intro skip hskip hpre hne
  exact hst ▸ le_trans (hinv.reached skip hskip hpre hne) hlow

/-- A key that is not under the prefix ends the listing. -/
theorem not_lists_of_beyond {k x : Str} (hinv : ScanInv req st) (hk : ¬ req.keyPrefix <+: k)
    (hlow : unitRank st.lower ≤ unitRank k) (hkx : unitRank k ≤ unitRank x) :
    req.lists x = false := by
  rw [← Bool.not_eq_true, lists_iff]
  rintro ⟨hx, hres, -, -⟩
  rcases hinv.place with h | h | h
  · rw [h x hx] at hres
    exact absurd hres (by simp)
  · -- between the lower bound and `x`, both under the prefix
    exact hk (unitRank_prefix_iff.1 (Lexicographic.isPrefix_of_between (unitRank_prefix_iff.2 h)
      (unitRank_prefix_iff.2 hx) hlow hkx))
  · exact absurd (h x hx) (not_lt.2 (le_trans hlow hkx))

/-- At the end of the prefix's range nothing is left to list. -/
theorem ScanInv.filter_rest_of_past {u : Str} (hinv : ScanInv req st)
    (hup : prefixUpperBound req.keyPrefix = some u) (hle : strLe u st.lower) :
    (st.rest store upper).filter req.lists = [] := by
  rw [List.filter_eq_nil_iff]
  intro x hx
  rw [lists_iff]
  rintro ⟨hpre, hres, -, -⟩
  rcases hinv.place with h | h | h
  · rw [h x hpre] at hres
    exact absurd hres (by simp)
  · exact absurd hle (not_le.2 (pointRank_lt_upperBound hup h))
  · exact absurd (h x hpre) (not_lt.2 (lower_le_of_mem_rest hx))

/-- A jump passes over nothing the scan lists. -/
theorem le_of_lists_of_jump {k x skip nextLower : Str} (hskip : req.skipPrefix = some skip)
    (hskipk : skip <+: k) (hup : prefixUpperBound skip = some nextLower)
    (hkx : unitRank k ≤ unitRank x) (hx : req.lists x = true) :
    unitRank nextLower ≤ unitRank x := by
  by_contra hlt
  have hle := le_trans (unitRank_le_of_isPrefix hskipk) hkx
  exact (lists_iff.1 hx).2.2.2 skip hskip ((prefix_iff_unitRank hup).2 ⟨hle, not_le.1 hlt⟩)

/-- The lower bound is below the end of the skipped prefix in the order of
Rust strings too, so that the scan goes on. -/
theorem strLt_of_jump {k skip nextLower : Str} (hinv : ScanInv req st)
    (hskip : req.skipPrefix = some skip) (hpre : req.keyPrefix <+: k)
    (hres : req.resumed k = false) (hlow : unitRank st.lower ≤ unitRank k)
    (hskipk : skip <+: k) (hup : prefixUpperBound skip = some nextLower) :
    strLt st.lower nextLower := by
  refine pointRank_lt_upperBound hup ?_
  -- a key that is not resumed puts the lower bound under the prefix
  have hplace : req.keyPrefix <+: st.lower := by
    rcases hinv.place with h | h | h
    · rw [h k hpre] at hres
      exact absurd hres (by simp)
    · exact h
    · exact absurd (h k hpre) (not_lt.2 hlow)
  rcases List.prefix_or_prefix_of_prefix hskipk hpre with h | h
  · exact h.trans hplace
  · by_cases heq : skip = req.keyPrefix
    · rw [heq]
      exact hplace
    · have hle := hinv.reached skip hskip h heq
      exact unitRank_prefix_iff.1 (Lexicographic.isPrefix_of_between List.prefix_rfl
        (unitRank_prefix_iff.2 hskipk) hle hlow)

/-- The invariant holds behind a skipped prefix. -/
theorem ScanInv.jump {k skip nextLower : Str} (hskip : req.skipPrefix = some skip)
    (hpre : req.keyPrefix <+: k) (hskipk : skip <+: k)
    (hup : prefixUpperBound skip = some nextLower) : ScanInv req (st.jump k nextLower) := by
  -- the end of the skipped prefix differs from it in the last character alone
  obtain ⟨q, c, d, rfl, rfl, hd⟩ := prefixUpperBound_eq_some hup
  refine ⟨Or.inr ?_, fun skip' hskip' _ _ => ?_⟩
  · rcases List.prefix_or_prefix_of_prefix hskipk hpre with h | h
    · refine Or.inr ?_
      intro x hx
      exact unitRank_lt_upperBound hup (h.trans hx)
    · rcases List.prefix_concat_iff.1 h with heq | hq
      · refine Or.inr ?_
        intro x hx
        exact unitRank_lt_upperBound hup (heq ▸ hx)
      · exact Or.inl (hq.trans (List.prefix_append q [d]))
  · rw [hskip, Option.some_inj] at hskip'
    exact hskip' ▸ le_of_lt (unitRank_lt_upperBound hup List.prefix_rfl)

/-- Whether the scan goes on, and from which state. -/
def ScanFlow.goesOn (flow : ScanFlow) (st : ScanState) : Prop :=
  flow = .continueScan st ∨ flow = .exhausted st

/-- What the scan comes to from a state is what it comes to from where
the loop over fetched keys goes on. -/
theorem scanFetched_yields (hreach : req.SkipReached) {fetched l : List Str}
    (h : st.rest store upper = fetched ++ l) (hlen : st.keys.length < req.limit)
    (hinv : ScanInv req st) :
    (∀ st' done, scanFetched req fetched st = .breakScan st' done →
      ScanYields req st.keys ((st.rest store upper).filter req.lists) st' done) ∧
    ∀ st', (scanFetched req fetched st).goesOn st' → ScanInv req st' ∧ ∀ st'' done,
      ScanYields req st'.keys ((st'.rest store upper).filter req.lists) st'' done →
        ScanYields req st.keys ((st.rest store upper).filter req.lists) st'' done := by
  induction fetched generalizing st with
  | nil =>
    refine ⟨by simp [scanFetched], ?_⟩
    intro st' h'
    rw [scanFetched] at h'
    rcases h' with h' | h'
    · cases h'
    · cases h'
      exact ⟨hinv, fun _ _ hy => hy⟩
  | cons k fetched ih =>
    rw [List.cons_append] at h
    have hlow : unitRank st.lower ≤ unitRank k :=
      lower_le_of_mem_rest (h ▸ List.mem_cons_self : k ∈ st.rest store upper)
    have hsorted : (k :: (fetched ++ l)).Pairwise fun a b => unitRank a < unitRank b :=
      h ▸ keysBetween_sorted
    have hbehind : ∀ x ∈ k :: (fetched ++ l), unitRank k ≤ unitRank x := by
      intro x hx
      exact (List.mem_cons.1 hx).elim (fun hxk => hxk ▸ le_rfl)
        fun hx => le_of_lt ((List.pairwise_cons.1 hsorted).1 x hx)
    have hrest : keysBetween store k true upper = fetched ++ l := rest_of_cons h
    have hstep := fetchStep req st k fetched
    generalize scanFetched req (k :: fetched) st = flow at hstep ⊢
    rw [h]
    cases hstep with
    | beyond hpre =>
      refine ⟨fun st' done h' => ?_, by rintro st' (h' | h') <;> cases h'⟩
      cases h'
      rw [List.filter_eq_nil_iff.2 fun x hx => by
        simp [not_lists_of_beyond hinv hpre hlow (hbehind x hx)]]
      exact .nil rfl hlen
    | pass hpre hlists =>
      have hnext := @ih (st.pass k) hrest hlen (hinv.advance hpre hlow rfl)
      rw [rest_pass, hrest] at hnext
      rw [List.filter_cons, if_neg (by simp [hlists])]
      exact hnext
    | @jump skip nextLower hpre hres hskip hskipk hup =>
      refine ⟨by simp, ?_⟩
      intro st' h'
      rcases h' with h' | h' <;> cases h'
      refine ⟨.jump hskip hpre hskipk hup, ?_⟩
      intro st'' done hy
      have hlt := unitRank_lt_upperBound hup hskipk
      rw [rest_jump h hlt, List.filter_filter] at hy
      have heq : (k :: (fetched ++ l)).filter req.lists = (k :: (fetched ++ l)).filter fun x =>
          req.lists x && decide (unitRank nextLower ≤ unitRank x) :=
            List.filter_congr fun x hx => by
        cases hx' : req.lists x
        · rfl
        · simp [le_of_lists_of_jump hskip hskipk hup (hbehind x hx) hx']
      rw [heq]
      exact hy
    | stuck hpre hres hskip hskipk hnone =>
      -- a skipped directory has an end above the lower bound: this branch is not taken
      have hup := prefixUpperBound_of_slash (hreach _ hskip).1
      exact absurd (strLt_of_jump hinv hskip hpre hres hlow hskipk hup) (hnone _ hup)
    | full hlists hfull =>
      refine ⟨fun st' done h' => ?_, by rintro st' (h' | h') <;> cases h'⟩
      cases h'
      rw [List.filter_cons, if_pos hlists]
      exact .full hlen hfull
    | take hlists hroom =>
      have hpre := (lists_iff.1 hlists).1
      have hlen' : (st.take k).keys.length < req.limit := by simpa [ScanState.take] using hroom
      have hnext := @ih (st.take k) hrest hlen' (hinv.advance hpre hlow rfl)
      rw [rest_take, hrest] at hnext
      rw [List.filter_cons, if_pos hlists]
      exact ⟨fun st' done h' => .cons hlen (hnext.1 st' done h'), fun st' h' =>
        ⟨(hnext.2 st' h').1, fun st'' done hy => .cons hlen ((hnext.2 st' h').2 st'' done hy)⟩⟩

/-- **The scan lists what is left to list**, up to the page size. -/
theorem scanLoop_yields (hreach : req.SkipReached) {fuel : ℕ} {done : Bool}
    (hlen : st.keys.length < req.limit) (hinv : ScanInv req st)
    (h : scanLoop store req (prefixUpperBound req.keyPrefix) fuel st = some (st', done)) :
    ScanYields req st.keys
      ((st.rest store (prefixUpperBound req.keyPrefix)).filter req.lists) st' done := by
  induction fuel generalizing st with
  | zero => simp [scanLoop] at h
  | succ fuel ih =>
    have hstep := loopStep store req (prefixUpperBound req.keyPrefix) fuel hlen
    rw [h] at hstep
    generalize hres : some (st', done) = result at hstep
    cases hstep with
    | past hup hle =>
      cases hres
      rw [hinv.filter_rest_of_past hup hle]
      exact .nil rfl hlen
    | empty hnil =>
      cases hres
      rw [hnil]
      exact .nil rfl hlen
    | stopped hsplit hflow =>
      cases hres
      exact (scanFetched_yields hreach hsplit hlen hinv).1 _ _ hflow
    | jumped hsplit hflow =>
      obtain ⟨hinv', hback⟩ := (scanFetched_yields hreach hsplit hlen hinv).2 _ (Or.inl hflow)
      exact hback _ _ (ih ((length_scanFetched hlen).1 _ hflow) hinv' hres.symm)
    | ended hflow =>
      cases hres
      have hsplit := (List.append_nil (st.rest store (prefixUpperBound req.keyPrefix))).symm
      have hback := ((scanFetched_yields hreach hsplit hlen hinv).2 _ (Or.inr hflow)).2
      refine hback _ _ ?_
      rw [(rest_scanFetched hsplit).2 _ hflow]
      exact .nil rfl ((length_scanFetched hlen).2 _ hflow)
    | next _ hsplit hflow =>
      obtain ⟨hinv', hback⟩ := (scanFetched_yields hreach hsplit hlen hinv).2 _ (Or.inr hflow)
      exact hback _ _ (ih ((length_scanFetched hlen).2 _ hflow) hinv' hres.symm)

/-! ## A page -/

/-- Whether a scan would list a key of the store. A resume point above the
listed prefix has to be passed in both orders. -/
def ScanPageRequest.selects (req : ScanPageRequest) (k : Str) : Bool :=
  req.lists k && req.startAfter.all fun startAfter =>
    !decide (strLt req.keyPrefix startAfter) || decide (unitRank startAfter < unitRank k)

/-- **The keys a listing has left at its resume point.** -/
def pageKeys (store : OrderedStore Key DataRecord DataRecord.k) (req : ScanPageRequest) :
    List Str := (textKeys store).filter req.selects

theorem selects_iff {k : Str} : req.selects k = true ↔ req.lists k = true ∧
    ∀ startAfter, req.startAfter = some startAfter → strLt req.keyPrefix startAfter →
      unitRank startAfter < unitRank k := by
  rw [ScanPageRequest.selects, Bool.and_eq_true]
  cases req.startAfter with
  | none => simp
  | some startAfter =>
    simp only [Option.all_some, Bool.or_eq_true, Bool.not_eq_true', decide_eq_false_iff_not,
      decide_eq_true_iff, Option.some.injEq, forall_eq', ← imp_iff_not_or]

theorem not_resumed_iff {k : Str} : req.resumed k = false ↔
    ∀ startAfter, req.startAfter = some startAfter → strLt startAfter k := by
  unfold ScanPageRequest.resumed
  cases req.startAfter <;> simp

/-- Where a scan starts. -/
theorem start_eq (req : ScanPageRequest) :
    (∃ startAfter, req.startAfter = some startAfter ∧ strLt req.keyPrefix startAfter ∧
      req.start = ⟨[], some startAfter, startAfter, true⟩) ∨
    (∃ startAfter, req.startAfter = some startAfter ∧ ¬ strLt req.keyPrefix startAfter ∧
      req.start = ⟨[], some startAfter, req.keyPrefix, decide (req.keyPrefix = startAfter)⟩) ∨
    (req.startAfter = none ∧ req.start = ⟨[], none, req.keyPrefix, false⟩) := by
  cases hsa : req.startAfter with
  | none => exact Or.inr (Or.inr ⟨rfl, by simp [ScanPageRequest.start, hsa]⟩)
  | some startAfter =>
    by_cases hlt : strLt req.keyPrefix startAfter
    · exact Or.inl ⟨startAfter, rfl, hlt, by
        simp [ScanPageRequest.start, hsa, hlt, strLe, le_of_lt hlt]⟩
    · refine Or.inr (Or.inl ⟨startAfter, rfl, hlt, ?_⟩)
      have hle : strLe req.keyPrefix startAfter ↔ req.keyPrefix = startAfter :=
        ⟨fun h => pointRank_injective (le_antisymm h (not_lt.1 hlt)), fun h => h ▸ le_rfl⟩
      simp [ScanPageRequest.start, hsa, hlt, hle]

/-- From the start, what is left to list is what the listing selects. -/
theorem filter_rest_start (store : OrderedStore Key DataRecord DataRecord.k)
    (req : ScanPageRequest) :
    (req.start.rest store (prefixUpperBound req.keyPrefix)).filter req.lists =
      pageKeys store req := by
  rw [ScanState.rest, keysBetween, List.filter_filter, pageKeys]
  refine List.filter_congr ?_
  intro k _
  rw [Bool.eq_iff_iff, Bool.and_eq_true, selects_iff, inRange_iff]
  refine and_congr_right ?_
  intro hlists
  obtain ⟨hpre, hres, -, -⟩ := lists_iff.1 hlists
  rw [not_resumed_iff] at hres
  have hup : ∀ u, prefixUpperBound req.keyPrefix = some u → unitRank k < unitRank u :=
    fun u hu => unitRank_lt_upperBound hu hpre
  have hle := unitRank_le_of_isPrefix hpre
  -- the scan starts behind the resume point, or at the prefix
  rcases start_eq req with ⟨sa, hsa, hlt, hst⟩ | ⟨sa, hsa, hlt, hst⟩ | ⟨hsa, hst⟩
  · rw [hst]
    constructor
    · rintro ⟨⟨-, h⟩, -⟩ sa' hsa' -
      rw [hsa, Option.some_inj] at hsa'
      exact hsa' ▸ h rfl
    · intro h
      have hk := h sa hsa hlt
      exact ⟨⟨le_of_lt hk, fun _ => hk⟩, hup⟩
  · rw [hst]
    refine iff_of_true ⟨⟨hle, fun hopen => ?_⟩, hup⟩ fun sa' hsa' hlt' => ?_
    · -- the resume point is the prefix, which no key at it has passed
      have heq : req.keyPrefix = sa := by simpa using hopen
      refine lt_of_le_of_ne hle ?_
      intro h
      have hk := hres sa hsa
      rw [← heq, show req.keyPrefix = k from unitRank_injective h] at hk
      exact lt_irrefl _ hk
    · rw [hsa, Option.some_inj] at hsa'
      exact absurd (hsa' ▸ hlt') hlt
  · rw [hst]
    exact iff_of_true ⟨⟨hle, by simp⟩, hup⟩ fun sa' hsa' => by simp [hsa] at hsa'

/-- The invariant holds where a scan starts. -/
theorem scanInv_start (hreach : req.SkipReached) : ScanInv req req.start := by
  rcases start_eq req with ⟨sa, hsa, hlt, hst⟩ | ⟨sa, hsa, hlt, hst⟩ | ⟨hsa, hst⟩
  · rw [hst]
    refine ⟨?_, fun skip hskip hpre hne => ?_⟩
    · by_cases hpre : req.keyPrefix <+: sa
      · exact Or.inr (Or.inl hpre)
      · -- above the prefix and not under it: everything under it is passed
        refine Or.inl ?_
        intro k hk
        have hks := Lexicographic.lt_of_isPrefix_of_lt (pointRank_prefix_iff.2 hk) hlt
          (mt pointRank_prefix_iff.1 hpre)
        simpa [ScanPageRequest.resumed, hsa] using le_of_lt hks
    · obtain ⟨sa', hsa', -, hle⟩ := (hreach skip hskip).2 hpre hne
      rw [hsa, Option.some_inj] at hsa'
      exact hsa' ▸ hle
  · rw [hst]
    refine ⟨Or.inr (Or.inl List.prefix_rfl), ?_⟩
    intro skip hskip hpre hne
    obtain ⟨sa', hsa', hpre', hle⟩ := (hreach skip hskip).2 hpre hne
    rw [hsa, Option.some_inj] at hsa'
    subst hsa'
    have heq : req.keyPrefix = sa :=
      pointRank_injective (le_antisymm (pointRank_le_of_isPrefix hpre') (not_lt.1 hlt))
    exact heq ▸ hle
  · rw [hst]
    refine ⟨Or.inr (Or.inl List.prefix_rfl), ?_⟩
    intro skip hskip hpre hne
    obtain ⟨sa', hsa', -⟩ := (hreach skip hskip).2 hpre hne
    simp [hsa] at hsa'

theorem length_rest_le (st : ScanState) (store : OrderedStore Key DataRecord DataRecord.k)
    (upper : Option Str) : (st.rest store upper).length ≤ store.items.length := by
  have h1 := List.length_filter_le (inRange st.lower st.lowerOpen upper) (textKeys store)
  have h2 := List.length_filterMap_le Key.asString store.keys
  rw [OrderedStore.keys, List.length_map] at h2
  exact le_trans h1 h2

@[simp] theorem start_keys (req : ScanPageRequest) : req.start.keys = [] := rfl

/-- **Every page request is answered**, whatever its resume point and its
skip prefix. -/
theorem scanPage_isSome (P : Platform) (req : ScanPageRequest) (s : Stores) :
    (scanPage P req s).isSome = true := by
  simp only [scanPage]
  split_ifs with h0 h1
  · rfl
  · rfl
  · have hlen : req.start.keys.length < req.limit := by
      rw [start_keys, List.length_nil]
      omega
    have hfuel := length_rest_le req.start s.store (prefixUpperBound req.keyPrefix)
    have hsome := scanLoop_isSome (Nat.lt_succ_of_le hfuel) hlen
    obtain ⟨⟨st, done⟩, hst⟩ := Option.isSome_iff_exists.1 hsome
    simp [hst]

/-- What was prefetched for a key is what its sidecar reads. -/
theorem readMeta_of_mem_prefetchMetas {metaStore : OrderedStore Key MetaValue MetaValue.k}
    {keys : List Str} {key : Str} {r : MetaRecord}
    (h : (key, r) ∈ prefetchMetas metaStore keys) : readMeta metaStore key = some r := by
  rw [prefetchMetas] at h
  split_ifs at h
  · split at h
    · obtain ⟨value, hvalue, hpair⟩ := List.mem_filterMap.1 h
      split at hpair
      · rename_i key' r' hkey hdec
        cases hpair
        -- the cursor visits a sidecar under the key it is stored under
        have hget := (OrderedStore.mem_cursor.1 hvalue).1
        rw [Key.asString_eq_some_iff.1 hkey] at hget
        simp [readMeta, hget, hdec]
      · simp at hpair
    · simp at h
  · simp at h

/-- **The cursor join changes nothing**: each key gets the entry it would
get on its own. -/
theorem joinMetas_eq {P : Platform} {s : Stores} {keys : List Str}
    {metas : List (Str × MetaRecord)}
    (h : ∀ kr ∈ metas, readMeta s.metaStore kr.1 = some kr.2) :
    joinMetas P s keys metas = keys.map fun k => (k, entryInfoForKey P s k none) := by
  induction keys generalizing metas with
  | nil => rfl
  | cons key keys ih =>
    have hentry : entryInfoForKey P s key (metas.lookup key) = entryInfoForKey P s key none := by
      cases hl : metas.lookup key with
      | none => rfl
      | some r =>
        obtain ⟨l₁, l₂, rfl, -⟩ := List.lookup_eq_some_iff.1 hl
        have hread := h (key, r) (by simp)
        simp only [entryInfoForKey, Option.some_or, Option.none_or, hread]
    rw [joinMetas, List.map_cons, hentry, ih fun kr hkr => h kr (List.mem_of_mem_filter hkr)]

/-- **What a page is**: the first of the keys the listing has left, each
with its entry, and whether there may be more. A page that is not the
last resumes behind its last key. -/
theorem scanPage_spec {P : Platform} {s : Stores} {page : ScanPage} (hlimit : 0 < req.limit)
    (hreach : req.SkipReached) (h : scanPage P req s = some page) :
    page.entries = ((pageKeys s.store req).take req.limit).map
        (fun k => (k, entryInfoForKey P s k none)) ∧
      page.done = decide ((pageKeys s.store req).length < req.limit) ∧
      page.skipPrefix = req.skipPrefix ∧
      (page.done = false →
        page.nextStartAfter = ((pageKeys s.store req).take req.limit).getLast?) := by
  have hinv := scanInv_start hreach
  simp only [scanPage, if_neg (by omega : ¬ req.limit = 0)] at h
  split_ifs at h with hpast
  · -- the resume point is at the end of the prefix's range or above it
    obtain ⟨u, hu, hle⟩ := (Option.any_eq_true _ _).1 hpast
    have hnil : pageKeys s.store req = [] := by
      rw [← filter_rest_start]
      exact hinv.filter_rest_of_past hu (of_decide_eq_true hle)
    cases h
    rw [hnil]
    simpa using hlimit
  · cases hloop : scanLoop s.store req (prefixUpperBound req.keyPrefix)
        (s.store.items.length + 1) req.start with
    | none => simp [hloop] at h
    | some result =>
      obtain ⟨st, done⟩ := result
      simp only [hloop, Option.some_inj] at h
      obtain ⟨htaken, hended, hresume⟩ := scanLoop_yields hreach (by simpa using hlimit) hinv hloop
      rw [filter_rest_start] at htaken hended
      simp only [start_keys, List.length_nil, Nat.sub_zero, List.nil_append, Nat.zero_add]
        at htaken hended
      subst h
      refine ⟨?_, hended, rfl, fun hdone => ?_⟩
      · rw [← htaken]
        exact joinMetas_eq fun kr hkr => readMeta_of_mem_prefetchMetas hkr
      · rw [← htaken]
        exact hresume hdone

end IndexeddbCore

end OpendalIndexeddb
