import Mathlib.Data.List.Basic
import Mathlib.Order.Lattice
/-!
# Reading a list in pages

A reader that takes `n` items, and goes on behind the last of them, by
an order that need not be the one the list is in: what comes later in
the list but is not above that last item is lost. `paged` is what such a
reader gets, `paged_eq_self_iff` when it gets everything.
-/

namespace OpendalIndexeddb

variable {α β : Type*} [LinearOrder β] (f : α → β)

/-- What is left of a list after its first page: the items above the last
item of that page. -/
def afterPage (n : ℕ) (l : List α) : List α :=
  (l.drop n).filter fun b => l[n - 1]?.any fun a => f a < f b

theorem afterPage_sublist (n : ℕ) (l : List α) : List.Sublist (afterPage f n l) (l.drop n) :=
  List.filter_sublist

/-- What reading a list in pages of `n` items gets. -/
def paged (n : ℕ) (l : List α) : List α :=
  if _h : 0 < n ∧ n ≤ l.length then l.take n ++ paged n (afterPage f n l) else l
termination_by l.length
decreasing_by
  have h1 := (afterPage_sublist f n l).length_le
  rw [List.length_drop] at h1
  omega

/-- The order the pages need: each item is above the last item of the
page before its own. -/
def PageOrdered (n : ℕ) (l : List α) : Prop :=
  ∀ i a b, n ≤ i → l[i / n * n - 1]? = some a → l[i]? = some b → f a < f b

variable {f} {n m : ℕ} {l : List α}

theorem paged_of_lt (h : l.length < n) : paged f n l = l := by
  rw [paged, dif_neg (by omega)]

theorem paged_of_le (hn : 0 < n) (h : n ≤ l.length) :
    paged f n l = l.take n ++ paged f n (afterPage f n l) := by
  rw [paged, dif_pos ⟨hn, h⟩]

theorem length_afterPage_lt (hn : 0 < n) (h : n ≤ l.length) :
    (afterPage f n l).length < l.length := by
  have := (afterPage_sublist f n l).length_le
  rw [List.length_drop] at this
  omega

/-- **Pages repeat nothing and keep the order.** -/
theorem paged_sublist (n : ℕ) (l : List α) : List.Sublist (paged f n l) l := by
  induction hk : l.length using Nat.strongRecOn generalizing l with
  | ind k ih =>
    subst hk
    by_cases h : 0 < n ∧ n ≤ l.length
    · rw [paged_of_le h.1 h.2]
      have hrest := ih _ (length_afterPage_lt (f := f) h.1 h.2) _ rfl
      have happ := (List.Sublist.refl (l.take n)).append
        (hrest.trans (afterPage_sublist f n l))
      rwa [List.take_append_drop] at happ
    · rw [paged, dif_neg h]

/-- The first page is the beginning of the list. -/
theorem take_paged (hm : m ≤ n) : (paged f n l).take m = l.take m := by
  by_cases h : 0 < n ∧ n ≤ l.length
  · rw [paged_of_le h.1 h.2, List.take_append_of_le_length (by simp; omega), List.take_take,
      Nat.min_eq_left hm]
  · rw [paged, dif_neg h]

theorem paged_eq_nil_iff (hn : 0 < n) : paged f n l = [] ↔ l = [] := by
  constructor
  · intro h
    have htake := take_paged (f := f) (l := l) (show 1 ≤ n from hn)
    rw [h, List.take_nil] at htake
    cases l with
    | nil => rfl
    | cons a l => simp at htake
  · rintro rfl
    exact List.sublist_nil.1 (paged_sublist n [])

/-- A page boundary loses nothing where everything behind it is above the
last item before it. -/
theorem afterPage_eq_drop_iff (hn : 0 < n) (h : n ≤ l.length) :
    afterPage f n l = l.drop n ↔ ∀ i a b, n ≤ i → l[n - 1]? = some a → l[i]? = some b →
      f a < f b := by
  obtain ⟨a, ha⟩ : ∃ a, l[n - 1]? = some a := ⟨_, List.getElem?_eq_getElem (by omega)⟩
  rw [afterPage, List.filter_eq_self]
  constructor
  · intro hall i a' b hi ha' hb
    have hmem : b ∈ l.drop n := by
      refine List.mem_of_getElem? (i := i - n) ?_
      rw [List.getElem?_drop, ← hb]
      congr 1
      omega
    simpa [ha'] using hall b hmem
  · intro hall b hb
    obtain ⟨j, hj⟩ := List.getElem?_of_mem hb
    rw [List.getElem?_drop] at hj
    simpa [ha] using hall (n + j) a b (by omega) ha hj

/-- The order between pages, one page at a time. -/
theorem pageOrdered_iff (hn : 0 < n) (h : n ≤ l.length) :
    PageOrdered f n l ↔ afterPage f n l = l.drop n ∧ PageOrdered f n (l.drop n) := by
  rw [afterPage_eq_drop_iff hn h]
  constructor
  · intro hord
    refine ⟨fun i => ?_, fun i a b hi ha hb => ?_⟩
    · -- induction on the page: its predecessor's last item is in between
      induction i using Nat.strongRecOn with
      | ind i ih =>
        intro a b hi ha hb
        have hq : 1 ≤ i / n := (Nat.one_le_div_iff hn).2 hi
        have hle := Nat.div_mul_le_self i n
        by_cases h1 : i / n = 1
        · exact hord i a b hi (by rwa [h1, Nat.one_mul]) hb
        · have hlow : 2 * n ≤ i / n * n := Nat.mul_le_mul_right n (by omega)
          have hlt : i < l.length := (List.getElem?_eq_some_iff.1 hb).1
          have hc : l[i / n * n - 1]? = some (l[i / n * n - 1]) :=
            List.getElem?_eq_getElem (by omega)
          exact lt_trans (ih (i / n * n - 1) (by omega) a _ (by omega) ha hc)
            (hord i _ b hi hc hb)
    · rw [List.getElem?_drop] at ha hb
      have hdiv : (n + i) / n = i / n + 1 := by rw [Nat.add_div_left _ hn]
      have hq : 1 ≤ i / n := (Nat.one_le_div_iff hn).2 hi
      have hlow : 1 * n ≤ i / n * n := Nat.mul_le_mul_right n hq
      refine hord (n + i) a b (by omega) ?_ hb
      rw [hdiv, Nat.add_mul, Nat.one_mul, ← ha]
      congr 1
      omega
  · rintro ⟨hfirst, hord⟩ i a b hi ha hb
    have hq : 1 ≤ i / n := (Nat.one_le_div_iff hn).2 hi
    by_cases h1 : i / n = 1
    · exact hfirst i a b hi (by rwa [h1, Nat.one_mul] at ha) hb
    · have hlow : 2 * n ≤ i / n * n := Nat.mul_le_mul_right n (by omega)
      have hle := Nat.div_mul_le_self i n
      have hdiv : (i - n) / n = i / n - 1 := by rw [← Nat.sub_mul_div i n 1, Nat.mul_one]
      refine hord (i - n) a b (by omega) ?_ ?_
      · rw [List.getElem?_drop, ← ha, hdiv, Nat.sub_mul, Nat.one_mul]
        congr 1
        omega
      · rw [List.getElem?_drop, ← hb]
        congr 1
        omega

/-- **Nothing is lost exactly where the pages are in order.** -/
theorem paged_eq_self_iff (hn : 0 < n) : paged f n l = l ↔ PageOrdered f n l := by
  induction hk : l.length using Nat.strongRecOn generalizing l with
  | ind k ih =>
    subst hk
    rcases Nat.lt_or_ge l.length n with h | h
    · refine iff_of_true (paged_of_lt h) ?_
      intro i a b hi _ hb
      have := (List.getElem?_eq_some_iff.1 hb).1
      omega
    · have hdrop : (l.drop n).length < l.length := by rw [List.length_drop]; omega
      rw [pageOrdered_iff hn h, ← ih _ hdrop rfl, paged_of_le hn h]
      constructor
      · intro heq
        have hrest : paged f n (afterPage f n l) = l.drop n := by
          have := heq.trans (List.take_append_drop n l).symm
          exact List.append_cancel_left this
        have hafter : afterPage f n l = l.drop n := by
          refine (afterPage_sublist f n l).eq_of_length_le ?_
          rw [← hrest]
          exact (paged_sublist n _).length_le
        exact ⟨hafter, by rw [← hafter] at hrest ⊢; exact hrest⟩
      · rintro ⟨hafter, hrest⟩
        rw [hafter, hrest, List.take_append_drop]

/-- What a beginning has behind its first page comes next, where none of it
is lost. -/
theorem prefix_afterPage {p : List α} (hp : p <+: l) (h : n ≤ p.length)
    (hkept : ∀ b ∈ p.drop n, b ∈ afterPage f n l) : p.drop n <+: afterPage f n l := by
  obtain ⟨t, rfl⟩ := hp
  have hall : (p.drop n).filter (fun b => (p ++ t)[n - 1]?.any fun a => f a < f b) = p.drop n :=
    List.filter_eq_self.2 fun b hb => (List.mem_filter.1 (hkept b hb)).2
  rw [afterPage, List.drop_append_of_le_length h, List.filter_append, hall]
  exact List.prefix_append _ _

/-- **A beginning of a list is read in full exactly where its own pages are
in order**, whatever is behind it. -/
theorem prefix_paged_iff (hn : 0 < n) {p : List α} (hp : p <+: l) :
    p <+: paged f n l ↔ PageOrdered f n p := by
  induction hk : l.length using Nat.strongRecOn generalizing l p with
  | ind k ih =>
    subst hk
    rcases Nat.lt_or_ge p.length n with hlt | hge
    · -- the first page has it all
      refine iff_of_true ?_ fun i a b hi _ hb => ?_
      · rw [List.prefix_iff_eq_take.1 hp, ← take_paged (f := f) (Nat.le_of_lt hlt)]
        exact List.take_prefix _ _
      · have := (List.getElem?_eq_some_iff.1 hb).1
        omega
    · have hle : n ≤ l.length := le_trans hge hp.length_le
      have htake : l.take n = p.take n := by
        obtain ⟨t, rfl⟩ := hp
        exact List.take_append_of_le_length hge
      have hsplit : p <+: paged f n l ↔ p.drop n <+: paged f n (afterPage f n l) := by
        rw [paged_of_le hn hle, htake]
        nth_rewrite 1 [← List.take_append_drop n p]
        exact List.prefix_append_right_inj _
      have hrest : ∀ {q : List α}, q <+: afterPage f n l →
          (q <+: paged f n (afterPage f n l) ↔ PageOrdered f n q) := fun hq =>
        ih _ (length_afterPage_lt hn hle) hq rfl
      rw [hsplit, pageOrdered_iff hn hge]
      constructor
      · intro h
        have hq := prefix_afterPage hp hge fun b hb =>
          (paged_sublist n _).subset (h.subset hb)
        refine ⟨List.filter_eq_self.2 fun b hb => ?_, (hrest hq).1 h⟩
        have hb' := (List.mem_filter.1 (hq.subset hb)).2
        rwa [← List.getElem?_take_of_lt (Nat.sub_lt hn Nat.one_pos), htake,
          List.getElem?_take_of_lt (Nat.sub_lt hn Nat.one_pos)] at hb'
      · rintro ⟨hafter, hord⟩
        have hq : p.drop n <+: afterPage f n l := by
          refine prefix_afterPage hp hge fun b hb => List.mem_filter.2 ⟨?_, ?_⟩
          · obtain ⟨t, rfl⟩ := hp
            rw [List.drop_append_of_le_length hge]
            exact List.mem_append_left t hb
          · have hb' := (List.mem_filter.1 (hafter ▸ hb : b ∈ afterPage f n p)).2
            rwa [← List.getElem?_take_of_lt (Nat.sub_lt hn Nat.one_pos), htake,
              List.getElem?_take_of_lt (Nat.sub_lt hn Nat.one_pos)]
        exact (hrest hq).2 hord

/-- What is left of a list begins as the list does where all of that is
left. -/
theorem prefix_of_sublist {p t : List α} (hnodup : l.Nodup) (ht : List.Sublist t l) (hp : p <+: l)
    (hall : ∀ a ∈ p, a ∈ t) : p <+: t := by
  induction p generalizing l t with
  | nil => exact List.nil_prefix
  | cons a p ih =>
    obtain ⟨r, rfl⟩ := hp
    obtain ⟨ha, hnodup⟩ := List.nodup_cons.1 hnodup
    cases ht with
    | cons _ ht => exact absurd (ht.subset (hall a List.mem_cons_self)) ha
    | @cons_cons t _ _ ht =>
      refine List.cons_prefix_cons.2 ⟨rfl, ih hnodup ht (List.prefix_append p r) fun b hb => ?_⟩
      refine (List.mem_cons.1 (hall b (List.mem_cons_of_mem a hb))).resolve_left ?_
      rintro rfl
      exact ha (List.mem_append_left r hb)

/-- **Where the pages of a beginning are not in order, one of its items is
lost.** -/
theorem exists_notMem_paged (hn : 0 < n) (hnodup : l.Nodup) (h : ¬ PageOrdered f n (l.take m)) :
    ∃ i a, i < m ∧ l[i]? = some a ∧ a ∉ paged f n l := by
  by_contra hall
  push Not at hall
  refine h ((prefix_paged_iff hn (List.take_prefix m l)).1 ?_)
  refine prefix_of_sublist hnodup (paged_sublist n l) (List.take_prefix m l) fun a ha => ?_
  obtain ⟨i, hi⟩ := List.getElem?_of_mem ha
  have him : i < m := by
    have := (List.getElem?_eq_some_iff.1 hi).1
    rw [List.length_take] at this
    omega
  exact hall i a him (by rwa [List.getElem?_take_of_lt him] at hi)

/-- What is above an item of a sorted list is what is behind it. -/
theorem filter_eq_of_sorted {l₁ l₂ : List α} {a : α} {q : α → Bool}
    (h : (l₁ ++ a :: l₂).Pairwise fun x y => f x < f y) (hq : ∀ x, q x = true ↔ f a < f x) :
    (l₁ ++ a :: l₂).filter q = l₂ := by
  obtain ⟨-, hright, hcross⟩ := List.pairwise_append.1 h
  have hleft : l₁.filter q = [] := List.filter_eq_nil_iff.2 fun x hx hqx =>
    lt_asymm (hcross x hx a List.mem_cons_self) ((hq x).1 hqx)
  have hbehind : l₂.filter q = l₂ := List.filter_eq_self.2 fun x hx =>
    (hq x).2 ((List.pairwise_cons.1 hright).1 x hx)
  have hself : ¬ q a = true := fun hqa => lt_irrefl _ ((hq a).1 hqa)
  rw [List.filter_append, hleft, List.filter_cons, if_neg hself, hbehind, List.nil_append]

/-- A list in the reader's own order is read in full. -/
theorem pageOrdered_of_pairwise (hn : 0 < n)
    (h : l.Pairwise fun a b => f a < f b) : PageOrdered f n l := by
  intro i a b hi ha hb
  have hlow : 1 * n ≤ i / n * n := Nat.mul_le_mul_right n ((Nat.one_le_div_iff hn).2 hi)
  have hle := Nat.div_mul_le_self i n
  obtain ⟨hai, rfl⟩ := List.getElem?_eq_some_iff.1 ha
  obtain ⟨hbi, rfl⟩ := List.getElem?_eq_some_iff.1 hb
  exact List.pairwise_iff_getElem.1 h _ _ hai hbi (by omega)

end OpendalIndexeddb
