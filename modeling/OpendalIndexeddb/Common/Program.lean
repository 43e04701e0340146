import Mathlib.Tactic.SplitIfs
/-!
# Programs that make requests

A program makes requests of a state one at a time, and goes on with the
answer to each. A loop is called by name, so that a program is finite
where its runs need not be; what a loop does is said once, by its body.

What a program computes is a relation, and the rules below evaluate it
along the program.
-/

namespace OpendalIndexeddb

/-- The requests a program can make and the loops it can call, with the
types of what they return. -/
structure Interface where
  Request : Type
  Answer : Request → Type
  Loop : Type
  Result : Loop → Type

inductive Program (I : Interface) (ε α : Type) where
  | done (a : α)
  | fail (err : ε)
  | request (r : I.Request) (k : I.Answer r → Program I ε α)
  | call (l : I.Loop) (k : I.Result l → Program I ε α)

/-- What requests do to a state, and what loops do. -/
structure Semantics (I : Interface) (ε σ : Type) where
  handle : (r : I.Request) → σ → I.Answer r × σ
  body : (l : I.Loop) → Program I ε (I.Result l)

namespace Program

variable {I : Interface} {ε σ τ α β γ : Type}

def bind : Program I ε α → (α → Program I ε β) → Program I ε β
  | done a, f => f a
  | fail err, _ => fail err
  | request r k, f => request r fun a => (k a).bind f
  | call l k, f => call l fun b => (k b).bind f

instance : Monad (Program I ε) where
  pure := done
  bind := bind

/-- Makes a request and returns the answer. -/
def ask (r : I.Request) : Program I ε (I.Answer r) := request r done

/-- Calls a loop and returns its result. -/
def loop (l : I.Loop) : Program I ε (I.Result l) := call l done

theorem bind_assoc (p : Program I ε α) (f : α → Program I ε β) (g : β → Program I ε γ) :
    (p.bind f).bind g = p.bind fun a => (f a).bind g := by
  induction p with
  | done a => rfl
  | fail err => rfl
  | request r k ih => exact congrArg (request r) (funext ih)
  | call l k ih => exact congrArg (call l) (funext ih)

/-! ## Runs -/

variable {M : Semantics I ε σ} {p : Program I ε α} {f : α → Program I ε β} {s s' s'' : σ}
variable {a : α} {err : ε}

/-- A run of a program from a state: what it returns, and the state its
requests leave. -/
inductive Runs (M : Semantics I ε σ) : Program I ε α → σ → Except ε α → σ → Prop where
  | done (a : α) (s : σ) : Runs M (done a) s (.ok a) s
  | fail (err : ε) (s : σ) : Runs M (fail err) s (.error err) s
  | request {r : I.Request} {k : I.Answer r → Program I ε α} {s s' : σ} {out : Except ε α}
      (h : Runs M (k (M.handle r s).1) (M.handle r s).2 out s') : Runs M (request r k) s out s'
  | call {l : I.Loop} {k : I.Result l → Program I ε α} {s s' : σ} {out : Except ε α}
      (h : Runs M ((M.body l).bind k) s out s') : Runs M (call l k) s out s'

namespace Runs

/-- **A state and a program have one run at most.** -/
theorem unique {out out' : Except ε α} (h : Runs M p s out s') (h' : Runs M p s out' s'') :
    out = out' ∧ s' = s'' := by
  induction h with
  | done | fail => cases h'; exact ⟨rfl, rfl⟩
  | request _ ih =>
    cases h' with
    | request h' => exact ih h'
  | call _ ih =>
    cases h' with
    | call h' => exact ih h'

theorem bind {out : Except ε β} (h : Runs M p s (.ok a) s')
    (h' : Runs M (f a) s' out s'') :
    Runs M (p.bind f) s out s'' := by
  generalize hout : (Except.ok a : Except ε α) = o at h
  induction h with
  | done b s =>
    obtain rfl := Except.ok.inj hout
    exact h'
  | fail err s => cases hout
  | request _ ih => exact .request (ih h' hout)
  | call _ ih => exact .call (by rw [← bind_assoc]; exact ih h' hout)

theorem bind_error (h : Runs M p s (.error err) s') : Runs M (p.bind f) s (.error err) s' := by
  generalize hout : (Except.error err : Except ε α) = o at h
  induction h with
  | done b s => cases hout
  | fail err s =>
    obtain rfl := Except.error.inj hout
    exact .fail _ s
  | request _ ih => exact .request (ih hout)
  | call _ ih => exact .call (by rw [← bind_assoc]; exact ih hout)

/-- **The invariant rule**: what every request keeps, a run keeps. -/
theorem invariant {J : σ → Prop} (hJ : ∀ r s, J s → J (M.handle r s).2) {out : Except ε α}
    (h : Runs M p s out s') (hs : J s) : J s' := by
  induction h with
  | done | fail => exact hs
  | request _ ih => exact ih (hJ _ _ hs)
  | call _ ih => exact ih hs

/-- **The simulation rule**: where requests are answered alike from
related states and leave related states, a run has a counterpart from any
related state. -/
theorem simulate {N : Semantics I ε τ} {R : σ → τ → Prop} (hbody : N.body = M.body)
    (hR : ∀ r s t, R s t → (M.handle r s).1 = (N.handle r t).1 ∧
      R (M.handle r s).2 (N.handle r t).2) {out : Except ε α} (h : Runs M p s out s') {t : τ}
    (hst : R s t) : ∃ t', Runs N p t out t' ∧ R s' t' := by
  induction h generalizing t with
  | done a s => exact ⟨t, .done a t, hst⟩
  | fail err s => exact ⟨t, .fail err t, hst⟩
  | @request r k s s' out _ ih =>
    obtain ⟨ha, hnext⟩ := hR r s t hst
    obtain ⟨t', hrun, hend⟩ := ih hnext
    exact ⟨t', .request (ha ▸ hrun), hend⟩
  | call _ ih =>
    obtain ⟨t', hrun, hend⟩ := ih hst
    exact ⟨t', .call (hbody ▸ hrun), hend⟩

end Runs

theorem runs_request_iff (M : Semantics I ε σ) (r : I.Request) (k : I.Answer r → Program I ε α)
    (s s' : σ) (out : Except ε α) : Runs M (request r k) s out s' ↔
      Runs M (k (M.handle r s).1) (M.handle r s).2 out s' := by
  constructor
  · intro h
    cases h with
    | request h => exact h
  · exact .request

theorem runs_call_iff (M : Semantics I ε σ) (l : I.Loop) (k : I.Result l → Program I ε α)
    (s s' : σ) (out : Except ε α) :
    Runs M (call l k) s out s' ↔ Runs M ((M.body l).bind k) s out s' := by
  constructor
  · intro h
    cases h with
    | call h => exact h
  · exact .call

/-! ## Programs that make some requests only -/

/-- All requests a program can make satisfy a test, and so do the loops it
can call. -/
def Only (q : I.Request → Prop) (q' : I.Loop → Prop) : Program I ε α → Prop
  | done _ => True
  | fail _ => True
  | request r k => q r ∧ ∀ a, (k a).Only q q'
  | call l k => q' l ∧ ∀ b, (k b).Only q q'

section Only

variable {q : I.Request → Prop} {q' : I.Loop → Prop}

theorem Only.bind (h : p.Only q q') (hf : ∀ a, (f a).Only q q') : (p.bind f).Only q q' := by
  induction p with
  | done a => exact hf a
  | fail err => trivial
  | request r k ih => exact ⟨h.1, fun a => ih a (h.2 a)⟩
  | call l k ih => exact ⟨h.1, fun b => ih b (h.2 b)⟩

/-- **A program that makes only requests that change nothing changes
nothing.** -/
theorem Only.unchanged (hq : ∀ r s, q r → (M.handle r s).2 = s)
    (hbody : ∀ l, q' l → (M.body l).Only q q') (h : p.Only q q') {out : Except ε α}
    (hrun : Runs M p s out s') : s' = s := by
  induction hrun with
  | done | fail => rfl
  | request _ ih => rw [ih (h.2 _), hq _ _ h.1]
  | call _ ih => exact ih ((hbody _ h.1).bind h.2)

end Only

/-! ## The requests of a run -/

/-- A run of a program from a state makes a request, in the state it finds
then. -/
inductive Asks (M : Semantics I ε σ) (r : I.Request) (t : σ) : Program I ε α → σ → Prop where
  | now (k : I.Answer r → Program I ε α) : Asks M r t (request r k) t
  | later {r' : I.Request} {k : I.Answer r' → Program I ε α} {s : σ}
      (h : Asks M r t (k (M.handle r' s).1) (M.handle r' s).2) : Asks M r t (request r' k) s
  | call {l : I.Loop} {k : I.Result l → Program I ε α} {s : σ}
      (h : Asks M r t ((M.body l).bind k) s) : Asks M r t (call l k) s

namespace Asks

variable {r : I.Request} {t : σ}

theorem not_done : ¬ Asks M r t (done a : Program I ε α) s := nofun

theorem not_fail : ¬ Asks M r t (fail err : Program I ε α) s := nofun

theorem request_iff {r' : I.Request} {k : I.Answer r' → Program I ε α} :
    Asks M r t (request r' k) s ↔
      (r = r' ∧ t = s) ∨ Asks M r t (k (M.handle r' s).1) (M.handle r' s).2 := by
  constructor
  · intro h
    cases h with
    | now => exact .inl ⟨rfl, rfl⟩
    | later h => exact .inr h
  · rintro (⟨rfl, rfl⟩ | h)
    · exact .now k
    · exact .later h

theorem call_iff {l : I.Loop} {k : I.Result l → Program I ε α} :
    Asks M r t (Program.call l k) s ↔ Asks M r t ((M.body l).bind k) s := by
  constructor
  · intro h
    cases h with
    | call h => exact h
  · exact .call

/-- **The rule of sequence**: the requests of the first part, and where it
comes to a result, those of the second. -/
theorem bind_iff {out : Except ε α} (h : Runs M p s out s') :
    Asks M r t (p.bind f) s ↔
      Asks M r t p s ∨ ∃ a, out = .ok a ∧ Asks M r t (f a) s' := by
  induction h with
  | done a s =>
    refine ⟨fun h => .inr ⟨a, rfl, h⟩, ?_⟩
    rintro (h | ⟨b, hb, h⟩)
    · exact absurd h not_done
    · obtain rfl := Except.ok.inj hb
      exact h
  | fail err s =>
    refine ⟨fun h => absurd h not_fail, ?_⟩
    rintro (h | ⟨b, hb, -⟩)
    · exact absurd h not_fail
    · cases hb
  | request _ ih => rw [Program.bind, request_iff, ih, request_iff, or_assoc]
  | call _ ih => rw [Program.bind, call_iff, ← bind_assoc, ih, call_iff]

/-- A program makes no requests but those it can make. -/
theorem of_only {q : I.Request → Prop} {q' : I.Loop → Prop} (h : Asks M r t p s)
    (hbody : ∀ l, q' l → (M.body l).Only q q') (hp : p.Only q q') : q r := by
  induction h with
  | now => exact hp.1
  | later _ ih => exact ih (hp.2 _)
  | call _ ih => exact ih ((hbody _ hp.1).bind hp.2)

/-- **The simulation rule for requests.** -/
theorem simulate {N : Semantics I ε τ} {R : σ → τ → Prop} (hbody : N.body = M.body)
    (hR : ∀ r s t, R s t → (M.handle r s).1 = (N.handle r t).1 ∧
      R (M.handle r s).2 (N.handle r t).2) (h : Asks M r t p s) {u : τ} (hsu : R s u) :
    ∃ u', Asks N r u' p u ∧ R t u' := by
  induction h generalizing u with
  | now k => exact ⟨u, .now k, hsu⟩
  | @later r' k s _ ih =>
    obtain ⟨ha, hnext⟩ := hR r' s u hsu
    obtain ⟨u', hask, hend⟩ := ih hnext
    exact ⟨u', .later (ha ▸ hask), hend⟩
  | call _ ih =>
    obtain ⟨u', hask, hend⟩ := ih hsu
    exact ⟨u', .call (hbody ▸ hask), hend⟩

end Asks

/-! ## What a program computes -/

/-- **What a program computes**: a value and a state, or an error. The
state of a run that fails is left open, a transaction that fails being
rolled back. -/
def Computes (M : Semantics I ε σ) (p : Program I ε α) (s : σ) :
    Except ε (α × σ) → Prop
  | .ok (a, s') => Runs M p s (.ok a) s'
  | .error err => ∃ s', Runs M p s (.error err) s'

namespace Computes

variable {out out' : Except ε (α × σ)} {res : Except ε (β × σ)}

theorem unique (h : Computes M p s out) (h' : Computes M p s out') : out = out' := by
  rcases out with err | ⟨a, t⟩ <;> rcases out' with err' | ⟨a', t'⟩
  · obtain ⟨s', h⟩ := h
    obtain ⟨s'', h'⟩ := h'
    rw [Except.error.inj (h.unique h').1]
  · obtain ⟨s', h⟩ := h
    exact nomatch (h.unique h').1
  · obtain ⟨s', h'⟩ := h'
    exact nomatch (Runs.unique h h').1
  · obtain ⟨ha, rfl⟩ := Runs.unique h h'
    rw [Except.ok.inj ha]

theorem done (a : α) (s : σ) : Computes M (done a) s (.ok (a, s)) := Runs.done a s

theorem fail (err : ε) (s : σ) : Computes (α := α) M (fail err) s (.error err) :=
  ⟨s, .fail err s⟩

theorem request {r : I.Request} {k : I.Answer r → Program I ε α}
    (h : Computes M (k (M.handle r s).1) (M.handle r s).2 out) :
    Computes M (request r k) s out := by
  rcases out with err | ⟨a, t⟩
  · obtain ⟨s', h⟩ := h
    exact ⟨s', .request h⟩
  · exact Runs.request h

theorem call {l : I.Loop} {k : I.Result l → Program I ε α}
    (h : Computes M ((M.body l).bind k) s out) : Computes M (call l k) s out := by
  rcases out with err | ⟨a, t⟩
  · obtain ⟨s', h⟩ := h
    exact ⟨s', .call h⟩
  · exact Runs.call h

theorem ask (r : I.Request) (s : σ) : Computes M (ask r) s (.ok (M.handle r s)) :=
  request (done _ _)

theorem loop {l : I.Loop} {s : σ} {out : Except ε (I.Result l × σ)}
    (h : Computes M (M.body l) s out) : Computes M (loop l) s out := by
  have hbind : (M.body l).bind Program.done = M.body l := by
    generalize M.body l = p
    induction p with
    | done | fail => rfl
    | request r k ih => exact congrArg (Program.request r) (funext ih)
    | call l k ih => exact congrArg (Program.call l) (funext ih)
  exact call (by rwa [hbind])

/-- **The rule of sequence.** -/
theorem bind (h : Computes M p s (.ok (a, s'))) (hf : Computes M (f a) s' res) :
    Computes M (p >>= f) s res := by
  rcases res with err | ⟨b, t⟩
  · obtain ⟨s'', hf⟩ := hf
    exact ⟨s'', Runs.bind h hf⟩
  · exact Runs.bind h hf

theorem bind_error (h : Computes M p s (.error err)) : Computes M (p >>= f) s (.error err) := by
  obtain ⟨s', h⟩ := h
  exact ⟨s', h.bind_error⟩

/-- **The rule of choice.** -/
theorem ite {c : Prop} [Decidable c] {q : Program I ε α} (h : c → Computes M p s out)
    (h' : ¬ c → Computes M q s out') :
    Computes M (if c then p else q) s (if c then out else out') := by
  split_ifs with hc
  · exact h hc
  · exact h' hc

end Computes

end Program

end OpendalIndexeddb
