import Mathlib.Tactic
import Istatd.Lib.Run

/-!
# Handlers posted to an executor

A program on an executor is called from outside and runs handlers that have been posted.  Each call
and each handler changes the state in one atomic step and posts further handlers; a function that
takes several steps is a handler that posts its own continuation.  A run is any list of calls and
of handlers to run: nothing is said about which of the pending handlers runs next.

* `exec_cases`, `exec_of_pending`: what the run of a handler does to the pool;
* `invariant`: what calls and handlers keep of the state and the pending handlers holds after a run;
* `balance`: if no call and no handler creates or destroys a quantity, what a run has brought in is
  what the state holds and what is still under way;
* `exists_drained`: if every handler makes a measure of the pool smaller, every scheduler empties
  the pool.
-/

namespace Executor

variable {σ A E H M : Type*}

/-- What the calls from outside and the handlers do to the state, and what they post.  A handler
also gets an input, for what it asks of the outside. -/
structure Program (σ A E H : Type*) where
  call : A → σ → σ × List H
  exec : E → H → σ → σ × List H

/-- The state, and the handlers that have been posted and have not run. -/
structure Pool (σ H : Type*) where
  state : σ
  pending : List H

/-- A call from outside, or the run of a pending handler with its input. -/
inductive Event (A E : Type*)
  | call (a : A)
  | exec (i : ℕ) (e : E)

/-- One event.  The run of a handler that is not there does nothing. -/
def step (p : Program σ A E H) (s : Pool σ H) : Event A E → Pool σ H
  | .call a => ⟨(p.call a s.state).1, s.pending ++ (p.call a s.state).2⟩
  | .exec i e =>
    match s.pending[i]? with
    | none => s
    | some h => ⟨(p.exec e h s.state).1, s.pending.eraseIdx i ++ (p.exec e h s.state).2⟩

/-- A run. -/
def run (p : Program σ A E H) (s : Pool σ H) (es : List (Event A E)) : Pool σ H :=
  es.foldl (step p) s

variable {p : Program σ A E H} {s : Pool σ H}

/-- The run of a pending handler. -/
theorem exec_of_pending {i : ℕ} {h : H} (hi : s.pending[i]? = some h) (e : E) :
    ∃ l l', s.pending = l ++ h :: l' ∧ l.length = i ∧
      step p s (.exec i e) = ⟨(p.exec e h s.state).1, l ++ l' ++ (p.exec e h s.state).2⟩ := by
  obtain ⟨hlt, hget⟩ := List.getElem?_eq_some_iff.1 hi
  refine ⟨s.pending.take i, s.pending.drop (i + 1), ?_, ?_, ?_⟩
  · rw [← hget, List.getElem_cons_drop, List.take_append_drop]
  · rw [List.length_take]
    omega
  · simp [step, hi, List.eraseIdx_eq_take_drop_succ]

theorem exec_cases (i : ℕ) (e : E) : step p s (.exec i e) = s ∨
    ∃ l h l', s.pending = l ++ h :: l' ∧ l.length = i ∧
      step p s (.exec i e) = ⟨(p.exec e h s.state).1, l ++ l' ++ (p.exec e h s.state).2⟩ := by
  cases hi : s.pending[i]? with
  | none => exact .inl (by simp [step, hi])
  | some h =>
    obtain ⟨l, l', heq⟩ := exec_of_pending hi e
    exact .inr ⟨l, h, l', heq⟩

/-- The handlers that are left were pending. -/
theorem mem_of_mem_rest {h h' : H} {l l' : List H} (hmem : h' ∈ l ++ l') : h' ∈ l ++ h :: l' :=
  ((List.sublist_cons_self h l').append_left l).subset hmem

/-- **Invariants.**  What the admitted calls and all handlers keep, of the state and of the pending
handlers, holds after every run of admitted calls. -/
theorem invariant {I : σ → List H → Prop} {Q : A → Prop} {R : E → Prop}
    (hcall : ∀ a s q, Q a → I s q → I (p.call a s).1 (q ++ (p.call a s).2))
    (hexec : ∀ e s l h l', R e → I s (l ++ h :: l') →
      I (p.exec e h s).1 (l ++ l' ++ (p.exec e h s).2))
    (hs : I s.state s.pending) {es : List (Event A E)} (hQ : ∀ a, .call a ∈ es → Q a)
    (hR : ∀ i e, .exec i e ∈ es → R e) : I (run p s es).state (run p s es).pending := by
  unfold run
  induction es generalizing s with
  | nil => exact hs
  | cons ev es ih =>
    refine ih ?_ (fun a ha => hQ a (List.mem_cons_of_mem _ ha))
      fun i e he => hR i e (List.mem_cons_of_mem _ he)
    cases ev with
    | call a => exact hcall a s.state s.pending (hQ a List.mem_cons_self) hs
    | exec i e =>
      rcases exec_cases (p := p) (s := s) i e with heq | ⟨l, h, l', hpend, -, heq⟩
      · rw [heq]
        exact hs
      · rw [heq]
        rw [hpend] at hs
        exact hexec e s.state l h l' (hR i e List.mem_cons_self) hs

/-! ### Conserved quantities -/

section Balance

variable [AddCommMonoid M]

/-- The call of an event, if it is one. -/
def Event.called : Event A E → Option A
  | .call a => some a
  | .exec _ _ => none

/-- What the calls of a run bring in. -/
def income (c : A → M) (es : List (Event A E)) : M := ((es.filterMap Event.called).map c).sum

@[simp] theorem income_nil (c : A → M) : income c ([] : List (Event A E)) = 0 := rfl

@[simp] theorem income_call (c : A → M) (a : A) (es : List (Event A E)) :
    income c (.call a :: es) = c a + income c es := rfl

@[simp] theorem income_exec (c : A → M) (i : ℕ) (e : E) (es : List (Event A E)) :
    income c (.exec i e :: es) = income c es := rfl

theorem income_append (c : A → M) (es es' : List (Event A E)) :
    income c (es ++ es') = income c es + income c es' := by
  simp [income]

/-- What is under way in a list of handlers. -/
def underWay (w : H → M) (q : List H) : M := (q.map w).sum

@[simp] theorem underWay_nil (w : H → M) : underWay w [] = 0 := rfl

@[simp] theorem underWay_cons (w : H → M) (h : H) (q : List H) :
    underWay w (h :: q) = w h + underWay w q := by
  simp [underWay]

@[simp] theorem underWay_append (w : H → M) (q q' : List H) :
    underWay w (q ++ q') = underWay w q + underWay w q' := by
  simp [underWay]

/-- **Conservation.**  If a call adds `c` to what the state holds and what is under way, and a
handler adds nothing, then after every run these are what they were and what the calls brought in.
The two conditions may use an invariant. -/
theorem balance {I : σ → List H → Prop} {v : σ → M} {w : H → M} {c : A → M}
    (hcall : ∀ a s q, I s q → I (p.call a s).1 (q ++ (p.call a s).2))
    (hexec : ∀ e s l h l', I s (l ++ h :: l') → I (p.exec e h s).1 (l ++ l' ++ (p.exec e h s).2))
    (hadd : ∀ a s q, I s q → v (p.call a s).1 + underWay w (p.call a s).2 = v s + c a)
    (hkeep : ∀ e s l h l', I s (l ++ h :: l') →
      v (p.exec e h s).1 + underWay w (p.exec e h s).2 = v s + w h)
    (hs : I s.state s.pending) (es : List (Event A E)) :
    v (run p s es).state + underWay w (run p s es).pending =
      v s.state + underWay w s.pending + income c es := by
  unfold run
  induction es generalizing s with
  | nil => simp
  | cons ev es ih =>
    cases ev with
    | call a =>
      rw [List.foldl_cons, ih (hcall a s.state s.pending hs), income_call]
      simp only [step, underWay_append]
      have := hadd a s.state s.pending hs
      calc v (p.call a s.state).1 + (underWay w s.pending + underWay w (p.call a s.state).2) +
              income c es
          = v (p.call a s.state).1 + underWay w (p.call a s.state).2 + underWay w s.pending +
              income c es := by abel
        _ = v s.state + underWay w s.pending + (c a + income c es) := by rw [this]; abel
    | exec i e =>
      rw [List.foldl_cons, income_exec]
      rcases exec_cases (p := p) (s := s) i e with heq | ⟨l, h, l', hpend, -, heq⟩
      · rw [heq, ih hs]
      · rw [hpend] at hs
        rw [heq, ih (hexec e s.state l h l' hs), hpend]
        simp only [underWay_append, underWay_cons]
        have := hkeep e s.state l h l' hs
        calc v (p.exec e h s.state).1 + (underWay w l + underWay w l' +
                underWay w (p.exec e h s.state).2) + income c es
            = v (p.exec e h s.state).1 + underWay w (p.exec e h s.state).2 +
                (underWay w l + underWay w l') + income c es := by abel
          _ = v s.state + (underWay w l + (w h + underWay w l')) + income c es := by
            rw [this]; abel

end Balance

/-! ### Emptying the pool -/

/-- One step of a scheduler, which picks a handler and its input. -/
def schedule (p : Program σ A E H) (pick : Pool σ H → ℕ × E) (s : Pool σ H) : Pool σ H :=
  step p s (.exec (pick s).1 (pick s).2)

/-- **Every scheduler empties the pool**, if every pending handler makes a measure of the pool
smaller, whatever its input. -/
theorem exists_drained {α : Type*} [LT α] [WellFoundedLT α] {μ : Pool σ H → α}
    {I : Pool σ H → Prop} (hI : ∀ s i e, I s → I (step p s (.exec i e)))
    (hμ : ∀ s i e, I s → i < s.pending.length → μ (step p s (.exec i e)) < μ s)
    {pick : Pool σ H → ℕ × E} (hpick : ∀ s, s.pending ≠ [] → (pick s).1 < s.pending.length)
    (hs : I s) : ∃ n, ((schedule p pick)^[n] s).pending = [] := by
  induction hm : μ s using WellFoundedLT.induction generalizing s with
  | ind m ih =>
    by_cases hp : s.pending = []
    · exact ⟨0, hp⟩
    · obtain ⟨n, hn⟩ := ih _ (hm ▸ hμ s (pick s).1 (pick s).2 hs (hpick s hp))
        (hI s (pick s).1 (pick s).2 hs) rfl
      exact ⟨n + 1, hn⟩

end Executor
