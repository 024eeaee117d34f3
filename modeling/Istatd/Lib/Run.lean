import Mathlib.Tactic

/-!
# Runs of a deterministic machine

A machine is a step function `step : σ → α → σ` from a state and a call to the next state, and a run
of it is `List.foldl step`.  `Along step P s l` says that every step of the run of `l` from `s` is
taken in a state and with a call that satisfy `P`: this is how a run whose calls meet some condition
is described, where the condition depends on the state before each call.

A step that may fail is a function `step : σ → α → Except ε σ`, and a run of it is `List.foldlM
step`. `AlongOk` is the condition on the steps up to the first failure.

* `along_append`: a run is cut where its list of calls is cut;
* `invariant`: what every step preserves holds after a run;
* `always_iff_along`: what every state of a run satisfies, from what each step needs to preserve it
  (`always_iff_last` if no step makes a bad state good);
* `related_filter`: a run and the run without some of its calls, related step by step;
* `invariant_trace`: what every step preserves of a state and of what the steps have put out;
* `exec_invariant`: what every step that succeeds preserves holds after a run that succeeds
  (`exec_total` if every step from a good state succeeds);
* `AlongOk.exec`: a run whose steps succeed and keep an invariant succeeds and keeps it
  (`AlongOk.exec_last` for the state before its last step);
* `exec_ok_iff`: if success of a step is equivalent to a condition, so is success of a run
  (`exec_ne_error_iff` for the absence of one kind of failure).
-/

namespace Run

variable {σ α : Type*} {step : σ → α → σ} {P : σ → α → Prop} {s : σ} {l : List α}

/-- Every step of the run satisfies `P`. -/
def Along (step : σ → α → σ) (P : σ → α → Prop) : σ → List α → Prop
  | _, [] => True
  | s, a :: l => P s a ∧ Along step P (step s a) l

instance decidableAlong [∀ s a, Decidable (P s a)] : ∀ s l, Decidable (Along step P s l)
  | _, [] => isTrue trivial
  | s, a :: l =>
    have := decidableAlong (step s a) l
    inferInstanceAs (Decidable (P s a ∧ Along step P (step s a) l))

@[simp] theorem along_nil : Along step P s [] := trivial

@[simp] theorem along_cons {a : α} :
    Along step P s (a :: l) ↔ P s a ∧ Along step P (step s a) l := Iff.rfl

theorem along_append {l' : List α} :
    Along step P s (l ++ l') ↔ Along step P s l ∧ Along step P (l.foldl step s) l' := by
  induction l generalizing s with
  | nil => simp
  | cons a l ih => simp [ih, and_assoc]

theorem Along.imp {Q : σ → α → Prop} (h : Along step P s l) (hPQ : ∀ s a, P s a → Q s a) :
    Along step Q s l := by
  induction l generalizing s with
  | nil => trivial
  | cons a l ih => exact ⟨hPQ s a h.1, ih h.2⟩

theorem along_of_forall_mem (h : ∀ a ∈ l, ∀ s, P s a) : Along step P s l := by
  induction l generalizing s with
  | nil => trivial
  | cons a l ih =>
    obtain ⟨ha, hl⟩ := List.forall_mem_cons.1 h
    exact ⟨ha s, ih hl⟩

theorem along_and {Q : σ → α → Prop} :
    Along step (fun s a => P s a ∧ Q s a) s l ↔ Along step P s l ∧ Along step Q s l := by
  induction l generalizing s with
  | nil => simp
  | cons a l ih => simp only [along_cons, ih, and_and_and_comm]

/-- Every state of the run, from the first to the last, satisfies `I`. -/
def Always (step : σ → α → σ) (I : σ → Prop) (s : σ) (l : List α) : Prop :=
  ∀ l', l' <+: l → I (l'.foldl step s)

variable {I : σ → Prop}

@[simp] theorem always_nil : Always step I s [] ↔ I s := by
  simp [Always, List.prefix_nil]

theorem always_cons {a : α} :
    Always step I s (a :: l) ↔ I s ∧ Always step I (step s a) l := by
  constructor
  · intro h
    refine ⟨h [] (List.nil_prefix), fun l' hl' => ?_⟩
    exact h (a :: l') ((List.prefix_cons_inj a).2 hl')
  · rintro ⟨hs, h⟩ l' hl'
    rcases List.prefix_cons_iff.1 hl' with rfl | ⟨l'', rfl, hl''⟩
    · exact hs
    · exact h l'' hl''

/-- **The invariant rule.** -/
theorem invariant (hstep : ∀ s a, I s → I (step s a)) (h : I s) (l : List α) :
    I (l.foldl step s) := by
  induction l generalizing s with
  | nil => exact h
  | cons a l ih => exact ih (hstep s a h)

/-- **The invariant rule** for runs whose calls meet a condition. -/
theorem Along.always (hstep : ∀ s a, I s → P s a → I (step s a)) (h : I s)
    (hl : Along step P s l) : Always step I s l := by
  induction l generalizing s with
  | nil => exact always_nil.2 h
  | cons a l ih => exact always_cons.2 ⟨h, ih (hstep s a h hl.1) hl.2⟩

/-- **Invariance, step by step.**  If a step from a good state leads to a good state exactly under a
condition, all states of a run are good exactly if the first is and all steps meet the condition.
The equivalence may use what every step keeps. -/
theorem always_iff_along {J : σ → Prop} (hJ : ∀ s a, J s → J (step s a))
    (h : ∀ s a, J s → I s → (I (step s a) ↔ P s a)) (hs : J s) :
    Always step I s l ↔ I s ∧ Along step P s l := by
  induction l generalizing s with
  | nil => simp
  | cons a l ih =>
    rw [always_cons, ih (hJ s a hs), along_cons]
    constructor
    · rintro ⟨hI, hI', hl⟩
      exact ⟨hI, (h s a hs hI).1 hI', hl⟩
    · rintro ⟨hI, hP, hl⟩
      exact ⟨hI, (h s a hs hI).2 hP, hl⟩

/-- If no step leads from a bad state to a good one, the last state decides.  That no step does may
use what every step keeps. -/
theorem always_iff_last {J : σ → Prop} (hJ : ∀ s a, J s → J (step s a))
    (h : ∀ s a, J s → I (step s a) → I s) (hs : J s) :
    Always step I s l ↔ I (l.foldl step s) := by
  constructor
  · intro hall
    exact hall l List.prefix_rfl
  · rintro hlast l' ⟨rest, rfl⟩
    rw [List.foldl_append] at hlast
    have ht : J (l'.foldl step s) := invariant hJ hs l'
    generalize l'.foldl step s = t at hlast ht
    induction rest generalizing t with
    | nil => exact hlast
    | cons a rest ih => exact h t a ht (ih (step t a) hlast (hJ t a ht))

/-- **Two runs, one with fewer calls.**  A relation that a call keeps when both sides make it, and
that a dropped call keeps when the left side alone makes it, holds between a run and the run without
the dropped calls. -/
theorem related_filter {R : σ → σ → Prop} (p : α → Bool)
    (hkeep : ∀ s s' a, a ∈ l → p a = true → R s s' → R (step s a) (step s' a))
    (hdrop : ∀ s s' a, a ∈ l → p a = false → R s s' → R (step s a) s') {s' : σ} (h : R s s') :
    R (l.foldl step s) ((l.filter p).foldl step s') := by
  induction l generalizing s s' with
  | nil => exact h
  | cons a l ih =>
    have ih' : ∀ {t t'}, R t t' → R (l.foldl step t) ((l.filter p).foldl step t') :=
      ih (fun t t' b hb => hkeep t t' b (List.mem_cons_of_mem a hb))
        (fun t t' b hb => hdrop t t' b (List.mem_cons_of_mem a hb))
    rw [List.filter_cons]
    split
    · next hp => exact ih' (hkeep s s' a List.mem_cons_self hp h)
    · next hp => exact ih' (hdrop s s' a List.mem_cons_self (by simpa using hp) h)

/-! ### Runs with a trace -/

section Trace

variable {β : Type*} {out : σ → α → List β}

/-- What the steps of a run put out, one after the other. -/
def trace (step : σ → α → σ) (out : σ → α → List β) : σ → List α → List β
  | _, [] => []
  | s, a :: l => out s a ++ trace step out (step s a) l

/-- **The invariant rule** for a state and what was put out on the way to it. -/
theorem invariant_trace {I : σ → List β → Prop} {t : List β}
    (hstep : ∀ a ∈ l, ∀ s t, I s t → I (step s a) (t ++ out s a)) (h : I s t) :
    I (l.foldl step s) (t ++ trace step out s l) := by
  induction l generalizing s t with
  | nil => exact (List.append_nil t).symm ▸ h
  | cons a l ih =>
    rw [trace, ← List.append_assoc]
    exact ih (fun b hb => hstep b (List.mem_cons_of_mem a hb)) (hstep a List.mem_cons_self s t h)

end Trace

/-! ### Steps that may fail -/

section Failure

variable {ε : Type*} {stepE : σ → α → Except ε σ}

/-- Every step of the run up to its first failure satisfies `P`. -/
def AlongOk (stepE : σ → α → Except ε σ) (P : σ → α → Prop) : σ → List α → Prop
  | _, [] => True
  | s, a :: l => P s a ∧
    match stepE s a with
    | .ok s' => AlongOk stepE P s' l
    | .error _ => True

instance decidableAlongOk [∀ s a, Decidable (P s a)] : ∀ s l, Decidable (AlongOk stepE P s l)
  | _, [] => isTrue trivial
  | s, a :: l =>
    have : Decidable (match stepE s a with
        | .ok s' => AlongOk stepE P s' l
        | .error _ => True) :=
      match stepE s a with
      | .ok s' => decidableAlongOk s' l
      | .error _ => isTrue trivial
    inferInstanceAs (Decidable (_ ∧ _))

theorem foldlM_cons_ok {s' : σ} {a : α} (h : stepE s a = .ok s') :
    (a :: l).foldlM stepE s = l.foldlM stepE s' := by
  rw [List.foldlM_cons, h]
  rfl

theorem foldlM_cons_error {e : ε} {a : α} (h : stepE s a = .error e) :
    (a :: l).foldlM stepE s = .error e := by
  rw [List.foldlM_cons, h]
  rfl

/-- The outcome of a run that succeeds, from a computation of a part of it. -/
theorem exists_ok_of_toOption_map {β : Type*} {x : Except ε σ} {f : σ → β} {y : β}
    (h : x.toOption.map f = some y) : ∃ a, x = .ok a ∧ f a = y := by
  cases x with
  | error e => cases h
  | ok a => exact ⟨a, rfl, by simpa [Except.toOption] using h⟩

/-- **The invariant rule** for runs that succeed. -/
theorem exec_invariant {I : σ → Prop} (hstep : ∀ s a s', I s → stepE s a = .ok s' → I s') {s' : σ}
    (h : I s) (hrun : l.foldlM stepE s = .ok s') : I s' := by
  induction l generalizing s with
  | nil =>
    cases hrun
    exact h
  | cons a l ih =>
    cases hs : stepE s a with
    | error e =>
      rw [foldlM_cons_error hs] at hrun
      cases hrun
    | ok s₁ =>
      rw [foldlM_cons_ok hs] at hrun
      exact ih (hstep s a s₁ h hs) hrun

/-- **The invariant rule** for steps that succeed from every good state. -/
theorem exec_total {I : σ → Prop} (hstep : ∀ s a, I s → ∃ s', stepE s a = .ok s' ∧ I s') (h : I s)
    (l : List α) : ∃ s', l.foldlM stepE s = .ok s' ∧ I s' := by
  induction l generalizing s with
  | nil => exact ⟨s, rfl, h⟩
  | cons a l ih =>
    obtain ⟨s', hs, hI⟩ := hstep s a h
    rw [foldlM_cons_ok hs]
    exact ih hI

/-- **The invariant rule** for steps that succeed under their condition. -/
theorem AlongOk.exec {I : σ → Prop}
    (hstep : ∀ s a, I s → P s a → ∃ s', stepE s a = .ok s' ∧ I s') (h : I s)
    (hl : AlongOk stepE P s l) : ∃ s', l.foldlM stepE s = .ok s' ∧ I s' := by
  induction l generalizing s with
  | nil => exact ⟨s, rfl, h⟩
  | cons a l ih =>
    obtain ⟨hP, hrest⟩ := hl
    obtain ⟨s', hs', hI⟩ := hstep s a h hP
    rw [hs'] at hrest
    rw [foldlM_cons_ok hs']
    exact ih hI hrest

/-- The state before the last step of such a run. -/
theorem AlongOk.exec_last {I : σ → Prop} {a : α}
    (hstep : ∀ s a, I s → P s a → ∃ s', stepE s a = .ok s' ∧ I s') (h : I s)
    (hl : AlongOk stepE P s (l ++ [a])) :
    ∃ s', (l ++ [a]).foldlM stepE s = stepE s' a ∧ I s' ∧ P s' a := by
  induction l generalizing s with
  | nil =>
    refine ⟨s, ?_, h, hl.1⟩
    rw [List.nil_append, List.foldlM_cons]
    exact bind_pure _
  | cons b l ih =>
    obtain ⟨hP, hrest⟩ := hl
    obtain ⟨s', hs', hI⟩ := hstep s b h hP
    rw [hs'] at hrest
    rw [List.cons_append, foldlM_cons_ok hs']
    exact ih hI hrest

/-- **Success of a run**, step by step. -/
theorem exec_ok_iff {I : σ → Prop} (hinv : ∀ s a s', I s → stepE s a = .ok s' → I s')
    (hok : ∀ s a, I s → ((∃ s', stepE s a = .ok s') ↔ P s a)) (h : I s) :
    (∃ s', l.foldlM stepE s = .ok s') ↔ AlongOk stepE P s l := by
  induction l generalizing s with
  | nil => exact ⟨fun _ => trivial, fun _ => ⟨s, rfl⟩⟩
  | cons a l ih =>
    cases hs : stepE s a with
    | ok s' =>
      rw [foldlM_cons_ok hs, ih (hinv s a s' h hs)]
      simp only [AlongOk, hs]
      exact ⟨fun hl => ⟨(hok s a h).1 ⟨s', hs⟩, hl⟩, fun hl => hl.2⟩
    | error e =>
      rw [foldlM_cons_error hs]
      constructor
      · rintro ⟨s', hs'⟩
        cases hs'
      · rintro ⟨hP, -⟩
        obtain ⟨s', hs'⟩ := (hok s a h).2 hP
        rw [hs] at hs'
        cases hs'

/-- **Runs that do not end in a given failure**, step by step. -/
theorem exec_ne_error_iff {e : ε} (h : ∀ s a, stepE s a ≠ .error e ↔ P s a) :
    l.foldlM stepE s ≠ .error e ↔ AlongOk stepE P s l := by
  induction l generalizing s with
  | nil => exact ⟨fun _ => trivial, fun _ => nofun⟩
  | cons a l ih =>
    have ha := h s a
    cases hs : stepE s a with
    | ok s' =>
      rw [hs] at ha
      rw [foldlM_cons_ok hs, ih]
      simp only [AlongOk, hs]
      exact ⟨fun hl => ⟨ha.1 nofun, hl⟩, fun hl => hl.2⟩
    | error e' =>
      rw [hs] at ha
      rw [foldlM_cons_error hs]
      simp only [AlongOk, hs, and_true]
      exact ⟨fun he => ha.1 fun h' => he (by cases h'; rfl),
        fun hP h' => ha.2 hP (by cases h'; rfl)⟩

end Failure

end Run
