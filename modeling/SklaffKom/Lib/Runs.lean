import Mathlib.Data.List.Basic

/-!
# Runs of a step function

A system takes one event after another, and a step may fail.  A property of all the steps of a run
follows from an invariant and the property of one step.
-/

namespace Runs

variable {σ ε : Type*} (step : σ → ε → Option σ)

/-- The state after a list of events. -/
def run (s : σ) (es : List ε) : Option σ := es.foldlM step s

/-- Every event of the list has a step, and every step satisfies `P`. -/
def AllSteps (P : σ → ε → σ → Prop) : σ → List ε → Prop
  | _, [] => True
  | s, e :: es => ∃ s', step s e = some s' ∧ P s e s' ∧ AllSteps P s' es

variable {step} {P Q : σ → ε → σ → Prop} {I : σ → Prop}

@[simp] theorem run_nil (s : σ) : run step s [] = some s := rfl

/-- What every step keeps holds after a run. -/
theorem run_invariant (hstep : ∀ s e s', I s → step s e = some s' → I s') {s s' : σ} (hs : I s)
    {es : List ε} (h : run step s es = some s') : I s' := by
  induction es generalizing s with
  | nil =>
    cases h
    exact hs
  | cons e es ih =>
    unfold run at h
    rw [List.foldlM_cons, Option.bind_eq_bind, Option.bind_eq_some_iff] at h
    obtain ⟨t, ht, h⟩ := h
    exact ih (hstep s e t hs ht) h

/-- What the steps of events with `E` keep holds after a run of such events. -/
theorem run_invariant_of {E : ε → Prop} (hstep : ∀ s e s', I s → E e → step s e = some s' → I s')
    {s s' : σ} (hs : I s) {es : List ε} (hes : ∀ e ∈ es, E e) (h : run step s es = some s') :
    I s' := by
  induction es generalizing s with
  | nil =>
    cases h
    exact hs
  | cons e es ih =>
    rw [List.forall_mem_cons] at hes
    unfold run at h
    rw [List.foldlM_cons, Option.bind_eq_bind, Option.bind_eq_some_iff] at h
    obtain ⟨t, ht, h⟩ := h
    exact ih (hstep s e t hs hes.1 ht) hes.2 h

/-- Two properties of steps hold along the same runs when they agree from every state of an
invariant, and a step that satisfies them keeps the invariant. -/
theorem allSteps_iff (hstep : ∀ s e s', I s → step s e = some s' → (P s e s' ↔ Q s e s') ∧
    (Q s e s' → I s')) {s : σ} (hs : I s) (es : List ε) :
    AllSteps step P s es ↔ AllSteps step Q s es := by
  induction es generalizing s with
  | nil => rfl
  | cons e es ih =>
    constructor
    · rintro ⟨s', hs', hp, hrest⟩
      obtain ⟨hiff, hI⟩ := hstep s e s' hs hs'
      have hq := hiff.mp hp
      exact ⟨s', hs', hq, (ih (hI hq)).mp hrest⟩
    · rintro ⟨s', hs', hq, hrest⟩
      obtain ⟨hiff, hI⟩ := hstep s e s' hs hs'
      exact ⟨s', hs', hiff.mpr hq, (ih (hI hq)).mpr hrest⟩

/-- Along a run all of whose steps satisfy `Q`, what such a step shows from an invariant that it
keeps. -/
theorem AllSteps.imp (hstep : ∀ s e s', I s → step s e = some s' → Q s e s' → I s' ∧ P s e s')
    {s : σ} (hs : I s) {es : List ε} (h : AllSteps step Q s es) : AllSteps step P s es := by
  induction es generalizing s with
  | nil => trivial
  | cons e es ih =>
    obtain ⟨s', hs', hq, hrest⟩ := h
    obtain ⟨hI, hp⟩ := hstep s e s' hs hs' hq
    exact ⟨s', hs', hp, ih hI hrest⟩

/-- Along a run of events that satisfy `E`, what every step shows from an invariant that it keeps,
when each such event has a step. -/
theorem allSteps_of_invariant {E : ε → Prop}
    (hstep : ∀ s e, I s → E e → ∃ s', step s e = some s' ∧ I s' ∧ P s e s') {s : σ} (hs : I s)
    (es : List ε) (hes : ∀ e ∈ es, E e) : AllSteps step P s es := by
  induction es generalizing s with
  | nil => trivial
  | cons e es ih =>
    obtain ⟨s', hs', hI, hp⟩ := hstep s e hs (hes e List.mem_cons_self)
    exact ⟨s', hs', hp, ih hI fun d hd => hes d (List.mem_cons_of_mem _ hd)⟩

/-- Along the run every event satisfies `Q` in the state before it. -/
def AllPre (step : σ → ε → Option σ) (Q : σ → ε → Prop) : σ → List ε → Prop
  | _, [] => True
  | s, e :: es => Q s e ∧ ∀ s', step s e = some s' → AllPre step Q s' es

/-- Along a run whose events satisfy `Q`, each has a step, which shows what an invariant that it keeps
gives. -/
theorem AllPre.allSteps {Q : σ → ε → Prop}
    (hstep : ∀ s e, I s → Q s e → ∃ s', step s e = some s' ∧ I s' ∧ P s e s') {s : σ} (hs : I s)
    {es : List ε} (h : AllPre step Q s es) : AllSteps step P s es := by
  induction es generalizing s with
  | nil => trivial
  | cons e es ih =>
    obtain ⟨hq, hrest⟩ := h
    obtain ⟨s', hs', hI, hp⟩ := hstep s e hs hq
    exact ⟨s', hs', hp, ih hI (hrest s' hs')⟩

/-- Along every run from an invariant each event has a step, and all steps satisfy `P` exactly when
the events satisfy `Q`, where a step of such an event keeps the invariant. -/
theorem allSteps_iff_allPre {Q : σ → ε → Prop}
    (hstep : ∀ s e, I s → ∃ s', step s e = some s' ∧ (P s e s' ↔ Q s e) ∧ (Q s e → I s')) {s : σ}
    (hs : I s) (es : List ε) : AllSteps step P s es ↔ AllPre step Q s es := by
  induction es generalizing s with
  | nil => rfl
  | cons e es ih =>
    obtain ⟨s', hs', hiff, hkeep⟩ := hstep s e hs
    constructor
    · intro ⟨t, ht, hp, hrest⟩
      rw [hs'] at ht
      cases ht
      have hq := hiff.mp hp
      refine ⟨hq, fun u hu => ?_⟩
      rw [hs'] at hu
      cases hu
      exact (ih (hkeep hq)).mp hrest
    · intro ⟨hq, hrest⟩
      exact ⟨s', hs', hiff.mpr hq, (ih (hkeep hq)).mpr (hrest s' hs')⟩

/-- Two systems whose states are related take the same events, and are related after them. -/
theorem run_rel {τ : Type*} {step' : τ → ε → Option τ} {R : σ → τ → Prop}
    (hstep : ∀ s t e, R s t → Option.Rel R (step s e) (step' t e)) {s : σ} {t : τ} (h : R s t) (es : List ε) :
    Option.Rel R (run step s es) (run step' t es) := by
  induction es generalizing s t with
  | nil => exact .some h
  | cons e es ih =>
    show Option.Rel R (step s e >>= (run step · es)) (step' t e >>= (run step' · es))
    have hrel := hstep s t e h
    revert hrel
    generalize step s e = o
    generalize step' t e = o'
    intro hrel
    cases hrel with
    | none => exact .none
    | some h' => exact ih h'

/-- What holds of all steps of a run holds of the last one. -/
theorem AllSteps.last {s : σ} {es : List ε} {e : ε} (h : AllSteps step P s (es ++ [e])) :
    ∃ t s', run step s (es ++ [e]) = some s' ∧ P t e s' := by
  induction es generalizing s with
  | nil =>
    obtain ⟨s', hs', hp, -⟩ := h
    refine ⟨s, s', ?_, hp⟩
    unfold run
    rw [List.nil_append, List.foldlM_cons, hs']
    rfl
  | cons d es ih =>
    obtain ⟨s₁, hs₁, -, hrest⟩ := h
    obtain ⟨t, s', hrun, hp⟩ := ih hrest
    refine ⟨t, s', ?_, hp⟩
    unfold run at hrun ⊢
    rw [List.cons_append, List.foldlM_cons, hs₁, Option.bind_eq_bind, Option.bind_some]
    exact hrun

theorem allSteps_cons {s s' : σ} {e : ε} (h : step s e = some s') (es : List ε) :
    AllSteps step P s (e :: es) ↔ P s e s' ∧ AllSteps step P s' es := by
  constructor
  · intro ⟨t, ht, hp, hrest⟩
    rw [h] at ht
    cases ht
    exact ⟨hp, hrest⟩
  · intro ⟨hp, hrest⟩
    exact ⟨s', h, hp, hrest⟩

/-- A run can be checked step by step. -/
instance AllSteps.decidable [∀ s e s', Decidable (P s e s')] :
    (s : σ) → (es : List ε) → Decidable (AllSteps step P s es)
  | _, [] => isTrue trivial
  | s, e :: es =>
    match h : step s e with
    | none => isFalse fun hall => by
        obtain ⟨_, hs, _⟩ := hall
        rw [h] at hs
        cases hs
    | some s' =>
      have := AllSteps.decidable s' es
      decidable_of_iff _ (allSteps_cons h es).symm

end Runs
