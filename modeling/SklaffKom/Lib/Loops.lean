import Mathlib.Logic.Relation

/-!
# Loops with a break

The body of a loop either goes on with a new state, breaks with one, or fails.  A loop ends when
every turn that goes on lowers a measure; a property that each turn keeps exactly under its own
condition holds at the end exactly when the condition held at every turn.
-/

namespace Loops

variable {σ : Type*}

inductive Turn (σ : Type*) where
  | goOn (s : σ)
  | stop (s : σ)

/-- The state after a turn. -/
def Turn.state : Turn σ → σ
  | goOn s => s
  | stop s => s

/-- A loop of at most so many turns. -/
def loop (body : σ → Option (Turn σ)) : Nat → σ → Option σ
  | 0, _ => none
  | n + 1, s =>
    match body s with
    | none => none
    | some (.stop s') => some s'
    | some (.goOn s') => loop body n s'

/-- The loop started in one state comes to a turn in the other one. -/
def Passes (body : σ → Option (Turn σ)) : σ → σ → Prop :=
  Relation.ReflTransGen fun s s' => body s = some (.goOn s')

variable {body : σ → Option (Turn σ)} {s s' : σ}

theorem passes_of_stop (h : body s = some (.stop s')) {u : σ} : Passes body s u ↔ u = s := by
  constructor
  · intro hu
    rcases Relation.ReflTransGen.cases_head hu with rfl | ⟨v, hv, -⟩
    · rfl
    · rw [h] at hv
      cases hv
  · rintro rfl
    exact .refl

theorem passes_of_goOn (h : body s = some (.goOn s')) {u : σ} :
    Passes body s u ↔ u = s ∨ Passes body s' u := by
  constructor
  · intro hu
    rcases Relation.ReflTransGen.cases_head hu with rfl | ⟨v, hv, hu⟩
    · exact Or.inl rfl
    · rw [h] at hv
      cases hv
      exact Or.inr hu
  · rintro (rfl | hu)
    · exact .refl
    · exact .head h hu

/-- The rule for a loop: `I m` is an invariant with the measure `m`, `E` what a break leaves, and
`C` a property that a turn keeps exactly when `P` holds before it. -/
theorem exists_loop {I : Nat → σ → Prop} {E C P : σ → Prop}
    (hturn : ∀ m s, I m s → ∃ t : Turn σ, body s = some t ∧ (C t.state ↔ C s ∧ P s) ∧
      (∀ s', t = .goOn s' → ∃ m' < m, I m' s') ∧ ∀ s', t = .stop s' → E s')
    {m : Nat} {s : σ} (hs : I m s) :
    ∃ s', (∃ N, ∀ n, N ≤ n → loop body n s = some s') ∧ E s' ∧
      (C s' ↔ C s ∧ ∀ u, Passes body s u → P u) := by
  induction m using Nat.strongRecOn generalizing s with
  | ind m ih =>
    obtain ⟨t, ht, hC, hgo, hstop⟩ := hturn m s hs
    cases t with
    | stop s' =>
      refine ⟨s', ⟨1, fun n hn => ?_⟩, hstop s' rfl, ?_⟩
      · obtain ⟨k, rfl⟩ : ∃ k, n = k + 1 := ⟨n - 1, by omega⟩
        simp only [loop, ht]
      · simp only [passes_of_stop ht, forall_eq]
        exact hC
    | goOn s₁ =>
      obtain ⟨m', hm', hI⟩ := hgo s₁ rfl
      obtain ⟨s', ⟨N, hN⟩, hE, hC'⟩ := ih m' hm' hI
      refine ⟨s', ⟨N + 1, fun n hn => ?_⟩, hE, ?_⟩
      · obtain ⟨k, rfl⟩ : ∃ k, n = k + 1 := ⟨n - 1, by omega⟩
        simp only [loop, ht]
        exact hN k (by omega)
      · simp only [passes_of_goOn ht, forall_eq_or_imp]
        rw [hC', ← and_assoc]
        exact and_congr_left fun _ => hC

end Loops
