import Mathlib.Data.List.Basic

/-!
# Processes in a list

The processes of a system stand in a list, and in a step one of them goes to another stage.  Lemmas for two kinds
of invariants: that only one process is at a stage of some kind, and that the stages add up to something.
-/

namespace Processes

variable {σ : Type*}

/-- The only process that may satisfy `P` is `o`. -/
def OnlyOwner (P : σ → Prop) (l : List σ) (o : Option Nat) : Prop :=
  ∀ i a, l[i]? = some a → P a → o = some i

/-- What the stages of all processes add up to. -/
def weight (w : σ → Nat) (l : List σ) : Nat := l.foldr (fun a n => w a + n) 0

section OnlyOwner

variable {P : σ → Prop} {l : List σ} {o : Option Nat} {i j : Nat} {a b : σ}

theorem OnlyOwner.eq (h : OnlyOwner P l o) (hi : l[i]? = some a) (ha : P a) (hj : l[j]? = some b) (hb : P b) :
    i = j := by
  have hoi := h i a hi ha
  rw [h j b hj hb] at hoi
  exact (Option.some.inj hoi).symm

theorem onlyOwner_nil (o : Option Nat) : OnlyOwner P [] o := by
  intro i a hi
  rw [List.getElem?_nil] at hi
  cases hi

/-- The process `i` goes to a stage that is no new one of the kind. -/
theorem OnlyOwner.set (h : OnlyOwner P l o) (hi : l[i]? = some a) (hb : P b → P a) : OnlyOwner P (l.set i b) o := by
  intro j c hj hc
  rw [List.getElem?_set] at hj
  split at hj
  · rename_i hij
    split at hj
    · cases hj
      exact hij ▸ h i a hi (hb hc)
    · cases hj
  · exact h j c hj hc

/-- The process `i` is the first one to come to such a stage. -/
theorem OnlyOwner.enter (h : OnlyOwner P l none) : OnlyOwner P (l.set i b) (some i) := by
  intro j c hj hc
  rw [List.getElem?_set] at hj
  split at hj
  · rename_i hij
    rw [hij]
  · cases h j c hj hc

/-- The owner leaves. -/
theorem OnlyOwner.leave (h : OnlyOwner P l o) (hi : l[i]? = some a) (ha : P a) (hb : ¬ P b) :
    OnlyOwner P (l.set i b) none := by
  intro j c hj hc
  rw [List.getElem?_set] at hj
  split at hj
  · split at hj
    · cases hj
      exact absurd hc hb
    · cases hj
  · rename_i hij
    exact absurd (h.eq hi ha hj hc) hij

theorem OnlyOwner.spawn (h : OnlyOwner P l o) (hb : ¬ P b) : OnlyOwner P (l ++ [b]) o := by
  intro j c hj hc
  rw [List.getElem?_append] at hj
  split at hj
  · exact h j c hj hc
  · have hmem := List.mem_of_getElem? hj
    rw [List.mem_singleton.mp hmem] at hc
    exact absurd hc hb

/-- The owner is at no such stage: there is none. -/
theorem OnlyOwner.vacate (h : OnlyOwner P l (some i)) (hi : l[i]? = some a) (ha : ¬ P a) : OnlyOwner P l none := by
  intro j c hj hc
  have hij := Option.some.inj (h j c hj hc)
  subst hij
  rw [hi] at hj
  cases hj
  exact absurd hc ha

/-- Stages change outside of the steps of the processes. -/
theorem OnlyOwner.map (h : OnlyOwner P l o) {f : σ → σ} (hf : ∀ a, P (f a) → P a) :
    OnlyOwner P (l.map f) o := by
  intro j c hj hc
  rw [List.getElem?_map, Option.map_eq_some_iff] at hj
  obtain ⟨a, ha, rfl⟩ := hj
  exact h j a ha (hf a hc)

end OnlyOwner

section Weight

variable {w : σ → Nat} {l : List σ} {i : Nat} {a : σ}

theorem weight_nil (w : σ → Nat) : weight w [] = 0 := rfl

theorem weight_set (h : l[i]? = some a) (b : σ) : weight w (l.set i b) + w a = weight w l + w b := by
  induction l generalizing i with
  | nil => cases h
  | cons c l ih =>
    cases i with
    | zero =>
      cases h
      simp only [weight, List.set_cons_zero, List.foldr_cons]
      omega
    | succ i =>
      have hrest := ih h
      simp only [weight, List.set_cons_succ, List.foldr_cons] at hrest ⊢
      omega

theorem weight_spawn (l : List σ) (b : σ) : weight w (l ++ [b]) = weight w l + w b := by
  induction l with
  | nil => simp [weight]
  | cons c l ih =>
    simp only [weight, List.cons_append, List.foldr_cons] at ih ⊢
    omega

theorem weight_map (l : List σ) {f : σ → σ} (hf : ∀ a, w (f a) = w a) : weight w (l.map f) = weight w l := by
  unfold weight
  rw [List.foldr_map]
  simp only [hf]

end Weight

end Processes
