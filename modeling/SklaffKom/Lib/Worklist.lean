import Mathlib.Data.List.Nodup
import Mathlib.Logic.Relation

/-!
# Worklists

A worklist is a stack of items.  The item on top is visited, and its children take its place.  Where
each child is less than its parent in some measure the worklist gets empty; the items visited are
those that can be reached from the first ones, and in a forest each is visited once.
-/

namespace Worklist

variable {α : Type*} (children : α → List α)

/-- The items that are visited from the stack `s` on, in the order of their visits. -/
inductive Visits : List α → List α → Prop
  | nil : Visits [] []
  | cons {a : α} {s vs : List α} : Visits (children a ++ s) vs → Visits (a :: s) (a :: vs)

/-- A child of a child and so on. -/
def Reach : α → α → Prop := Relation.ReflTransGen fun a b => b ∈ children a

/-- No item has two parents, or is twice a child of one. -/
structure Forest : Prop where
  once : ∀ a, (children a).Nodup
  parent : ∀ a a' b, b ∈ children a → b ∈ children a' → a = a'

variable {children} {a b c x : α} {s vs s' vs' : List α}

theorem Reach.refl : Reach children a a := Relation.ReflTransGen.refl

theorem Reach.head (h : b ∈ children a) (hr : Reach children b x) : Reach children a x :=
  Relation.ReflTransGen.head h hr

/-- What is reached is not greater. -/
theorem Reach.measure_le {m : α → ℕ} (hm : ∀ a, ∀ b ∈ children a, m b < m a)
    (h : Reach children a x) : m x ≤ m a := by
  induction h with
  | refl => exact Nat.le_refl _
  | tail _ hstep ih => exact Nat.le_trans (Nat.le_of_lt (hm _ _ hstep)) ih

/-- The items from which an item of a forest is reached follow one another. -/
theorem Forest.reach_or (hf : Forest children) (hax : Reach children a x)
    (hbx : Reach children b x) : Reach children a b ∨ Reach children b a := by
  induction hax with
  | refl => exact Or.inr hbx
  | tail hay hstep ih =>
    rcases Relation.ReflTransGen.cases_tail hbx with heq | ⟨y, hby, hyx⟩
    · rw [← heq]
      exact Or.inl (hay.tail hstep)
    · rw [hf.parent _ _ _ hyx hstep] at hby
      exact ih hby

/-! ## The visits -/

theorem Visits.append (h : Visits children s vs) (h' : Visits children s' vs') :
    Visits children (s ++ s') (vs ++ vs') := by
  induction h with
  | nil => exact h'
  | cons _ ih =>
    rw [List.cons_append, List.cons_append]
    apply Visits.cons
    rwa [← List.append_assoc]

/-- The worklist gets empty. -/
theorem exists_visits {m : α → ℕ} (hm : ∀ a, ∀ b ∈ children a, m b < m a) (s : List α) :
    ∃ vs, Visits children s vs := by
  have hlist : ∀ s : List α, (∀ a ∈ s, ∃ vs, Visits children [a] vs) →
      ∃ vs, Visits children s vs := by
    intro s
    induction s with
    | nil => exact fun _ => ⟨[], .nil⟩
    | cons a s ih =>
      intro h
      obtain ⟨vs, hvs⟩ := h a List.mem_cons_self
      obtain ⟨vs', hvs'⟩ := ih fun b hb => h b (List.mem_cons_of_mem a hb)
      exact ⟨vs ++ vs', hvs.append hvs'⟩
  have hone : ∀ n a, m a = n → ∃ vs, Visits children [a] vs := by
    intro n
    induction n using Nat.strongRecOn with
    | _ n ih =>
      intro a ha
      obtain ⟨vs, hvs⟩ := hlist (children a) fun b hb => ih (m b) (ha ▸ hm a b hb) b rfl
      refine ⟨a :: vs, .cons ?_⟩
      rwa [List.append_nil]
  exact hlist s fun a _ => hone (m a) a rfl

/-- Exactly what can be reached from the stack is visited. -/
theorem Visits.mem_iff (h : Visits children s vs) :
    x ∈ vs ↔ ∃ a ∈ s, Reach children a x := by
  induction h with
  | nil => simp
  | @cons a s vs _ ih =>
    rw [List.mem_cons, ih]
    constructor
    · rintro (rfl | ⟨b, hb, hr⟩)
      · exact ⟨x, List.mem_cons_self, .refl⟩
      · rcases List.mem_append.mp hb with hb | hb
        · exact ⟨a, List.mem_cons_self, .head hb hr⟩
        · exact ⟨b, List.mem_cons_of_mem a hb, hr⟩
    · rintro ⟨b, hb, hr⟩
      rcases List.mem_cons.mp hb with rfl | hb
      · rcases Relation.ReflTransGen.cases_head hr with heq | ⟨c, hc, hr⟩
        · exact Or.inl heq.symm
        · exact Or.inr ⟨c, List.mem_append_left _ hc, hr⟩
      · exact Or.inr ⟨b, List.mem_append_right _ hb, hr⟩

/-- Nothing is reached from both items. -/
def Apart (children : α → List α) (a b : α) : Prop :=
  ∀ x, Reach children a x → ¬ Reach children b x

/-- The children of an item of a forest are apart. -/
theorem Forest.children_apart (hf : Forest children) {m : α → ℕ}
    (hm : ∀ a, ∀ b ∈ children a, m b < m a) (a : α) : (children a).Pairwise (Apart children) := by
  have hbelow : ∀ c c', c ∈ children a → c' ∈ children a → c ≠ c' → ¬ Reach children c c' := by
    intro c c' hc hc' hne hr
    rcases Relation.ReflTransGen.cases_tail hr with heq | ⟨y, hcy, hy⟩
    · exact hne heq.symm
    · rw [hf.parent _ _ _ hy hc'] at hcy
      have hle := Reach.measure_le hm hcy
      have hlt := hm a c hc
      omega
  refine (hf.once a).imp_of_mem fun {c c'} hc hc' hne x hcx hc'x => ?_
  rcases hf.reach_or hcx hc'x with h | h
  · exact hbelow c c' hc hc' hne h
  · exact hbelow c' c hc' hc hne.symm h

/-- In a forest no item is visited twice. -/
theorem Visits.nodup (h : Visits children s vs) (hf : Forest children) {m : α → ℕ}
    (hm : ∀ a, ∀ b ∈ children a, m b < m a) (hs : s.Pairwise (Apart children)) : vs.Nodup := by
  induction h with
  | nil => exact List.nodup_nil
  | @cons a s vs hvs ih =>
    rw [List.pairwise_cons] at hs
    rw [List.nodup_cons]
    constructor
    · intro ha
      obtain ⟨b, hb, hr⟩ := hvs.mem_iff.mp ha
      rcases List.mem_append.mp hb with hb | hb
      · have hle := Reach.measure_le hm hr
        have hlt := hm a b hb
        omega
      · exact hs.1 b hb a .refl hr
    · apply ih
      rw [List.pairwise_append]
      refine ⟨hf.children_apart hm a, hs.2, fun c hc b hb x hcx hbx => ?_⟩
      exact hs.1 b hb x (.head hc hcx) hbx

end Worklist
