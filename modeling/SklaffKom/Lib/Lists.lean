import Mathlib.Data.List.Forall2

/-!
# Lists, element by element

Lists whose elements are related one by one, and computations that can fail for an element.
-/

namespace Lists

section Related

variable {α β : Type*} {R : α → β → Prop} {as : List α} {bs : List β}

theorem forall₂_exists_mem (h : List.Forall₂ R as bs) : ∀ a ∈ as, ∃ b ∈ bs, R a b := by
  induction h with
  | nil => simp
  | @cons a b as bs hr _ ih =>
    intro x hx
    rcases List.mem_cons.mp hx with rfl | hx
    · exact ⟨b, List.mem_cons_self, hr⟩
    · obtain ⟨y, hy, hxy⟩ := ih x hx
      exact ⟨y, List.mem_cons_of_mem _ hy, hxy⟩

theorem forall₂_getD (h : List.Forall₂ R as bs) {k : Nat} {a : α} (hk : as[k]? = some a) (d : β) :
    R a (bs.getD k d) := by
  induction h generalizing k with
  | nil => cases hk
  | cons hr _ ih =>
    cases k with
    | zero =>
      cases hk
      exact hr
    | succ k => exact ih hk

end Related

section Failing

variable {ε α β : Type}

theorem except_bind_iff {x : Except ε α} {f : α → Except ε β} {b : β} :
    x >>= f = .ok b ↔ ∃ a, x = .ok a ∧ f a = .ok b := by
  cases x with
  | error e => simp [bind, Except.bind]
  | ok a => simp [bind, Except.bind]

theorem forall₂_of_mapM_ok {f : α → Except ε β} {l : List α} {m : List β} (h : l.mapM f = .ok m) :
    List.Forall₂ (fun a b => f a = .ok b) l m := by
  induction l generalizing m with
  | nil =>
    cases h
    exact .nil
  | cons a l ih =>
    rw [List.mapM_cons] at h
    obtain ⟨b, hb, h⟩ := except_bind_iff.mp h
    obtain ⟨m', hm, h⟩ := except_bind_iff.mp h
    cases h
    exact .cons hb (ih hm)

end Failing

/-- Two joined lists with the separator between them. -/
theorem intercalate_append {α : Type*} {as bs : List (List α)} (sep : List α) (ha : as ≠ [])
    (hb : bs ≠ []) :
    sep.intercalate (as ++ bs) = sep.intercalate as ++ (sep ++ sep.intercalate bs) := by
  induction as with
  | nil => exact absurd rfl ha
  | cons a as ih =>
    rw [List.cons_append]
    cases as with
    | nil =>
      rw [List.nil_append, List.intercalate_cons_of_ne_nil hb, List.intercalate_singleton,
        List.append_assoc]
    | cons a' as =>
      rw [List.intercalate_cons_of_ne_nil (by simp), ih (List.cons_ne_nil _ _),
        List.intercalate_cons_of_ne_nil (List.cons_ne_nil _ _)]
      simp only [List.append_assoc]

end Lists
