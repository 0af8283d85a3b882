import Mathlib.Data.List.Basic

/-!
# Splitting at a separator

What is split at a separator is a part without it, or such a part, the separator and a rest.
-/

namespace Split

variable {α : Type*} [BEq α] [LawfulBEq α] {a : α} {s part rest : List α}

theorem splitOn_append (h : a ∉ part) (rest : List α) :
    (part ++ a :: rest).splitOn a = part :: rest.splitOn a := by
  rw [List.splitOn_append_cons_of_beq _ _ (beq_self_eq_true a), List.splitOn_eq_singleton h]
  rfl

/-- The first separator, if there is one. -/
@[elab_as_elim]
theorem induction {motive : List α → Prop} (last : ∀ s, a ∉ s → motive s)
    (cons : ∀ part rest, a ∉ part → motive rest → motive (part ++ a :: rest)) (s : List α) :
    motive s := by
  induction hn : s.length using Nat.strongRecOn generalizing s with
  | ind n ih =>
    by_cases h : a ∈ s
    · obtain ⟨part, rest, rfl, hpart⟩ := List.eq_append_cons_of_mem h
      rw [List.length_append, List.length_cons] at hn
      exact cons part rest hpart (ih _ (by omega) rest rfl)
    · exact last s h

theorem notMem_of_mem_splitOn (h : part ∈ s.splitOn a) : a ∉ part := by
  revert h
  refine induction (a := a) (fun s hs h => ?_) (fun first rest hfirst ih h => ?_) s
  · rw [List.splitOn_eq_singleton hs, List.mem_singleton] at h
    exact h ▸ hs
  · rw [splitOn_append hfirst, List.mem_cons] at h
    rcases h with rfl | h
    · exact hfirst
    · exact ih h

theorem mem_of_mem_splitOn {b : α} (h : part ∈ s.splitOn a) (hb : b ∈ part) : b ∈ s := by
  revert h
  refine induction (a := a) (fun s hs h => ?_) (fun first rest hfirst ih h => ?_) s
  · rw [List.splitOn_eq_singleton hs, List.mem_singleton] at h
    exact h ▸ hb
  · rw [splitOn_append hfirst, List.mem_cons] at h
    rcases h with rfl | h
    · exact List.mem_append_left _ hb
    · exact List.mem_append_right _ (List.mem_cons_of_mem _ (ih h))

end Split
