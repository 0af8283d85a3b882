import Mathlib.Data.List.Nodup

/-!
# The first of each key

A log to which the items of a list are added one after the other, an item whose key is there already
being passed over.
-/

namespace Firsts

variable {α κ : Type*} [DecidableEq κ] (key : α → κ)

/-- The items that are added when the keys in `seen` are there before. -/
def firsts : List κ → List α → List α
  | _, [] => []
  | seen, a :: l => if key a ∈ seen then firsts seen l else a :: firsts (seen ++ [key a]) l

variable {key} {seen seen' : List κ} {l A B : List α} {a : α}

theorem firsts_congr (h : ∀ k, k ∈ seen ↔ k ∈ seen') : firsts key seen l = firsts key seen' l := by
  induction l generalizing seen seen' with
  | nil => rfl
  | cons a l ih =>
    rw [firsts, firsts, ih h]
    by_cases ha : key a ∈ seen
    · rw [if_pos ha, if_pos ((h _).mp ha)]
    · rw [if_neg ha, if_neg fun ha' => ha ((h _).mpr ha')]
      congr 1
      apply ih
      intro k
      rw [List.mem_append, List.mem_append, h]

theorem mem_firsts : a ∈ firsts key seen l ↔
    key a ∉ seen ∧ l.find? (fun b => key b = key a) = some a := by
  induction l generalizing seen with
  | nil => simp [firsts]
  | cons b l ih =>
    rw [firsts]
    by_cases hb : key b ∈ seen
    · rw [if_pos hb, ih]
      refine and_congr_right fun ha => ?_
      -- an item with another key is not the first
      have hne : key b ≠ key a := fun he => ha (he ▸ hb)
      rw [List.find?_cons_of_neg (by simpa using hne)]
    · rw [if_neg hb, List.mem_cons, ih, List.mem_append, List.mem_singleton, not_or]
      by_cases he : key b = key a
      · rw [List.find?_cons_of_pos (by simpa using he)]
        constructor
        · rintro (rfl | ⟨⟨-, hne⟩, -⟩)
          · exact ⟨hb, rfl⟩
          · exact absurd he.symm hne
        · rintro ⟨-, h⟩
          exact Or.inl (Option.some.inj h).symm
      · rw [List.find?_cons_of_neg (by simpa using he)]
        constructor
        · rintro (rfl | ⟨⟨ha, -⟩, h⟩)
          · exact absurd rfl he
          · exact ⟨ha, h⟩
        · rintro ⟨ha, h⟩
          exact Or.inr ⟨⟨ha, fun h => he h.symm⟩, h⟩

theorem firsts_subset : firsts key seen l ⊆ l := fun _ ha =>
  List.mem_of_find?_eq_some (mem_firsts.mp ha).2

/-- No key twice. -/
theorem nodup_firsts : ((firsts key seen l).map key).Nodup := by
  induction l generalizing seen with
  | nil => exact List.nodup_nil
  | cons a l ih =>
    rw [firsts]
    split
    · exact ih
    · rw [List.map_cons, List.nodup_cons]
      refine ⟨fun hmem => ?_, ih⟩
      obtain ⟨b, hb, heq⟩ := List.mem_map.mp hmem
      exact (mem_firsts.mp hb).1 (by simp [heq])

/-- Afterwards every key is there. -/
theorem mem_keys_firsts {k : κ} :
    k ∈ (firsts key seen l).map key ↔ k ∉ seen ∧ k ∈ l.map key := by
  constructor
  · intro hk
    obtain ⟨a, ha, rfl⟩ := List.mem_map.mp hk
    exact ⟨(mem_firsts.mp ha).1, List.mem_map_of_mem (firsts_subset ha)⟩
  · rintro ⟨hk, hl⟩
    obtain ⟨b, hb, rfl⟩ := List.mem_map.mp hl
    obtain ⟨a, ha⟩ : ∃ a, l.find? (fun c => key c = key b) = some a := by
      rw [← Option.isSome_iff_exists, List.find?_isSome]
      exact ⟨b, hb, by simp⟩
    have hkey : key a = key b := by simpa using List.find?_some ha
    exact List.mem_map.mpr ⟨a, mem_firsts.mpr ⟨hkey ▸ hk, by rw [hkey]; exact ha⟩, hkey⟩

/-- When a part has been added, the rest is added the next time. -/
theorem firsts_rest (h : firsts key seen l = A ++ B) : firsts key (seen ++ A.map key) l = B := by
  induction l generalizing seen A with
  | nil =>
    rw [firsts, eq_comm, List.append_eq_nil_iff] at h
    rw [firsts, h.2]
  | cons a l ih =>
    rw [firsts] at h ⊢
    by_cases ha : key a ∈ seen
    · rw [if_pos ha] at h
      rw [if_pos (List.mem_append_left _ ha)]
      exact ih h
    · rw [if_neg ha] at h
      cases A with
      | nil =>
        rw [List.map_nil, List.append_nil, if_neg ha]
        exact h
      | cons b A =>
        obtain ⟨rfl, hrest⟩ := List.cons.inj h
        rw [if_pos (by simp), List.map_cons, List.append_cons]
        exact ih hrest

end Firsts
