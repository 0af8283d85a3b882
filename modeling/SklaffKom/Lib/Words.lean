import Mathlib.Data.List.Induction
import Mathlib.Data.List.TakeWhile

/-!
# Words and cut words

`words sep s` are the maximal parts of `s` without separators.  `CutWords k` relates a sequence of
words to one in which words longer than `k` may be cut into pieces.
-/

namespace Words

variable {α : Type*} {sep : α → Bool} {a b s w : List α} {c : α} {k : ℕ}

/-- The nonempty parts of `s` between the separators. -/
def words (sep : α → Bool) (s : List α) : List (List α) :=
  (s.splitOnP sep).filter fun w => !w.isEmpty

@[simp] theorem words_nil : words sep [] = [] := by
  rw [words, List.splitOnP_nil]
  rfl

/-- A separator is between words. -/
theorem words_append_cons (hc : sep c = true) (a b : List α) :
    words sep (a ++ c :: b) = words sep a ++ words sep b := by
  rw [words, List.splitOnP_append_cons a b hc, List.filter_append]
  rfl

theorem words_cons_sep (hc : sep c = true) (b : List α) : words sep (c :: b) = words sep b := by
  have h := words_append_cons hc [] b
  rwa [List.nil_append, words_nil, List.nil_append] at h

theorem words_append_sep (hc : sep c = true) (a : List α) : words sep (a ++ [c]) = words sep a := by
  rw [words_append_cons hc, words_nil, List.append_nil]

/-- What has no separator is a word. -/
theorem words_of_word (hne : w ≠ []) (hw : ∀ c ∈ w, sep c = false) : words sep w = [w] := by
  have hempty : w.isEmpty = false := by simpa using hne
  rw [words, List.splitOnP_eq_singleton hw, List.filter_cons_of_pos (by simp [hempty])]
  rfl

/-- A word in front of a separator. -/
theorem words_word_append (hne : w ≠ []) (hw : ∀ c ∈ w, sep c = false)
    (hs : ∀ c ∈ s.head?, sep c = true) : words sep (w ++ s) = w :: words sep s := by
  cases s with
  | nil => rw [List.append_nil, words_of_word hne hw, words_nil]
  | cons c s =>
    have hc : sep c = true := hs c rfl
    rw [words_append_cons hc, words_of_word hne hw, words_cons_sep hc]
    rfl

/-- Separators at the beginning do not count. -/
theorem words_dropWhile {p : α → Bool} (hp : ∀ c, p c = true → sep c = true) (s : List α) :
    words sep (s.dropWhile p) = words sep s := by
  induction s with
  | nil => rfl
  | cons c s ih =>
    by_cases hc : p c = true
    · rw [List.dropWhile_cons_of_pos hc, ih, words_cons_sep (hp c hc)]
    · rw [List.dropWhile_cons_of_neg hc]

/-- Separators at the end do not count. -/
theorem words_reverse_dropWhile {p : α → Bool} (hp : ∀ c, p c = true → sep c = true) (s : List α) :
    words sep (s.reverse.dropWhile p).reverse = words sep s := by
  induction s using List.reverseRecOn with
  | nil => rfl
  | append_singleton s c ih =>
    rw [List.reverse_append, List.reverse_singleton, List.singleton_append]
    by_cases hc : p c = true
    · rw [List.dropWhile_cons_of_pos hc, ih, words_append_sep (hp c hc)]
    · rw [List.dropWhile_cons_of_neg hc, List.reverse_cons, List.reverse_reverse]

/-- What begins with no separator begins with a word. -/
theorem exists_first_word (hs : s ≠ []) (hfirst : ∀ c ∈ s.head?, sep c = false) :
    ∃ w rest, s = w ++ rest ∧ w ≠ [] ∧ (∀ c ∈ w, sep c = false) ∧ ∀ c ∈ rest.head?, sep c = true := by
  refine ⟨s.takeWhile fun c => !sep c, s.dropWhile fun c => !sep c, ?_, ?_, ?_, ?_⟩
  · exact List.takeWhile_append_dropWhile.symm
  · obtain ⟨c, s, rfl⟩ := List.exists_cons_of_ne_nil hs
    have hc : sep c = false := hfirst c rfl
    simp [hc]
  · intro c hc
    simpa using List.mem_takeWhile_imp hc
  · intro c hc
    have hhead := List.head?_dropWhile_not (fun c => !sep c) s
    rw [Option.mem_def.mp hc] at hhead
    simpa using hhead

/-- Changing the characters, but not the separators. -/
theorem words_map {β : Type*} {f : α → β} {sep' : β → Bool} (h : ∀ c, sep' (f c) = sep c) (s : List α) :
    words sep' (s.map f) = (words sep s).map (List.map f) := by
  induction hn : s.length using Nat.strong_induction_on generalizing s with
  | _ n ih =>
    cases s with
    | nil => simp
    | cons c s =>
      rw [List.length_cons] at hn
      cases hc : sep c with
      | true => rw [List.map_cons, words_cons_sep ((h c).trans hc), words_cons_sep hc, ih s.length (by omega) s rfl]
      | false =>
        have hfirst : ∀ d ∈ (c :: s).head?, sep d = false := by
          rintro d ⟨⟩
          exact hc
        obtain ⟨w, rest, heq, hne, hw, hrest⟩ := exists_first_word (List.cons_ne_nil c s) hfirst
        have hlen := congrArg List.length heq
        have hpos := List.length_pos_iff.mpr hne
        rw [List.length_cons, List.length_append] at hlen
        rw [heq, List.map_append, words_word_append hne hw hrest, List.map_cons,
          ← ih rest.length (by omega) rest rfl]
        apply words_word_append (by simpa using hne)
        · intro d hd
          obtain ⟨a, ha, rfl⟩ := List.mem_map.mp hd
          rw [h, hw a ha]
        · intro d hd
          rw [List.head?_map] at hd
          obtain ⟨a, ha, rfl⟩ := Option.map_eq_some_iff.mp hd
          rw [h, hrest a ha]

/-- Words longer than `k` may be cut into consecutive pieces. -/
inductive CutWords (k : ℕ) : List (List α) → List (List α) → Prop
  | nil : CutWords k [] []
  | keep {ws out} (w : List α) : CutWords k ws out → CutWords k (w :: ws) (w :: out)
  | cut {ws out} (ps : List (List α)) : k < ps.flatten.length → CutWords k ws out →
      CutWords k (ps.flatten :: ws) (ps ++ out)

namespace CutWords

theorem refl (k : ℕ) (ws : List (List α)) : CutWords k ws ws := by
  induction ws with
  | nil => exact .nil
  | cons w ws ih => exact .keep w ih

theorem append {ws ws' out out' : List (List α)} (h : CutWords k ws out) (h' : CutWords k ws' out') :
    CutWords k (ws ++ ws') (out ++ out') := by
  induction h with
  | nil => exact h'
  | keep w _ ih => exact .keep w ih
  | cut ps hlong _ ih =>
    rw [List.append_assoc]
    exact .cut ps hlong ih

/-- A piece is cut off at the beginning of a word. -/
theorem cons_piece {p r : List α} {ws out : List (List α)} (h : CutWords k (r :: ws) out)
    (hlong : k < (p ++ r).length) : CutWords k ((p ++ r) :: ws) (p :: out) := by
  cases h with
  | keep _ h =>
    have hcut := CutWords.cut (k := k) [p, r] (by simpa using hlong) h
    simpa using hcut
  | cut ps _ h =>
    have hcut := CutWords.cut (k := k) (p :: ps) (by simpa using hlong) h
    simpa using hcut

/-- A word of at most `k` is kept. -/
theorem head_eq {w x : List α} {ws out : List (List α)} (h : CutWords k (w :: ws) (x :: out))
    (hshort : w.length ≤ k) : x = w := by
  generalize hall : x :: out = all at h
  cases h with
  | keep _ _ => exact (List.cons.inj hall).1
  | cut ps hlong _ => omega

end CutWords

end Words
