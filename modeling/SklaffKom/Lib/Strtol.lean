import SklaffKom.Lib.CString

/-!
# `strtol` and the end of a line

`strtol` skips white space, newlines among it, and stops at the first character that is no digit: a
number ends with its line, but it may begin on a later one.
-/

namespace CString

variable {s t tail r : CString} {n : Int}

/-- A number with its sign, and the rest. -/
def scanSigned (t : CString) : Option (Int × CString) :=
  match t with
  | '-' :: t => (scanDigits t).map fun r => (-(r.1 : Int), r.2)
  | '+' :: t => (scanDigits t).map fun r => ((r.1 : Int), r.2)
  | t => (scanDigits t).map fun r => ((r.1 : Int), r.2)

theorem scanSigned_minus (t : CString) :
    scanSigned ('-' :: t) = (scanDigits t).map fun r => (-(r.1 : Int), r.2) := rfl

theorem scanSigned_plus (t : CString) :
    scanSigned ('+' :: t) = (scanDigits t).map fun r => ((r.1 : Int), r.2) := rfl

theorem scanSigned_unsigned (hm : ∀ t, s ≠ '-' :: t) (hp : ∀ t, s ≠ '+' :: t) :
    scanSigned s = (scanDigits s).map fun r => ((r.1 : Int), r.2) := by
  rw [scanSigned]
  · exact hm
  · exact hp

theorem strtol_eq (s : CString) : strtol s = (scanSigned (s.dropWhile isSpace)).getD (0, s) := by
  unfold strtol
  generalize s.dropWhile isSpace = u
  split
  · rename_i t
    rw [scanSigned_minus]
    cases scanDigits t with
    | none => rfl
    | some r => rfl
  · rename_i t
    rw [scanSigned_plus]
    cases scanDigits t with
    | none => rfl
    | some r => rfl
  · rename_i hm hp
    rw [scanSigned_unsigned hm hp]
    cases scanDigits u with
    | none => rfl
    | some r => rfl

/-- A rest that continues no number. -/
def Stops (s : CString) : Prop := ∀ c ∈ s.head?, c.isDigit = false ∧ c ≠ '-' ∧ c ≠ '+'

theorem stops_newline (s : CString) : Stops ('\n' :: s) := by
  intro c hc
  rw [List.head?_cons, Option.mem_def, Option.some.injEq] at hc
  rw [← hc]
  decide

theorem stops_nil : Stops [] := fun _ hc => by cases hc

theorem Stops.noDigit (h : Stops s) : NoDigit s := fun c hc => (h c hc).1

theorem scanDigits_append (h : NoDigit tail) (t : CString) :
    scanDigits (t ++ tail) = (scanDigits t).map fun r => (r.1, r.2 ++ tail) := by
  have htail : tail.takeWhile Char.isDigit = [] ∧ tail.dropWhile Char.isDigit = tail := by
    cases tail with
    | nil => exact ⟨rfl, rfl⟩
    | cons c tail =>
      have hc := noDigit_cons.mp h
      exact ⟨List.takeWhile_cons_of_neg (by simp [hc]), List.dropWhile_cons_of_neg (by simp [hc])⟩
  have hsplit : (t ++ tail).takeWhile Char.isDigit = t.takeWhile Char.isDigit ∧
      (t ++ tail).dropWhile Char.isDigit = t.dropWhile Char.isDigit ++ tail := by
    induction t with
    | nil => exact htail
    | cons c t ih =>
      by_cases hc : c.isDigit = true
      · rw [List.cons_append, List.takeWhile_cons_of_pos hc, List.takeWhile_cons_of_pos hc,
          List.dropWhile_cons_of_pos hc, List.dropWhile_cons_of_pos hc, ih.1, ih.2]
        exact ⟨rfl, rfl⟩
      · rw [List.cons_append, List.takeWhile_cons_of_neg hc, List.takeWhile_cons_of_neg hc,
          List.dropWhile_cons_of_neg hc, List.dropWhile_cons_of_neg hc]
        exact ⟨rfl, rfl⟩
  rw [scanDigits, scanDigits, hsplit.1, hsplit.2]
  cases t.takeWhile Char.isDigit with
  | nil => rfl
  | cons d ds => rfl

/-- The rest does not change a number before it. -/
theorem scanSigned_append (h : Stops tail) (t : CString) :
    scanSigned (t ++ tail) = (scanSigned t).map fun r => (r.1, r.2 ++ tail) := by
  cases t with
  | nil =>
    cases tail with
    | nil => rfl
    | cons c tail =>
      have hc := h c rfl
      have hnone : scanDigits (c :: tail) = none := scanDigits_of_noDigit h.noDigit
      rw [List.nil_append, scanSigned_unsigned (fun t ht => hc.2.1 (List.cons.inj ht).1)
        (fun t ht => hc.2.2 (List.cons.inj ht).1), hnone]
      rfl
  | cons c t =>
    by_cases hm : c = '-'
    · subst hm
      rw [List.cons_append, scanSigned_minus, scanSigned_minus, scanDigits_append h.noDigit,
        Option.map_map, Option.map_map]
      rfl
    · by_cases hp : c = '+'
      · subst hp
        rw [List.cons_append, scanSigned_plus, scanSigned_plus, scanDigits_append h.noDigit,
          Option.map_map, Option.map_map]
        rfl
      · have hno : ∀ u : CString, scanSigned (c :: u) =
            (scanDigits (c :: u)).map fun r => ((r.1 : Int), r.2) := fun u =>
          scanSigned_unsigned (fun t ht => hm (List.cons.inj ht).1)
            (fun t ht => hp (List.cons.inj ht).1)
        rw [List.cons_append, hno, hno, ← List.cons_append, scanDigits_append h.noDigit,
          Option.map_map, Option.map_map]
        rfl

theorem scanDigits_length {k : Nat} (h : scanDigits s = some (k, r)) : r.length < s.length := by
  have hall := congrArg List.length (List.takeWhile_append_dropWhile (p := Char.isDigit) (l := s))
  rw [List.length_append] at hall
  unfold scanDigits at h
  split at h
  · cases h
  · rename_i hne
    rw [Option.some.injEq, Prod.mk.injEq] at h
    have hpos : 0 < (s.takeWhile Char.isDigit).length := List.length_pos_iff.mpr hne
    rw [← h.2]
    omega

/-- A number takes at least one character. -/
theorem scanSigned_length (h : scanSigned s = some (n, r)) : r.length < s.length := by
  unfold scanSigned at h
  split at h
  · obtain ⟨⟨k, r'⟩, hk, heq⟩ := Option.map_eq_some_iff.mp h
    have := scanDigits_length hk
    cases heq
    rw [List.length_cons]
    dsimp only
    omega
  · obtain ⟨⟨k, r'⟩, hk, heq⟩ := Option.map_eq_some_iff.mp h
    have := scanDigits_length hk
    cases heq
    rw [List.length_cons]
    dsimp only
    omega
  · obtain ⟨⟨k, r'⟩, hk, heq⟩ := Option.map_eq_some_iff.mp h
    have := scanDigits_length hk
    cases heq
    exact this

/-- White space in front of a number is passed over. -/
theorem dropWhile_blank (h : s.all isSpace = true) (t : CString) :
    (s ++ t).dropWhile isSpace = t.dropWhile isSpace := by
  rw [List.all_eq_true] at h
  exact List.dropWhile_append_of_pos h

/-- Nothing is passed over at the end of a line that is not blank. -/
theorem dropWhile_line (h : s.all isSpace = false) (t : CString) :
    (s ++ t).dropWhile isSpace = s.dropWhile isSpace ++ t := by
  have hne : s.dropWhile isSpace ≠ [] := by
    intro hnil
    rw [List.dropWhile_eq_nil_iff] at hnil
    rw [← Bool.not_eq_true, List.all_eq_true] at h
    exact h hnil
  induction s with
  | nil => exact absurd rfl hne
  | cons c s ih =>
    by_cases hc : isSpace c = true
    · rw [List.cons_append, List.dropWhile_cons_of_pos hc, List.dropWhile_cons_of_pos hc]
      rw [List.dropWhile_cons_of_pos hc] at hne
      rw [List.all_cons, hc, Bool.true_and] at h
      exact ih h hne
    · rw [List.cons_append, List.dropWhile_cons_of_neg hc, List.dropWhile_cons_of_neg hc,
        List.cons_append]

end CString
