import SklaffKom.Lib.CString

/-!
# Swedish letters

Texts are stored in a seven bit character set that has the six Swedish letters in place of brackets
and braces.  `send_news` and `utf8_to_sf7_dup` convert the letters of what comes from outside.
-/

open CString

namespace SklaffKom

/-- The six letters after the byte `\xc3`. -/
def utf8Letter (c : Char) : Option Char :=
  if c = '\xa5' then some '}'
  else if c = '\xa4' then some '\x7b'
  else if c = '\xb6' then some '|'
  else if c = '\x85' then some ']'
  else if c = '\x84' then some '['
  else if c = '\x96' then some '\\'
  else none

/-- The conversion of UTF-8 letters; `single` is what becomes of every other byte. -/
def convertLetters (single : Char → Char) : CString → CString
  | [] => []
  | [c] => [single c]
  | c :: d :: s =>
    if c = '\xc3' then
      match utf8Letter d with
      | some x => x :: convertLetters single s
      | none => single c :: convertLetters single (d :: s)
    else single c :: convertLetters single (d :: s)

/-- `utf8_to_sf7_dup` -/
def utf8ToSf7 : CString → CString := convertLetters id

/-- The letters of the seven bit character set. -/
def sf7Letters : List Char := ['}', '\x7b', '|', ']', '[', '\\']

/-- The byte behind `\xc3` that a letter is shown with. -/
def sf7Second (c : Char) : Option Char :=
  if c = '}' then some '\xa5'
  else if c = '\x7b' then some '\xa4'
  else if c = '|' then some '\xb6'
  else if c = ']' then some '\x85'
  else if c = '[' then some '\x84'
  else if c = '\\' then some '\x96'
  else none

/-- `sf7_to_utf8_dup` -/
def sf7ToUtf8 (s : CString) : CString :=
  s.flatMap fun c =>
    match sf7Second c with
    | some d => ['\xc3', d]
    | none => [c]

variable {single : Char → Char}

theorem utf8Letter_some {d x : Char} (h : utf8Letter d = some x) :
    x ∈ sf7Letters ∧ ¬ d.toNat < 128 := by
  unfold utf8Letter at h
  split at h
  next hd => cases h; exact ⟨by decide, by rw [hd]; decide⟩
  split at h
  next hd => cases h; exact ⟨by decide, by rw [hd]; decide⟩
  split at h
  next hd => cases h; exact ⟨by decide, by rw [hd]; decide⟩
  split at h
  next hd => cases h; exact ⟨by decide, by rw [hd]; decide⟩
  split at h
  next hd => cases h; exact ⟨by decide, by rw [hd]; decide⟩
  split at h
  next hd => cases h; exact ⟨by decide, by rw [hd]; decide⟩
  next => cases h

/-- How the conversion goes on: one byte becomes one byte, or two become the code of a letter. -/
theorem convertLetters_cons (single : Char → Char) (c : Char) (s : CString) :
    convertLetters single (c :: s) = single c :: convertLetters single s ∨
      (c = '\xc3' ∧ ∃ d t x, s = d :: t ∧ utf8Letter d = some x ∧
        convertLetters single (c :: s) = x :: convertLetters single t) := by
  cases s with
  | nil => exact Or.inl rfl
  | cons d t =>
    rw [convertLetters]
    split
    next hc =>
      cases hx : utf8Letter d with
      | none => exact Or.inl rfl
      | some x => exact Or.inr ⟨hc, d, t, x, rfl, hx, rfl⟩
    next => exact Or.inl rfl

/-- An ASCII character that is not converted stays where it is, and the parts around it are converted
by themselves. -/
theorem convertLetters_append {d : Char} (hd : d.toNat < 128) (hsingle : single d = d)
    (s rest : CString) : convertLetters single (s ++ d :: rest) =
      convertLetters single s ++ d :: convertLetters single rest := by
  have hplain : ∀ t, convertLetters single (d :: t) = d :: convertLetters single t := by
    intro t
    rcases convertLetters_cons single d t with h | ⟨hc, -⟩
    · rw [h, hsingle]
    · rw [hc] at hd
      exact absurd hd (by decide)
  induction hn : s.length using Nat.strong_induction_on generalizing s with
  | _ n ih =>
    cases s with
    | nil => exact hplain rest
    | cons c s =>
      rw [List.length_cons] at hn
      cases s with
      | nil =>
        -- the separator is no second byte of a letter
        rcases convertLetters_cons single c (d :: rest) with h | ⟨-, d', t, x, hs, hx, -⟩
        · rw [List.cons_append, List.nil_append, h, hplain]
          rfl
        · rw [List.cons.injEq] at hs
          exact absurd hd (hs.1 ▸ (utf8Letter_some hx).2)
      | cons e s =>
        rw [List.length_cons] at hn
        have h1 := ih _ (by rw [List.length_cons]; omega) (e :: s) rfl
        have h2 := ih _ (by omega) s rfl
        rw [List.cons_append] at h1
        rw [List.cons_append, List.cons_append]
        simp only [convertLetters]
        split
        next =>
          cases utf8Letter e with
          | none => simp only [h1, List.cons_append]
          | some x => simp only [h2, List.cons_append]
        next => rw [h1, List.cons_append]

/-- What is neither the code of a letter nor made of another byte was there before. -/
theorem mem_convertLetters {d : Char} (hd : d ∉ sf7Letters) (hsingle : ∀ c, single c = d → c = d)
    {s : CString} (h : d ∈ convertLetters single s) : d ∈ s := by
  by_contra hmem
  induction hn : s.length using Nat.strong_induction_on generalizing s with
  | _ n ih =>
    cases s with
    | nil => exact absurd h List.not_mem_nil
    | cons c s =>
      rw [List.length_cons] at hn
      simp only [List.mem_cons, not_or] at hmem
      rcases convertLetters_cons single c s with hc | ⟨-, e, t, x, hs, hx, hc⟩
      · rw [hc, List.mem_cons] at h
        rcases h with h | h
        · exact hmem.1 (hsingle c h.symm).symm
        · exact ih _ (by omega) h hmem.2 rfl
      · rw [hc, List.mem_cons] at h
        rcases h with h | h
        · exact hd (h ▸ (utf8Letter_some hx).1)
        · rw [hs, List.length_cons] at hn
          rw [hs, List.mem_cons, not_or] at hmem
          exact ih _ (by omega) h hmem.2.2 rfl

theorem length_convertLetters_le (single : Char → Char) (s : CString) :
    (convertLetters single s).length ≤ s.length := by
  induction hn : s.length using Nat.strong_induction_on generalizing s with
  | _ n ih =>
    cases s with
    | nil => exact Nat.zero_le _
    | cons c s =>
      rw [List.length_cons] at hn
      rcases convertLetters_cons single c s with hc | ⟨-, e, t, x, hs, -, hc⟩
      · have h := ih _ (by omega) s rfl
        rw [hc, List.length_cons]
        omega
      · rw [hs, List.length_cons] at hn
        have h := ih _ (by omega) t rfl
        rw [hc, List.length_cons]
        omega

end SklaffKom
