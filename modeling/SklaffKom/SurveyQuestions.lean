import SklaffKom.Stdio
import SklaffKom.TextFile
import Mathlib.Data.List.DropRight

/-!
# The questions of a survey

A line of a survey that begins with `"##"` may be a question.  `get_no_survey_questions` counts the
questions in the editor's file, before `get_text_entry` replaces the `=XX` triplets of the saved
text; `display_text` asks the questions of the saved text, and `show_survey_result` gives the answers
to them.
-/

open CString

namespace SklaffKom

/-- `SURVEY_SINGLECHOICE` to `SURVEY_FREENUMBER` -/
inductive QuestionType where
  | singleChoice
  | multipleChoice
  | freeText
  | interval
  | freeNumber
deriving DecidableEq, Repr

/-- `atol`, whose value is a long. -/
def longAt (s : CString) : Int := toLong (atol s)

/-- The tests of `parse_survey_line` on the letter, the first number and, after another colon, the
second one. -/
def numberedQuestion (letter : Option Char) (n : Int) (n2 : Option Int) : Option QuestionType :=
  -- an interval may have any bounds
  if letter = some 'i' ∧ (n2.elim false fun m => decide (n < m)) then some .interval
  else if n < 2 ∨ n > 26 then none
  else if letter = some 's' then some .singleChoice
  else if letter = some 'm' then some .multipleChoice
  else none

/-- `parse_survey_line`; `none` is -1. -/
def parseSurveyLine (lin : CString) : Option QuestionType :=
  if ['#', '#'].isPrefixOf lin then
    let s := (lin.drop 2).dropWhile (· = ' ')
    let letter := s.head?.map Char.toLower
    -- these two need no number
    if letter = some 't' then some .freeText
    else if letter = some 'n' then some .freeNumber
    else
      match strchr lin ':' with
      | none => none
      | some s2 =>
        numberedQuestion letter (longAt s2.tail) ((strchr s2.tail ':').map fun s3 => longAt s3.tail)
  else none

def IsQuestion (lin : CString) : Prop := (parseSurveyLine lin).isSome

instance (lin : CString) : Decidable (IsQuestion lin) := inferInstanceAs (Decidable (_ = true))

/-- `strtok` with one delimiter: the token and the place to go on from. -/
def strtok (s : CString) (d : Char) : Option (CString × CString) :=
  match s.dropWhile (· = d) with
  | [] => none
  | c :: t => some (c :: t.takeWhile (· ≠ d), (t.dropWhile (· ≠ d)).tail)

theorem strtok_length {s t rest : CString} {d : Char} (h : strtok s d = some (t, rest)) :
    rest.length < s.length := by
  have hs := (List.dropWhile_suffix (l := s) (· = d)).length_le
  unfold strtok at h
  split at h
  · cases h
  · rename_i c u hd
    cases h
    have hu := (List.dropWhile_suffix (l := u) (· ≠ d)).length_le
    rw [hd, List.length_cons] at hs
    rw [List.length_tail]
    omega

/-- `get_no_survey_questions` on the contents of the editor's file. -/
def getNoSurveyQuestions (buf : CString) : Nat :=
  match _h : strtok buf '\n' with
  | none => 0
  | some (sb, rest) => (if IsQuestion sb then 1 else 0) + getNoSurveyQuestions rest
termination_by buf.length
decreasing_by exact strtok_length _h

/-- A page break at the start of a line is taken for the end of the line. -/
def pageLine (line : CString) : CString := if line.head? = some '\x0c' then [] else line

/-- What `display_text` does with a survey: the index of the next question, the questions asked, with
the number of the line and the index for the answer, and whether the user has seen the end. -/
structure SurveyRun where
  quest : Nat
  asked : List (Nat × Nat)
  valid : Bool
deriving DecidableEq

/-- `make_survey` on line number `i`. -/
def makeSurvey (i : Nat) (r : SurveyRun) (ll : CString) : SurveyRun :=
  if IsQuestion ll then { r with quest := r.quest + 1, asked := r.asked ++ [(i, r.quest)] } else r

/-- The loop of `display_text` over the lines of a survey, `quit` telling where the user breaks it
off. -/
def displaySurvey (quit : Nat → Bool) : Nat → SurveyRun → List CString → SurveyRun
  | _, r, [] => r
  | i, r, tb :: rest =>
    if quit i then { makeSurvey i r (pageLine tb) with valid := false }
    else displaySurvey quit (i + 1) (makeSurvey i r (pageLine tb)) rest

/-- The loop of `show_survey_result`: the lines it takes for questions, with the index of the answers
it gives there. -/
def shownQuestions : Nat → Nat → List CString → List (Nat × Nat)
  | _, _, [] => []
  | i, quest, tb :: rest =>
    if IsQuestion (pageLine tb) then (i, quest) :: shownQuestions (i + 1) (quest + 1) rest
    else shownQuestions (i + 1) quest rest

/-! ## Counting -/

theorem strtok_newline (s : CString) (d : Char) : strtok (d :: s) d = strtok s d := by
  unfold strtok
  rw [List.dropWhile_cons_of_pos (by simp)]

theorem strtok_line {l : CString} {d : Char} (hl : d ∉ l) (hne : l ≠ []) (rest : CString) :
    strtok (l ++ d :: rest) d = some (l, rest) := by
  obtain ⟨c, l, rfl⟩ := List.exists_cons_of_ne_nil hne
  obtain ⟨hc, hl⟩ := not_or.mp (fun hm => hl (List.mem_cons.mpr hm))
  have hall : ∀ x ∈ l, decide (x ≠ d) = true := by
    intro x hx
    have : x ≠ d := fun he => hl (he ▸ hx)
    simpa using this
  unfold strtok
  rw [List.cons_append, List.dropWhile_cons_of_neg (by simpa using Ne.symm hc)]
  dsimp only
  rw [List.takeWhile_append_of_pos hall, List.dropWhile_append_of_pos hall]
  simp

theorem getNoSurveyQuestions_newline (s : CString) :
    getNoSurveyQuestions ('\n' :: s) = getNoSurveyQuestions s := by
  rw [getNoSurveyQuestions, getNoSurveyQuestions, strtok_newline]

/-- The lines are counted that are questions as they are typed. -/
theorem getNoSurveyQuestions_unlines {ls : List CString} (h : ∀ l ∈ ls, '\n' ∉ l) :
    getNoSurveyQuestions (unlines ls) = ls.countP (fun l => decide (IsQuestion l)) := by
  induction ls with
  | nil =>
    rw [getNoSurveyQuestions]
    rfl
  | cons l ls ih =>
    obtain ⟨hl, hls⟩ := List.forall_mem_cons.mp h
    rw [unlines_cons, List.countP_cons, ← ih hls]
    by_cases hne : l = []
    · subst hne
      rw [List.nil_append, getNoSurveyQuestions_newline, if_neg (by decide)]
      rfl
    · rw [getNoSurveyQuestions, strtok_line hl hne]
      simp only [decide_eq_true_eq]
      exact Nat.add_comm _ _

/-! ## Lines and their triplets -/

/-- No triplet makes a colon. -/
theorem colon_notMem_decodeLine {a : CString} (hmem : ':' ∉ a) : ':' ∉ decodeLine '^' a := by
  induction hn : a.length using Nat.strong_induction_on generalizing a with
  | _ n ih =>
    cases a with
    | nil =>
      rw [decodeLine]
      exact List.not_mem_nil
    | cons x a =>
      rw [List.length_cons] at hn
      intro hin
      cases ht : triplet '^' (x :: a) with
      | none =>
        rw [decodeLine_char ht] at hin
        rcases List.mem_cons.mp hin with hx | hin
        · exact hmem (hx ▸ List.mem_cons_self)
        · exact ih a.length (by omega) (fun h => hmem (List.mem_cons_of_mem x h)) rfl hin
      | some r =>
        obtain ⟨y, r⟩ := r
        have hlen := triplet_length ht
        rw [List.length_cons] at hlen
        obtain ⟨p, q, hpq, hy⟩ := triplet_eq_some ht
        rw [decodeLine_triplet ht] at hin
        rcases List.mem_cons.mp hin with hx | hin
        · -- the table has no colon
          subst hx
          unfold tripletChar at hy
          split at hy <;> cases hy
        · refine ih r.length (by omega) (fun h => hmem ?_) rfl hin
          rw [hpq]
          simp [h]

/-- A colon stays where it is, and no triplet makes one. -/
theorem decodeLine_colon (a b : CString) :
    decodeLine '^' (a ++ ':' :: b) = decodeLine '^' a ++ ':' :: decodeLine '^' b ∧
      (':' ∉ a → ':' ∉ decodeLine '^' a) :=
  ⟨decodeLine_sep (by decide) (by decide) a b, colon_notMem_decodeLine⟩

/-! What the characters are that triplets stand for. -/

theorem tripletChar_ne_hash {a b : Char} : tripletChar '^' a b ≠ some '#' := by
  unfold tripletChar
  split <;> decide

theorem tripletChar_noDigit {a b y : Char} (h : tripletChar '^' a b = some y) :
    y.isDigit = false := by
  unfold tripletChar at h
  split at h <;> cases h <;> decide

/-- Only a blank stands in front of a number. -/
theorem tripletChar_noNumber {a b y : Char} (h : tripletChar '^' a b = some y) (hy : y ≠ ' ') :
    isSpace y = false ∧ y ≠ '-' ∧ y ≠ '+' := by
  unfold tripletChar at h
  split at h <;> cases h <;> first | exact absurd rfl hy | decide

/-- Only `'s'` is the letter of a kind of question. -/
theorem tripletChar_noLetter {a b y : Char} (h : tripletChar '^' a b = some y) (hy : y ≠ 's') :
    Char.toLower y ∉ ['t', 'n', 'i', 's', 'm'] := by
  unfold tripletChar at h
  split at h <;> cases h <;> first | exact absurd rfl hy | decide

theorem tripletChar_blank {a b : Char} (h : tripletChar '^' a b = some ' ') : a = '2' ∧ b = '0' := by
  unfold tripletChar at h
  split at h <;> first | exact ⟨rfl, rfl⟩ | cases h

theorem tripletChar_s {a b : Char} (h : tripletChar '^' a b = some 's') : a = 'D' ∧ b = 'F' := by
  unfold tripletChar at h
  split at h <;> first | exact ⟨rfl, rfl⟩ | cases h

/-! ## Numbers -/

theorem scanDigits_congr {u v : CString} (h : u.takeWhile Char.isDigit = v.takeWhile Char.isDigit) :
    (scanDigits u).map Prod.fst = (scanDigits v).map Prod.fst := by
  unfold scanDigits
  rw [h]
  split <;> rfl

theorem elim_scanDigits {u v s t : CString} (f : Nat → Int)
    (h : u.takeWhile Char.isDigit = v.takeWhile Char.isDigit) :
    ((scanDigits u).elim (0, s) fun r => (f r.1, r.2)).1 =
      ((scanDigits v).elim (0, t) fun r => (f r.1, r.2)).1 := by
  have hc := scanDigits_congr h
  cases hu : scanDigits u with
  | none =>
    rw [hu, Option.map_none] at hc
    rw [Option.map_eq_none_iff.mp hc.symm]
    rfl
  | some r =>
    rw [hu, Option.map_some] at hc
    obtain ⟨q, hq, hqr⟩ := Option.map_eq_some_iff.mp hc.symm
    rw [hq]
    show f r.1 = f q.1
    rw [hqr]

/-- A number depends on the first character after the blanks and on the digits after it. -/
theorem atol_congr {s t u v : CString} {c : Char} (hs : s.dropWhile isSpace = c :: u)
    (ht : t.dropWhile isSpace = c :: v) (h : u.takeWhile Char.isDigit = v.takeWhile Char.isDigit) :
    atol s = atol t := by
  have hc : (c :: u).takeWhile Char.isDigit = (c :: v).takeWhile Char.isDigit := by
    rw [List.takeWhile_cons, List.takeWhile_cons, h]
  unfold atol strtol
  rw [hs, ht]
  by_cases hm : c = '-'
  · subst hm
    exact elim_scanDigits (fun n => -(n : Int)) h
  · by_cases hp : c = '+'
    · subst hp
      exact elim_scanDigits (fun n => (n : Int)) h
    · simp only [List.cons.injEq, hm, hp, false_and, imp_self, implies_true]
      exact elim_scanDigits (fun n => (n : Int)) hc

/-- A number without a sign or a digit in front is 0. -/
theorem atol_zero {s u : CString} {c : Char} (hs : s.dropWhile isSpace = c :: u)
    (hd : c.isDigit = false) (hm : c ≠ '-') (hp : c ≠ '+') : atol s = 0 := by
  unfold atol strtol
  rw [hs]
  simp [hm, hp, scanDigits, hd]

theorem takeWhile_digit_decodeLine (s : CString) :
    (decodeLine '^' s).takeWhile Char.isDigit = s.takeWhile Char.isDigit := by
  induction s with
  | nil => rw [decodeLine]
  | cons x s ih =>
    cases ht : triplet '^' (x :: s) with
    | none => rw [decodeLine_char ht, List.takeWhile_cons, List.takeWhile_cons, ih]
    | some r =>
      -- neither the triplet nor its character is a digit
      obtain ⟨y, r⟩ := r
      obtain ⟨p, q, hpq, hy⟩ := triplet_eq_some ht
      rw [decodeLine_triplet ht, hpq,
        List.takeWhile_cons_of_neg (by rw [tripletChar_noDigit hy]; decide),
        List.takeWhile_cons_of_neg (by decide)]

/-! ## Blanks that are written as triplets -/

/-- What follows the characters that satisfy `P` and the triplets of blanks. -/
def pastBlanks (P : Char → Bool) : CString → CString
  | [] => []
  | '=' :: '2' :: '0' :: s => pastBlanks P s
  | c :: s => if P c then pastBlanks P s else c :: s

theorem pastBlanks_char {P : Char → Bool} {c : Char} {s : CString}
    (h : ¬ ['=', '2', '0'] <+: c :: s) :
    pastBlanks P (c :: s) = if P c then pastBlanks P s else c :: s := by
  rw [pastBlanks]
  intro u hc hs
  subst hc hs
  exact h ⟨u, rfl⟩

/-- The triplets of blanks are the only ones that make one. -/
theorem triplet_blank {P : Char → Bool}
    (hP : ∀ a b y, tripletChar '^' a b = some y → y ≠ ' ' → P y = false) {s r : CString} {y : Char}
    (h : triplet '^' s = some (y, r)) (hs : ¬ ['=', '2', '0'] <+: s) : P y = false := by
  obtain ⟨a, b, rfl, hy⟩ := triplet_eq_some h
  apply hP a b y hy
  intro hyb
  subst hyb
  obtain ⟨rfl, rfl⟩ := tripletChar_blank hy
  exact hs ⟨r, rfl⟩

theorem not_blankTriplet {c : Char} {s : CString} (h : ∀ u, c = '=' → s = '2' :: '0' :: u → False) :
    ¬ ['=', '2', '0'] <+: c :: s := by
  intro ⟨u, hu⟩
  cases hu
  exact h u rfl rfl

/-- The blanks of a line after its triplets are replaced. -/
theorem dropWhile_decodeLine {P : Char → Bool} (hblank : P ' ' = true) (hequals : P '=' = false)
    (hP : ∀ a b y, tripletChar '^' a b = some y → y ≠ ' ' → P y = false) (s : CString) :
    (decodeLine '^' s).dropWhile P = decodeLine '^' (pastBlanks P s) := by
  induction s using pastBlanks.induct P with
  | case1 =>
    rw [decodeLine, pastBlanks, decodeLine]
    rfl
  | case2 s ih =>
    have ht : triplet '^' ('=' :: '2' :: '0' :: s) = some (' ', s) := rfl
    rw [decodeLine_triplet ht, List.dropWhile_cons_of_pos hblank, ih, pastBlanks]
  | case3 c s hne hc ih =>
    have ht : triplet '^' (c :: s) = none := by
      cases ht : triplet '^' (c :: s) with
      | none => rfl
      | some r =>
        obtain ⟨a, b, he, _⟩ := triplet_eq_some (show triplet '^' (c :: s) = some (r.1, r.2) from ht)
        rw [(List.cons.inj he).1, hequals] at hc
        cases hc
    rw [decodeLine_char ht, List.dropWhile_cons_of_pos hc, ih,
      pastBlanks_char (not_blankTriplet hne), if_pos hc]
  | case4 c s hne hc =>
    rw [pastBlanks_char (not_blankTriplet hne), if_neg hc]
    cases ht : triplet '^' (c :: s) with
    -- no blank is made here
    | none => rw [decodeLine_char ht, List.dropWhile_cons_of_neg hc]
    | some r =>
      have hy := triplet_blank hP (show triplet '^' (c :: s) = some (r.1, r.2) from ht)
        (not_blankTriplet hne)
      rw [decodeLine_triplet ht, List.dropWhile_cons_of_neg (by rw [hy]; decide)]

theorem pastBlanks_head (P : Char → Bool) (s : CString) :
    ∀ c ∈ (pastBlanks P s).head?, P c = false := by
  induction s using pastBlanks.induct P with
  | case1 =>
    intro c hc
    cases hc
  | case2 s ih =>
    rw [pastBlanks]
    exact ih
  | case3 c s hne hc ih =>
    rw [pastBlanks_char (not_blankTriplet hne), if_pos hc]
    exact ih
  | case4 c s hne hc =>
    rw [pastBlanks_char (not_blankTriplet hne), if_neg hc]
    intro d hd
    cases hd
    exact Bool.not_eq_true _ |>.mp hc

/-- Without a triplet of a blank only the characters are passed over. -/
theorem pastBlanks_plain {P : Char → Bool} {s : CString} (hequals : P '=' = false)
    (h : ¬ ['=', '2', '0'] <+: s.dropWhile P) : pastBlanks P s = s.dropWhile P := by
  induction s using pastBlanks.induct P with
  | case1 => rfl
  | case2 s ih =>
    rw [List.dropWhile_cons_of_neg (by rw [hequals]; decide)] at h
    exact absurd ⟨s, rfl⟩ h
  | case3 c s hne hc ih =>
    rw [List.dropWhile_cons_of_pos hc] at h ⊢
    rw [pastBlanks_char (not_blankTriplet hne), if_pos hc, ih h]
  | case4 c s hne hc =>
    rw [pastBlanks_char (not_blankTriplet hne), if_neg hc, List.dropWhile_cons_of_neg hc]

theorem atol_nil {s : CString} (h : s.dropWhile isSpace = []) : atol s = 0 := by
  unfold atol strtol
  rw [h]
  rfl

/-- The number that is read where the triplets are replaced. -/
theorem atol_decodeLine (s : CString) : atol (decodeLine '^' s) = atol (pastBlanks isSpace s) := by
  have hdrop := dropWhile_decodeLine (P := isSpace) rfl rfl
    (fun a b y hy hne => (tripletChar_noNumber hy hne).1) s
  have hhead := pastBlanks_head isSpace s
  cases hu : pastBlanks isSpace s with
  | nil =>
    rw [hu, decodeLine] at hdrop
    rw [atol_nil hdrop, atol_nil rfl]
  | cons c v =>
    rw [hu] at hdrop hhead
    -- behind the white space stands a character, or a triplet of another one
    have hc : isSpace c = false := hhead c rfl
    have hself : (c :: v).dropWhile isSpace = c :: v :=
      List.dropWhile_cons_of_neg (by rw [hc]; decide)
    cases ht : triplet '^' (c :: v) with
    | none =>
      rw [decodeLine_char ht] at hdrop
      exact atol_congr hdrop hself (takeWhile_digit_decodeLine v)
    | some r =>
      -- the triplet is no number, and neither is its character
      obtain ⟨y, r⟩ := r
      obtain ⟨a, b, hab, hy⟩ := triplet_eq_some ht
      rw [decodeLine_triplet ht] at hdrop
      have hys : isSpace y = false := dropWhile_head hdrop
      have hblank : y ≠ ' ' := by
        intro hyb
        rw [hyb] at hys
        cases hys
      obtain ⟨_, hym, hyp⟩ := tripletChar_noNumber hy hblank
      rw [atol_zero hdrop (tripletChar_noDigit hy) hym hyp]
      cases hab
      rw [atol_zero hself (by decide) (by decide) (by decide)]

theorem atol_dropWhile (s : CString) : atol (s.dropWhile isSpace) = atol s := by
  cases hd : s.dropWhile isSpace with
  | nil => rw [atol_nil hd, atol_nil rfl]
  | cons c u =>
    have hself : (c :: u).dropWhile isSpace = c :: u := by
      rw [← hd, List.dropWhile_idempotent]
    exact atol_congr hself hd rfl

/-- A number behind a triplet of a blank is 0 as it is typed. -/
theorem atol_covered {s : CString} (h : ['=', '2', '0'] <+: s.dropWhile isSpace) : atol s = 0 := by
  obtain ⟨r, hr⟩ := h
  exact atol_zero hr.symm (by decide) (by decide) (by decide)

theorem atol_plain {s : CString} (h : ¬ ['=', '2', '0'] <+: s.dropWhile isSpace) :
    atol (pastBlanks isSpace s) = atol s := by
  rw [pastBlanks_plain rfl h, atol_dropWhile]

theorem longAt_decodeLine (s : CString) : longAt (decodeLine '^' s) = longAt (pastBlanks isSpace s) :=
  congrArg toLong (atol_decodeLine s)

theorem longAt_covered {s : CString} (h : ['=', '2', '0'] <+: s.dropWhile isSpace) : longAt s = 0 := by
  unfold longAt
  rw [atol_covered h]
  rfl

/-! ## Lines before and after they are stored -/

/-- The letter of what stands after `"##"`. -/
def lineLetter (t : CString) : Option Char := (t.dropWhile (· = ' ')).head?.map Char.toLower

/-- The numbers after the first two colons, as `number` reads them. -/
def lineNumbers (number : CString → Int) (t : CString) : Option (Int × Option Int) :=
  (strchr t ':').map fun s2 => (number s2.tail, (strchr s2.tail ':').map fun s3 => number s3.tail)

/-- The tests of `parse_survey_line`: a text or a number is asked for, or the answer lies between the
two numbers, or it is one of so many choices. -/
def Asks (letter : Option Char) (numbers : Option (Int × Option Int)) : Prop :=
  letter = some 't' ∨ letter = some 'n' ∨
    ∃ n n2, numbers = some (n, n2) ∧
      ((letter = some 'i' ∧ ∃ m, n2 = some m ∧ n < m) ∨
        ((letter = some 's' ∨ letter = some 'm') ∧ 2 ≤ n ∧ n ≤ 26))

/-- The letter behind blanks that are written as `=20`, where `=DF` is an `'s'`. -/
def letterPast (t : CString) : Option Char :=
  let u := pastBlanks (· = ' ') t
  if ['=', 'D', 'F'].isPrefixOf u then some 's' else u.head?.map Char.toLower

/-- A number behind white space that is written as `=20`. -/
def numberPast (s : CString) : Int := longAt (pastBlanks isSpace s)

/-- The letter, or a blank in front of it, is written as a triplet. -/
def LetterCovered (t : CString) : Prop :=
  ['=', '2', '0'] <+: t.dropWhile (· = ' ') ∨ ['=', 'D', 'F'] <+: t.dropWhile (· = ' ')

/-- The lines whose triplets matter, `t` being what stands after `"##"`. -/
inductive TripletTrap (t : CString) : Prop
  /-- There is a question behind the triplets. -/
  | letter (hcovered : LetterCovered t) (hasks : Asks (letterPast t) (lineNumbers numberPast t))
  /-- The number of the choices stands behind `=20`. -/
  | choices {a b : CString} (hletter : lineLetter t = some 's' ∨ lineLetter t = some 'm')
      (hcolon : t = a ++ ':' :: b) (hfirst : ':' ∉ a)
      (hcovered : ['=', '2', '0'] <+: b.dropWhile isSpace)
      (hchoices : 2 ≤ numberPast b ∧ numberPast b ≤ 26)
  /-- The bounds of the interval are in order as they are typed, or behind `=20`, but not both. -/
  | interval {a b c : CString} (hletter : lineLetter t = some 'i') 
      (hcolons : t = a ++ ':' :: (b ++ ':' :: c)) (hfirst : ':' ∉ a) (hsecond : ':' ∉ b)
      (hbounds : ¬ (longAt (b ++ ':' :: c) < longAt c ↔ numberPast (b ++ ':' :: c) < numberPast c))

theorem decodeLine_hash {l r : CString} (h : decodeLine '^' l = '#' :: r) :
    ∃ t, l = '#' :: t ∧ decodeLine '^' t = r := by
  cases l with
  | nil =>
    rw [decodeLine] at h
    cases h
  | cons x l =>
    cases ht : triplet '^' (x :: l) with
    | none =>
      rw [decodeLine_char ht] at h
      cases h
      exact ⟨l, rfl, rfl⟩
    | some q =>
      -- no triplet stands for `'#'`
      obtain ⟨y, q⟩ := q
      rw [decodeLine_triplet ht] at h
      cases h
      obtain ⟨_, _, _, hy⟩ := triplet_eq_some ht
      exact absurd hy tripletChar_ne_hash

theorem decodeLine_hashes (l : CString) : ['#', '#'] <+: decodeLine '^' l ↔ ['#', '#'] <+: l := by
  constructor
  · intro ⟨r, hr⟩
    obtain ⟨t, rfl, ht⟩ := decodeLine_hash hr.symm
    obtain ⟨u, rfl, _⟩ := decodeLine_hash ht
    exact ⟨u, rfl⟩
  · intro ⟨t, ht⟩
    rw [← ht, decodeLine_append '^' (by decide)]
    exact ⟨_, rfl⟩

theorem parseSurveyLine_of_not_hashes {l : CString} (h : ¬ ['#', '#'] <+: l) :
    parseSurveyLine l = none := by
  unfold parseSurveyLine
  rw [if_neg]
  rw [List.isPrefixOf_iff_prefix]
  exact h

theorem numberedQuestion_isSome (letter : Option Char) (n : Int) (n2 : Option Int) :
    (numberedQuestion letter n n2).isSome ↔
      (letter = some 'i' ∧ ∃ m, n2 = some m ∧ n < m) ∨
        ((letter = some 's' ∨ letter = some 'm') ∧ 2 ≤ n ∧ n ≤ 26) := by
  have hn2 : (n2.elim false fun m => decide (n < m)) = true ↔ ∃ m, n2 = some m ∧ n < m := by
    cases n2 <;> simp
  unfold numberedQuestion
  rw [← hn2]
  split
  · rename_i h
    exact iff_of_true rfl (Or.inl h)
  · rename_i hi
    rw [or_iff_right hi]
    split
    · rename_i hn
      apply iff_of_false (by decide)
      rintro ⟨_, h1, h2⟩
      omega
    · rename_i hn
      have hbounds : 2 ≤ n ∧ n ≤ 26 := by omega
      split
      · rename_i hs
        exact iff_of_true rfl ⟨Or.inl hs, hbounds⟩
      · rename_i hs
        split
        · rename_i hm
          exact iff_of_true rfl ⟨Or.inr hm, hbounds⟩
        · rename_i hm
          apply iff_of_false (by decide)
          rintro ⟨h | h, _⟩
          · exact hs h
          · exact hm h

theorem isQuestion_iff (t : CString) :
    IsQuestion ('#' :: '#' :: t) ↔ Asks (lineLetter t) (lineNumbers longAt t) := by
  have hcolon : strchr ('#' :: '#' :: t) ':' = strchr t ':' :=
    strchr_append_of_notMem (a := ['#', '#']) (by decide)
  unfold IsQuestion parseSurveyLine Asks lineNumbers
  rw [if_pos (by rfl), hcolon]
  show Option.isSome
    (if lineLetter t = some 't' then _ else if lineLetter t = some 'n' then _ else _) ↔ _
  split
  · rename_i ht
    exact iff_of_true rfl (Or.inl ht)
  · rename_i ht
    split
    · rename_i hn
      exact iff_of_true rfl (Or.inr (Or.inl hn))
    · rename_i hn
      rw [or_iff_right ht, or_iff_right hn]
      cases hs : strchr t ':' with
      | none => simp
      | some s2 =>
        show Option.isSome (numberedQuestion (lineLetter t) _ _) ↔ _
        rw [numberedQuestion_isSome]
        constructor
        · intro h
          exact ⟨_, _, rfl, h⟩
        · intro ⟨n, n2, hp, h⟩
          cases hp
          exact h

theorem strchr_decodeLine (l : CString) :
    strchr (decodeLine '^' l) ':' = (strchr l ':').map fun p => ':' :: decodeLine '^' p.tail := by
  by_cases hmem : ':' ∈ l
  · obtain ⟨a, b, rfl, ha⟩ := List.eq_append_cons_of_mem hmem
    obtain ⟨h1, h2⟩ := decodeLine_colon a b
    rw [h1, strchr_append (h2 ha), strchr_append ha]
    rfl
  · have h2 := (decodeLine_colon l []).2 hmem
    rw [strchr_eq_none h2, strchr_eq_none hmem]
    rfl

theorem lineNumbers_decodeLine (t : CString) :
    lineNumbers longAt (decodeLine '^' t) = lineNumbers numberPast t := by
  unfold lineNumbers
  rw [strchr_decodeLine, Option.map_map]
  apply congrArg (fun f => Option.map f (strchr t ':'))
  funext s2
  show (longAt (decodeLine '^' s2.tail), _) = _
  rw [longAt_decodeLine]
  show (_, Option.map _ (strchr (decodeLine '^' s2.tail) ':')) = _
  rw [strchr_decodeLine, Option.map_map]
  apply congrArg (fun f => (_, Option.map f (strchr s2.tail ':')))
  funext s3
  exact longAt_decodeLine s3.tail

theorem not_asks {c : Char} (hl : c.toLower ∉ ['t', 'n', 'i', 's', 'm'])
    (numbers : Option (Int × Option Int)) : ¬ Asks (some c.toLower) numbers := by
  simp only [List.mem_cons, List.not_mem_nil, or_false, not_or] at hl
  obtain ⟨ht, hn, hi, hs, hm⟩ := hl
  unfold Asks
  simp [ht, hn, hi, hs, hm]

/-- The letter that is read where the triplets are replaced. -/
theorem asks_decodeLine (t : CString) (numbers : Option (Int × Option Int)) :
    Asks (lineLetter (decodeLine '^' t)) numbers ↔ Asks (letterPast t) numbers := by
  -- the letter is what stands behind the blanks, with its triplet replaced
  have hdrop := dropWhile_decodeLine (P := fun c => decide (c = ' ')) rfl rfl
    (fun _ _ _ _ hne => decide_eq_false hne) t
  unfold lineLetter letterPast
  rw [hdrop]
  dsimp only
  cases hu : pastBlanks (fun c => decide (c = ' ')) t with
  | nil =>
    rw [decodeLine]
    rfl
  | cons c v =>
    cases ht : triplet '^' (c :: v) with
    | none =>
      have hno : ¬ ['=', 'D', 'F'].isPrefixOf (c :: v) = true := by
        rw [List.isPrefixOf_iff_prefix]
        intro h
        obtain ⟨r, hr⟩ := h
        rw [← hr] at ht
        cases ht
      rw [decodeLine_char ht, if_neg hno]
      rfl
    | some r =>
      obtain ⟨y, r⟩ := r
      obtain ⟨a, b, hab, hy⟩ := triplet_eq_some ht
      rw [decodeLine_triplet ht]
      cases hab
      show Asks (some y.toLower) numbers ↔ _
      -- `=DF` makes a letter of a question, the other triplets make none
      by_cases hs : y = 's'
      · subst hs
        obtain ⟨rfl, rfl⟩ := tripletChar_s hy
        rfl
      · have hno : ¬ ['=', 'D', 'F'].isPrefixOf ('=' :: a :: b :: r) = true := by
          rw [List.isPrefixOf_iff_prefix]
          intro h
          obtain ⟨q, hq⟩ := h
          cases hq
          exact hs (Option.some.inj hy).symm
        rw [if_neg hno]
        exact iff_of_false (not_asks (tripletChar_noLetter hy hs) _) (not_asks (c := '=') (by decide) _)

theorem isQuestion_decodeLine (t : CString) :
    IsQuestion (decodeLine '^' ('#' :: '#' :: t)) ↔
      Asks (letterPast t) (lineNumbers numberPast t) := by
  have hdec : decodeLine '^' ('#' :: '#' :: t) = '#' :: '#' :: decodeLine '^' t :=
    decodeLine_append '^' (a := ['#', '#']) (by decide) t
  rw [hdec, isQuestion_iff, lineNumbers_decodeLine, asks_decodeLine]

theorem lineNumbers_none (number : CString → Int) {t : CString} (h : ':' ∉ t) :
    lineNumbers number t = none := by
  unfold lineNumbers
  rw [strchr_eq_none h]
  rfl

theorem lineNumbers_colon (number : CString → Int) {a : CString} (ha : ':' ∉ a) (b : CString) :
    lineNumbers number (a ++ ':' :: b) =
      some (number b, (strchr b ':').map fun s3 => number s3.tail) := by
  unfold lineNumbers
  rw [strchr_append ha]
  rfl

theorem lineNumbers_two (number : CString → Int) {a b : CString} (ha : ':' ∉ a) (hb : ':' ∉ b)
    (c : CString) : lineNumbers number (a ++ ':' :: (b ++ ':' :: c)) =
      some (number (b ++ ':' :: c), some (number c)) := by
  rw [lineNumbers_colon number ha, strchr_append hb]
  rfl

theorem asks_interval {letter : Option Char} (h : letter = some 'i') (n : Int) (n2 : Option Int) :
    Asks letter (some (n, n2)) ↔ ∃ m, n2 = some m ∧ n < m := by
  simp [Asks, h]

theorem asks_choice {letter : Option Char} (h : letter = some 's' ∨ letter = some 'm') (n : Int)
    (n2 : Option Int) : Asks letter (some (n, n2)) ↔ 2 ≤ n ∧ n ≤ 26 := by
  cases h with
  | inl h => simp [Asks, h]
  | inr h => simp [Asks, h]

theorem lineLetter_covered {t : CString} (h : LetterCovered t) : lineLetter t = some '=' := by
  unfold lineLetter
  cases h with
  | inl h =>
    obtain ⟨r, hr⟩ := h
    rw [← hr]
    rfl
  | inr h =>
    obtain ⟨r, hr⟩ := h
    rw [← hr]
    rfl

theorem letterPast_plain {t : CString} (h : ¬ LetterCovered t) : letterPast t = lineLetter t := by
  obtain ⟨h20, hdf⟩ := not_or.mp h
  unfold letterPast lineLetter
  rw [pastBlanks_plain rfl h20]
  dsimp only
  rw [if_neg (by rwa [List.isPrefixOf_iff_prefix])]

theorem not_letterCovered {t : CString} (h : lineLetter t ≠ some '=') : ¬ LetterCovered t :=
  fun hcovered => h (lineLetter_covered hcovered)

/-- A line whose triplets matter is read otherwise after they are replaced. -/
theorem TripletTrap.reads_otherwise {t : CString} (htrap : TripletTrap t) :
    ¬ (Asks (lineLetter t) (lineNumbers longAt t) ↔
      Asks (letterPast t) (lineNumbers numberPast t)) := by
  intro hiff
  cases htrap with
  | letter hcovered hasks =>
    have htyped := hiff.mpr hasks
    rw [lineLetter_covered hcovered] at htyped
    exact not_asks (c := '=') (by decide) _ htyped
  | choices hletter hcolon hfirst hcovered hchoices =>
    have hplain : ¬ LetterCovered t := by
      apply not_letterCovered
      cases hletter with
      | inl h => rw [h]; decide
      | inr h => rw [h]; decide
    rw [letterPast_plain hplain, hcolon, lineNumbers_colon _ hfirst, lineNumbers_colon _ hfirst,
      ← hcolon, asks_choice hletter, asks_choice hletter, longAt_covered hcovered] at hiff
    have htyped := (hiff.mpr hchoices).1
    omega
  | interval hletter hcolons hfirst hsecond hbounds =>
    have hplain : ¬ LetterCovered t := by
      apply not_letterCovered
      rw [hletter]
      decide
    apply hbounds
    rw [letterPast_plain hplain, hcolons, lineNumbers_two _ hfirst hsecond,
      lineNumbers_two _ hfirst hsecond, ← hcolons, asks_interval hletter,
      asks_interval hletter] at hiff
    simpa using hiff

/-- Two numbers make an interval in both readings or in none. -/
theorem asks_interval_same {t : CString} (hno : ¬ TripletTrap t) (hi : lineLetter t = some 'i') :
    Asks (lineLetter t) (lineNumbers longAt t) ↔ Asks (lineLetter t) (lineNumbers numberPast t) := by
  by_cases hcolon : ':' ∈ t
  · obtain ⟨a, b, rfl, ha⟩ := List.eq_append_cons_of_mem hcolon
    by_cases hsecond : ':' ∈ b
    · obtain ⟨b, c, rfl, hb⟩ := List.eq_append_cons_of_mem hsecond
      rw [lineNumbers_two _ ha hb, lineNumbers_two _ ha hb, asks_interval hi, asks_interval hi]
      have hbounds := not_not.mp fun hb' => hno (.interval hi rfl ha hb hb')
      simpa using hbounds
    · -- one number is no interval
      rw [lineNumbers_colon _ ha, lineNumbers_colon _ ha, strchr_eq_none hsecond,
        asks_interval hi, asks_interval hi]
      simp
  · rw [lineNumbers_none _ hcolon, lineNumbers_none _ hcolon]

/-- The number of choices is in bounds in both readings or in none. -/
theorem asks_choice_same {t : CString} (hno : ¬ TripletTrap t)
    (hsm : lineLetter t = some 's' ∨ lineLetter t = some 'm') :
    Asks (lineLetter t) (lineNumbers longAt t) ↔ Asks (lineLetter t) (lineNumbers numberPast t) := by
  by_cases hcolon : ':' ∈ t
  · obtain ⟨a, b, rfl, ha⟩ := List.eq_append_cons_of_mem hcolon
    rw [lineNumbers_colon _ ha, lineNumbers_colon _ ha, asks_choice hsm, asks_choice hsm]
    by_cases hb : ['=', '2', '0'] <+: b.dropWhile isSpace
    · rw [longAt_covered hb]
      apply iff_of_false
      · omega
      · exact fun hchoices => hno (.choices hsm rfl ha hb hchoices)
    · unfold numberPast longAt
      rw [atol_plain hb]
  · rw [lineNumbers_none _ hcolon, lineNumbers_none _ hcolon]

/-- The line is read in the same way after its triplets are replaced, unless they matter. -/
theorem reads_same_iff (t : CString) :
    (IsQuestion ('#' :: '#' :: t) ↔ IsQuestion (decodeLine '^' ('#' :: '#' :: t))) ↔
      ¬ TripletTrap t := by
  rw [isQuestion_iff, isQuestion_decodeLine]
  constructor
  · exact fun hiff htrap => htrap.reads_otherwise hiff
  · intro hno
    by_cases hcovered : LetterCovered t
    · rw [lineLetter_covered hcovered]
      apply iff_of_false
      · exact not_asks (c := '=') (by decide) _
      · exact fun hasks => hno (.letter hcovered hasks)
    · rw [letterPast_plain hcovered]
      by_cases hi : lineLetter t = some 'i'
      · exact asks_interval_same hno hi
      · by_cases hsm : lineLetter t = some 's' ∨ lineLetter t = some 'm'
        · exact asks_choice_same hno hsm
        · -- the numbers of other lines do not matter
          obtain ⟨hs, hm⟩ := not_or.mp hsm
          simp [Asks, hi, hs, hm]

/-! ## All parts of the program -/

theorem not_isQuestion_pageLine {line : CString} (h : line.head? = some '\x0c') :
    ¬ IsQuestion line := by
  unfold IsQuestion
  rw [parseSurveyLine_of_not_hashes]
  · simp
  · intro ⟨t, ht⟩
    rw [← ht] at h
    have hc : '#' = '\x0c' := Option.some.inj h
    exact absurd hc (by decide)

/-- A page break makes no difference to the questions. -/
theorem isQuestion_pageLine (line : CString) : IsQuestion (pageLine line) ↔ IsQuestion line := by
  unfold pageLine
  split
  · rename_i h
    exact iff_of_false (by decide) (not_isQuestion_pageLine h)
  · rfl

theorem shownQuestions_cons (i quest : Nat) (tb : CString) (body : List CString) :
    shownQuestions i quest (tb :: body) =
      if IsQuestion tb then (i, quest) :: shownQuestions (i + 1) (quest + 1) body
      else shownQuestions (i + 1) quest body := by
  rw [shownQuestions]
  simp only [isQuestion_pageLine]

theorem shownQuestions_length (i quest : Nat) (body : List CString) :
    (shownQuestions i quest body).length = body.countP (fun l => decide (IsQuestion l)) := by
  induction body generalizing i quest with
  | nil => rfl
  | cons tb body ih =>
    rw [shownQuestions_cons, List.countP_cons]
    by_cases hq : IsQuestion tb
    · rw [if_pos hq, List.length_cons, ih]
      simp [hq]
    · rw [if_neg hq, ih]
      simp [hq]

/-- The lines and indices that can come. -/
theorem shownQuestions_bounds (i quest : Nat) (body : List CString) :
    ∀ p ∈ shownQuestions i quest body,
      i ≤ p.1 ∧ p.2 < quest + body.countP (fun l => decide (IsQuestion l)) := by
  induction body generalizing i quest with
  | nil =>
    intro p hp
    cases hp
  | cons tb body ih =>
    intro p hp
    rw [shownQuestions_cons] at hp
    by_cases hq : IsQuestion tb
    · rw [if_pos hq] at hp
      rw [List.countP_cons_of_pos (by simpa using hq)]
      rcases List.mem_cons.mp hp with rfl | hp
      · exact ⟨Nat.le_refl _, by omega⟩
      · have := ih (i + 1) (quest + 1) p hp
        omega
    · rw [if_neg hq] at hp
      rw [List.countP_cons_of_neg (by simpa using hq)]
      have := ih (i + 1) quest p hp
      omega

/-- The lines that are taken for questions. -/
theorem mem_shownQuestions (i quest k : Nat) (body : List CString) :
    (∃ q, (i + k, q) ∈ shownQuestions i quest body) ↔ ∃ l, body[k]? = some l ∧ IsQuestion l := by
  induction body generalizing i quest k with
  | nil => simp [shownQuestions]
  | cons tb body ih =>
    rw [shownQuestions_cons]
    cases k with
    | zero =>
      have hno : ∀ q quest', (i + 0, q) ∉ shownQuestions (i + 1) quest' body := by
        intro q quest' hmem
        have := (shownQuestions_bounds (i + 1) quest' body _ hmem).1
        omega
      by_cases hq : IsQuestion tb
      · rw [if_pos hq]
        exact iff_of_true ⟨quest, List.mem_cons_self⟩ ⟨tb, rfl, hq⟩
      · rw [if_neg hq]
        apply iff_of_false
        · exact fun ⟨q, hmem⟩ => hno q quest hmem
        · intro ⟨l, hl, hlq⟩
          cases hl
          exact hq hlq
    | succ k =>
      have hk : i + (k + 1) = i + 1 + k := by omega
      rw [List.getElem?_cons_succ, hk]
      by_cases hq : IsQuestion tb
      · rw [if_pos hq, ← ih (i + 1) (quest + 1) k]
        apply exists_congr
        intro q
        rw [List.mem_cons, or_iff_right]
        intro he
        have := congrArg Prod.fst he
        simp only at this
        omega
      · rw [if_neg hq]
        exact ih (i + 1) quest k

/-- `display_text` asks what `show_survey_result` shows, as far as the user goes. -/
theorem displaySurvey_spec (quit : Nat → Bool) (i : Nat) (r : SurveyRun) (body : List CString) :
    ∃ asked, (displaySurvey quit i r body).asked = r.asked ++ asked ∧
      (displaySurvey quit i r body).quest = r.quest + asked.length ∧
      asked <+: shownQuestions i r.quest body ∧
      ((∀ j, quit j = false) → asked = shownQuestions i r.quest body) := by
  induction body generalizing i r with
  | nil => exact ⟨[], (List.append_nil _).symm, rfl, List.nil_prefix, fun _ => rfl⟩
  | cons tb body ih =>
    rw [displaySurvey, shownQuestions_cons]
    by_cases hq : IsQuestion tb
    · have hmake : makeSurvey i r (pageLine tb) =
          { r with quest := r.quest + 1, asked := r.asked ++ [(i, r.quest)] } :=
        if_pos ((isQuestion_pageLine tb).mpr hq)
      rw [hmake, if_pos hq]
      by_cases hquit : quit i = true
      · rw [if_pos hquit]
        refine ⟨[(i, r.quest)], rfl, rfl, ?_, ?_⟩
        · exact List.cons_prefix_cons.mpr ⟨rfl, List.nil_prefix⟩
        · intro h
          rw [h i] at hquit
          cases hquit
      · rw [if_neg hquit]
        obtain ⟨asked, h1, h2, h3, h4⟩ := ih (i + 1)
          { r with quest := r.quest + 1, asked := r.asked ++ [(i, r.quest)] }
      -- this question, and then those of the lines after it
        refine ⟨(i, r.quest) :: asked, ?_, ?_, ?_, ?_⟩
        · rw [h1, List.append_assoc, List.singleton_append]
        · rw [h2, List.length_cons]
          show r.quest + 1 + _ = _
          omega
        · exact List.cons_prefix_cons.mpr ⟨rfl, h3⟩
        · intro h
          rw [h4 h]
    · have hmake : makeSurvey i r (pageLine tb) = r :=
        if_neg (mt (isQuestion_pageLine tb).mp hq)
      rw [hmake, if_neg hq]
      by_cases hquit : quit i = true
      · rw [if_pos hquit]
        refine ⟨[], (List.append_nil _).symm, rfl, List.nil_prefix, ?_⟩
        intro h
        rw [h i] at hquit
        cases hquit
      · rw [if_neg hquit]
        exact ih (i + 1) r

def SurveyRun.start : SurveyRun := ⟨0, [], true⟩

/-- All parts of the program agree on the questions of a survey of the lines `ls`, stored with the
number `n` of questions and shown with the lines `body`. -/
structure SurveyAgrees (n : Int) (ls body : List CString) : Prop where
  asked : (displaySurvey (fun _ => false) 0 .start body).quest = n
  shown : (shownQuestions 0 0 body).length = n
  inside : ∀ quit, ∀ p ∈ (displaySurvey quit 0 .start body).asked, (p.2 : Int) < n
  attributed : (displaySurvey (fun _ => false) 0 .start body).asked = shownQuestions 0 0 body
  lines : ∀ k l, ls[k]? = some l → (IsQuestion l ↔ ∃ q, (k, q) ∈ shownQuestions 0 0 body)

theorem surveyAgrees_of_lines {ls body : List CString}
    (hlen : ∀ (k : Nat) (l : CString), ls[k]? = some l →
      ∃ m, body[k]? = some m ∧ (IsQuestion l ↔ IsQuestion m))
    (hcount : ls.countP (fun l => decide (IsQuestion l)) =
      body.countP (fun l => decide (IsQuestion l))) :
    SurveyAgrees (ls.countP (fun l => decide (IsQuestion l))) ls body := by
  obtain ⟨asked, h1, h2, _, h4⟩ := displaySurvey_spec (fun _ => false) 0 .start body
  have hasked := h4 (fun _ => rfl)
  have hlength : (shownQuestions 0 0 body).length = ls.countP (fun l => decide (IsQuestion l)) := by
    rw [shownQuestions_length, hcount]
  refine ⟨?_, ?_, ?_, ?_, ?_⟩
  · rw [h2, hasked]
    exact congrArg Nat.cast ((Nat.zero_add _).trans hlength)
  · rw [hlength]
  · intro quit p hp
    obtain ⟨asked', h1', _, h3', _⟩ := displaySurvey_spec quit 0 .start body
    rw [h1'] at hp
    have hb := (shownQuestions_bounds 0 0 body p (h3'.subset hp)).2
    rw [hcount]
    omega
  · rw [h1, hasked]
    rfl
  · intro k l hl
    obtain ⟨m, hm, hlm⟩ := hlen k l hl
    have hk := mem_shownQuestions 0 0 k body
    rw [Nat.zero_add] at hk
    rw [hk, hlm]
    constructor
    · exact fun hmq => ⟨m, hm, hmq⟩
    · intro ⟨m', hm', hmq⟩
      rw [hm] at hm'
      cases hm'
      exact hmq

/-- A survey that is saved and read back, with comments or without: all parts of the program agree on
its questions exactly when the triplets matter in none of its lines. -/
theorem survey_agrees_iff (num : Int) {th : TextHeader} {ls : List CString} (h : LocalText th ls)
    (htype : th.type = typeSurvey) (hn : th.sh.nQuestions = getNoSurveyQuestions (unlines ls))
    (cl : List CommentLink) :
    ∃ te next, getTextEntry (cl.foldl appendLink (textBytes num th (unlines ls))) = .entry te next ∧
      (SurveyAgrees te.th.sh.nQuestions ls te.body ↔
        ∀ t, '#' :: '#' :: t ∈ ls → ¬ TripletTrap t) := by
  refine ⟨{ th := storedHeader num th, body := ls.map (decodeLine '^'), cl := cl }, some [], ?_, ?_⟩
  · rw [foldl_appendLink, ← List.append_nil (linkLines cl)]
    exact getTextEntry_textBytes num h cl (by simp) rfl
  · have hsh : (storedHeader num th).sh.nQuestions = ls.countP (fun l => decide (IsQuestion l)) := by
      unfold storedHeader
      rw [if_pos htype, hn, getNoSurveyQuestions_unlines (fun l hl => (h.lines l hl).1)]
    show SurveyAgrees (storedHeader num th).sh.nQuestions ls (ls.map (decodeLine '^')) ↔ _
    rw [hsh]
    constructor
    · intro hagree t ht
      obtain ⟨k, hk⟩ := List.mem_iff_getElem?.mp ht
      have hshown := mem_shownQuestions 0 0 k (ls.map (decodeLine '^'))
      rw [Nat.zero_add, List.getElem?_map, hk] at hshown
      rw [← reads_same_iff, hagree.lines k _ hk, hshown]
      simp
    · intro hno
      have hall : ∀ l ∈ ls, (IsQuestion l ↔ IsQuestion (decodeLine '^' l)) := by
        intro l hl
        by_cases hp : ['#', '#'] <+: l
        · obtain ⟨t, rfl⟩ := hp
          exact (reads_same_iff t).mpr (hno t hl)
        · unfold IsQuestion
          rw [parseSurveyLine_of_not_hashes hp,
            parseSurveyLine_of_not_hashes (mt (decodeLine_hashes l).mp hp)]
      apply surveyAgrees_of_lines
      · intro k l hk
        refine ⟨decodeLine '^' l, ?_, hall l (List.mem_of_getElem? hk)⟩
        rw [List.getElem?_map, hk]
        rfl
      · rw [List.countP_map]
        apply List.countP_congr
        intro l hl
        simp only [Function.comp, decide_eq_true_eq]
        exact hall l hl

def lunchSurvey : List CString := ["Lunch".toList, "##t Var?".toList, "## S:3".toList]

theorem survey_agrees_iff_lunch :
    ∃ te next, getTextEntry ([⟨8, 3⟩].foldl appendLink
        (textBytes 7 { sampleHeader with size := 3, sh := ⟨2, 2000⟩ } (unlines lunchSurvey))) =
          .entry te next ∧ SurveyAgrees te.th.sh.nQuestions lunchSurvey te.body := by
  have hlocal : LocalText { sampleHeader with size := 3, sh := ⟨2, 2000⟩ } lunchSurvey :=
    ⟨by decide, Or.inr rfl, rfl, by decide, by decide⟩
  obtain ⟨te, next, hte, hiff⟩ := survey_agrees_iff 7 hlocal rfl
    (by rw [getNoSurveyQuestions_unlines (by decide)]; decide) [⟨8, 3⟩]
  refine ⟨te, next, hte, hiff.mpr ?_⟩
  intro t ht htrap
  have hlines : t = "t Var?".toList ∨ t = " S:3".toList := by
    simpa [lunchSurvey] using ht
  rcases hlines with rfl | rfl
  · cases htrap with
    | letter hcovered => exact absurd (lineLetter_covered hcovered) (by decide)
    | choices hletter => exact absurd hletter (by decide)
    | interval hletter => exact absurd hletter (by decide)
  · cases htrap with
    | letter hcovered => exact absurd (lineLetter_covered hcovered) (by decide)
    | choices hletter hcolon hfirst hcovered =>
      have hb := (List.dropWhile_suffix _).subset (hcovered.subset List.mem_cons_self)
      have ht : '=' ∈ " S:3".toList := hcolon ▸ List.mem_append_right _ (List.mem_cons_of_mem _ hb)
      exact absurd ht (by decide)
    | interval hletter => exact absurd hletter (by decide)

/-- In the second question the blank is written as a triplet. -/
def tripletSurvey : List CString := ["##t Var?".toList, "##=20t Vem?".toList]

/-- It is not counted, but it is asked, and its answer lies outside the buffer. -/
theorem triplet_hides_question :
    getNoSurveyQuestions (unlines tripletSurvey) = 1 ∧
      getTextEntry (textBytes 7 { sampleHeader with size := 2, sh := ⟨1, 2000⟩ }
          (unlines tripletSurvey)) =
        .entry { th := { sampleHeader with num := 7, size := 2, sh := ⟨1, 2000⟩ },
                 body := ["##t Var?".toList, "## t Vem?".toList], cl := [] } (some []) ∧
      (displaySurvey (fun _ => false) 0 .start ["##t Var?".toList, "## t Vem?".toList]).asked =
        [(0, 0), (1, 1)] ∧
      ¬ SurveyAgrees 1 tripletSurvey ["##t Var?".toList, "## t Vem?".toList] := by
  refine ⟨?_, by decide +kernel, by decide, ?_⟩
  · rw [getNoSurveyQuestions_unlines (by decide)]
    decide
  · intro h
    exact absurd h.asked (by decide)

end SklaffKom
