import Mathlib.Data.List.DropRight
import SklaffKom.ConfFile

/-!
# Text files

A text file holds a header line, the subject, `size` body lines and one line `num:author` for each
comment on the text.  `get_text_entry` decodes the `=XX` triplets of transferred mail in the
subject and the body.
-/

open CString

namespace SklaffKom

def typeText : Int := 0

def typeSurvey : Int := 1

structure SurveyHeader where
  nQuestions : Int
  time : Int
deriving DecidableEq, Repr

structure TextHeader where
  num : Int
  author : Int
  time : Int
  commentNum : Int
  commentConf : Int
  commentAuthor : Int
  size : Int
  subject : CString
  type : Int
  sh : SurveyHeader
deriving DecidableEq, Repr

/-- A node of `struct COMMENT_LIST`. -/
structure CommentLink where
  commentNum : Int
  commentAuthor : Int
deriving DecidableEq, Repr

structure TextEntry where
  th : TextHeader
  body : List CString
  cl : List CommentLink
deriving DecidableEq, Repr

/-! ## Writing -/

def unlines (ls : List CString) : CString := ls.flatMap (· ++ ['\n'])

/-- The metadata line `save_text` prints, without the line end. -/
def headerLine (num : Int) (th : TextHeader) : CString :=
  field num ++ field th.author ++ field th.time ++ field th.commentNum ++ field th.commentConf ++
    field th.commentAuthor ++ field th.size ++ decimal th.type ++
    if th.type = typeText then [] else ':' :: (field th.sh.nQuestions ++ decimal th.sh.time)

/-- The file `save_text` writes for the text `num`, with the contents `inbuf` of the editor's
file. -/
def textBytes (num : Int) (th : TextHeader) (inbuf : CString) : CString :=
  headerLine num th ++ ['\n'] ++ (th.subject ++ ['\n'] ++ inbuf)

/-- `"%ld:%d\n"`, the line `cmd_comment` appends to the commented text. -/
def linkLine (c : CommentLink) : CString := field c.commentNum ++ decimal c.commentAuthor ++ ['\n']

/-! ## Reading -/

/-- The character for the two digits of a triplet. -/
def tripletChar (fc : Char) (a b : Char) : Option Char :=
  match a, b with
  | 'C', '5' => some ']'
  | 'C', '4' => some '['
  | 'D', '6' => some '\\'
  | 'E', '5' => some '}'
  | 'E', '4' => some '{'
  | 'F', '6' => some '|'
  | '3', 'D' => some '='
  | '8', 'F' => some ']'
  | '8', 'E' => some '['
  | '9', '9' => some '\\'
  | '8', '6' => some '}'
  | '8', '5' => some '{'
  | '9', '4' => some '|'
  | 'F', 'C' => some fc
  | 'D', 'F' => some 's'
  | '9', '1' => some '`'
  | '9', '2' => some '\''
  | 'E', '9' => some 'e'
  | '2', '0' => some ' '
  | _, _ => none

/-- A triplet at the head of the buffer, and what follows it.  `fc` is the character for `=FC`. -/
def triplet (fc : Char) : CString → Option (Char × CString)
  | e :: a :: b :: s => if e = '=' then (tripletChar fc a b).map fun x => (x, s) else none
  | _ => none

/-- Copying a line: `c` counts the steps, which stop to be copied at `limit`; `none` is a read
past the end of the buffer. -/
def readLine (fc : Char) (limit : Nat) : Nat → Nat → CString → Option (CString × CString)
  | 0, _, _ => none
  | _ + 1, _, [] => none
  | fuel + 1, c, x :: buf =>
    if x = '\n' then some ([], buf)
    else if c < limit then
      match triplet fc (x :: buf) with
      | some (y, rest) => (readLine fc limit fuel (c + 1) rest).map fun r => (y :: r.1, r.2)
      | none => (readLine fc limit fuel (c + 1) buf).map fun r => (x :: r.1, r.2)
    else readLine fc limit fuel (c + 1) buf

/-- `rtrim`: a string of blanks keeps its first one. -/
def rtrim : CString → CString
  | [] => []
  | x :: s => x :: (s.reverse.dropWhile (· = ' ')).reverse

def ltrim (s : CString) : CString := s.dropWhile (· = ' ')

def downString (str : CString) : CString :=
  str.map fun c => if 0x40 < c.toNat ∧ c.toNat < 0x5e then Char.ofNat (c.toNat + 0x20) else c

def readBody : Nat → CString → Option (List CString × CString)
  | 0, buf => some ([], buf)
  | n + 1, buf => do
    let (l, buf) ← readLine '^' 79 (buf.length + 1) 1 buf
    let (ls, buf) ← readBody n buf
    pure (l :: ls, buf)

/-- The loop over the comment links.  The position afterwards is `NULL` after a last line without
a line end. -/
def readLinks : Nat → CString → Option (List CommentLink × Option CString)
  | 0, buf => some ([], some buf)
  | fuel + 1, buf =>
    let r := strtol buf
    if r.2 = buf then some ([], some buf)
    else do
      let ptr ← nextField buf
      let c : CommentLink := { commentNum := r.1, commentAuthor := atol ptr }
      match strchr buf '\n' with
      | none => pure ([c], none)
      | some nl => do
        let (cl, next) ← readLinks fuel (nl.dropWhile (· = '\n'))
        pure (c :: cl, next)

/-- The type of a text and the header of a survey, from the position of the size field on. -/
def readType (author : Int) (buf : CString) : Option (Int × SurveyHeader) :=
  match strchr buf ':', strchr buf '\n' with
  | some colon, some eol =>
    -- old texts have no type
    if eol.length < colon.length ∧ author ≠ 0 then
      let type := atol colon.tail
      if type = typeSurvey then do
        let p1 ← nextField colon.tail
        let p2 ← nextField p1
        pure (type, { nQuestions := atol p1, time := atol p2 })
      else some (type, ⟨0, 0⟩)
    else some (typeText, ⟨0, 0⟩)
  | _, _ => some (typeText, ⟨0, 0⟩)

/-- The metadata line, with an empty subject.  `sh` is zero where the code leaves it unset. -/
def readHeader (buf : CString) : Option TextHeader := do
  let p1 ← nextField buf
  let p2 ← nextField p1
  let p3 ← nextField p2
  let p4 ← nextField p3
  let p5 ← nextField p4
  let p6 ← nextField p5
  let (type, sh) ← readType (atol p1) p6
  pure { num := atol buf, author := atol p1, time := atol p2, commentNum := atol p3,
         commentConf := atol p4, commentAuthor := atol p5, size := atol p6, subject := [],
         type := type, sh := sh }

/-- What a call of `get_text_entry` does. -/
inductive TextScan where
  | crash
  | null
  | entry (te : TextEntry) (next : Option CString)
deriving DecidableEq

/-- The subject, body and links after the metadata line. -/
def readText (th : TextHeader) (buf : CString) : Option (TextEntry × Option CString) := do
  let (subject, buf) ← readLine 'u' 70 (buf.length + 1) 1 buf
  let (body, buf) ← readBody th.size.toNat buf
  let (cl, next) ← readLinks (buf.length + 1) buf
  pure ({ th := { th with subject := rtrim subject }, body := body, cl := cl }, next)

def getTextEntry (buf : CString) : TextScan :=
  match readHeader buf, strchr buf '\n' with
  | none, _ => .crash
  | some _, none => .null
  | some th, some nl =>
    match readText th nl.tail with
    | none => .crash
    | some (te, next) => .entry te next

/-- `te.th` after `get_text_entry`; a file without a line end has a header as well. -/
def textHeader (file : CString) : Option TextHeader :=
  match getTextEntry file with
  | .crash => none
  | .null => readHeader file
  | .entry te _ => some te.th

def headerAt (dir : Int → Option CString) (n : Int) : Option TextHeader := (dir n).bind textHeader

/-! ## Lines -/

theorem tripletChar_newline {fc a b : Char} (h : a = '\n' ∨ b = '\n') : tripletChar fc a b = none := by
  unfold tripletChar
  split <;> simp_all

theorem triplet_cons (fc e a b : Char) (s : CString) : triplet fc (e :: a :: b :: s) =
    if e = '=' then (tripletChar fc a b).map fun x => (x, s) else none := rfl

theorem triplet_eq_some {fc y : Char} {s rest : CString} (h : triplet fc s = some (y, rest)) :
    ∃ a b, s = '=' :: a :: b :: rest ∧ tripletChar fc a b = some y := by
  match s, h with
  | e :: a :: b :: s, h =>
    rw [triplet_cons] at h
    by_cases he : e = '='
    · rw [if_pos he] at h
      obtain ⟨x, hx, hxy⟩ := Option.map_eq_some_iff.mp h
      cases hxy
      exact ⟨a, b, by rw [he], hx⟩
    · rw [if_neg he] at h
      cases h

theorem triplet_length {fc y : Char} {s rest : CString} (h : triplet fc s = some (y, rest)) :
    rest.length + 3 = s.length := by
  obtain ⟨a, b, rfl, -⟩ := triplet_eq_some h
  simp

def decodeLine (fc : Char) : CString → CString
  | [] => []
  | x :: l =>
    match _h : triplet fc (x :: l) with
    | some (y, rest) => y :: decodeLine fc rest
    | none => x :: decodeLine fc l
termination_by l => l.length
decreasing_by
  · have := triplet_length _h
    simp at this ⊢
    omega
  · simp

theorem decodeLine_triplet {fc y : Char} {l rest : CString} (h : triplet fc l = some (y, rest)) :
    decodeLine fc l = y :: decodeLine fc rest := by
  obtain ⟨a, b, rfl, -⟩ := triplet_eq_some h
  rw [decodeLine]
  split
  · next y' rest' h' =>
    rw [h] at h'
    cases h'
    rfl
  · next h' =>
    rw [h] at h'
    cases h'

theorem decodeLine_char {fc x : Char} {l : CString} (h : triplet fc (x :: l) = none) :
    decodeLine fc (x :: l) = x :: decodeLine fc l := by
  rw [decodeLine]
  split
  · next y' rest' h' =>
    rw [h] at h'
    cases h'
  · rfl

/-- Whether a triplet begins in a text does not depend on what follows a character that is in none. -/
theorem triplet_append_sep {fc d : Char} (hd : ∀ a b, a = d ∨ b = d → tripletChar fc a b = none)
    {l : CString} (hne : l ≠ []) (rest : CString) :
    triplet fc (l ++ d :: rest) = (triplet fc l).map fun r => (r.1, r.2 ++ d :: rest) := by
  match l, hne with
  | [x], _ =>
    cases rest with
    | nil => rfl
    | cons y rest =>
      rw [List.singleton_append, triplet_cons, hd _ _ (Or.inl rfl)]
      split <;> rfl
  | [x, a], _ =>
    rw [List.cons_append, List.singleton_append, triplet_cons, hd _ _ (Or.inr rfl)]
    split <;> rfl
  | x :: a :: b :: l, _ =>
    rw [List.cons_append, List.cons_append, List.cons_append, triplet_cons, triplet_cons]
    by_cases hx : x = '='
    · rw [if_pos hx, if_pos hx, Option.map_map]
      rfl
    · rw [if_neg hx, if_neg hx]
      rfl

/-- Whether a triplet begins in a line does not depend on what follows the line. -/
theorem triplet_append (fc : Char) {l : CString} (hne : l ≠ []) (rest : CString) :
    triplet fc (l ++ '\n' :: rest) = (triplet fc l).map fun r => (r.1, r.2 ++ '\n' :: rest) :=
  triplet_append_sep (fun _ _ h => tripletChar_newline h) hne rest

theorem length_decodeLine_le (fc : Char) (l : CString) : (decodeLine fc l).length ≤ l.length := by
  induction hn : l.length using Nat.strong_induction_on generalizing l with
  | _ n ih =>
    cases l with
    | nil =>
      rw [decodeLine]
      exact Nat.zero_le _
    | cons x l =>
      rw [List.length_cons] at hn
      cases ht : triplet fc (x :: l) with
      | none =>
        have h := ih _ (by omega) l rfl
        rw [decodeLine_char ht, List.length_cons]
        omega
      | some r =>
        have hlen := triplet_length ht
        rw [List.length_cons] at hlen
        have h := ih _ (by omega) r.2 rfl
        rw [decodeLine_triplet ht, List.length_cons]
        omega

theorem decodeLine_append {a : CString} (fc : Char) (ha : '=' ∉ a) (s : CString) :
    decodeLine fc (a ++ s) = a ++ decodeLine fc s := by
  induction a with
  | nil => rfl
  | cons x a ih =>
    obtain ⟨hx, ha⟩ := not_or.mp (fun hm => ha (List.mem_cons.mpr hm))
    have hnone : triplet fc (x :: (a ++ s)) = none := by
      cases ht : triplet fc (x :: (a ++ s)) with
      | none => rfl
      | some r =>
        obtain ⟨p, q, he, _⟩ := triplet_eq_some (show triplet fc _ = some (r.1, r.2) from ht)
        exact absurd (List.cons.inj he).1.symm hx
    rw [List.cons_append, decodeLine_char hnone, ih ha, List.cons_append]

def tripletDigits : CString := "0123456789ABCDEF".toList

theorem tripletChar_sep {fc a b d : Char} (hd : d ∉ tripletDigits) (h : a = d ∨ b = d) :
    tripletChar fc a b = none := by
  unfold tripletChar
  split
  all_goals first
    | rfl
    | rcases h with rfl | rfl <;> exact absurd (by decide) hd

/-- Triplets do not reach over a character that is none of their digits. -/
theorem decodeLine_sep {fc d : Char} (hd : d ∉ tripletDigits) (heq : d ≠ '=') (a b : CString) :
    decodeLine fc (a ++ d :: b) = decodeLine fc a ++ d :: decodeLine fc b := by
  induction hn : a.length using Nat.strong_induction_on generalizing a with
  | _ n ih =>
    cases a with
    | nil =>
      have hnil : decodeLine fc [] = [] := by rw [decodeLine]
      have hsep := decodeLine_append fc (a := [d]) (by simpa using heq.symm) b
      rw [hnil]
      exact hsep
    | cons x a =>
      rw [List.length_cons] at hn
      have hnone : ∀ p q, p = d ∨ q = d → tripletChar fc p q = none := fun _ _ => tripletChar_sep hd
      have htl := triplet_append_sep hnone (List.cons_ne_nil x a) b
      cases ht : triplet fc (x :: a) with
      | none =>
        rw [ht] at htl
        rw [List.cons_append] at htl ⊢
        rw [decodeLine_char htl, decodeLine_char ht, ih a.length (by omega) a rfl, List.cons_append]
      | some r =>
        obtain ⟨y, r⟩ := r
        rw [ht] at htl
        have hlen := triplet_length ht
        rw [List.length_cons] at hlen
        rw [decodeLine_triplet htl, decodeLine_triplet ht, ih r.length (by omega) r rfl, List.cons_append]

/-- A line is copied with its triplets replaced, up to the limit. -/
theorem readLine_take {fc : Char} {limit : Nat} (fuel c : Nat) {l : CString} (hl : '\n' ∉ l)
    (hfuel : l.length < fuel) (rest : CString) :
    readLine fc limit fuel c (l ++ '\n' :: rest) =
      some ((decodeLine fc l).take (limit - c), rest) := by
  induction fuel generalizing c l with
  | zero => omega
  | succ fuel ih =>
    cases l with
    | nil => simp [readLine, decodeLine]
    | cons x l =>
      have hx : x ≠ '\n' := fun he => hl (he ▸ List.mem_cons_self)
      have hl' : '\n' ∉ l := fun h => hl (List.mem_cons_of_mem _ h)
      have htl := triplet_append fc (List.cons_ne_nil x l) rest
      simp only [List.length_cons] at hfuel
      rw [List.cons_append] at htl ⊢
      rw [readLine, if_neg hx, htl]
      by_cases hc : c < limit
      · have hlimit : limit - c = limit - (c + 1) + 1 := by omega
        rw [if_pos hc, hlimit]
        cases ht : triplet fc (x :: l) with
        | none =>
          rw [decodeLine_char ht, List.take_succ_cons]
          simp only [Option.map_none]
          rw [ih (c + 1) hl' (by omega)]
          rfl
        | some r =>
          obtain ⟨y, r⟩ := r
          have hlen := triplet_length ht
          obtain ⟨a, b, hs, -⟩ := triplet_eq_some ht
          have hr : '\n' ∉ r := by
            intro h
            rw [hs] at hl
            exact hl (by simp [h])
          simp only [List.length_cons] at hlen
          rw [decodeLine_triplet ht, List.take_succ_cons]
          simp only [Option.map_some]
          rw [ih (c + 1) hr (by omega)]
          rfl
      · -- the rest of the line is skipped
        have hlimit : limit - c = 0 := by omega
        have hlimit' : limit - (c + 1) = 0 := by omega
        rw [if_neg hc, ih (c + 1) hl' (by omega), hlimit, hlimit', List.take_zero, List.take_zero]

/-- A line that is not too long is copied with its triplets replaced. -/
theorem readLine_line {fc : Char} {limit : Nat} (fuel c : Nat) {l : CString} (hl : '\n' ∉ l)
    (hfuel : l.length < fuel) (hlimit : c + l.length ≤ limit) (rest : CString) :
    readLine fc limit fuel c (l ++ '\n' :: rest) = some (decodeLine fc l, rest) := by
  have hlen := length_decodeLine_le fc l
  rw [readLine_take fuel c hl hfuel, List.take_of_length_le (by omega)]

/-- No triplet of the table begins in the line. -/
def NoTriplet (l : CString) : Prop := ∀ s, s <:+ l → triplet '^' s = none

theorem tripletChar_none (fc : Char) {a b : Char} (h : tripletChar '^' a b = none) :
    tripletChar fc a b = none := by
  unfold tripletChar at h ⊢
  split at h <;> first | rfl | cases h

theorem triplet_none (fc : Char) {s : CString} (h : triplet '^' s = none) : triplet fc s = none := by
  cases ht : triplet fc s with
  | none => rfl
  | some r =>
    obtain ⟨a, b, rfl, hab⟩ := triplet_eq_some (show triplet fc s = some (r.1, r.2) from ht)
    rw [triplet_cons, if_pos rfl, Option.map_eq_none_iff] at h
    rw [tripletChar_none fc h] at hab
    cases hab

/-- A line without triplets is copied as it is. -/
theorem decodeLine_of_noTriplet (fc : Char) {l : CString} (h : NoTriplet l) :
    decodeLine fc l = l := by
  induction l with
  | nil => rw [decodeLine]
  | cons x l ih =>
    rw [decodeLine_char (triplet_none fc (h _ List.suffix_rfl)),
      ih fun s hs => h s (hs.trans (List.suffix_cons x l))]

/-- Each triplet makes a line shorter. -/
theorem noTriplet_of_length {l : CString} (h : l.length ≤ (decodeLine '^' l).length) : NoTriplet l := by
  induction l with
  | nil =>
    intro s hs
    rw [List.suffix_nil.mp hs]
    rfl
  | cons x l ih =>
    cases ht : triplet '^' (x :: l) with
    | none =>
      rw [decodeLine_char ht, List.length_cons, List.length_cons] at h
      intro s hs
      rcases List.suffix_cons_iff.mp hs with rfl | hs
      · exact ht
      · exact ih (by omega) s hs
    | some r =>
      have hlen := triplet_length ht
      have hle := length_decodeLine_le '^' r.2
      rw [decodeLine_triplet ht] at h
      simp only [List.length_cons] at h hlen
      omega

/-- Every triplet has a `=`. -/
theorem noTriplet_of_notMem {l : CString} (h : '=' ∉ l) : NoTriplet l := by
  intro s hs
  cases ht : triplet '^' s with
  | none => rfl
  | some r =>
    obtain ⟨a, b, rfl, -⟩ := triplet_eq_some ht
    exact absurd (hs.subset List.mem_cons_self) h

theorem mem_rtrim {c : Char} {s : CString} (h : c ∈ rtrim s) : c ∈ s := by
  cases s with
  | nil => exact h
  | cons x s =>
    rw [rtrim, List.mem_cons] at h
    rcases h with rfl | h
    · exact List.mem_cons_self
    · rw [List.mem_reverse] at h
      exact List.mem_cons_of_mem _ (List.mem_reverse.mp ((List.dropWhile_suffix _).subset h))

theorem rtrim_rtrim (s : CString) : rtrim (rtrim s) = rtrim s := by
  cases s with
  | nil => rfl
  | cons x s =>
    rw [rtrim, rtrim, List.reverse_reverse, List.dropWhile_idempotent]

theorem length_rtrim_le (s : CString) : (rtrim s).length ≤ s.length := by
  cases s with
  | nil => exact Nat.le_refl 0
  | cons x s =>
    have hdrop := (List.dropWhile_suffix (l := s.reverse) fun c => decide (c = ' ')).length_le
    rw [List.length_reverse] at hdrop
    rw [rtrim, List.length_cons, List.length_cons, List.length_reverse]
    omega

theorem rtrim_of_noBlank {s : CString} (h : s.getLast? ≠ some ' ') : rtrim s = s := by
  cases s with
  | nil => rfl
  | cons x s =>
    rw [rtrim]
    congr 1
    cases hs : s.reverse with
    | nil => simpa using hs.symm
    | cons y t =>
      have hlast : (x :: s).getLast? = some y := by
        rw [← List.head?_reverse, List.reverse_cons, hs]
        rfl
      have hy : y ≠ ' ' := by
        rw [hlast] at h
        simpa using h
      rw [List.dropWhile_cons_of_neg (by simpa using hy), ← hs, List.reverse_reverse]

/-! ## The metadata line -/

theorem notMem_headerLine (num : Int) (th : TextHeader) : '\n' ∉ headerLine num th := by
  have hd : ∀ n : Int, '\n' ∉ decimal n := fun n => notMem_decimal rfl (by decide)
  simp only [headerLine, List.mem_append, not_or, notMem_field, hd, not_false_eq_true, true_and]
  split
  · simp
  · simp [notMem_field, hd]

theorem readType_headerLine {author type : Int} (hauthor : author ≠ 0)
    (htype : type = typeText ∨ type = typeSurvey) (size : Int) (sh : SurveyHeader)
    (rest : CString) :
    readType author (field size ++ (decimal type ++
      ((if type = typeText then [] else ':' :: (field sh.nQuestions ++ decimal sh.time)) ++
        '\n' :: rest))) = some (type, if type = typeSurvey then sh else ⟨0, 0⟩) := by
  set tail := (if type = typeText then [] else ':' :: (field sh.nQuestions ++ decimal sh.time)) ++
    '\n' :: rest with htail
  have hd : ∀ n : Int, '\n' ∉ decimal n := fun n => notMem_decimal rfl (by decide)
  have hcolon : strchr (field size ++ (decimal type ++ tail)) ':' =
      some (':' :: (decimal type ++ tail)) := by
    rw [field, List.append_assoc, List.singleton_append]
    exact strchr_append (notMem_decimal rfl (by decide))
  have hnl : strchr (field size ++ (decimal type ++ tail)) '\n' = some ('\n' :: rest) := by
    rw [htail, ← List.append_assoc, ← List.append_assoc]
    apply strchr_append
    simp only [List.mem_append, not_or, notMem_field, hd, not_false_eq_true, true_and]
    split
    · simp
    · simp [notMem_field, hd]
  have hlen : ('\n' :: rest).length < (':' :: (decimal type ++ tail)).length := by
    have := List.length_pos_iff.mpr (decimal_ne_nil type)
    simp only [htail, List.length_cons, List.length_append]
    omega
  have hnd : NoDigit tail := by
    rw [htail]
    split <;> exact noDigit_cons.mpr rfl
  rw [readType, hcolon, hnl]
  simp only [if_pos (And.intro hlen hauthor), List.tail_cons, atol_decimal type hnd]
  rcases htype with rfl | rfl
  · rw [if_neg (by decide), if_neg (by decide)]
  · have h1 : nextField (decimal typeSurvey ++ tail) =
        some (field sh.nQuestions ++ (decimal sh.time ++ '\n' :: rest)) := by
      rw [htail, if_neg (by decide), nextField, List.cons_append,
        strchr_append (notMem_decimal rfl (by decide)), List.append_assoc]
      rfl
    have htime : atol (decimal sh.time ++ '\n' :: rest) = sh.time :=
      atol_decimal _ (noDigit_cons.mpr rfl)
    simp only [if_true, h1, nextField_field, atol_field, htime, Option.bind_eq_bind,
      Option.bind_some, Option.pure_def]

/-- `get_text_entry` reads the metadata line back. -/
theorem readHeader_headerLine (num : Int) {th : TextHeader} (hauthor : th.author ≠ 0)
    (htype : th.type = typeText ∨ th.type = typeSurvey) (rest : CString) :
    readHeader (headerLine num th ++ '\n' :: rest) =
      some { th with num := num, subject := [],
                     sh := if th.type = typeSurvey then th.sh else ⟨0, 0⟩ } := by
  have hread := readType_headerLine hauthor htype th.size th.sh rest
  simp only [headerLine, List.append_assoc, readHeader, nextField_field, atol_field,
    Option.bind_eq_bind, Option.bind_some, hread, Option.pure_def]

/-! ## Body and links -/

@[simp] theorem unlines_nil : unlines [] = [] := rfl

@[simp] theorem unlines_cons (l : CString) (ls : List CString) :
    unlines (l :: ls) = l ++ '\n' :: unlines ls := by
  simp [unlines]

theorem unlines_append (as bs : List CString) : unlines (as ++ bs) = unlines as ++ unlines bs := by
  simp [unlines]

theorem count_unlines {ls : List CString} (h : ∀ l ∈ ls, '\n' ∉ l) :
    (unlines ls).count '\n' = ls.length := by
  induction ls with
  | nil => rfl
  | cons l ls ih =>
    obtain ⟨hl, hls⟩ := List.forall_mem_cons.mp h
    rw [unlines_cons, List.count_append, List.count_cons_self, ih hls,
      List.count_eq_zero_of_not_mem hl, List.length_cons, Nat.zero_add]

theorem length_le_unlines (ls : List CString) : ls.length ≤ (unlines ls).length := by
  induction ls with
  | nil => simp
  | cons l ls ih =>
    simp only [unlines_cons, List.length_append, List.length_cons]
    omega

/-- Text that ends in whole lines is cut into lines in one way. -/
theorem unlines_inj {as bs : List CString} (ha : ∀ l ∈ as, '\n' ∉ l) (hb : ∀ l ∈ bs, '\n' ∉ l)
    (h : unlines as = unlines bs) : as = bs := by
  induction as generalizing bs with
  | nil =>
    cases bs with
    | nil => rfl
    | cons b bs =>
      rw [unlines_nil, unlines_cons] at h
      exact absurd h.symm (by simp)
  | cons a as ih =>
    cases bs with
    | nil =>
      rw [unlines_nil, unlines_cons] at h
      exact absurd h (by simp)
    | cons b bs =>
      obtain ⟨ha, has⟩ := List.forall_mem_cons.mp ha
      obtain ⟨hb, hbs⟩ := List.forall_mem_cons.mp hb
      rw [unlines_cons, unlines_cons] at h
      obtain ⟨hab, hrest⟩ := append_sep_inj ha hb h
      rw [hab, ih has hbs hrest]

/-- The body is read line by line, each line cut to what a line of a text holds. -/
theorem readBody_take {ls : List CString} (h : ∀ l ∈ ls, '\n' ∉ l) (rest : CString) :
    readBody ls.length (unlines ls ++ rest) =
      some (ls.map fun l => (decodeLine '^' l).take 78, rest) := by
  induction ls with
  | nil => rfl
  | cons l ls ih =>
    have hl := h l List.mem_cons_self
    rw [unlines_cons, List.append_assoc, List.cons_append, List.length_cons, readBody,
      readLine_take _ 1 hl (by rw [List.length_append]; omega)]
    simp only [Option.bind_eq_bind, Option.bind_some]
    rw [ih fun a ha => h a (List.mem_cons_of_mem _ ha)]
    rfl

theorem readBody_unlines {ls : List CString} (h : ∀ l ∈ ls, '\n' ∉ l ∧ l.length ≤ 78)
    (rest : CString) :
    readBody ls.length (unlines ls ++ rest) = some (ls.map (decodeLine '^'), rest) := by
  have hcut : (ls.map fun l => (decodeLine '^' l).take 78) = ls.map (decodeLine '^') := by
    apply List.map_congr_left
    intro l hl
    have hlen := length_decodeLine_le '^' l
    have h78 := (h l hl).2
    exact List.take_of_length_le (by omega)
  rw [readBody_take (fun l hl => (h l hl).1), hcut]

def linkLines (cl : List CommentLink) : CString := cl.flatMap linkLine

@[simp] theorem linkLines_nil : linkLines [] = [] := rfl

@[simp] theorem linkLines_cons (c : CommentLink) (cl : List CommentLink) :
    linkLines (c :: cl) = linkLine c ++ linkLines cl := by
  simp [linkLines]

theorem length_le_linkLines (cl : List CommentLink) : cl.length ≤ (linkLines cl).length := by
  induction cl with
  | nil => simp
  | cons c cl ih =>
    simp only [linkLines_cons, linkLine, List.length_append, List.length_cons, List.length_nil]
    omega

theorem linkLine_head (c : CommentLink) (s : CString) : (linkLine c ++ s).head? ≠ some '\n' := by
  obtain ⟨x, xs, hx⟩ := List.exists_cons_of_ne_nil (decimal_ne_nil c.commentNum)
  have hnot : '\n' ∉ decimal c.commentNum := notMem_decimal rfl (by decide)
  rw [hx] at hnot
  simp only [linkLine, field, hx, List.cons_append, List.head?_cons, ne_eq, Option.some.injEq]
  intro he
  exact hnot (by simp [he])

theorem linkLines_head {cl : List CommentLink} {rest : CString} (hr : rest.head? ≠ some '\n') :
    (linkLines cl ++ rest).head? ≠ some '\n' := by
  cases cl with
  | nil => exact hr
  | cons c cl =>
    rw [linkLines_cons, List.append_assoc]
    exact linkLine_head c _

/-- The links are read back, up to a line that begins with no number. -/
theorem readLinks_linkLines (cl : List CommentLink) {rest : CString}
    (hr : rest.head? ≠ some '\n') (hstop : (strtol rest).2 = rest) (fuel : Nat)
    (hfuel : cl.length ≤ fuel) :
    readLinks fuel (linkLines cl ++ rest) = some (cl, some rest) := by
  induction cl generalizing fuel with
  | nil =>
    cases fuel with
    | zero => rfl
    | succ fuel => simp only [linkLines_nil, List.nil_append, readLinks, hstop, if_true]
  | cons c cl ih =>
    obtain ⟨fuel, rfl⟩ : ∃ k, fuel = k + 1 := ⟨fuel - 1, by simp at hfuel; omega⟩
    set s := linkLines cl ++ rest with hs
    have hb : linkLines (c :: cl) ++ rest =
        field c.commentNum ++ (decimal c.commentAuthor ++ '\n' :: s) := by
      simp [linkLine, hs]
    have hnum : strtol (field c.commentNum ++ (decimal c.commentAuthor ++ '\n' :: s)) =
        (c.commentNum, ':' :: (decimal c.commentAuthor ++ '\n' :: s)) := by
      rw [field, List.append_assoc, List.singleton_append]
      exact strtol_decimal _ (noDigit_cons.mpr rfl)
    have hmoved : ¬ ':' :: (decimal c.commentAuthor ++ '\n' :: s) =
        field c.commentNum ++ (decimal c.commentAuthor ++ '\n' :: s) := by
      intro he
      have hlen := congrArg List.length he
      have hpos := List.length_pos_iff.mpr (decimal_ne_nil c.commentNum)
      simp only [field, List.length_cons, List.length_append, List.length_nil] at hlen
      omega
    have hauthor : atol (decimal c.commentAuthor ++ '\n' :: s) = c.commentAuthor :=
      atol_decimal _ (noDigit_cons.mpr rfl)
    have hnl : strchr (field c.commentNum ++ (decimal c.commentAuthor ++ '\n' :: s)) '\n' =
        some ('\n' :: s) := by
      rw [← List.append_assoc]
      apply strchr_append
      simp [notMem_field, notMem_decimal (n := c.commentAuthor) (c := '\n') rfl (by decide)]
    have hdrop : ('\n' :: s).dropWhile (· = '\n') = s := by
      have hh : s.head? ≠ some '\n' := linkLines_head hr
      rw [List.dropWhile_cons_of_pos (by simp)]
      generalize s = t at hh
      cases t with
      | nil => rfl
      | cons x t =>
        have hx : x ≠ '\n' := by simpa using hh
        simp [hx]
    rw [hb, readLinks, hnum]
    simp only [if_neg hmoved, nextField_field, hauthor, Option.bind_eq_bind, Option.bind_some, hnl,
      hdrop, ih fuel (by simp at hfuel; omega)]
    rfl

/-! ## Round trip -/

/-- The header as it is read back. -/
def storedHeader (num : Int) (th : TextHeader) : TextHeader :=
  { th with num := num, subject := rtrim (decodeLine 'u' th.subject),
            sh := if th.type = typeSurvey then th.sh else ⟨0, 0⟩ }

/-- A local text that the program can save, with the lines of its body. -/
structure LocalText (th : TextHeader) (body : List CString) : Prop where
  author : th.author ≠ 0
  type : th.type = typeText ∨ th.type = typeSurvey
  size : th.size = body.length
  subject : '\n' ∉ th.subject ∧ th.subject.length ≤ 69
  lines : ∀ l ∈ body, '\n' ∉ l ∧ l.length ≤ 78

/-- A saved text with comment links after it is read back, whatever follows the links. -/
theorem getTextEntry_textBytes (num : Int) {th : TextHeader} {body : List CString}
    (h : LocalText th body) (cl : List CommentLink) {rest : CString}
    (hr : rest.head? ≠ some '\n') (hstop : (strtol rest).2 = rest) :
    getTextEntry (textBytes num th (unlines body) ++ (linkLines cl ++ rest)) =
      .entry { th := storedHeader num th, body := body.map (decodeLine '^'), cl := cl }
        (some rest) := by
  set buf := unlines body ++ (linkLines cl ++ rest) with hbuf
  have hb : textBytes num th (unlines body) ++ (linkLines cl ++ rest) =
      headerLine num th ++ '\n' :: (th.subject ++ '\n' :: buf) := by
    simp [textBytes, hbuf]
  have hnl : strchr (headerLine num th ++ '\n' :: (th.subject ++ '\n' :: buf)) '\n' =
      some ('\n' :: (th.subject ++ '\n' :: buf)) := strchr_append (notMem_headerLine num th)
  have hsize : th.size.toNat = body.length := by
    rw [h.size]
    rfl
  have hsubject : readLine 'u' 70 ((th.subject ++ '\n' :: buf).length + 1) 1
      (th.subject ++ '\n' :: buf) = some (decodeLine 'u' th.subject, buf) := by
    have := h.subject.2
    exact readLine_line _ 1 h.subject.1 (by rw [List.length_append]; omega) (by omega) buf
  have hbody : readBody body.length buf = some (body.map (decodeLine '^'), linkLines cl ++ rest) :=
    readBody_unlines h.lines _
  have hlinks : readLinks ((linkLines cl ++ rest).length + 1) (linkLines cl ++ rest) =
      some (cl, some rest) := by
    apply readLinks_linkLines cl hr hstop
    have := length_le_linkLines cl
    rw [List.length_append]
    omega
  rw [hb, getTextEntry, readHeader_headerLine num h.author h.type, hnl]
  simp only [List.tail_cons, readText, hsubject, hsize, hbody, hlinks, Option.bind_eq_bind,
    Option.bind_some, Option.pure_def, storedHeader]

/-- Appending a comment link, as `cmd_comment` does. -/
def appendLink (file : CString) (c : CommentLink) : CString := file ++ linkLine c

theorem foldl_appendLink (file : CString) (cl : List CommentLink) :
    cl.foldl appendLink file = file ++ linkLines cl := by
  induction cl generalizing file with
  | nil => simp
  | cons c cl ih => rw [List.foldl_cons, ih, appendLink, linkLines_cons, List.append_assoc]

/-- A saved text with any comment links appended is read back with its triplets replaced: the same
header, the same lines where no triplet begins, and the same links in order. -/
theorem getTextEntry_saved (num : Int) {th : TextHeader} {body : List CString}
    (h : LocalText th body) (hblank : th.subject.getLast? ≠ some ' ') (cl : List CommentLink) :
    getTextEntry (cl.foldl appendLink (textBytes num th (unlines body))) =
        .entry { th := storedHeader num th, body := body.map (decodeLine '^'), cl := cl }
          (some []) ∧
      (NoTriplet th.subject → (storedHeader num th).subject = th.subject) ∧
      ∀ l ∈ body, NoTriplet l → decodeLine '^' l = l := by
  refine ⟨?_, ?_, ?_⟩
  · rw [foldl_appendLink, ← List.append_nil (linkLines cl)]
    exact getTextEntry_textBytes num h cl (by simp) rfl
  · intro hno
    show rtrim (decodeLine 'u' th.subject) = th.subject
    rw [decodeLine_of_noTriplet 'u' hno, rtrim_of_noBlank hblank]
  · intro l _ hno
    exact decodeLine_of_noTriplet '^' hno

def sampleHeader : TextHeader where
  num := 0
  author := 5
  time := 1000
  commentNum := 0
  commentConf := 0
  commentAuthor := 0
  size := 1
  subject := "Lunch=3F".toList
  type := typeSurvey
  sh := ⟨2, 2000⟩

theorem getTextEntry_saved_sample :
    getTextEntry ([⟨8, 3⟩, ⟨9, 5⟩].foldl appendLink
        (textBytes 7 sampleHeader (unlines ["a=20b".toList]))) =
        .entry { th := storedHeader 7 sampleHeader, body := ["a=20b".toList].map (decodeLine '^'),
                 cl := [⟨8, 3⟩, ⟨9, 5⟩] } (some []) ∧
      (NoTriplet sampleHeader.subject → (storedHeader 7 sampleHeader).subject = sampleHeader.subject) ∧
      ∀ l ∈ ["a=20b".toList], NoTriplet l → decodeLine '^' l = l :=
  getTextEntry_saved 7 ⟨by decide, Or.inr rfl, rfl, by decide, by decide⟩ (by decide) _

/-- The line `a=20b` comes back as `a b`. -/
theorem getTextEntry_decodes_triplet :
    getTextEntry (textBytes 7 sampleHeader (unlines ["a=20b".toList])) =
      .entry { th := { sampleHeader with num := 7 }, body := ["a b".toList], cl := [] }
        (some []) := by
  decide +kernel

end SklaffKom
