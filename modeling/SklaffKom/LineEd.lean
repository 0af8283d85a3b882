import SklaffKom.Stdio
import SklaffKom.TextFile
import SklaffKom.Lib.Runs

/-!
# The line editor

`line_ed` keeps the text in a list of lines, the last of which is being typed.  `numlines` counts
them for the commands, and the global `Size` counts them for `abort_edit`, which saves the text when
the line is hung up.
-/

open CString Runs

namespace SklaffKom

/-- A command word, and the length that an abbreviation has to exceed. -/
abbrev EdWord := CString × Nat

/-- The words of the language the program is compiled for. -/
structure EdWords where
  edRead : EdWord
  edWhole : EdWord
  edIncl : EdWord
  edDel : EdWord
  edIns : EdWord
  edChange : EdWord
  edQuote : EdWord
  edReview : EdWord
  edMove : EdWord
  edRemove : EdWord
  edSave : EdWord
  edPost : EdWord
  edTell : EdWord
  edYell : EdWord
  edYell2 : EdWord
  edWho : EdWord
  edI : EdWord
  edMy : EdWord
  yesAnswer : Char

/-- What the editor is called with: a text with a header (`edit_text || mailrec`), one that can be
moved (`edit_text && nc`), and whether messages can be sent. -/
structure EdArgs where
  header : Bool
  movable : Bool
  allowSay : Bool

/-- What a command gets from elsewhere: the contents of files, the answer to `input` with its old
value, the text that is commented, and the characters typed at a quotation. -/
structure Outside where
  file : CString → Option CString
  input : CString → CString
  commented : Option TextEntry
  answer : Nat → Char

/-- The variables of `line_ed`: the lines before the one that is typed, that line up to `len`, the
two counters, what is left of a wrapped line, and the last character. -/
structure EdState where
  before : List CString
  line : CString
  numlines : Int
  size : Int
  waste : CString
  lastchar : Char
  ended : Bool
deriving DecidableEq

/-! ## Quoting -/

def quoteTextWidth : Nat := 71

def appendQuoteLine (text : CString) (s : EdState) : EdState :=
  { s with
    before := s.before ++ ['>' :: ' ' :: text.take quoteTextWidth]
    line := []
    numlines := s.numlines + 1
    size := s.size + 1 }

/-- The two parts of `previous` around its last blank, `none` without one. -/
def splitLast (s : CString) : Option (CString × CString) :=
  match s.reverse.dropWhile (· ≠ ' ') with
  | [] => none
  | _ :: r => some (r.reverse, (s.reverse.takeWhile (· ≠ ' ')).reverse)

/-- The last word of the line before, if it can be put in front of a single word. -/
def orphan (start : CString) (s : EdState) : Option (CString × CString) :=
  match s.before.getLast? with
  | none => none
  | some previous =>
    match splitLast (previous.drop 2) with
    | none => none
    | some (rest, word) =>
      -- the two characters in front of the line are `"> "`
      if word.length + 1 + start.length ≤ quoteTextWidth then
        some (previous.take 2 ++ trimEnd (· = ' ') rest, word ++ ' ' :: start)
      else none

/-- Where a long line is cut: at the last blank that is not its first character. -/
def quoteAdvance (start : CString) : Nat → Nat
  | 0 => 0
  | n + 1 => if (start[n + 1]?.map isBlank).getD false then n + 1 else quoteAdvance start n

/-- The number of characters that the next line of a paragraph takes. -/
def quoteStep (start : CString) : Nat :=
  if start.length > quoteTextWidth then
    if quoteAdvance start quoteTextWidth > 0 then quoteAdvance start quoteTextWidth
    else quoteTextWidth
  else start.length

theorem quoteStep_pos {start : CString} (h : start ≠ []) : 0 < quoteStep start := by
  have hlen := List.length_pos_iff.mpr h
  unfold quoteStep quoteTextWidth
  split
  · split <;> omega
  · exact hlen

/-- The loop of `append_wrapped_quote`, `wroteLine` telling whether it has written a line. -/
def wrapLoop (wroteLine : Bool) (start : CString) (s : EdState) : EdState :=
  if _h : start = [] then s
  else
    -- a last word of its own takes a word of the line before along
    let single := start.length ≤ quoteTextWidth ∧ wroteLine ∧ start.all (fun c => !isBlank c)
    match if single then orphan start s else none with
    | some (previous, tail) =>
      -- the line before is shortened, and the word comes first in the new one
      appendQuoteLine tail { s with before := s.before.dropLast ++ [previous] }
    | none =>
      let s := appendQuoteLine (trimEnd isBlank (start.take (quoteStep start))) s
      wrapLoop true ((start.drop (quoteStep start)).dropWhile isBlank) s
termination_by start.length
decreasing_by
  have h1 := quoteStep_pos _h
  have h2 := (List.dropWhile_suffix (l := start.drop (quoteStep start)) isBlank).length_le
  have h3 := List.length_pos_iff.mpr _h
  rw [List.length_drop] at h2
  omega

/-- `flush_quote_paragraph`, the paragraph being empty afterwards. -/
def flushQuoteParagraph (paragraph : CString) (s : EdState) : EdState :=
  if paragraph = [] then s else wrapLoop false paragraph s

def addQuoteSourceLine (paragraph line : CString) : CString :=
  if paragraph = [] then line else paragraph ++ ' ' :: line

/-- The loop over the lines of the commented text: `qt` is set when the user has asked for all of
them, and `i` counts the answers. -/
def quoteLoop (w : EdWords) (o : Outside) : Bool → Nat → CString → List CString → EdState → EdState
  | _, _, paragraph, [], s => flushQuoteParagraph paragraph s
  | qt, i, paragraph, qline :: tb, s =>
    let c2 := if qt then w.yesAnswer else ((downString [o.answer i]).headD 'q')
    let i := if qt then i else i + 1
    -- the answer is one key, in either case
    if c2 = 'q' then flushQuoteParagraph paragraph s
    else if c2 = 'a' ∨ c2 = w.yesAnswer then
      let qt := qt || c2 = 'a'
      -- an empty line ends a paragraph and is quoted itself
      if qline = [] then quoteLoop w o qt i [] tb (appendQuoteLine [] (flushQuoteParagraph paragraph s))
      else quoteLoop w o qt i (addQuoteSourceLine paragraph qline) tb s
    -- any other answer leaves the line out
    else quoteLoop w o qt i [] tb (flushQuoteParagraph paragraph s)

/-- The lines that can be quoted: without the header of an imported text. -/
def quoteLines (te : TextEntry) : List CString :=
  if te.th.author = 0 then
    match te.body.dropWhile (· ≠ []) with
    -- what follows the first empty line
    | _ :: l :: rest => l :: rest
    | _ => te.body
  else te.body

/-! ## Commands -/

inductive EdCommand where
  | read
  | incl
  | del
  | ins
  | change
  | quote
  | review
  | move
  | remove
  | save
  | say
  | help
deriving DecidableEq

/-- `strstr(MSG_ED..., cmd) && strlen(cmd) > ED...N` -/
def EdWord.abbreviated (w : EdWord) (cmd : CString) : Bool :=
  (strstr w.1 cmd).isSome && w.2 < cmd.length

/-- The tests on a command, in the order of the source. -/
def edCommand (w : EdWords) (a : EdArgs) (cmd : CString) : EdCommand :=
  if w.edRead.abbreviated cmd || w.edWhole.abbreviated cmd then .read
  else if w.edIncl.abbreviated cmd then .incl
  else if w.edDel.abbreviated cmd then .del
  else if w.edIns.abbreviated cmd then .ins
  else if w.edChange.abbreviated cmd then .change
  else if w.edQuote.abbreviated cmd && a.header then .quote
  else if w.edReview.abbreviated cmd && a.header then .review
  else if w.edMove.abbreviated cmd && a.movable then .move
  else if w.edRemove.abbreviated cmd then .remove
  else if w.edSave.abbreviated cmd || w.edPost.abbreviated cmd then .save
  else if (w.edTell.abbreviated cmd || w.edYell.abbreviated cmd || w.edYell2.abbreviated cmd) &&
    a.allowSay then .say
  else if w.edWho.abbreviated cmd || w.edI.abbreviated cmd || w.edMy.abbreviated cmd then .say
  else .help

/-- Copying a file to the buffer: a new line at each newline, `keep` telling which columns of a line
are kept. -/
def copyFile (keep : Nat → Bool) : Nat → CString → EdState → EdState
  | _, [], s => s
  | ll, c :: cs, s =>
    if c = '\n' then
      copyFile keep 0 cs
        { s with before := s.before ++ [s.line], line := [], numlines := s.numlines + 1,
                 size := s.size + 1 }
    else copyFile keep (ll + 1) cs (if keep ll then { s with line := s.line ++ [c] } else s)

/-- `!include`: columns from 74 on are overwritten. -/
def includeFile (o : Outside) (arg : CString) (s : EdState) : EdState :=
  let newname := if arg = [] then o.input [] else arg
  -- a name with `".."` is refused
  if newname = [] ∨ (strstr newname ['.', '.']).isSome then s
  else
    match o.file newname with
    | none => s
    | some cptr => copyFile (· < 74) 0 cptr s

/-- The line of a number, counted from 0, if it is one of those before the current line. -/
def lineIndex (s : EdState) (arg : CString) : Option Nat :=
  -- `edit_line` is an int
  if 0 < toInt (atol arg) ∧ toInt (atol arg) < s.numlines then some (toInt (atol arg) - 1).toNat else none

/-- `!delete` takes the line out of the list. -/
def deleteLine (arg : CString) (s : EdState) : EdState :=
  match lineIndex s arg with
  | some i => { s with before := s.before.eraseIdx i, numlines := s.numlines - 1 }
  | none => s

/-- `!insert` puts an empty line before the line. -/
def insertLine (arg : CString) (s : EdState) : EdState :=
  match lineIndex s arg with
  | some i => { s with before := s.before.insertIdx i [], numlines := s.numlines + 1 }
  | none => s

/-- `!change` edits the line, or the subject. -/
def changeLine (o : Outside) (arg : CString) (s : EdState) : EdState :=
  match lineIndex s arg with
  | some i => { s with before := s.before.modify i o.input }
  | none => s

/-- `!quote`; without a commented text there is a message only. -/
def quoteText (w : EdWords) (o : Outside) (s : EdState) : EdState :=
  match o.commented with
  | none => s
  | some te => if te.body = [] then s else quoteLoop w o false 0 [] (quoteLines te) s

/-- The question whether to throw the text away, which is not put when there is a single line. -/
def removeEditing (w : EdWords) (o : Outside) (s : EdState) : EdState :=
  if s.numlines > 1 ∧ (downString (o.input [])).head? ≠ some w.yesAnswer then { s with waste := [] }
  else { s with ended := true }

/-- The current line goes, and the editing ends. -/
def leave (s : EdState) : EdState :=
  { s with
    before := if s.numlines > 1 then s.before.dropLast else s.before
    line := if s.numlines > 1 then s.before.getLastD [] else s.line
    numlines := s.numlines - 1
    size := s.size - 1
    ended := true }

/-- The command word and the argument of a line. -/
def splitCommand (line : CString) : CString × CString :=
  (downString (line.takeWhile (· ≠ ' ')),
    downString ((line.dropWhile (· ≠ ' ')).dropWhile (· = ' ')))

/-- A command, the current line being empty again. -/
def runEdCommand (w : EdWords) (a : EdArgs) (o : Outside) (s : EdState) : EdState :=
  let (cmd, arg) := splitCommand s.line
  let s := { s with line := [] }
  if cmd.length > 1 then
    match edCommand w a cmd with
    | .incl => includeFile o arg s
    | .del => deleteLine arg s
    | .ins => insertLine arg s
    | .change => changeLine o arg s
    | .quote => quoteText w o s
    | .remove => removeEditing w o s
    | .save => leave s
    | .read | .review | .move | .say | .help => s
  else s

/-! ## Keys -/

/-- The line is too long with one more character: it is cut at its last blank, or at column 65. -/
def wrapLine (line : CString) : CString × CString :=
  match splitLast line with
  | some (front, rest) => (front, rest)
  | none => (line.take 65, line.drop 66)

/-- The keys that end the line: one that makes it too long, and return. -/
def endsLine (s : EdState) (c : Char) : Option EdState :=
  if ' ' ≤ c ∧ c ≤ '~' then
    -- a printable character ends the line only where it does not fit
    if s.line.length < 74 then none
    else some { s with line := (wrapLine (s.line ++ [c])).1, waste := (wrapLine (s.line ++ [c])).2 }
  -- the newline after a carriage return is passed over
  else if c = '\r' ∨ (c = '\n' ∧ s.lastchar ≠ '\r') then some s
  else none

/-- What is done with a line that has been ended. -/
def finishLine (w : EdWords) (a : EdArgs) (o : Outside) (s : EdState) : EdState :=
  if s.line.head? = some '!' then runEdCommand w a o s
  else
    -- the rest of a wrapped line begins the next one
    { s with before := s.before ++ [s.line], line := s.waste, waste := [],
             numlines := s.numlines + 1, size := s.size + 1 }

/-- The keys that do not end the line. -/
def editKey (w : EdWords) (o : Outside) (s : EdState) (c : Char) : EdState :=
  if ' ' ≤ c ∧ c ≤ '~' then { s with line := s.line ++ [c] }
  else if c = '\t' then
    if s.line.length < 72 then
      -- up to the next column that is a multiple of 8
      { s with line := s.line ++ List.replicate (8 - s.line.length % 8) ' ' }
    else s
  else if c = '\x08' ∨ c = '\x7f' then
    if s.line ≠ [] then { s with line := s.line.dropLast }
    else if s.numlines > 1 then
      -- back to the end of the line before
      { s with before := s.before.dropLast, line := s.before.getLastD [],
               numlines := s.numlines - 1, size := s.size - 1 }
    else s
  -- the last word
  else if c = '\x17' then { s with line := trimEnd (· ≠ ' ') (trimEnd (· = ' ') s.line) }
  -- the whole line
  else if c = '\x18' ∨ c = '\x15' then { s with line := [] }
  else if c = '\x03' then removeEditing w o s
  else if c = '\x1a' ∨ c = '\x04' then
    -- the end of the text: an empty current line is no part of it
    if s.line = [] then leave s else { s with ended := true }
  else s

def edStep (w : EdWords) (a : EdArgs) (s : EdState) (k : Char × Outside) : Option EdState :=
  if s.ended then some s
  else
    match endsLine s k.1 with
    | some s' => some { finishLine w a k.2 s' with lastchar := k.1 }
    | none => some { editKey w k.2 s k.1 with lastchar := k.1 }

/-- The state at the first key: what is in the file is loaded. -/
def edStart (file : CString) : EdState :=
  copyFile (fun _ => true) 0 file ⟨[], [], 1, 1, [], '\x00', false⟩

/-! ## Recovery -/

/-- The loop of `abort_edit` over the lines. -/
def abortLoop : List CString → Int → CString
  | [], _ => []
  | l :: rest, size =>
    -- the current line is the one at which the counter is 1
    if size ≤ 1 then []
    else l ++ '\n' :: abortLoop rest (size - 1)

/-- What `abort_edit` writes to the editor's file.  The current line is not terminated while it is
typed: `junk` is what stands behind it in memory. -/
def abortEdit (junk : CString) (s : EdState) : CString :=
  abortLoop (s.before ++ [s.line ++ junk]) s.size

/-! ## What quoting and copying keep -/

/-- `splitLast` finds the last blank. -/
theorem splitLast_some {body rest word : CString} (h : splitLast body = some (rest, word)) :
    body = rest ++ ' ' :: word := by
  rw [splitLast] at h
  have hall := List.takeWhile_append_dropWhile (p := fun c => decide (c ≠ ' ')) (l := body.reverse)
  cases hd : body.reverse.dropWhile fun c => decide (c ≠ ' ') with
  | nil =>
    rw [hd] at h
    cases h
  | cons c r =>
    have hc : c = ' ' := by
      have hhead := List.head?_dropWhile_not (fun c => decide (c ≠ ' ')) body.reverse
      rw [hd, List.head?_cons] at hhead
      simpa using hhead
    rw [hd] at h hall
    rw [Option.some.injEq, Prod.mk.injEq] at h
    have hrev := congrArg List.reverse hall
    rw [List.reverse_append, List.reverse_cons, List.reverse_reverse] at hrev
    rw [← hrev, ← h.1, ← h.2, hc, List.append_assoc]
    rfl

/-- An orphan takes its word from a line. -/
theorem orphan_before {s : EdState} {start : CString} {r : CString × CString}
    (h : orphan start s = some r) : s.before ≠ [] := by
  intro hb
  unfold orphan at h
  rw [hb] at h
  cases h

/-- A property `P` of the state that the lines of a quotation keep, where their text has `Q`. -/
structure QuoteInvariant (P : EdState → Prop) (Q : CString → Prop) : Prop where
  line : ∀ {s text}, P s → Q text → P (appendQuoteLine text s)
  orphan : ∀ {s start previous tail}, P s → Q start → orphan start s = some (previous, tail) →
    P { s with before := s.before.dropLast ++ [previous] } ∧ Q tail
  cut : ∀ {start}, Q start → ∀ n,
    Q (trimEnd isBlank (start.take n)) ∧ Q ((start.drop n).dropWhile isBlank)
  nil : Q []
  join : ∀ {paragraph line}, Q paragraph → Q line → Q (addQuoteSourceLine paragraph line)

section Quote

variable {P : EdState → Prop} {Q : CString → Prop} {s : EdState}

theorem wrapLoop_keeps (h : QuoteInvariant P Q) (wroteLine : Bool) {start : CString} (hs : P s)
    (hstart : Q start) : P (wrapLoop wroteLine start s) := by
  -- each line takes at least one character
  induction hn : start.length using Nat.strong_induction_on generalizing wroteLine start s with
  | _ n ih =>
    rw [wrapLoop]
    split
    · exact hs
    · rename_i hne
      dsimp only
      split
      · rename_i previous tail ho
        have horphan : orphan start s = some (previous, tail) := by
          split at ho
          · exact ho
          · cases ho
        obtain ⟨hbefore, htail⟩ := h.orphan hs hstart horphan
        exact h.line hbefore htail
      -- the rest is shorter
      · have h1 := quoteStep_pos hne
        have h2 := (List.dropWhile_suffix (l := start.drop (quoteStep start)) isBlank).length_le
        have h3 := List.length_pos_iff.mpr hne
        rw [List.length_drop] at h2
        obtain ⟨hline, hrest⟩ := h.cut hstart (quoteStep start)
        exact ih _ (by omega) true (h.line hs hline) hrest rfl

theorem flush_keeps (h : QuoteInvariant P Q) {paragraph : CString} (hs : P s) (hp : Q paragraph) :
    P (flushQuoteParagraph paragraph s) := by
  unfold flushQuoteParagraph
  split
  · exact hs
  · exact wrapLoop_keeps h false hs hp

/-- What the lines of a quotation keep is kept by the quotation of a text. -/
theorem quoteLoop_keeps (h : QuoteInvariant P Q) (w : EdWords) (o : Outside) (qt : Bool) (i : Nat)
    {paragraph : CString} {tb : List CString} (hs : P s) (hp : Q paragraph) (htb : ∀ l ∈ tb, Q l) :
    P (quoteLoop w o qt i paragraph tb s) := by
  induction tb generalizing qt i paragraph s with
  | nil => exact flush_keeps h hs hp
  | cons qline tb ih =>
    rw [List.forall_mem_cons] at htb
    rw [quoteLoop]
    dsimp only
    -- whatever the answer is
    generalize (if qt = true then w.yesAnswer else (downString [o.answer i]).headD 'q') = c2
    split
    · exact flush_keeps h hs hp
    · split
      · split
        · exact ih _ _ (h.line (flush_keeps h hs hp) h.nil) h.nil htb.2
        · exact ih _ _ hs (h.join hp htb.1) htb.2
      · exact ih _ _ (flush_keeps h hs hp) h.nil htb.2

/-- What new lines and new characters keep is kept when a file is copied. -/
theorem copyFile_keeps
    (hline : ∀ s : EdState, P s → P
      { s with before := s.before ++ [s.line], line := [], numlines := s.numlines + 1,
               size := s.size + 1 })
    (hchar : ∀ (s : EdState) c, P s → P { s with line := s.line ++ [c] }) (keep : Nat → Bool)
    (ll : Nat) (cs : CString) (hs : P s) : P (copyFile keep ll cs s) := by
  induction cs generalizing ll s with
  | nil => exact hs
  | cons c cs ih =>
    rw [copyFile]
    split
    · exact ih 0 (hline s hs)
    · apply ih
      split
      · exact hchar s c hs
      · exact hs

end Quote

/-! ## Counting the lines -/

/-- Both counters count the lines. -/
structure LinesCounted (s : EdState) : Prop where
  size : s.size = s.before.length + 1
  numlines : s.numlines = s.before.length + 1

theorem LinesCounted.append {s : EdState} (h : LinesCounted s) (l line waste : CString) :
    LinesCounted { s with before := s.before ++ [l], line := line, waste := waste,
                          numlines := s.numlines + 1, size := s.size + 1 } := by
  have h1 := h.size
  have h2 := h.numlines
  constructor
  · show s.size + 1 = ((s.before ++ [l]).length : Int) + 1
    rw [List.length_append, List.length_singleton]
    omega
  · show s.numlines + 1 = ((s.before ++ [l]).length : Int) + 1
    rw [List.length_append, List.length_singleton]
    omega

theorem LinesCounted.before {s : EdState} (h : LinesCounted s) {before : List CString}
    (line waste : CString) (hlen : before.length = s.before.length) :
    LinesCounted { s with before := before, line := line, waste := waste } := by
  constructor
  · show s.size = (before.length : Int) + 1
    rw [hlen]
    exact h.size
  · show s.numlines = (before.length : Int) + 1
    rw [hlen]
    exact h.numlines

theorem counted_appendQuoteLine {s : EdState} (h : LinesCounted s) (text : CString) :
    LinesCounted (appendQuoteLine text s) := h.append _ [] s.waste

/-- The number of lines stays right where the last one is put in two parts. -/
theorem quoteInvariant_counted : QuoteInvariant LinesCounted fun _ => True where
  line h _ := counted_appendQuoteLine h _
  orphan := by
    intro s start previous tail h _ ho
    refine ⟨h.before s.line s.waste ?_, trivial⟩
    have := List.length_pos_iff.mpr (orphan_before ho)
    rw [List.length_append, List.length_dropLast, List.length_singleton]
    omega
  cut _ _ := ⟨trivial, trivial⟩
  nil := trivial
  join _ _ := trivial

theorem counted_copyFile (keep : Nat → Bool) (ll : Nat) (cs : CString) {s : EdState}
    (h : LinesCounted s) : LinesCounted (copyFile keep ll cs s) :=
  copyFile_keeps (fun _ h => h.append _ [] _) (fun _ _ h => h.before _ _ rfl) keep ll cs h

theorem counted_edStart (file : CString) : LinesCounted (edStart file) :=
  counted_copyFile _ 0 file ⟨rfl, rfl⟩

/-! ## What is recovered -/

theorem abortLoop_eq (ls : List CString) {size : Int} (h : 1 ≤ size) :
    abortLoop ls size = unlines (ls.take (size - 1).toNat) := by
  induction ls generalizing size with
  | nil => simp [abortLoop]
  | cons l ls ih =>
    rw [abortLoop]
    by_cases h1 : size ≤ 1
    · rw [if_pos h1, show (size - 1).toNat = 0 by omega]
      rfl
    · rw [if_neg h1, ih (by omega), show (size - 1).toNat = (size - 1 - 1).toNat + 1 by omega,
        List.take_succ_cons, unlines_cons]

/-- All lines but the current one are recovered while the counter is right. -/
theorem LinesCounted.recovers {s : EdState} (h : LinesCounted s) (junk : CString) :
    abortEdit junk s = unlines s.before := by
  have hs := h.size
  unfold abortEdit
  rw [abortLoop_eq _ (by omega), show (s.size - 1).toNat = s.before.length by omega, List.take_left]

theorem unlines_ne_nil {ls : List CString} (h : ls ≠ []) : unlines ls ≠ [] := by
  obtain ⟨l, ls, rfl⟩ := List.exists_cons_of_ne_nil h
  rw [unlines_cons]
  simp

/-- The counter is one too high: the current line is written as well. -/
theorem not_recovers_of_high {s : EdState} (h : s.size = s.before.length + 2) :
    abortEdit [] s ≠ unlines s.before := by
  unfold abortEdit
  rw [abortLoop_eq _ (by omega), List.take_of_length_le]
  · rw [unlines_append]
  -- the current line is written with its newline
    intro he
    exact unlines_ne_nil (List.cons_ne_nil _ []) (List.append_right_eq_self.mp he)
  · rw [List.length_append, List.length_singleton]
    omega

/-- The counter is one too low: the last line before the current one is lost. -/
theorem not_recovers_of_low {s : EdState} (h : s.size = s.before.length) (hne : s.before ≠ []) :
    abortEdit [] s ≠ unlines s.before := by
  have hpos := List.length_pos_iff.mpr hne
  unfold abortEdit
  rw [abortLoop_eq _ (by omega), List.take_append_of_le_length (by omega)]
  intro he
  -- what is dropped has at least a newline
  have hsplit := List.take_append_drop (s.size - 1).toNat s.before
  have hdrop : s.before.drop (s.size - 1).toNat ≠ [] := by
    intro hnil
    have hlen := congrArg List.length hnil
    rw [List.length_drop, List.length_nil] at hlen
    omega
  rw [← hsplit, unlines_append, List.take_append_of_le_length (by rw [List.length_take]; omega),
    List.take_take, Nat.min_self] at he
  exact unlines_ne_nil hdrop (List.append_right_eq_self.mp he.symm)

/-! ## Every key -/

/-- The key ends a line `!delete` or `!insert` with the number of a line. -/
def resizesList (w : EdWords) (a : EdArgs) (s : EdState) (c : Char) : Bool :=
  match endsLine s c with
  | none => false
  | some s' =>
    let (cmd, arg) := splitCommand s'.line
    s'.line.head? = some '!' && cmd.length > 1 &&
      (edCommand w a cmd = .del || edCommand w a cmd = .ins) && (lineIndex s' arg).isSome

/-- The editing is over, or all lines but the current one would be recovered. -/
def EdKept (s : EdState) : Prop := s.ended = true ∨ ∀ junk, abortEdit junk s = unlines s.before

/-- No line is put in or taken out by its number. -/
def EdSafe (w : EdWords) (a : EdArgs) (s : EdState) (k : Char × Outside) : Prop :=
  s.ended = true ∨ resizesList w a s k.1 = false

/-- The editing is over, or the counters are right. -/
def EdInv (s : EdState) : Prop := s.ended = true ∨ LinesCounted s

variable {w : EdWords} {a : EdArgs} {s : EdState}

theorem lineIndex_lt (h : LinesCounted s) {arg : CString} {i : Nat} (hi : lineIndex s arg = some i) :
    i < s.before.length := by
  have hn := h.numlines
  unfold lineIndex at hi
  split at hi
  · cases hi
    omega
  · cases hi

theorem endsLine_counted (h : LinesCounted s) {c : Char} {s' : EdState} (hs : endsLine s c = some s') :
    LinesCounted s' ∧ s'.ended = s.ended := by
  unfold endsLine at hs
  split at hs
  · split at hs
    · cases hs
    · cases hs
      exact ⟨h.before _ _ rfl, rfl⟩
  · split at hs
    · cases hs
      exact ⟨h, rfl⟩
    · cases hs

theorem removeEditing_inv (o : Outside) (h : LinesCounted s) : EdInv (removeEditing w o s) := by
  unfold removeEditing
  split
  · exact Or.inr (h.before s.line [] rfl)
  · exact Or.inl rfl

theorem changeLine_counted (o : Outside) (arg : CString) (h : LinesCounted s) :
    LinesCounted (changeLine o arg s) := by
  unfold changeLine
  split
  · exact h.before s.line s.waste (List.length_modify ..)
  · exact h

theorem includeFile_counted (o : Outside) (arg : CString) (h : LinesCounted s) :
    LinesCounted (includeFile o arg s) := by
  unfold includeFile
  dsimp only
  generalize (if arg = [] then o.input [] else arg) = newname
  split
  · exact h
  · split
    · exact h
    · exact counted_copyFile _ 0 _ h

theorem quoteText_counted (o : Outside) (h : LinesCounted s) : LinesCounted (quoteText w o s) := by
  unfold quoteText
  split
  · exact h
  · split
    · exact h
    · exact quoteLoop_keeps quoteInvariant_counted w o false 0 h trivial fun _ _ => trivial

/-- A command that neither takes out nor puts in a line keeps the counters right. -/
theorem runEdCommand_inv (o : Outside) (h : LinesCounted s)
    (hsafe : (splitCommand s.line).1.length > 1 →
      (edCommand w a (splitCommand s.line).1 = .del ∨ edCommand w a (splitCommand s.line).1 = .ins) →
        lineIndex s (splitCommand s.line).2 = none) : EdInv (runEdCommand w a o s) := by
  have h0 : LinesCounted { s with line := [] } := h.before [] s.waste rfl
  unfold runEdCommand
  dsimp only
  split
  · rename_i hlen
    split
    · exact Or.inr (includeFile_counted o _ h0)
    · rename_i hcmd
      have hnone := hsafe hlen (Or.inl hcmd)
      unfold deleteLine
      rw [show lineIndex { s with line := [] } _ = none from hnone]
      exact Or.inr h0
    · rename_i hcmd
      have hnone := hsafe hlen (Or.inr hcmd)
      unfold insertLine
      rw [show lineIndex { s with line := [] } _ = none from hnone]
      exact Or.inr h0
    · exact Or.inr (changeLine_counted o _ h0)
    · exact Or.inr (quoteText_counted o h0)
    · exact removeEditing_inv o h0
    · exact Or.inl rfl
    all_goals exact Or.inr h0
  · exact Or.inr h0

theorem editKey_inv (o : Outside) (h : LinesCounted s) (c : Char) : EdInv (editKey w o s c) := by
  unfold editKey
  split
  · exact Or.inr (h.before _ _ rfl)
  split
  · split
    · exact Or.inr (h.before _ _ rfl)
    · exact Or.inr h
  split
  · split
    · exact Or.inr (h.before _ _ rfl)
    · split
      · rename_i hn
        have h1 := h.size
        have h2 := h.numlines
        -- both counters go down with the line
        refine Or.inr ⟨?_, ?_⟩
        · show s.size - 1 = (s.before.dropLast.length : Int) + 1
          rw [List.length_dropLast]
          omega
        · show s.numlines - 1 = (s.before.dropLast.length : Int) + 1
          rw [List.length_dropLast]
          omega
      · exact Or.inr h
  split
  · exact Or.inr (h.before _ _ rfl)
  split
  · exact Or.inr (h.before _ _ rfl)
  split
  · exact removeEditing_inv o h
  split
  · split
    · exact Or.inl rfl
    · exact Or.inl rfl
  · exact Or.inr h

theorem EdInv.lastchar (h : EdInv s) (c : Char) : EdInv { s with lastchar := c } := by
  rcases h with h | h
  · exact Or.inl h
  · exact Or.inr ⟨h.size, h.numlines⟩

theorem EdInv.kept (h : EdInv s) : EdKept s := by
  rcases h with h | h
  · exact Or.inl h
  · exact Or.inr h.recovers

theorem edStep_inv (h : LinesCounted s) (hended : s.ended = false) {k : Char × Outside} {s' : EdState}
    (hs : edStep w a s k = some s') (hsafe : resizesList w a s k.1 = false) : EdInv s' := by
  unfold edStep at hs
  rw [if_neg (by simp [hended])] at hs
  unfold resizesList at hsafe
  cases he : endsLine s k.1 with
  | none =>
    rw [he] at hs
    cases hs
    exact (editKey_inv k.2 h k.1).lastchar k.1
  | some s1 =>
    rw [he] at hs hsafe
    cases hs
    apply EdInv.lastchar
    have h1 := (endsLine_counted h he).1
    unfold finishLine
    split
    · rename_i hbang
      apply runEdCommand_inv k.2 h1
      intro hlen hcmd
      simp only [hbang, decide_true, hlen, Bool.true_and, Bool.and_eq_false_iff, Bool.or_eq_false_iff,
        decide_eq_false_iff_not, Option.isSome_eq_false_iff, Option.isNone_iff_eq_none] at hsafe
      -- it is neither of the two commands, or its number is that of no line
      rcases hsafe with ⟨hd, hi⟩ | hnone
      · exact absurd hcmd (not_or.mpr ⟨hd, hi⟩)
      · exact hnone
    · exact Or.inr (h1.append _ _ [])

/-- A line that is taken out leaves the counter behind. -/
theorem not_kept_of_delete (h : LinesCounted s) (hended : s.ended = false) {arg : CString} {i : Nat}
    (hi : lineIndex s arg = some i) : ¬ EdKept (deleteLine arg { s with line := [] }) := by
  have hlt := lineIndex_lt h hi
  have hsize := h.size
  have hi' : lineIndex { s with line := [] } arg = some i := hi
  unfold deleteLine
  rw [hi']
  intro hkept
  cases hkept with
  | inl hend =>
    rw [show s.ended = true from hend] at hended
    cases hended
  | inr hkept =>
    -- a line less, but the counter stays
    apply not_recovers_of_high _ (hkept [])
    show s.size = ((s.before.eraseIdx i).length : Int) + 2
    rw [List.length_eraseIdx_of_lt hlt]
    omega

/-- So does one that is put in. -/
theorem not_kept_of_insert (h : LinesCounted s) (hended : s.ended = false) {arg : CString} {i : Nat}
    (hi : lineIndex s arg = some i) : ¬ EdKept (insertLine arg { s with line := [] }) := by
  have hlt := lineIndex_lt h hi
  have hsize := h.size
  have hi' : lineIndex { s with line := [] } arg = some i := hi
  have hlen : (s.before.insertIdx i []).length = s.before.length + 1 :=
    List.length_insertIdx_of_le_length (by omega) _
  unfold insertLine
  rw [hi']
  intro hkept
  cases hkept with
  | inl hend =>
    rw [show s.ended = true from hend] at hended
    cases hended
  | inr hkept =>
    -- a line more, but the counter stays
    apply not_recovers_of_low _ _ (hkept [])
    · show s.size = ((s.before.insertIdx i []).length : Int)
      rw [hlen]
      omega
    · show s.before.insertIdx i [] ≠ []
      rw [← List.length_pos_iff, hlen]
      omega

theorem not_kept_of_resizes (h : LinesCounted s) (hended : s.ended = false) {k : Char × Outside}
    {s' : EdState} (hs : edStep w a s k = some s') (hres : resizesList w a s k.1 = true) :
    ¬ EdKept s' := by
  unfold edStep at hs
  rw [if_neg (by simp [hended])] at hs
  unfold resizesList at hres
  cases he : endsLine s k.1 with
  | none =>
    rw [he] at hres
    cases hres
  | some s1 =>
    rw [he] at hs hres
    obtain ⟨h1, hended1⟩ := endsLine_counted h he
    rw [hended] at hended1
    simp only [Bool.and_eq_true, decide_eq_true_eq, Bool.or_eq_true] at hres
    obtain ⟨⟨⟨hbang, hlen⟩, hcmd⟩, hindex⟩ := hres
    obtain ⟨i, hi⟩ := Option.isSome_iff_exists.mp hindex
    unfold finishLine runEdCommand at hs
    dsimp only at hs
    rw [if_pos hbang, if_pos hlen] at hs
    cases hcmd with
    | inl hcmd =>
      rw [hcmd] at hs
      cases hs
      exact not_kept_of_delete h1 hended1 hi
    | inr hcmd =>
      rw [hcmd] at hs
      cases hs
      exact not_kept_of_insert h1 hended1 hi

/-- Whatever is typed and whatever the commands find, all lines but the current one can be recovered
after every key exactly as long as no line is put in or taken out by its number. -/
theorem recovery_over_runs (w : EdWords) (a : EdArgs) (file : CString) (ks : List (Char × Outside)) :
    AllSteps (edStep w a) (fun _ _ s' => EdKept s') (edStart file) ks ↔
      AllSteps (edStep w a) (fun s k _ => EdSafe w a s k) (edStart file) ks := by
  have hstep : ∀ s k s', EdInv s → edStep w a s k = some s' →
      (EdKept s' ↔ EdSafe w a s k) ∧ (EdSafe w a s k → EdInv s') := by
    intro s k s' hI hs
    by_cases hended : s.ended = true
    · have hsame : s' = s := by
        unfold edStep at hs
        rw [if_pos hended] at hs
        exact (Option.some.inj hs).symm
      rw [hsame]
      exact ⟨iff_of_true (Or.inl hended) (Or.inl hended), fun _ => hI⟩
    · have hcounted := hI.resolve_left hended
      rw [Bool.not_eq_true] at hended
      by_cases hres : resizesList w a s k.1 = true
      · have hnot := not_kept_of_resizes hcounted hended hs hres
        have hunsafe : ¬ EdSafe w a s k := by
          rintro (h | h)
          · rw [hended] at h
            cases h
          · rw [hres] at h
            cases h
        exact ⟨iff_of_false hnot hunsafe, fun h => absurd h hunsafe⟩
      · rw [Bool.not_eq_true] at hres
        have hI' := edStep_inv hcounted hended hs hres
        exact ⟨iff_of_true hI'.kept (Or.inr hres), fun _ => hI'⟩
  exact allSteps_iff hstep (Or.inr (counted_edStart file)) ks

def swedishWords : EdWords where
  edRead := ("!l\x7bsa".toList, 3)
  edWhole := ("!hela".toList, 1)
  edIncl := ("!inkludera".toList, 3)
  edDel := ("!radera".toList, 2)
  edIns := ("!infoga".toList, 3)
  edChange := ("!\x7bndra".toList, 1)
  edQuote := ("!citera".toList, 1)
  edReview := ("!\x7dterse".toList, 1)
  edMove := ("!flytta".toList, 1)
  edRemove := ("!bort".toList, 1)
  edSave := ("!spara".toList, 2)
  edPost := ("!l\x7bgga".toList, 3)
  edTell := ("!s\x7bg".toList, 2)
  edYell := ("!skrik".toList, 2)
  edYell2 := ("!ropa".toList, 2)
  edWho := ("!vilka".toList, 1)
  edI := ("!jag".toList, 1)
  edMy := ("!min".toList, 1)
  yesAnswer := 'j'

def quietOutside : Outside := ⟨fun _ => none, id, none, fun _ => 'n'⟩

def typed (s : String) : List (Char × Outside) := s.toList.map fun c => (c, quietOutside)

/-- An empty line put in at the front of two lines: the second of them would be lost. -/
theorem insert_loses_line :
    ∃ s, run (edStep swedishWords ⟨true, true, true⟩) (edStart "ett\ntva\n".toList)
        (typed "!infoga 1\r") = some s ∧
      s.ended = false ∧ s.before = [[], "ett".toList, "tva".toList] ∧ s.line = [] ∧
        abortEdit [] s = "\nett\n".toList ∧ ¬ EdKept s := by
  refine ⟨⟨[[], "ett".toList, "tva".toList], [], 4, 3, [], '\r', false⟩, by decide +kernel, rfl, rfl,
    rfl, by decide, ?_⟩
  rintro (h | h)
  · exact absurd h (by decide)
  · exact absurd (h []) (by decide)

end SklaffKom
