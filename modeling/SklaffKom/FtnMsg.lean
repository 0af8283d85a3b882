import SklaffKom.Stdio

/-!
# FTN messages

`read_fido_msg` reads a `.MSG` file: a header of fixed fields and a body whose kludge lines, the
lines that begin with the character 1, carry the `MSGID` and the `REPLY`.
-/

open CString

namespace SklaffKom

def fidoHdrSize : Nat := 190

structure FidoMsg where
  fromName : CString
  toName : CString
  subject : CString
  date : CString
  chrs : CString
  msgid : CString
  reply : CString
  tid : CString
  tzutc : CString
  rawBody : CString
  cleanBody : CString
deriving DecidableEq, Repr

/-- `copy_field`: `n` bytes of a header field into a member of size `n + 1`. -/
def copyField (n : Nat) (src : List Char) : CString :=
  trimEnd isSpace ((src.take n).takeWhile (· ≠ '\x00'))

def trimLeadingSpaces (s : CString) : CString := s.dropWhile isBlank

def stripPipeColors : CString → CString
  | '|' :: a :: b :: r =>
    if a.isDigit ∧ b.isDigit then stripPipeColors r else '|' :: stripPipeColors (a :: b :: r)
  | c :: r => c :: stripPipeColors r
  | [] => []

/-- The value of a kludge, cut to a member of the given size. -/
def kludgeValue (size : Nat) (p : CString) : CString := trimLeadingSpaces (strlcpy size p)

def parseKludge (msg : FidoMsg) : CString → FidoMsg
  | '\x01' :: p =>
    if "CHRS:".toList.isPrefixOf p then { msg with chrs := kludgeValue 128 (p.drop 5) }
    else if "MSGID:".toList.isPrefixOf p then { msg with msgid := kludgeValue 256 (p.drop 6) }
    else if "REPLY:".toList.isPrefixOf p then { msg with reply := kludgeValue 256 (p.drop 6) }
    else if "TID:".toList.isPrefixOf p then { msg with tid := kludgeValue 256 (p.drop 4) }
    else if "TZUTC:".toList.isPrefixOf p then { msg with tzutc := kludgeValue 64 (p.drop 6) }
    else msg
  | _ => msg

def shouldHideCleanLine (line : CString) : Bool :=
  line.head? = some '\x01' || "SEEN-BY:".toList.isPrefixOf line ||
    "AREA:".toList.isPrefixOf line || "PATH:".toList.isPrefixOf line

/-- What `process_body` does with a line. -/
def bodyLine (msg : FidoMsg) (line : CString) : FidoMsg :=
  let msg := parseKludge msg line
  let msg := { msg with rawBody := msg.rawBody ++ line ++ ['\n'] }
  if shouldHideCleanLine line then msg
  else { msg with cleanBody := msg.cleanBody ++ stripPipeColors line ++ ['\n'] }

/-- The size of the line buffer of `process_body`. -/
def bodyLineMax : Nat := 4096

/-- `process_body`; `line` is the line that has been read so far. -/
def processBody : List Char → CString → FidoMsg → FidoMsg
  | [], line, msg => if line = [] then msg else bodyLine msg line
  | c :: buf, line, msg =>
    if c = '\x00' then if line = [] then msg else bodyLine msg line
    else if isEol c then processBody buf [] (bodyLine msg line)
    -- a line that is too long for the buffer loses its end
    else processBody buf (if line.length + 1 < bodyLineMax then line ++ [c] else line) msg

/-- `read_fido_msg` of the bytes of a file; `none` is a file that cannot be read or is too short. -/
def readFidoMsg (file : Option (List Char)) : Option FidoMsg := do
  let buf ← file
  if buf.length < fidoHdrSize then none
  else
    pure (processBody (buf.drop fidoHdrSize) []
      { fromName := copyField 36 buf
        toName := copyField 36 (buf.drop 36)
        subject := copyField 72 (buf.drop 72)
        date := copyField 20 (buf.drop 144)
        chrs := [], msgid := [], reply := [], tid := [], tzutc := [], rawBody := [], cleanBody := [] })

/-! ## What the parser keeps -/

/-- A property that every line of a body keeps. -/
theorem processBody_keeps {P : FidoMsg → Prop}
    (hline : ∀ msg line, (∀ c ∈ line, isEol c = false) → P msg → P (bodyLine msg line))
    (buf : List Char) {line : CString} (hl : ∀ c ∈ line, isEol c = false) {msg : FidoMsg}
    (h : P msg) : P (processBody buf line msg) := by
  have hlast : ∀ line msg, (∀ c ∈ line, isEol c = false) → P msg →
      P (if line = [] then msg else bodyLine msg line) := by
    intro line msg hl h
    split
    next => exact h
    next => exact hline msg line hl h
  induction buf generalizing line msg with
  | nil => exact hlast line msg hl h
  | cons c buf ih =>
    rw [processBody]
    split
    next => exact hlast line msg hl h
    next =>
      split
      next => exact ih (by simp) (hline msg line hl h)
      next heol =>
        have hc : isEol c = false := by simpa using heol
        have hgrown : ∀ d ∈ (if line.length + 1 < bodyLineMax then line ++ [c] else line),
            isEol d = false := by
          intro d hd
          split at hd
          · rcases List.mem_append.mp hd with hd | hd
            · exact hl d hd
            · exact List.mem_singleton.mp hd ▸ hc
          · exact hl d hd
        exact ih hgrown h

/-- A property of the messages without a body that every line of a body keeps. -/
theorem readFidoMsg_keeps {P : FidoMsg → Prop} {file : Option (List Char)} {msg : FidoMsg}
    (hread : readFidoMsg file = some msg)
    (hline : ∀ msg line, (∀ c ∈ line, isEol c = false) → P msg → P (bodyLine msg line))
    (hstart : ∀ fromName toName subject date,
      P ⟨fromName, toName, subject, date, [], [], [], [], [], [], []⟩) : P msg := by
  unfold readFidoMsg at hread
  cases file with
  | none => cases hread
  | some buf =>
    rw [Option.bind_eq_bind, Option.bind_some] at hread
    split at hread
    next => cases hread
    next =>
      cases hread
      exact processBody_keeps hline _ (by simp) (hstart _ _ _ _)

theorem parseKludge_cleanBody (msg : FidoMsg) (line : CString) :
    (parseKludge msg line).cleanBody = msg.cleanBody := by
  unfold parseKludge
  split
  next =>
    repeat' split
    all_goals rfl
  next => rfl

/-- The body that is shown consists of whole lines. -/
theorem wholeLines_cleanBody {file : Option (List Char)} {msg : FidoMsg}
    (hread : readFidoMsg file = some msg) : WholeLines msg.cleanBody := by
  apply readFidoMsg_keeps (P := fun msg => WholeLines msg.cleanBody) hread
  · intro msg line _ h
    have hbody := parseKludge_cleanBody msg line
    unfold bodyLine
    dsimp only
    split
    next => exact hbody ▸ h
    next =>
      show WholeLines ((parseKludge msg line).cleanBody ++ stripPipeColors line ++ ['\n'])
      exact WholeLines.line _
  · intro _ _ _ _
    exact WholeLines.nil

/-- A `MSGID` is a part of a line, and fits its member. -/
theorem readFidoMsg_msgid {file : Option (List Char)} {msg : FidoMsg}
    (hread : readFidoMsg file = some msg) :
    (∀ c ∈ msg.msgid, isEol c = false) ∧ msg.msgid.length ≤ 255 := by
  apply readFidoMsg_keeps (P := fun msg => (∀ c ∈ msg.msgid, isEol c = false) ∧
    msg.msgid.length ≤ 255) hread
  · intro msg line hline h
    have hkeep : ∀ msg' : FidoMsg, (bodyLine msg' line).msgid = (parseKludge msg' line).msgid := by
      intro msg'
      unfold bodyLine
      dsimp only
      split <;> rfl
    rw [hkeep]
    unfold parseKludge
    split
    next p =>
      split
      next => exact h
      split
      next =>
        have hsub : kludgeValue 256 (p.drop 6) ⊆ '\x01' :: p := by
          intro c hc
          have hc' := List.mem_of_mem_take ((List.dropWhile_suffix isBlank).subset hc)
          exact List.mem_cons_of_mem _ (List.mem_of_mem_drop hc')
        have hlen := (List.dropWhile_suffix (l := strlcpy 256 (p.drop 6)) isBlank).length_le
        have hcut : (strlcpy 256 (p.drop 6)).length ≤ 255 := List.length_take_le _ _
        exact ⟨fun c hc => hline c (hsub hc), hlen.trans hcut⟩
      repeat' split
      all_goals exact h
    next => exact h
  · intro _ _ _ _
    exact ⟨by simp, Nat.zero_le _⟩

/-! ## Dates -/

/-- The members of `struct tm` that the parsers set; the year is the full one. -/
structure Tm where
  year : Int
  mon : Nat
  mday : Int
  hour : Int
  min : Int
  sec : Int
deriving DecidableEq, Repr

/-- A `%d` of `sscanf`. -/
def scanInt (s : CString) : Option (Int × CString) :=
  if (strtol s).2 = s then none else some (strtol s)

/-- A `%Ns` of `sscanf`: at most `width` characters of a word. -/
def scanWord (width : Nat) (s : CString) : Option (CString × CString) :=
  let s := s.dropWhile isSpace
  let w := (s.takeWhile fun c => !isSpace c).take width
  if w = [] then none else some (w, s.drop w.length)

/-- A character of the format of `sscanf`. -/
def scanChar (c : Char) : CString → Option CString
  | d :: s => if d = c then some s else none
  | [] => none

def months : List CString :=
  ["jan", "feb", "mar", "apr", "may", "jun", "jul", "aug", "sep", "oct", "nov", "dec"].map
    String.toList

/-- The date of a message as `ftn_date_to_timestamp` (`width` 7) and `parse_fido_msg_date` (`width`
3) take it apart. -/
def scanFtnDate (width : Nat) (date : CString) : Option Tm := do
  let (day, s) ← scanInt date
  let (mon, s) ← scanWord width s
  let (year, s) ← scanInt s
  let (hour, s) ← scanInt s
  let s ← scanChar ':' s
  let (min, s) ← scanInt s
  let s ← scanChar ':' s
  let (sec, _) ← scanInt s
  let month ← months.findIdx? (· = mon.map Char.toLower)
  if day < 1 ∨ day > 31 ∨ hour < 0 ∨ hour > 23 ∨ min < 0 ∨ min > 59 ∨ sec < 0 ∨ sec > 60 then none
  else
    -- years of two digits
    let year := if year < 70 then year + 2000 else if year < 100 then year + 1900 else year
    pure ⟨year, month, day, hour, min, sec⟩

/-- `ftn_date_to_timestamp` and `parse_fido_msg_date`; `mktime` depends on the time zone. -/
def ftnTimestamp (mktime : Tm → Int) (width : Nat) (date : CString) : Option Int := do
  let t := mktime (← scanFtnDate width date)
  if t = -1 then none else pure t

example : ftnTimestamp (fun tm => tm.year * 100 + tm.mon) 7 "14 Jun 26  21:55:49".toList =
    some 202605 := by decide +kernel

end SklaffKom
