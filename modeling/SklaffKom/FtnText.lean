import SklaffKom.FtnMsg
import SklaffKom.TextFile

/-!
# Imported texts

`send_ftn` stores an echomail message as the next text of its conference.  The `MSGID` stands in a
header line of the text, where `scan_existing_skl_msgids` looks for it before the next import.
-/

open CString

namespace SklaffKom

/-! ## The body -/

def ftnWrapCol : Nat := 78

/-- The quote marks, each with a blank after it at most. -/
def quoteMarks : CString → CString
  | '>' :: ' ' :: r => quoteMarks r
  | '>' :: r => quoteMarks r
  | r => r

/-- `while (isalpha(line[i]) && initials < n)` -/
def dropInitials : Nat → CString → CString
  | n + 1, c :: r => if c.isAlpha then dropInitials n r else c :: r
  | _, r => r

/-- What stands behind the quote prefix of a line. -/
def behindQuote (line : CString) : Option CString :=
  let p := line.dropWhile isBlank
  if p.head? = some '>' then
    match quoteMarks p with
    | c :: r => if isBlank c then some r else some (c :: r)
    | [] => some []
  else
    let q := dropInitials 3 p
    let r := q.dropWhile (· = '>')
    if q.length = p.length ∨ r.length = q.length then none
    else
      match r with
      | c :: t => if isBlank c then some t else if isEol c then some r else none
      | [] => some []

def ftnQuotePrefix (line : CString) : CString :=
  match behindQuote line with
  | some r => strlcpy 32 (line.take (line.length - r.length))
  | none => []

/-- The wrap point: the last blank up to the column, or the column. -/
def wrapPoint (col : Nat) (s : CString) : Nat → Nat
  | 0 => col
  | i + 1 => if isBlank (s[i + 1]?.getD '\x00') then i + 1 else wrapPoint col s i

def wrappedMax : Nat := 4096

/-- `append_wrapped_segment`; `first` is false on continuation lines. -/
def appendWrappedSegment (contPrefix : CString) : Nat → Bool → CString → CString → CString
  | 0, _, out, _ => out
  | fuel + 1, first, out, s =>
    let s := s.dropWhile isBlank
    if s = [] then out
    else
      let cont := if first then [] else contPrefix
      let col := if cont.length < ftnWrapCol then ftnWrapCol - cont.length else ftnWrapCol
      let take := if s.length > col then wrapPoint col s col else s.length
      if cont ≠ [] ∧ out.length + cont.length + 1 ≥ wrappedMax then out
      else
        let out := out ++ cont
        if out.length + take + 2 ≥ wrappedMax then out
        else
          appendWrappedSegment contPrefix fuel false (out ++ s.take take ++ ['\n'])
            ((s.drop take).dropWhile isBlank)

/-- What `wrap_ftn_body_for_skom` makes of a line. -/
def wrapFtnLine (line : CString) : CString :=
  let quote := ftnQuotePrefix line
  if line = [] then ['\n']
  else if quote ≠ [] ∧ line.length > ftnWrapCol then
    appendWrappedSegment quote (line.length + 1) true [] line
  else if line.head? ∈ ['>', '|', '*', '-', '\x01'].map some ∨ line.length ≤ ftnWrapCol then
    line ++ ['\n']
  else appendWrappedSegment [] (line.length + 1) true [] line

def wrapFtnBodyForSkom (body : CString) : CString := (body.splitOn '\n').flatMap wrapFtnLine

/-! ## Writing -/

/-- A header line that is left out when it has no value. -/
def optionalLine (name value : CString) : CString :=
  if value = [] then [] else name ++ value ++ ['\n']

/-- The header lines of `build_ftn_mbuf` before the `MSGID`. -/
def ftnHeaderHead (area : CString) (msg : FidoMsg) : CString :=
  "From: ".toList ++ msg.fromName ++ ['\n'] ++ ("To: ".toList ++ msg.toName ++ ['\n']) ++
    ("Subject: ".toList ++ msg.subject ++ ['\n']) ++ ("Date: ".toList ++ msg.date ++ ['\n']) ++
    ("FTN-Area: ".toList ++ area ++ ['\n'])

/-- `build_ftn_mbuf`; `reason` is empty for a safe import. -/
def buildFtnMbuf (area : CString) (msg : FidoMsg) (reason : CString) : CString :=
  ftnHeaderHead area msg ++ optionalLine "FTN-MSGID: ".toList msg.msgid ++
    optionalLine "FTN-REPLY: ".toList msg.reply ++ optionalLine "FTN-CHRS: ".toList msg.chrs ++
    optionalLine "FTN-Unsafe: ".toList reason ++ ['\n'] ++ wrapFtnBodyForSkom msg.cleanBody

def countBodyLines (s : CString) : Nat := s.count '\n'

/-- The text file of `send_ftn`. -/
def ftnTextFile (area : CString) (n now com : Int) (msg : FidoMsg) (reason : CString) : CString :=
  let mbuf := buildFtnMbuf area msg reason
  field n ++ field 0 ++ field now ++ field com ++ field 0 ++ field 0 ++
    decimal (countBodyLines mbuf) ++ ['\n'] ++ (msg.subject ++ ['\n']) ++ mbuf

/-- A conference: the last text in its line of the conference file, and its text files. -/
structure FtnConf where
  lastText : Int
  texts : Int → Option CString

/-- What an area and the surroundings give to `send_ftn`. -/
structure FtnEnv where
  area : CString
  mktime : Tm → Int
  time : Int

/-- `append_comment_link`: the file is created when it is missing. -/
def appendCommentLink (c : FtnConf) (parentText childText : Int) : FtnConf :=
  if parentText ≤ 0 ∨ childText ≤ 0 then c
  else
    { c with
      texts := Function.update c.texts parentText
        (some ((c.texts parentText).getD [] ++ (field childText ++ decimal 0 ++ ['\n']))) }

/-- `send_ftn`: the number of the new text. -/
def sendFtn (env : FtnEnv) (c : FtnConf) (msg : FidoMsg) (com : Int) (reason : CString) :
    Int × FtnConf :=
  let now := (ftnTimestamp env.mktime 3 msg.date).getD env.time
  -- `rewrite_conf_last_text`
  let n := c.lastText + 1
  let c : FtnConf :=
    { lastText := n
      texts := Function.update c.texts n (some (ftnTextFile env.area n now com msg reason)) }
  (n, if com > 0 then appendCommentLink c com n else c)

/-- The time of an imported text. -/
def ftnTextTime (env : FtnEnv) (msg : FidoMsg) : Int :=
  (ftnTimestamp env.mktime 3 msg.date).getD env.time

theorem sendFtn_fst (env : FtnEnv) (c : FtnConf) (msg : FidoMsg) (com : Int) (reason : CString) :
    (sendFtn env c msg com reason).1 = c.lastText + 1 := rfl

@[simp] theorem appendCommentLink_lastText (c : FtnConf) (p n : Int) :
    (appendCommentLink c p n).lastText = c.lastText := by
  unfold appendCommentLink
  split <;> rfl

@[simp] theorem sendFtn_lastText (env : FtnEnv) (c : FtnConf) (msg : FidoMsg) (com : Int)
    (reason : CString) : (sendFtn env c msg com reason).2.lastText = c.lastText + 1 := by
  unfold sendFtn
  dsimp only
  split
  · rw [appendCommentLink_lastText]
  · rfl

/-- The link in the text that is commented on is no part of the new text. -/
theorem sendFtn_newText (env : FtnEnv) (c : FtnConf) (msg : FidoMsg) {com : Int}
    (hcom : com ≠ c.lastText + 1) (reason : CString) :
    (sendFtn env c msg com reason).2.texts (c.lastText + 1) =
      some (ftnTextFile env.area (c.lastText + 1) (ftnTextTime env msg) com msg reason) := by
  unfold sendFtn appendCommentLink
  dsimp only
  split
  next =>
    split
    next => exact Function.update_self _ _ _
    next =>
      dsimp only
      rw [Function.update_of_ne hcom.symm]
      exact Function.update_self _ _ _
  next => exact Function.update_self _ _ _

/-- What `send_ftn` writes: the new text, and the line in the text that it comments on. -/
theorem sendFtn_texts (env : FtnEnv) (c : FtnConf) (msg : FidoMsg) {com : Int}
    (hcom : com ≤ c.lastText) (h0 : 0 ≤ c.lastText) (reason : CString) (k : Int) :
    (sendFtn env c msg com reason).2.texts k =
      if k = c.lastText + 1 then
        some (ftnTextFile env.area (c.lastText + 1) (ftnTextTime env msg) com msg reason)
      else if 0 < com ∧ k = com then
        some ((c.texts k).getD [] ++ linkLine ⟨c.lastText + 1, 0⟩)
      else c.texts k := by
  unfold sendFtn
  dsimp only
  by_cases hpos : com > 0
  · rw [if_pos hpos, appendCommentLink, if_neg (by omega)]
    by_cases hk : k = com
    · rw [hk, if_neg (by omega), if_pos ⟨hpos, rfl⟩]
      dsimp only
      rw [Function.update_self, Function.update_of_ne (by omega)]
      rfl
    · have hnot : ¬ (0 < com ∧ k = com) := fun h => hk h.2
      rw [if_neg hnot]
      dsimp only
      rw [Function.update_of_ne hk, Function.update_apply]
      rfl
  · have hnot : ¬ (0 < com ∧ k = com) := fun h => hpos h.1
    rw [if_neg hpos, if_neg hnot]
    dsimp only
    rw [Function.update_apply]
    rfl

end SklaffKom
