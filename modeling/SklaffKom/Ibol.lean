import SklaffKom.FtnMsg
import SklaffKom.IbolDb
import SklaffKom.Lib.Utf8

/-!
# InterBBS one-liners

`ibol_parse_body` finds the lines `Author:`, `Source:` and `Oneliner:` of a message, cuts their
values to the sizes of the members and takes color codes, escape sequences and control characters
out of them.
-/

open CString Utf8

namespace SklaffKom

def ibolFlagMysticCodes : Nat := 0x0001

def ibolFlagAnsiCodes : Nat := 0x0002

def ibolFlagControlChars : Nat := 0x0004

def ibolFlagTruncated : Nat := 0x0008

def ibolFlagDuplicateParts : Nat := 0x0010

def ibolFlagMissingAuthor : Nat := 0x0020

def ibolFlagMissingSource : Nat := 0x0040

def ibolFlagUnusualSubject : Nat := 0x0080

structure IbolEntry where
  authorRaw : CString
  sourceRaw : CString
  textRaw : CString
  author : CString
  source : CString
  text : CString
  textFlat : CString
  authorFields : Nat
  sourceFields : Nat
  onelinerFields : Nat
  onelinerParts : Nat
  duplicateParts : Nat
  flags : Nat
deriving DecidableEq, Repr

def IbolEntry.init : IbolEntry := ⟨[], [], [], [], [], [], [], 0, 0, 0, 0, 0, 0⟩

/-! ## Cutting -/

def utf8SafeEnd (s : CString) : CString :=
  if s = [] then []
  else
    let start := backWhile s isCont (s.length - 1)
    let expected := seqLength (s[start]?.getD '\x00')
    -- a byte that begins no sequence is dropped like a sequence that is cut
    if expected = 0 ∨ s.length - start < expected then s.take start else s

/-- `copy_segment`: what is copied, and whether it was cut. -/
def copySegment (dstsz : Nat) (src : CString) : CString × Bool :=
  (utf8SafeEnd (src.take (dstsz - 1)), src.length ≥ dstsz)

def appendSegment (dstsz : Nat) (dst src : CString) (separator : Option Char) : CString × Bool :=
  if separator.isSome ∧ dst ≠ [] ∧ ¬ dst.length + 1 < dstsz then (dst, true)
  else
    let dst := if dst = [] then dst else dst ++ separator.toList
    let room := dstsz - dst.length - 1
    (utf8SafeEnd (dst ++ src.take room), src.length > room)

/-! ## Codes -/

/-- The letters of the codes that `mystic_code_length` knows. -/
def mysticKnown : List (Char × Char) :=
  [('C', 'R'), ('C', 'L'), ('P', 'A'), ('D', 'E'), ('P', 'N'), ('P', 'I'), ('P', 'O'), ('B', 'S'),
    ('L', 'F')]

def mysticCodeLength : CString → Nat
  | '|' :: a :: b :: _ =>
    if a.isDigit ∧ b.isDigit ∨ (a.toUpper, b.toUpper) ∈ mysticKnown then 3 else 0
  | _ => 0

/-- The length of `ESC [`, counted from behind it: up to a byte from `@` to `~`. -/
def csiLength : CString → Nat
  | [] => 0
  | c :: p => if 0x40 ≤ c.toNat ∧ c.toNat ≤ 0x7e then 1 else csiLength p + 1

/-- The length of `ESC ]`, counted from behind it: up to a bell or `ESC \`. -/
def oscLength : CString → Nat
  | [] => 0
  | c :: p =>
    if c = '\x07' then 1
    else if c = '\x1b' ∧ p.head? = some '\\' then 2
    else oscLength p + 1

def ansiCodeLength : CString → Nat
  | '\x1b' :: '[' :: p => csiLength p + 2
  | '\x1b' :: ']' :: p => oscLength p + 2
  | '\x1b' :: _ :: _ => 2
  | ['\x1b'] => 1
  | _ => 0

/-- `ch < 0x20 || ch == 0x7f` -/
def isControl (c : Char) : Bool := c.toNat < 0x20 || c.toNat = 0x7f

/-! ## The values of lines -/

/-- The test that `field_value` and `field_value_layout` begin with: what stands behind the colon. -/
def afterFieldName (name line : CString) : Option CString :=
  let p := line.dropWhile isBlank
  if p.length < name.length + 1 then none
  else if !hasPrefixCase name p || p[name.length]? ≠ some ':' then none
  else some (p.drop (name.length + 1))

def fieldValue (name line : CString) : Option CString :=
  (afterFieldName name line).map fun p => trimEnd isBlank (p.dropWhile isBlank)

/-- `field_value_layout`: only one separator is removed. -/
def fieldValueLayout (name line : CString) : Option CString :=
  (afterFieldName name line).map fun p => if p.head?.any isBlank then p.tail else p

/-! ## Taking the codes out -/

/-- The loop of `sanitize_field`; `dst` is what has been copied so far. -/
def sanitizeFieldLoop (dstsz : Nat) (p dst : CString) (pendingSpace : Bool) (flags : Nat) :
    CString × Nat :=
  match p with
  | [] => (dst, flags)
  | ch :: t =>
    if 0 < mysticCodeLength (ch :: t) then
      sanitizeFieldLoop dstsz ((ch :: t).drop (mysticCodeLength (ch :: t))) dst pendingSpace
        (flags ||| ibolFlagMysticCodes)
    else if 0 < ansiCodeLength (ch :: t) then
      sanitizeFieldLoop dstsz ((ch :: t).drop (ansiCodeLength (ch :: t))) dst pendingSpace
        (flags ||| ibolFlagAnsiCodes)
    else if isControl ch then
      sanitizeFieldLoop dstsz t dst (dst ≠ []) (flags ||| ibolFlagControlChars)
    else if isBlank ch then sanitizeFieldLoop dstsz t dst (dst ≠ []) flags
    else if pendingSpace ∧ dst.length + 1 ≥ dstsz then (dst, flags ||| ibolFlagTruncated)
    else
      let dst := if pendingSpace then dst ++ [' '] else dst
      if dst.length + 1 ≥ dstsz then (dst, flags ||| ibolFlagTruncated)
      else sanitizeFieldLoop dstsz t (dst ++ [ch]) false flags
termination_by p.length
decreasing_by
  all_goals simp only [List.length_drop, List.length_cons]
  all_goals omega

/-- `sanitize_field`: the field, and the flags. -/
def sanitizeField (dstsz : Nat) (src : CString) (flags : Nat) : CString × Nat :=
  let r := sanitizeFieldLoop dstsz src [] false flags
  (utf8SafeEnd r.1, r.2)

/-- The loop of `sanitize_text_layout`; `col` is the column. -/
def sanitizeTextLoop (dstsz : Nat) (p dst : CString) (col : Nat) (flags : Nat) : CString × Nat :=
  match p with
  | [] => (dst, flags)
  | ch :: t =>
    if 0 < mysticCodeLength (ch :: t) then
      sanitizeTextLoop dstsz ((ch :: t).drop (mysticCodeLength (ch :: t))) dst col
        (flags ||| ibolFlagMysticCodes)
    else if 0 < ansiCodeLength (ch :: t) then
      sanitizeTextLoop dstsz ((ch :: t).drop (ansiCodeLength (ch :: t))) dst col
        (flags ||| ibolFlagAnsiCodes)
    else if ch = '\n' then
      if dst.length + 1 ≥ dstsz then (dst, flags ||| ibolFlagTruncated)
      else sanitizeTextLoop dstsz t (dst ++ ['\n']) 0 flags
    else if ch = '\t' then
      let spaces := 8 - col % 8
      -- the tab fills the room that is left
      if dst.length + spaces ≥ dstsz then
        (dst ++ List.replicate (dstsz - 1 - dst.length) ' ',
          flags ||| ibolFlagControlChars ||| ibolFlagTruncated)
      else
        sanitizeTextLoop dstsz t (dst ++ List.replicate spaces ' ') (col + spaces)
          (flags ||| ibolFlagControlChars)
    else if isControl ch then sanitizeTextLoop dstsz t dst col (flags ||| ibolFlagControlChars)
    else if dst.length + 1 ≥ dstsz then (dst, flags ||| ibolFlagTruncated)
    else sanitizeTextLoop dstsz t (dst ++ [ch]) (col + 1) flags
termination_by p.length
decreasing_by
  all_goals simp only [List.length_drop, List.length_cons]
  all_goals omega

def sanitizeTextLayout (dstsz : Nat) (src : CString) (flags : Nat) : CString × Nat :=
  let r := sanitizeTextLoop dstsz src [] 0 flags
  (utf8SafeEnd (trimEnd (fun c => c = '\n' || isBlank c) r.1), r.2)

def flattenTextLoop (dstsz : Nat) : CString → CString → Bool → CString
  | [], dst, _ => dst
  | ch :: p, dst, pendingSpace =>
    if isSpace ch then flattenTextLoop dstsz p dst (dst ≠ [])
    else if pendingSpace ∧ dst.length + 1 ≥ dstsz then dst
    else
      let dst := if pendingSpace then dst ++ [' '] else dst
      if dst.length + 1 ≥ dstsz then dst else flattenTextLoop dstsz p (dst ++ [ch]) false

def flattenText (dstsz : Nat) (src : CString) : CString :=
  utf8SafeEnd (flattenTextLoop dstsz src [] false)

def textHasContent (text : CString) : Bool := text.any fun c => !isSpace c

/-! ## The body -/

/-- A line end of one character, or of two that differ. -/
def skipEol : CString → CString
  | first :: c :: p => if isEol c && c ≠ first then p else c :: p
  | _ => []

theorem length_skipEol (p : CString) : (skipEol p).length ≤ p.length - 1 := by
  unfold skipEol
  split
  · split <;> simp
  · simp

def ibolLines (p : CString) : List CString :=
  if p = [] then []
  else p.takeWhile (fun c => !isEol c) :: ibolLines (skipEol (p.dropWhile fun c => !isEol c))
termination_by p.length
decreasing_by
  have hpos := List.length_pos_iff.mpr ‹¬ p = []›
  have hskip := length_skipEol (p.dropWhile fun c => !isEol c)
  have hdrop := List.length_dropWhile_le (fun c => !isEol c) p
  omega

/-- `if (truncated) entry->flags |= IBOL_FLAG_TRUNCATED` -/
def truncatedFlag (truncated : Bool) : Nat := if truncated then ibolFlagTruncated else 0

/-- What the loop of `ibol_parse_body` does with a line; the string is `previous`. -/
def ibolBodyLine (s : IbolEntry × CString) (line : CString) : IbolEntry × CString :=
  let (entry, previous) := s
  match fieldValue "Author".toList line with
  | some value =>
    let (raw, truncated) := copySegment ibolAuthorMax value
    ({ entry with
      authorFields := entry.authorFields + 1
      authorRaw := raw
      flags := entry.flags ||| truncatedFlag truncated }, previous)
  | none =>
    match fieldValue "Source".toList line with
    | some value =>
      let (raw, truncated) := copySegment ibolSourceMax value
      ({ entry with
        sourceFields := entry.sourceFields + 1
        sourceRaw := raw
        flags := entry.flags ||| truncatedFlag truncated }, previous)
    | none =>
      match fieldValueLayout "Oneliner".toList line with
      | some value =>
        let entry := { entry with onelinerFields := entry.onelinerFields + 1 }
        if value.all isBlank then (entry, previous)
        else
          let entry := if previous = value then
              { entry with
                duplicateParts := entry.duplicateParts + 1
                flags := entry.flags ||| ibolFlagDuplicateParts }
            else entry
          let (previous, truncated) := copySegment ibolTextMax value
          let entry := { entry with flags := entry.flags ||| truncatedFlag truncated }
          let (raw, truncated) := appendSegment ibolTextMax entry.textRaw value
            (if entry.onelinerParts ≠ 0 then some '\n' else none)
          ({ entry with
            textRaw := raw
            flags := entry.flags ||| truncatedFlag truncated
            onelinerParts := entry.onelinerParts + 1 }, previous)
      | none => (entry, previous)

/-- `IBOL_PARSE_ERROR`, `IBOL_PARSE_EMPTY` (with their messages) and `IBOL_PARSE_OK` -/
inductive IbolStatus where
  | error (msg : CString)
  | ok
  | empty (msg : CString)
deriving DecidableEq, Repr

def ibolParseBody (body : CString) : IbolEntry × IbolStatus :=
  let entry := ((ibolLines body).foldl ibolBodyLine (IbolEntry.init, [])).1
  let (author, flags) := sanitizeField ibolAuthorMax entry.authorRaw entry.flags
  let (source, flags) := sanitizeField ibolSourceMax entry.sourceRaw flags
  let (text, flags) := sanitizeTextLayout ibolTextMax entry.textRaw flags
  let flags := if author = [] then flags ||| ibolFlagMissingAuthor else flags
  let flags := if source = [] then flags ||| ibolFlagMissingSource else flags
  ({ entry with author, source, text, textFlat := flattenText ibolTextMax text, flags },
    if entry.onelinerParts = 0 ∨ textHasContent text = false then
      .empty "no usable Oneliner: field found".toList
    else .ok)

/-! ## The message -/

/-- The loop of `ibol_recipient_matches`; `before` is the character in front of the place. -/
def recipientLoop (before : Option Char) : CString → Bool
  | [] => false
  | c :: p =>
    if (c :: p).length < "IBBS1LINE".toList.length then false
    else if !hasPrefixCase "IBBS1LINE".toList (c :: p) then recipientLoop (some c) p
    else if !before.any Char.isAlphanum && !(c :: p)["IBBS1LINE".toList.length]?.any Char.isAlphanum then
      true
    else recipientLoop (some c) p

def ibolRecipientMatches (toName : CString) : Bool := recipientLoop none toName

def ibolIsMessage (msg : FidoMsg) : Bool := ibolRecipientMatches msg.toName

/-- The inside of a suffix such as `(1/2)`. -/
def isPartSuffix (s : CString) : Bool :=
  let before := s.takeWhile (· ≠ '/')
  let after := s.drop (before.length + 1)
  before ≠ [] && before.all Char.isDigit && after ≠ [] && after.all Char.isDigit

/-- The subject without the suffix of a part. -/
def dropPartSuffix (s : CString) : CString :=
  if s.getLast? = some ')' then
    let inner := (s.dropLast.reverse.takeWhile (· ≠ '(')).reverse
    if '(' ∈ s.dropLast ∧ isPartSuffix inner then
      trimEnd isSpace (s.take (s.length - inner.length - 2))
    else s
  else s

def subjectMatches (subject : CString) : Bool :=
  let s := dropPartSuffix (trimEnd isSpace (subject.dropWhile isSpace))
  let normalized := (s.filter Char.isAlphanum).map Char.toLower
  normalized.length < 128 && normalized = "interbbsoneliner".toList

/-- `ibol_parse_message`; the entry is left as it is when the message is none of these. -/
def ibolParseMessage (msg : FidoMsg) (entry : IbolEntry) : IbolEntry × IbolStatus :=
  if !ibolIsMessage msg then (entry, .error "To: field is not addressed to IBBS1LINE".toList)
  else
    let (entry, status) := ibolParseBody msg.cleanBody
    (if subjectMatches msg.subject then entry
      else { entry with flags := entry.flags ||| ibolFlagUnusualSubject }, status)

example : subjectMatches " InterBBS Oneliner (1/2) ".toList = true := by decide

end SklaffKom
