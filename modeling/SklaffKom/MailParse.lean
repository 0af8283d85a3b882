import SklaffKom.Stdio

/-!
# Mail headers

`mailparse.c` finds the value of a header in a message and decodes the encoded words in it.
-/

open CString

namespace SklaffKom

/-! ## Codes -/

def hexval (c : Char) : Option Nat :=
  if '0' ≤ c ∧ c ≤ '9' then some (c.toNat - '0'.toNat)
  else if 'A' ≤ c ∧ c ≤ 'F' then some (c.toNat - 'A'.toNat + 10)
  else if 'a' ≤ c ∧ c ≤ 'f' then some (c.toNat - 'a'.toNat + 10)
  else none

def b64val (c : Char) : Option Nat :=
  if 'A' ≤ c ∧ c ≤ 'Z' then some (c.toNat - 'A'.toNat)
  else if 'a' ≤ c ∧ c ≤ 'z' then some (c.toNat - 'a'.toNat + 26)
  else if '0' ≤ c ∧ c ≤ '9' then some (c.toNat - '0'.toNat + 52)
  else if c = '+' then some 62
  else if c = '/' then some 63
  else none

/-- `latin1_to_utf8` and `mail_latin1_to_utf8_dup` -/
def latin1ToUtf8 (s : CString) : CString :=
  s.flatMap fun c =>
    if c.toNat < 128 then [c]
    else [Char.ofNat (0xc0 ||| (c.toNat >>> 6)), Char.ofNat (0x80 ||| (c.toNat &&& 0x3f))]

/-- The values of `mail_base64_decode_dup`; `none` is the padding, -2 in the code. -/
def mailB64Vals (s : CString) : List (Option Nat) :=
  s.filterMap fun c => if c = '=' then some none else (b64val c).map some

/-- `vals[1] & 0x0f` -/
def low4 (v : Option Nat) : Nat := (v.getD 14) % 16

/-- `vals[2] & 0x03` -/
def low2 (v : Option Nat) : Nat := (v.getD 2) % 4

/-- The bytes of four values. -/
def mailB64Group : List (Option Nat) → CString
  | v0 :: v1 :: v2 :: v3 :: rest =>
    (match v0, v1 with
      | some a, some b => [Char.ofNat ((a <<< 2) ||| (b >>> 4))]
      | _, _ => []) ++
    (match v2 with
      | some c => [Char.ofNat ((low4 v1 <<< 4) ||| (c >>> 2))]
      | none => []) ++
    (match v3 with
      | some d => [Char.ofNat ((low2 v2 <<< 6) ||| d)]
      | none => []) ++ mailB64Group rest
  | _ => []

/-- `mail_base64_decode_dup` -/
def mailBase64Decode (s : CString) : CString := mailB64Group (mailB64Vals s)

/-- `mail_qp_decode_dup`; what stands behind the last byte is the NUL. -/
def mailQpDecode : CString → CString
  | '=' :: a :: b :: r =>
    if a = '\r' ∧ b = '\n' then mailQpDecode r
    else if a = '\n' then mailQpDecode (b :: r)
    else
      match hexval a, hexval b with
      | some h1, some h2 => Char.ofNat ((h1 <<< 4) ||| h2) :: mailQpDecode r
      | _, _ => '=' :: mailQpDecode (a :: b :: r)
  | ['=', a] => if a = '\n' then [] else ['=', a]
  | c :: r => c :: mailQpDecode r
  | [] => []

/-- `mail_q_decode_word_dup` -/
def mailQDecodeWord : CString → CString
  | '=' :: a :: b :: r =>
    match hexval a, hexval b with
    | some h1, some h2 => Char.ofNat ((h1 <<< 4) ||| h2) :: mailQDecodeWord r
    | _, _ => '=' :: mailQDecodeWord (a :: b :: r)
  | c :: r => (if c = '_' then ' ' else c) :: mailQDecodeWord r
  | [] => []

/-- Bits put behind others. -/
theorem shiftLeft_or {k hi lo : Nat} (h : lo < 2 ^ k) : (hi <<< k) ||| lo = hi * 2 ^ k + lo := by
  rw [← Nat.shiftLeft_add_eq_or_of_lt h, Nat.shiftLeft_eq]

/-! ## Encoded words -/

/-- `strcasecmp(s, t) == 0` for one of the names. -/
def namedCase (names : List String) (s : CString) : Bool :=
  names.any fun name => name.toList = s.map Char.toLower

/-- `mail_charset_to_utf8_dup` -/
def mailCharsetToUtf8 (charset decoded : CString) : CString :=
  if namedCase ["iso-8859-1", "latin1", "latin-1"] charset then latin1ToUtf8 decoded else decoded

/-- The string before a rest of it. -/
def before (s rest : CString) : CString := s.take (s.length - rest.length)

theorem before_append (a b : CString) : before (a ++ b) b = a := take_before a b

/-- The decoded text of an encoded word; what is decoded ends at a NUL. -/
def mailWordText (encoding : Char) (charset text : CString) : Option CString :=
  let decoded := if encoding = 'B' ∨ encoding = 'b' then some (mailBase64Decode text)
    else if encoding = 'Q' ∨ encoding = 'q' then some (mailQDecodeWord text)
    else none
  decoded.map fun d => mailCharsetToUtf8 charset (d.takeWhile (· ≠ '\x00'))

/-- `mail_decode_encoded_word_dup`: the text and the rest of the string. -/
def mailDecodeEncodedWord : CString → Option (CString × CString)
  | '=' :: '?' :: charsetStart => do
    let charsetEnd ← strchr charsetStart '?'
    let charset := before charsetStart charsetEnd
    if charset = [] then none
    else
      match charsetEnd.tail with
      | encoding :: '?' :: textStart => do
        let textEnd ← strstr textStart "?=".toList
        let word ← mailWordText encoding charset (before textStart textEnd)
        pure (word, textEnd.drop 2)
      | _ => none
  | _ => none

def mailRfc2047Loop : Nat → Bool → CString → CString
  | 0, _, _ => []
  | _ + 1, _, [] => []
  | fuel + 1, lastWasEncoded, c :: s =>
    match mailDecodeEncodedWord (c :: s) with
    | some (word, rest) => word ++ mailRfc2047Loop fuel true rest
    | none =>
      if isSpace c then
        let q := s.dropWhile isSpace
        -- white space between two encoded words is dropped
        if (mailDecodeEncodedWord q).isSome && lastWasEncoded then mailRfc2047Loop fuel true q
        else c :: s.takeWhile isSpace ++ mailRfc2047Loop fuel false q
      else c :: mailRfc2047Loop fuel false s

/-- `mail_rfc2047_decode_utf8_dup` -/
def mailRfc2047Decode (s : CString) : CString := mailRfc2047Loop (s.length + 1) false s

/-! ## Headers -/

/-- A line without the `\r` at its end. -/
def dropCr (line : CString) : CString :=
  if line.getLast? = some '\r' then line.dropLast else line

def trim (s : CString) : CString := trimEnd isSpace (s.dropWhile isSpace)

/-- The value of a header and of the lines that continue it. -/
def unfoldValue (value : CString) (rest : List CString) : CString :=
  trim (value ++ (rest.takeWhile fun l => l.head?.any isBlank).flatMap fun l =>
    ' ' :: dropCr (l.dropWhile isBlank))

/-- The value of the first header with the name, in lines. -/
def headerField (name : CString) : List CString → Option CString
  | [] => none
  | line :: rest =>
    let l := dropCr line
    if l = [] then none
    else if name.length < l.length ∧ hasPrefixCase name l ∧ l[name.length]? = some ':' then
      some (unfoldValue (l.drop (name.length + 1)) rest)
    else headerField name rest

/-- The end of the headers: `\r\n\r\n` wherever it is in the message, or else an empty line. -/
def headersEnd (msg : CString) : Option CString :=
  match strstr msg "\r\n\r\n".toList with
  | some t => some t
  | none => strstr msg "\n\n".toList

/-- `mail_header_value_dup` -/
def mailHeaderValue (msg name : CString) : Option CString :=
  headerField name ((before msg ((headersEnd msg).getD [])).splitOn '\n')

/-- `mail_subject_utf8_dup` -/
def mailSubjectUtf8 (msg : CString) : CString :=
  match mailHeaderValue msg "Subject".toList with
  | some raw => mailRfc2047Decode raw
  | none => []

example : mailSubjectUtf8 "From: a\nSubject: =?utf-8?Q?a=5Fb?= =?utf-8?B?Yw==?= d\n\nHej\n".toList =
    "a_bc d".toList := by decide +kernel

end SklaffKom
