import SklaffKom.Lib.Substrings
import SklaffKom.MailParse

/-!
# Encoded words in news and in mail

`rfc2047_decode` of the news import jumps from `=?` to `=?`, and `mail_rfc2047_decode_utf8_dup` of the
mail import goes on one character after what is no encoded word.
-/

open CString

namespace SklaffKom

/-! ## The decoder of the news -/

/-- The loop of `b64_decode_bytes`; -1 of `b64v` is padding too. -/
def b64Bytes : CString → CString
  | a :: b :: c :: d :: r =>
    match b64val a, b64val b with
    | some va, some vb =>
      Char.ofNat ((va <<< 2) ||| (vb >>> 4)) ::
        ((match b64val c with
          | some vc => [Char.ofNat (((vb % 16) <<< 4) ||| (vc >>> 2))]
          | none => []) ++
        (match b64val d with
          | some vd => [Char.ofNat ((((b64val c).getD 3 % 4) <<< 6) ||| vd)]
          | none => []) ++ b64Bytes r)
    | _, _ => []
  | _ => []

def b64DecodeBytes (s : CString) (outlen : Nat) : CString := (b64Bytes s).take outlen

/-- `qp_decode_bytes`: the loop of `mail_q_decode_word_dup` until the buffer is full. -/
def qpDecodeBytes (s : CString) (outlen : Nat) : CString := (mailQDecodeWord s).take outlen

/-- `latin1_to_utf8` into a buffer. -/
def latin1ToUtf8Room : Nat → CString → CString
  | _, [] => []
  | room, c :: s =>
    if c.toNat < 128 then
      if room ≤ 1 then [] else c :: latin1ToUtf8Room (room - 1) s
    else if room ≤ 2 then []
    else Char.ofNat (0xc0 ||| (c.toNat >>> 6)) :: Char.ofNat (0x80 ||| (c.toNat &&& 0x3f)) ::
      latin1ToUtf8Room (room - 2) s

def bytesToUtf8 (charset bytes : CString) (outlen : Nat) : CString :=
  if namedCase ["iso-8859-1", "latin1", "iso8859-1"] charset then latin1ToUtf8Room outlen bytes
  else bytes.take (outlen - 1)

/-- What is decoded into `bytes[512]`; the text of an unknown encoding is copied. -/
def newsWordBytes (enc : Char) (payload : CString) : CString :=
  if enc.toUpper = 'B' then b64DecodeBytes payload 512
  else if enc.toUpper = 'Q' then qpDecodeBytes payload 512
  else payload.take 512

/-- Blanks in front of `=?` are passed over. -/
def glueWords (p : CString) : CString :=
  let peek := p.dropWhile isBlank
  if "=?".toList.isPrefixOf peek then peek else p

/-- The loop of `rfc2047_decode`; `room` is `outlen - o`. -/
def rfc2047Loop : Nat → Nat → CString → CString
  | 0, _, _ => []
  | fuel + 1, room, p =>
    if p = [] ∨ room ≤ 1 then []
    else
      match strstr p "=?".toList with
      | none => p.take (room - 1)
      | some start =>
        let lit := (before p start).take (room - 1)
        let room := room - lit.length
        lit ++
          match strchr (start.drop 2) '?' with
          | none => rfc2047Loop fuel room (start.drop 2)
          | some q1 =>
            match strchr q1.tail '?' with
            | none => rfc2047Loop fuel room q1.tail
            | some q2 =>
              match strstr q2.tail "?=".toList with
              | none => rfc2047Loop fuel room q2.tail
              | some q3 =>
                let charset := (before (start.drop 2) q1).take 31
                let bytes := newsWordBytes (q1.tail.headD '\x00') (before q2.tail q3)
                let word := bytesToUtf8 charset bytes room
                word ++ rfc2047Loop fuel (room - word.length) (glueWords (q3.drop 2))

/-- `rfc2047_decode`: the string in the output buffer. -/
def rfc2047Decode (outlen : Nat) (s : CString) : CString :=
  stringOf (rfc2047Loop (s.length + 1) outlen s)

/-! ## Encoded words -/

/-- Digits in groups of four, the last one padded. -/
inductive Base64Text : CString → Prop
  | nil : Base64Text []
  | group {a b c d : Char} {s : CString} (ha : (b64val a).isSome) (hb : (b64val b).isSome)
      (hc : (b64val c).isSome) (hd : (b64val d).isSome) (h : Base64Text s) :
      Base64Text (a :: b :: c :: d :: s)
  | one {a b : Char} (ha : (b64val a).isSome) (hb : (b64val b).isSome) :
      Base64Text [a, b, '=', '=']
  | two {a b c : Char} (ha : (b64val a).isSome) (hb : (b64val b).isSome) (hc : (b64val c).isSome) :
      Base64Text [a, b, c, '=']

/-- The bytes of an encoded text. -/
def wordBytes (encoding : Char) (text : CString) : CString :=
  if encoding = 'B' ∨ encoding = 'b' then mailBase64Decode text else mailQDecodeWord text

/-- An encoded word in any charset, with any text. -/
structure EncodedWord where
  charset : CString
  encoding : Char
  text : CString
  named : charset ≠ []
  charsetEnd : '?' ∉ charset
  known : encoding ∈ ['B', 'b', 'Q', 'q']
  textEnd : ¬ "?=".toList <:+: text

namespace EncodedWord

/-- The word as it stands in a header. -/
def spelling (w : EncodedWord) : CString :=
  "=?".toList ++ w.charset ++ '?' :: w.encoding :: '?' :: w.text ++ "?=".toList

/-- The bytes as a C string. -/
def bytes (w : EncodedWord) : CString := stringOf (wordBytes w.encoding w.text)

/-- The text that the word stands for, in UTF-8. -/
def decoded (w : EncodedWord) : CString := mailCharsetToUtf8 w.charset w.bytes

/-- The word is well-formed, and its bytes hold no NUL and fit the buffer. -/
structure WellFormed (w : EncodedWord) : Prop where
  charset : namedCase ["utf-8", "us-ascii", "iso-8859-1"] w.charset = true
  text : w.encoding ∈ ['B', 'b'] ∧ Base64Text w.text ∨ w.encoding ∈ ['Q', 'q'] ∧ '?' ∉ w.text
  noNul : '\x00' ∉ wordBytes w.encoding w.text
  short : (wordBytes w.encoding w.text).length ≤ 512

/-- The tables of charsets agree on the word, or it is all ASCII. -/
def SameCharset (w : EncodedWord) : Prop :=
  namedCase ["iso-8859-1", "latin1", "iso8859-1"] w.charset =
      namedCase ["iso-8859-1", "latin1", "latin-1"] w.charset ∨
    ∀ c ∈ w.bytes, c.toNat < 128

/-- Both decoders read the same bytes. -/
structure Alike (w : EncodedWord) : Prop where
  bytes : newsWordBytes w.encoding w.text = w.bytes
  charset : w.SameCharset

/-- Both decoders read the same bytes up to a NUL, which ends the value of the news. -/
structure Stops (w : EncodedWord) : Prop where
  nul : '\x00' ∈ newsWordBytes w.encoding w.text
  bytes : stringOf (newsWordBytes w.encoding w.text) = w.bytes
  charset : w.SameCharset

end EncodedWord

variable {s t z : CString} {w : EncodedWord} {c : Char}

theorem isSome_b64val_ne {c d : Char} (h : (b64val c).isSome) (hd : b64val d = none) : c ≠ d := by
  rintro rfl
  rw [hd] at h
  cases h

theorem Base64Text.notMem (h : Base64Text t) : '?' ∉ t := by
  have hq : ∀ {c : Char}, (b64val c).isSome → '?' ≠ c := fun h =>
    (isSome_b64val_ne h (by decide)).symm
  induction h with
  | nil => exact List.not_mem_nil
  | group ha hb hc hd _ ih => simp [hq ha, hq hb, hq hc, hq hd, ih]
  | one ha hb => simp [hq ha, hq hb]
  | two ha hb hc => simp [hq ha, hq hb, hq hc]

theorem mailB64Vals_cons (h : (b64val c).isSome) (s : CString) :
    mailB64Vals (c :: s) = b64val c :: mailB64Vals s := by
  obtain ⟨v, hv⟩ := Option.isSome_iff_exists.mp h
  have hne : c ≠ '=' := isSome_b64val_ne h (by decide)
  unfold mailB64Vals
  rw [List.filterMap_cons_some (b := b64val c)]
  rw [if_neg hne, hv]
  rfl

theorem mailB64Vals_pad (s : CString) : mailB64Vals ('=' :: s) = none :: mailB64Vals s := rfl

/-- Well-formed text is decoded alike. -/
theorem b64Bytes_eq (h : Base64Text t) : b64Bytes t = mailBase64Decode t := by
  have hpad : b64val '=' = none := by decide
  unfold mailBase64Decode
  induction h with
  | nil => rfl
  | group ha hb hc hd _ ih =>
    rw [mailB64Vals_cons ha, mailB64Vals_cons hb, mailB64Vals_cons hc, mailB64Vals_cons hd]
    obtain ⟨va, hva⟩ := Option.isSome_iff_exists.mp ha
    obtain ⟨vb, hvb⟩ := Option.isSome_iff_exists.mp hb
    obtain ⟨vc, hvc⟩ := Option.isSome_iff_exists.mp hc
    obtain ⟨vd, hvd⟩ := Option.isSome_iff_exists.mp hd
    simp [b64Bytes, mailB64Group, hva, hvb, hvc, hvd, low4, low2, ih]
  | one ha hb =>
    rw [mailB64Vals_cons ha, mailB64Vals_cons hb, mailB64Vals_pad, mailB64Vals_pad]
    obtain ⟨va, hva⟩ := Option.isSome_iff_exists.mp ha
    obtain ⟨vb, hvb⟩ := Option.isSome_iff_exists.mp hb
    simp [b64Bytes, mailB64Group, mailB64Vals, hva, hvb, hpad]
  | two ha hb hc =>
    rw [mailB64Vals_cons ha, mailB64Vals_cons hb, mailB64Vals_cons hc, mailB64Vals_pad]
    obtain ⟨va, hva⟩ := Option.isSome_iff_exists.mp ha
    obtain ⟨vb, hvb⟩ := Option.isSome_iff_exists.mp hb
    obtain ⟨vc, hvc⟩ := Option.isSome_iff_exists.mp hc
    simp [b64Bytes, mailB64Group, mailB64Vals, hva, hvb, hvc, hpad, low4]

theorem latin1ToUtf8Room_append {room : Nat} (h : (latin1ToUtf8 s).length < room) (t : CString) :
    latin1ToUtf8Room room (s ++ t) =
      latin1ToUtf8 s ++ latin1ToUtf8Room (room - (latin1ToUtf8 s).length) t := by
  induction s generalizing room with
  | nil => rfl
  | cons c s ih =>
    unfold latin1ToUtf8 at h ih ⊢
    rw [List.flatMap_cons] at h ⊢
    rw [List.length_append] at h ⊢
    rw [List.cons_append, latin1ToUtf8Room]
    by_cases hc : c.toNat < 128
    · simp only [if_pos hc, List.length_singleton] at h ⊢
      rw [if_neg (by omega), ih (by omega), Nat.sub_sub]
      rfl
    · simp only [if_neg hc, List.length_cons, List.length_nil] at h ⊢
      rw [if_neg (by omega), ih (by omega), Nat.sub_sub]
      rfl

theorem latin1ToUtf8_eq_nil : latin1ToUtf8 s = [] ↔ s = [] := by
  cases s with
  | nil => exact iff_of_true rfl rfl
  | cons c s =>
    refine iff_of_false (fun h => ?_) (List.cons_ne_nil c s)
    unfold latin1ToUtf8 at h
    rw [List.flatMap_cons] at h
    have hhead := (List.append_eq_nil_iff.mp h).1
    split at hhead
    · cases hhead
    · cases hhead

theorem latin1ToUtf8_ascii (h : ∀ c ∈ s, c.toNat < 128) : latin1ToUtf8 s = s := by
  unfold latin1ToUtf8
  induction s with
  | nil => rfl
  | cons c s ih =>
    obtain ⟨hc, hs⟩ := List.forall_mem_cons.mp h
    rw [List.flatMap_cons, if_pos hc, ih hs]
    rfl

theorem latin1_high (h : ¬ c.toNat < 128) :
    128 ≤ (Char.ofNat (0xc0 ||| (c.toNat >>> 6))).toNat ∧
      128 ≤ (Char.ofNat (0x80 ||| (c.toNat &&& 0x3f))).toNat := by
  have hc : c.toNat < 0x110000 := by
    have hvalid : c.toNat.isValidChar := c.valid
    rcases hvalid with hlt | ⟨-, hlt⟩
    · omega
    · exact hlt
  have h1 : 0xc0 ≤ 0xc0 ||| (c.toNat >>> 6) := Nat.left_le_or
  have h2 : 0x80 ≤ 0x80 ||| (c.toNat &&& 0x3f) := Nat.left_le_or
  have h3 : 0xc0 ||| (c.toNat >>> 6) < 2 ^ 15 := by
    apply Nat.or_lt_two_pow
    · decide
    · rw [Nat.shiftRight_eq_div_pow]
      omega
  have h4 : 0x80 ||| (c.toNat &&& 0x3f) < 2 ^ 8 := by
    apply Nat.or_lt_two_pow
    · decide
    · exact Nat.lt_of_le_of_lt Nat.and_le_right (by decide)
  rw [toNat_ofNat (by omega), toNat_ofNat (by omega)]
  exact ⟨by omega, h2⟩

/-- The conversion makes no NUL. -/
theorem nul_notMem_latin1 (h : '\x00' ∉ s) : '\x00' ∉ latin1ToUtf8 s := by
  intro hmem
  obtain ⟨c, hc, hbytes⟩ := List.mem_flatMap.mp hmem
  split at hbytes
  · rw [List.mem_singleton] at hbytes
    exact h (hbytes ▸ hc)
  · rename_i hhigh
    obtain ⟨h1, h2⟩ := latin1_high hhigh
    rw [List.mem_pair] at hbytes
    rcases hbytes with heq | heq
    · rw [← heq] at h1
      exact absurd h1 (by decide)
    · rw [← heq] at h2
      exact absurd h2 (by decide)

theorem stringOf_append (h : '\x00' ∉ s) (t : CString) : stringOf (s ++ t) = s ++ stringOf t := by
  unfold stringOf
  rw [List.takeWhile_append_of_pos]
  intro c hc
  exact decide_eq_true fun heq => h (heq ▸ hc)

theorem stringOf_eq (h : '\x00' ∉ s) : stringOf s = s := by
  have happ := stringOf_append h []
  rwa [List.append_nil, show stringOf [] = [] from rfl, List.append_nil] at happ

theorem nul_notMem_stringOf (s : CString) : '\x00' ∉ stringOf s := by
  intro hmem
  have hne := List.mem_takeWhile_imp (p := fun c => decide (c ≠ '\x00')) hmem
  exact of_decide_eq_true hne rfl

theorem namedCase_iff {names : List String} {charset : CString} : namedCase names charset = true ↔
    ∃ name ∈ names, charset.map Char.toLower = name.toList := by
  unfold namedCase
  rw [List.any_eq_true]
  constructor
  · rintro ⟨name, hname, heq⟩
    exact ⟨name, hname, (of_decide_eq_true heq).symm⟩
  · rintro ⟨name, hname, heq⟩
    exact ⟨name, hname, decide_eq_true heq.symm⟩

/-- The buffer of the name cuts off nothing that matters. -/
theorem namedCase_take {names : List String} (h : ∀ name ∈ names, name.toList.length < 31) (charset : CString) :
    namedCase names (charset.take 31) = namedCase names charset := by
  rw [Bool.eq_iff_iff, namedCase_iff, namedCase_iff]
  constructor
  · rintro ⟨name, hname, heq⟩
    have hlen := h name hname
    rw [← heq, List.length_map, List.length_take] at hlen
    rw [List.take_of_length_le (by omega)] at heq
    exact ⟨name, hname, heq⟩
  · rintro ⟨name, hname, heq⟩
    have hlen := h name hname
    rw [← heq, List.length_map] at hlen
    rw [← List.take_of_length_le (show charset.length ≤ 31 by omega)] at heq
    exact ⟨name, hname, heq⟩

/-- What `bytes_to_utf8` writes when it has room. -/
def newsCharsetToUtf8 (charset bytes : CString) : CString :=
  if namedCase ["iso-8859-1", "latin1", "iso8859-1"] charset then latin1ToUtf8 bytes else bytes

theorem bytesToUtf8_append {charset : CString} {room : Nat}
    (h : (newsCharsetToUtf8 charset s).length < room) (t : CString) :
    bytesToUtf8 (charset.take 31) (s ++ t) room = newsCharsetToUtf8 charset s ++
      bytesToUtf8 (charset.take 31) t (room - (newsCharsetToUtf8 charset s).length) := by
  unfold bytesToUtf8 newsCharsetToUtf8 at *
  rw [namedCase_take (by decide)]
  by_cases hlatin : namedCase ["iso-8859-1", "latin1", "iso8859-1"] charset = true
  · simp only [if_pos hlatin] at h ⊢
    exact latin1ToUtf8Room_append h t
  · simp only [if_neg hlatin] at h ⊢
    rw [List.take_append, List.take_of_length_le (show s.length ≤ room - 1 by omega), Nat.sub_right_comm]

/-- A NUL is written if there is room for it. -/
theorem bytesToUtf8_nul (charset t : CString) {room : Nat} (hroom : 0 < room) :
    bytesToUtf8 charset ('\x00' :: t) room = [] ∧ room = 1 ∨
      ∃ r, bytesToUtf8 charset ('\x00' :: t) room = '\x00' :: r := by
  obtain ⟨n, rfl⟩ := Nat.exists_eq_succ_of_ne_zero (Nat.ne_of_gt hroom)
  cases n with
  | zero =>
    refine .inl ⟨?_, rfl⟩
    unfold bytesToUtf8
    split
    · rfl
    · rfl
  | succ n =>
    refine .inr ?_
    unfold bytesToUtf8
    split
    · exact ⟨_, by rw [latin1ToUtf8Room, if_pos (by decide), if_neg (by omega)]⟩
    · exact ⟨_, rfl⟩

namespace EncodedWord

theorem nul_notMem_bytes (w : EncodedWord) : '\x00' ∉ w.bytes := nul_notMem_stringOf _

theorem nul_notMem_decoded (w : EncodedWord) : '\x00' ∉ w.decoded := by
  unfold decoded mailCharsetToUtf8
  split
  · exact nul_notMem_latin1 w.nul_notMem_bytes
  · exact w.nul_notMem_bytes

theorem decoded_eq_nil (w : EncodedWord) : w.decoded = [] ↔ w.bytes = [] := by
  unfold decoded mailCharsetToUtf8
  split
  · exact latin1ToUtf8_eq_nil
  · exact Iff.rfl

theorem encoding_ne (w : EncodedWord) : w.encoding ≠ '?' := by
  intro heq
  have hknown := w.known
  rw [heq] at hknown
  exact absurd hknown (by decide)

theorem SameCharset.decoded_eq (h : w.SameCharset) : newsCharsetToUtf8 w.charset w.bytes = w.decoded := by
  unfold newsCharsetToUtf8 decoded mailCharsetToUtf8
  rcases h with hsame | hascii
  · rw [hsame]
  · rw [latin1ToUtf8_ascii hascii, ite_self, ite_self]

/-- The word as the news decode it. -/
def newsText (w : EncodedWord) (room : Nat) : CString :=
  bytesToUtf8 (w.charset.take 31) (newsWordBytes w.encoding w.text) room

theorem Alike.newsText_eq (h : w.Alike) {room : Nat} (hroom : w.decoded.length < room) :
    w.newsText room = w.decoded := by
  have hdecoded := h.charset.decoded_eq
  have hfits : (newsCharsetToUtf8 w.charset w.bytes).length < room := by
    rw [hdecoded]
    exact hroom
  have happ := bytesToUtf8_append hfits []
  have hnil : ∀ room, bytesToUtf8 (w.charset.take 31) [] room = [] := by
    intro room
    unfold bytesToUtf8
    rw [List.take_nil, latin1ToUtf8Room, ite_self]
  rw [List.append_nil, hnil, List.append_nil, hdecoded] at happ
  unfold newsText
  rw [h.bytes, happ]

/-- The NUL follows the decoded word, unless the buffer is full. -/
theorem Stops.newsText_eq (h : w.Stops) {room : Nat} (hroom : w.decoded.length < room) :
    w.newsText room = w.decoded ∧ room = w.decoded.length + 1 ∨
      ∃ r, w.newsText room = w.decoded ++ '\x00' :: r := by
  have hdecoded := h.charset.decoded_eq
  obtain ⟨a, b, hsplit, hno⟩ := List.eq_append_cons_of_mem h.nul
  have ha : a = w.bytes := by
    rw [← h.bytes, hsplit, stringOf_append hno]
    exact (List.append_nil a).symm
  have hfits : (newsCharsetToUtf8 w.charset w.bytes).length < room := by
    rw [hdecoded]
    exact hroom
  have happ := bytesToUtf8_append hfits ('\x00' :: b)
  rw [← ha, ← hsplit, ha, hdecoded] at happ
  unfold newsText
  rw [happ]
  rcases bytesToUtf8_nul (w.charset.take 31) b (show 0 < room - w.decoded.length by omega) with
    ⟨hnil, hone⟩ | ⟨r, hr⟩
  · rw [hnil, List.append_nil]
    exact .inl ⟨rfl, by omega⟩
  · exact .inr ⟨r, by rw [hr]⟩

theorem mailWordText (w : EncodedWord) :
    SklaffKom.mailWordText w.encoding w.charset w.text = some w.decoded := by
  unfold SklaffKom.mailWordText decoded bytes wordBytes
  by_cases hb : w.encoding = 'B' ∨ w.encoding = 'b'
  · rw [if_pos hb, if_pos hb]
    rfl
  · have hq : w.encoding = 'Q' ∨ w.encoding = 'q' := by
      have hknown := w.known
      simp only [List.mem_cons, List.not_mem_nil, or_false] at hknown
      rw [not_or] at hb
      rcases hknown with h | h | h
      · exact absurd h hb.1
      · exact absurd h hb.2
      · exact h
    rw [if_neg hb, if_neg hb, if_pos hq]
    rfl

/-- The news read a well-formed word as the mail does. -/
theorem WellFormed.newsBytes (h : w.WellFormed) :
    newsWordBytes w.encoding w.text = wordBytes w.encoding w.text := by
  have hshort := h.short
  unfold newsWordBytes b64DecodeBytes qpDecodeBytes
  unfold wordBytes at hshort ⊢
  rcases h.text with ⟨henc, htext⟩ | ⟨henc, -⟩
  · rw [List.mem_pair] at henc
    rw [if_pos henc] at hshort ⊢
    rw [if_pos (by rcases henc with h | h <;> rw [h] <;> decide), b64Bytes_eq htext]
    exact List.take_of_length_le hshort
  · have hno : ¬ (w.encoding = 'B' ∨ w.encoding = 'b') := by
      rw [List.mem_pair] at henc
      rcases henc with h | h
      · rw [h]
        decide
      · rw [h]
        decide
    rw [if_neg hno] at hshort ⊢
    have hb : w.encoding.toUpper ≠ 'B' ∧ w.encoding.toUpper = 'Q' := by
      rw [List.mem_pair] at henc
      rcases henc with h | h
      · rw [h]
        decide
      · rw [h]
        decide
    rw [if_neg hb.1, if_pos hb.2]
    exact List.take_of_length_le hshort

theorem WellFormed.alike (h : w.WellFormed) : w.Alike where
  bytes := by
    unfold EncodedWord.bytes
    rw [stringOf_eq h.noNul, h.newsBytes]
  charset := by
    left
    obtain ⟨name, hname, heq⟩ := namedCase_iff.mp h.charset
    simp only [List.mem_cons, List.not_mem_nil, or_false] at hname
    unfold namedCase
    rw [heq]
    rcases hname with rfl | rfl | rfl
    · decide
    · decide
    · decide

end EncodedWord

/-! ## One word -/

/-- The text holds no `=?`. -/
def NoMark (t : CString) : Prop := ¬ "=?".toList <:+: t

theorem spelling_append (w : EncodedWord) (s : CString) : w.spelling ++ s =
    '=' :: '?' :: (w.charset ++ '?' :: w.encoding :: '?' :: (w.text ++ ("?=".toList ++ s))) := by
  simp [EncodedWord.spelling]

/-- Text without the two characters is passed over up to them. -/
theorem strstr_pair {a b : Char} (hab : a ≠ b) (h : ¬ [a, b] <:+: t) (s : CString) :
    strstr (t ++ a :: b :: s) [a, b] = some (a :: b :: s) := by
  induction t with
  | nil => exact strstr_at_start ⟨s, rfl⟩
  | cons c t ih =>
    have ht : ¬ [a, b] <:+: t := fun hin => h (hin.trans (List.suffix_cons c t).isInfix)
    have hstart : ¬ [a, b] <+: c :: (t ++ a :: b :: s) := by
      rintro ⟨r, hr⟩
      obtain ⟨rfl, htail⟩ := List.cons.inj hr
      cases t with
      | nil => exact hab (List.cons.inj htail).1.symm
      | cons d t =>
        have hd := (List.cons.inj htail).1
        exact h ⟨[], t, by rw [← hd]; rfl⟩
    rw [List.cons_append, strstr_cons_of_not_start hstart]
    exact ih ht

theorem strstr_text (w : EncodedWord) (s : CString) :
    strstr (w.text ++ ("?=".toList ++ s)) "?=".toList = some ("?=".toList ++ s) :=
  strstr_pair (by decide) w.textEnd s

/-- The mail import decodes a word. -/
theorem mailDecodeEncodedWord_word (w : EncodedWord) (s : CString) :
    mailDecodeEncodedWord (w.spelling ++ s) = some (w.decoded, s) := by
  rw [spelling_append, mailDecodeEncodedWord]
  simp only [strchr_append w.charsetEnd, bind, Option.bind_some, before_append]
  rw [if_neg w.named]
  simp only [List.tail_cons, strstr_text, Option.bind_some, before_append]
  rw [w.mailWordText]
  rfl

/-- Nothing is written when the buffer is full. -/
theorem rfc2047Loop_full {room : Nat} (h : room ≤ 1) (fuel : Nat) (p : CString) :
    rfc2047Loop fuel room p = [] := by
  cases fuel with
  | zero => rfl
  | succ fuel => rw [rfc2047Loop, if_pos (.inr h)]

/-- The news import finds a word and copies the text in front of it. -/
theorem rfc2047Loop_found (h : NoMark t) (w : EncodedWord) (s : CString) (fuel : Nat) {room : Nat}
    (hstop : ¬ room ≤ 1) (ht : t.length < room) :
    rfc2047Loop (fuel + 1) room (t ++ (w.spelling ++ s)) = t ++ (w.newsText (room - t.length) ++
      rfc2047Loop fuel (room - t.length - (w.newsText (room - t.length)).length) (glueWords s)) := by
  rw [spelling_append, rfc2047Loop]
  have hcond : ¬ (t ++ '=' :: '?' :: (w.charset ++ '?' :: w.encoding :: '?' ::
      (w.text ++ ("?=".toList ++ s))) = [] ∨ room ≤ 1) := by simp [hstop]
  have hq2 : strchr (w.encoding :: '?' :: (w.text ++ ("?=".toList ++ s))) '?' =
      some ('?' :: (w.text ++ ("?=".toList ++ s))) :=
    strchr_append (a := [w.encoding]) (by simp [w.encoding_ne.symm])
  have hrest : ("?=".toList ++ s).drop 2 = s := rfl
  have hmark : strstr (t ++ '=' :: '?' :: (w.charset ++ '?' :: w.encoding :: '?' ::
      (w.text ++ ("?=".toList ++ s)))) "=?".toList = some ('=' :: '?' :: (w.charset ++ '?' :: w.encoding :: '?' ::
      (w.text ++ ("?=".toList ++ s)))) := strstr_pair (by decide) h _
  rw [if_neg hcond, hmark]
  simp only [before_append, List.drop_succ_cons, List.drop_zero, strchr_append w.charsetEnd, List.tail_cons,
    hq2, strstr_text, List.headD_cons, hrest]
  rw [List.take_of_length_le (show t.length ≤ room - 1 by omega)]
  rfl

/-- A word read alike is decoded, if there is room. -/
theorem rfc2047Loop_word (h : NoMark t) (hw : w.Alike) (s : CString) {fuel room : Nat}
    (hroom : t.length + w.decoded.length < room) :
    rfc2047Loop (fuel + 1) room (t ++ (w.spelling ++ s)) =
      t ++ (w.decoded ++ rfc2047Loop fuel (room - t.length - w.decoded.length) (glueWords s)) := by
  by_cases hstop : room ≤ 1
  · have ht : t = [] := List.length_eq_zero_iff.mp (by omega)
    have hempty : w.decoded = [] := List.length_eq_zero_iff.mp (by omega)
    rw [rfc2047Loop_full hstop, rfc2047Loop_full (by omega), ht, hempty]
    rfl
  · rw [rfc2047Loop_found h w s fuel hstop (by omega), hw.newsText_eq (by omega)]

/-- A word with a NUL ends the value. -/
theorem rfc2047Loop_stop (h : NoMark t) (hnul : '\x00' ∉ t) (hw : w.Stops) (s : CString) {fuel room : Nat}
    (hroom : t.length + w.decoded.length < room) :
    stringOf (rfc2047Loop (fuel + 1) room (t ++ (w.spelling ++ s))) = t ++ w.decoded := by
  by_cases hstop : room ≤ 1
  · have ht : t = [] := List.length_eq_zero_iff.mp (by omega)
    have hempty : w.decoded = [] := List.length_eq_zero_iff.mp (by omega)
    rw [rfc2047Loop_full hstop, ht, hempty]
    rfl
  · rw [rfc2047Loop_found h w s fuel hstop (by omega), stringOf_append hnul]
    rcases hw.newsText_eq (show w.decoded.length < room - t.length by omega) with ⟨heq, hone⟩ | ⟨r, heq⟩
    · rw [heq, rfc2047Loop_full (by omega), List.append_nil, stringOf_eq w.nul_notMem_decoded]
    · rw [heq, List.append_assoc, stringOf_append w.nul_notMem_decoded]
      exact congrArg (t ++ ·) (List.append_nil w.decoded)

theorem not_mark_start (h : NoMark t) (hne : t ≠ []) (s : CString) : ¬ "=?".toList <+: t ++ '=' :: s := by
  obtain ⟨c, t, rfl⟩ := List.exists_cons_of_ne_nil hne
  rintro ⟨r, hr⟩
  obtain ⟨rfl, htail⟩ := List.cons.inj hr
  cases t with
  | nil => exact absurd (List.cons.inj htail).1 (by decide)
  | cons d t =>
    have hd := (List.cons.inj htail).1
    exact h ⟨[], t, by rw [← hd]; rfl⟩

theorem NoMark.suffix (h : NoMark t) (hs : s <:+ t) : NoMark s :=
  fun hin => h (hin.trans hs.isInfix)

theorem noMark_of_space (h : t.all isSpace = true) : NoMark t := by
  intro hin
  have hmem : '=' ∈ t := hin.subset (by decide)
  exact absurd (List.all_eq_true.mp h '=' hmem) (by decide)

theorem noMark_nil : NoMark [] := by
  intro h
  exact absurd (List.infix_nil.mp h) (by decide)

theorem glueWords_word (h : NoMark t) (s : CString) :
    glueWords (t ++ '=' :: '?' :: s) =
      (if t.all isBlank then [] else t) ++ '=' :: '?' :: s := by
  unfold glueWords
  by_cases hall : t.all isBlank = true
  · have hdrop : (t ++ '=' :: '?' :: s).dropWhile isBlank = '=' :: '?' :: s := by
      rw [List.dropWhile_append_of_pos (List.all_eq_true.mp hall)]
      rfl
    rw [hdrop, if_pos hall]
    rfl
  · rw [if_neg hall]
    have hne : t.dropWhile isBlank ≠ [] := by
      intro hnil
      exact hall (List.all_eq_true.mpr (List.dropWhile_eq_nil_iff.mp hnil))
    have hdrop : (t ++ '=' :: '?' :: s).dropWhile isBlank =
        t.dropWhile isBlank ++ '=' :: '?' :: s := by
      rw [List.dropWhile_append, if_neg (by simpa using hne)]
    have hstart := not_mark_start (h.suffix (List.dropWhile_suffix isBlank)) hne ('?' :: s)
    rw [hdrop]
    exact if_neg fun hp => hstart (List.isPrefixOf_iff_prefix.mp hp)

/-- What `mail_decode_encoded_word_dup` does not begin with `=?` is no word. -/
theorem mailDecodeEncodedWord_none (h : ¬ "=?".toList <+: s) : mailDecodeEncodedWord s = none := by
  unfold mailDecodeEncodedWord
  split
  · exact absurd ⟨_, rfl⟩ h
  · rfl

/-- The mail import goes over the text in front of a word, and decodes the word. -/
theorem mailRfc2047Loop_word (h : NoMark t) (w : EncodedWord) (s : CString) (last : Bool) {fuel : Nat}
    (hfuel : (t ++ (w.spelling ++ s)).length < fuel) :
    ∃ fuel', s.length < fuel' ∧ mailRfc2047Loop fuel last (t ++ (w.spelling ++ s)) =
      (if last && t.all isSpace then [] else t) ++ (w.decoded ++ mailRfc2047Loop fuel' true s) := by
  induction fuel generalizing t last with
  | zero => omega
  | succ fuel ih =>
    cases t with
    | nil =>
      refine ⟨fuel, ?_, ?_⟩
      · rw [spelling_append] at hfuel
        simp only [List.nil_append, List.length_cons, List.length_append] at hfuel
        omega
      · have hword := mailDecodeEncodedWord_word w s
        rw [spelling_append] at hword
        rw [List.nil_append, spelling_append, mailRfc2047Loop, hword]
        simp
    | cons c t =>
      have hnone : mailDecodeEncodedWord (c :: (t ++ (w.spelling ++ s))) = none := by
        apply mailDecodeEncodedWord_none
        rw [spelling_append, ← List.cons_append]
        exact not_mark_start h (List.cons_ne_nil c t) _
      have hsome : (mailDecodeEncodedWord (w.spelling ++ s)).isSome = true := by
        rw [mailDecodeEncodedWord_word]
        rfl
      have ht : NoMark t := h.suffix (List.suffix_cons c t)
      rw [List.cons_append, List.length_cons] at hfuel
      rw [List.cons_append, mailRfc2047Loop, hnone]
      dsimp only
      by_cases hc : isSpace c = true
      · rw [if_pos hc, List.all_cons, hc, Bool.true_and]
        by_cases hall : t.all isSpace = true
        · -- only white space in front of the word
          have hdrop : (t ++ (w.spelling ++ s)).dropWhile isSpace = w.spelling ++ s := by
            rw [List.dropWhile_append_of_pos (List.all_eq_true.mp hall), spelling_append]
            rfl
          have htake : (t ++ (w.spelling ++ s)).takeWhile isSpace = t := by
            rw [List.takeWhile_append_of_pos (List.all_eq_true.mp hall), spelling_append]
            exact List.append_nil t
          rw [hdrop, htake, hsome, hall, Bool.true_and, Bool.and_true]
          rw [List.length_append] at hfuel
          cases last with
          | true =>
            obtain ⟨fuel', hfuel', heq⟩ := ih noMark_nil true (by rw [List.nil_append]; omega)
            exact ⟨fuel', hfuel', heq⟩
          | false =>
            obtain ⟨fuel', hfuel', heq⟩ := ih noMark_nil false (by rw [List.nil_append]; omega)
            rw [List.nil_append] at heq
            refine ⟨fuel', hfuel', ?_⟩
            rw [if_neg (by simp), if_neg (by simp), heq]
            rfl
        · have hne : t.dropWhile isSpace ≠ [] := by
            intro hnil
            exact hall (List.all_eq_true.mpr (List.dropWhile_eq_nil_iff.mp hnil))
          have hdrop : (t ++ (w.spelling ++ s)).dropWhile isSpace =
              t.dropWhile isSpace ++ (w.spelling ++ s) := by
            rw [List.dropWhile_append, if_neg (by simpa using hne)]
          have htake : (t ++ (w.spelling ++ s)).takeWhile isSpace = t.takeWhile isSpace := by
            rw [List.takeWhile_append, if_neg]
            intro hlen
            have hsplit := List.takeWhile_append_dropWhile (p := isSpace) (l := t)
            have hsum := congrArg List.length hsplit
            rw [List.length_append, hlen] at hsum
            exact hne (List.length_eq_zero_iff.mp (by omega))
          have hrest := ht.suffix (List.dropWhile_suffix isSpace)
          have hnoword : mailDecodeEncodedWord (t.dropWhile isSpace ++ (w.spelling ++ s)) = none := by
            apply mailDecodeEncodedWord_none
            rw [spelling_append]
            exact not_mark_start hrest hne _
          have hle := (List.dropWhile_suffix (l := t) isSpace).length_le
          obtain ⟨fuel', hfuel', heq⟩ := ih hrest false (by
            rw [List.length_append] at hfuel ⊢
            omega)
          refine ⟨fuel', hfuel', ?_⟩
          rw [hdrop, htake, hnoword, (Bool.not_eq_true _).mp hall, Bool.and_false]
          rw [Bool.false_and, if_neg (by simp)] at heq
          rw [if_neg (by simp), if_neg (by simp), heq, List.cons_append, ← List.append_assoc,
            List.takeWhile_append_dropWhile]
          rfl
      · rw [if_neg hc, List.all_cons, (Bool.not_eq_true _).mp hc, Bool.false_and, Bool.and_false,
          if_neg (by simp)]
        obtain ⟨fuel', hfuel', heq⟩ := ih ht false (by omega)
        refine ⟨fuel', hfuel', ?_⟩
        rw [heq]
        rfl

end SklaffKom
