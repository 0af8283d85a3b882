import SklaffKom.Rfc2047

/-!
# Header values with encoded words

Where the two decoders of encoded words agree: every `=?` of a value has to begin a word in which both
find the same bytes.
-/

open CString

namespace SklaffKom

variable {s t z : CString} {w : EncodedWord} {c : Char}

/-! ## A header value -/

/-- Plain text and well-formed words in turn; blanks are a part of the text. -/
structure HeaderValue where
  pairs : List (CString × EncodedWord)
  last : CString
  wellFormed : ∀ q ∈ pairs, q.2.WellFormed

/-- Pairs of text and words, and a text behind them. -/
def wordsText : List (CString × EncodedWord) → CString → CString
  | [], z => z
  | (t, w) :: ps, z => t ++ (w.spelling ++ wordsText ps z)

def HeaderValue.text (x : HeaderValue) : CString := wordsText x.pairs x.last

/-- The pairs decoded; `after` a word, a text of `p` in front of another word is dropped. -/
def joinWords (p : Char → Bool) : Bool → List (CString × EncodedWord) → CString
  | _, [] => []
  | after, (t, w) :: ps => (if after && t.all p then [] else t) ++ (w.decoded ++ joinWords p true ps)

def HeaderValue.joined (p : Char → Bool) (x : HeaderValue) : CString :=
  joinWords p false x.pairs ++ x.last

variable {ps : List (CString × EncodedWord)}

theorem wordsText_append (ps : List (CString × EncodedWord)) (t : CString) (w : EncodedWord) (s : CString) :
    wordsText (ps ++ [(t, w)]) s = wordsText ps (t ++ (w.spelling ++ s)) := by
  induction ps with
  | nil => rfl
  | cons q ps ih => rw [List.cons_append, wordsText, wordsText, ih]

theorem joinWords_append (p : Char → Bool) (after : Bool) (ps : List (CString × EncodedWord)) (t : CString)
    (w : EncodedWord) : joinWords p after (ps ++ [(t, w)]) =
      joinWords p after ps ++ ((if (after || !ps.isEmpty) && t.all p then [] else t) ++ w.decoded) := by
  induction ps generalizing after with
  | nil =>
    rw [List.nil_append, joinWords, joinWords, joinWords, List.append_nil, List.isEmpty_nil, Bool.not_true,
      Bool.or_false]
    rfl
  | cons q ps ih =>
    rw [List.cons_append, joinWords, joinWords, ih]
    simp

/-- Where the loop goes on behind a word. -/
def glueIf (after : Bool) (p : CString) : CString := if after then glueWords p else p

theorem glueIf_word (h : NoMark t) (after : Bool) (w : EncodedWord) (s : CString) :
    glueIf after (t ++ (w.spelling ++ s)) =
      (if after && t.all isBlank then [] else t) ++ (w.spelling ++ s) := by
  cases after with
  | false => rfl
  | true =>
    rw [spelling_append]
    exact glueWords_word h _

theorem rfc2047Loop_words (hps : ∀ q ∈ ps, NoMark q.1 ∧ q.2.Alike) (after : Bool) {fuel room : Nat}
    (hfuel : (wordsText ps z).length < fuel) (hroom : (joinWords isBlank after ps).length < room) :
    ∃ fuel', z.length < fuel' ∧ rfc2047Loop fuel room (glueIf after (wordsText ps z)) =
      joinWords isBlank after ps ++ rfc2047Loop fuel' (room - (joinWords isBlank after ps).length)
        (glueIf (after || !ps.isEmpty) z) := by
  induction ps generalizing after fuel room with
  | nil =>
    refine ⟨fuel, hfuel, ?_⟩
    simp [wordsText, joinWords]
  | cons q ps ih =>
    obtain ⟨t, w⟩ := q
    obtain ⟨⟨ht, hw⟩, hps⟩ := List.forall_mem_cons.mp hps
    have hw : w.Alike := hw
    rw [wordsText] at hfuel ⊢
    rw [joinWords] at hroom ⊢
    rw [glueIf_word ht]
    have hgap : NoMark (if after && t.all isBlank then [] else t) := by
      split
      · exact noMark_nil
      · exact ht
    revert hroom hgap
    generalize (if (after && t.all isBlank) = true then [] else t) = gap
    intro hroom hgap
    cases fuel with
    | zero => omega
    | succ fuel =>
      rw [spelling_append] at hfuel
      simp only [List.length_append, List.length_cons] at hfuel hroom
      obtain ⟨fuel', hfuel', heq⟩ := @ih hps true fuel
        (room - gap.length - w.decoded.length) (by omega) (by omega)
      refine ⟨fuel', hfuel', ?_⟩
      rw [rfc2047Loop_word hgap hw _ (by omega)]
      have hglue : glueIf true (wordsText ps z) = glueWords (wordsText ps z) := rfl
      rw [← hglue, heq]
      simp [Nat.sub_sub, Nat.add_assoc]

theorem mailRfc2047Loop_words (hps : ∀ q ∈ ps, NoMark q.1) (after : Bool) {fuel : Nat}
    (hfuel : (wordsText ps z).length < fuel) :
    ∃ fuel', z.length < fuel' ∧ mailRfc2047Loop fuel after (wordsText ps z) =
      joinWords isSpace after ps ++ mailRfc2047Loop fuel' (after || !ps.isEmpty) z := by
  induction ps generalizing after fuel with
  | nil =>
    refine ⟨fuel, hfuel, ?_⟩
    simp [wordsText, joinWords]
  | cons q ps ih =>
    obtain ⟨t, w⟩ := q
    obtain ⟨ht, hps⟩ := List.forall_mem_cons.mp hps
    rw [wordsText] at hfuel ⊢
    obtain ⟨fuel1, hfuel1, heq1⟩ := mailRfc2047Loop_word ht w (wordsText ps z) after hfuel
    obtain ⟨fuel', hfuel', heq⟩ := ih hps true hfuel1
    refine ⟨fuel', hfuel', ?_⟩
    rw [heq1, heq, joinWords]
    simp

/-! ## Plain text -/

/-- The text holds no encoded word. -/
def PlainText (s : CString) : Prop := ∀ w : EncodedWord, ¬ w.spelling <:+: s

theorem notInfix_of_strstr {pat : CString} (hne : pat ≠ []) (h : strstr (s ++ t) pat = some t) :
    ¬ pat <:+: s := by
  intro hin
  obtain ⟨u, hu⟩ := exists_strstr hin
  rw [strstr_append hu] at h
  obtain ⟨hpre, -⟩ := strstr_eq_some hu
  have hnil : u = [] := List.append_left_eq_self.mp (Option.some.inj h)
  rw [hnil] at hpre
  exact hne (List.prefix_nil.mp hpre)

/-- What the mail import decodes is a word. -/
theorem exists_word_of_decode {word rest : CString} (h : mailDecodeEncodedWord s = some (word, rest)) :
    ∃ w : EncodedWord, s = w.spelling ++ rest ∧ word = w.decoded := by
  unfold mailDecodeEncodedWord at h
  split at h
  · rename_i start
    simp only [bind, Option.bind_eq_some_iff] at h
    obtain ⟨charsetEnd, hend, h⟩ := h
    obtain ⟨charset, r, rfl, rfl, hno⟩ := strchr_split hend
    rw [before_append] at h
    split at h
    · cases h
    · rename_i hne
      split at h
      · rename_i encoding textStart htail
        rw [List.tail_cons] at htail
        simp only [Option.bind_eq_some_iff] at h
        obtain ⟨textEnd, htext, word', hword, h⟩ := h
        obtain ⟨⟨r', rfl⟩, text, rfl⟩ := strstr_eq_some htext
        obtain ⟨rfl, rfl⟩ := Prod.mk.inj (Option.some.inj h)
        have hknown : encoding ∈ ['B', 'b', 'Q', 'q'] := by
          unfold mailWordText at hword
          by_cases hb : encoding = 'B' ∨ encoding = 'b'
          · rcases hb with rfl | rfl
            · decide
            · decide
          · by_cases hq : encoding = 'Q' ∨ encoding = 'q'
            · rcases hq with rfl | rfl
              · decide
              · decide
            · rw [if_neg hb, if_neg hq] at hword
              cases hword
        let w : EncodedWord := ⟨charset, encoding, text, hne, hno, hknown, notInfix_of_strstr (by decide) htext⟩
        refine ⟨w, ?_, ?_⟩
        · rw [htail, spelling_append]
          rfl
        · rw [before_append] at hword
          exact Option.some.inj (hword.symm.trans w.mailWordText)
      · cases h
  · cases h

theorem PlainText.decode (h : PlainText z) (hs : s <:+ z) : mailDecodeEncodedWord s = none := by
  cases hd : mailDecodeEncodedWord s with
  | none => rfl
  | some q =>
    obtain ⟨w, rfl, -⟩ := exists_word_of_decode hd
    exact absurd ((List.prefix_append _ _).isInfix.trans hs.isInfix) (h w)

theorem NoMark.plain (h : NoMark z) : PlainText z := by
  intro w hin
  refine h (List.IsInfix.trans ?_ hin)
  have hspelling := spelling_append w []
  rw [List.append_nil] at hspelling
  rw [hspelling]
  exact (List.prefix_append "=?".toList _).isInfix

/-- The mail import keeps plain text. -/
theorem mailRfc2047Loop_plain (h : PlainText z) (last : Bool) {fuel : Nat} (hfuel : z.length < fuel) :
    mailRfc2047Loop fuel last z = z := by
  induction fuel generalizing z last with
  | zero => omega
  | succ fuel ih =>
    cases z with
    | nil => rfl
    | cons c z =>
      have hz : PlainText z := fun w hin => h w (hin.trans (List.suffix_cons c z).isInfix)
      rw [List.length_cons] at hfuel
      rw [mailRfc2047Loop, h.decode (List.suffix_refl _)]
      dsimp only
      by_cases hc : isSpace c = true
      · have hdrop := List.dropWhile_suffix (l := z) isSpace
        have hplain : PlainText (z.dropWhile isSpace) := fun w hin => hz w (hin.trans hdrop.isInfix)
        have hle := hdrop.length_le
        rw [if_pos hc, hz.decode hdrop]
        simp only [Option.isSome_none, Bool.false_and, Bool.false_eq_true, if_false]
        rw [ih hplain false (by omega), List.cons_append, List.takeWhile_append_dropWhile]
      · rw [if_neg hc, ih hz false (by omega)]

theorem glueWords_plain (h : NoMark z) : glueWords z = z := by
  unfold glueWords
  refine if_neg fun hp => ?_
  have hstart := (List.isPrefixOf_iff_prefix.mp hp).isInfix
  exact h (hstart.trans (List.dropWhile_suffix isBlank).isInfix)

/-- The news import keeps text without `=?`. -/
theorem rfc2047Loop_plain (h : NoMark z) {fuel room : Nat} (hfuel : z.length < fuel)
    (hroom : z.length < room) : rfc2047Loop fuel room z = z := by
  cases fuel with
  | zero => omega
  | succ fuel =>
    rw [rfc2047Loop, strstr_none h]
    split
    · rename_i hstop
      rcases hstop with rfl | hfull
      · rfl
      · exact (List.length_eq_zero_iff.mp (by omega)).symm
    · exact List.take_of_length_le (by omega)

/-! ## Bytes of the result -/

def asciiCount (s : CString) : Nat := s.countP fun c => c.toNat < 128

theorem asciiCount_append (s t : CString) : asciiCount (s ++ t) = asciiCount s + asciiCount t :=
  List.countP_append

theorem asciiCount_cons (c : Char) (s : CString) :
    asciiCount (c :: s) = asciiCount s + if c.toNat < 128 then 1 else 0 := by
  unfold asciiCount
  rw [List.countP_cons]
  simp only [decide_eq_true_eq]

theorem asciiCount_le (h : s.Sublist t) : asciiCount s ≤ asciiCount t := h.countP_le

theorem asciiCount_latin1Room (room : Nat) (s : CString) :
    asciiCount (latin1ToUtf8Room room s) ≤ asciiCount s := by
  induction s generalizing room with
  | nil => exact Nat.le_refl 0
  | cons c s ih =>
    rw [latin1ToUtf8Room, asciiCount_cons]
    by_cases hc : c.toNat < 128
    · rw [if_pos hc, if_pos hc]
      split
      · exact Nat.zero_le _
      · have hs := ih (room - 1)
        rw [asciiCount_cons, if_pos hc]
        omega
    · rw [if_neg hc, if_neg hc]
      split
      · exact Nat.zero_le _
      · have hs := ih (room - 2)
        obtain ⟨h1, h2⟩ := latin1_high hc
        rw [asciiCount_cons, asciiCount_cons, if_neg (by omega), if_neg (by omega)]
        omega

theorem toNat_lt_of_b64val (h : (b64val c).isSome) : c.toNat < 128 := by
  unfold b64val at h
  split at h
  · rename_i hc
    exact Nat.lt_of_le_of_lt hc.2 (by decide)
  split at h
  · rename_i hc
    exact Nat.lt_of_le_of_lt hc.2 (by decide)
  split at h
  · rename_i hc
    exact Nat.lt_of_le_of_lt hc.2 (by decide)
  split at h
  · rename_i hc
    rw [hc]
    decide
  split at h
  · rename_i hc
    rw [hc]
    decide
  · cases h

theorem asciiCount_b64Bytes (s : CString) : asciiCount (b64Bytes s) ≤ asciiCount s := by
  fun_induction b64Bytes s with
  | case1 a b c d r va vb hva hvb ih =>
    have ha := toNat_lt_of_b64val (c := a) (by rw [hvb]; rfl)
    have hb := toNat_lt_of_b64val (c := b) (by rw [hva]; rfl)
    have hone : ∀ e : Char, asciiCount [e] ≤ 1 := fun e => List.countP_le_length
    rw [← List.singleton_append, asciiCount_append, asciiCount_append, asciiCount_append,
      asciiCount_cons a, asciiCount_cons b, asciiCount_cons c, asciiCount_cons d, if_pos ha, if_pos hb]
    have hfirst := hone (Char.ofNat ((va <<< 2) ||| (vb >>> 4)))
    -- each of the two other digits is a character when it makes one
    refine Nat.le_trans (Nat.add_le_add_left (Nat.add_le_add (Nat.add_le_add
      (?_ : _ ≤ if c.toNat < 128 then 1 else 0) (?_ : _ ≤ if d.toNat < 128 then 1 else 0)) ih) _) ?_
    · split
      · rename_i vc hvc
        rw [if_pos (toNat_lt_of_b64val (by rw [hvc]; rfl))]
        exact hone _
      · exact Nat.zero_le _
    · split
      · rename_i vd hvd
        rw [if_pos (toNat_lt_of_b64val (by rw [hvd]; rfl))]
        exact hone _
      · exact Nat.zero_le _
    · omega
  | case2 => exact Nat.zero_le _
  | case3 => exact Nat.zero_le _

theorem asciiCount_qp (s : CString) : asciiCount (mailQDecodeWord s) ≤ asciiCount s := by
  have hone : ∀ c : Char, asciiCount [c] ≤ 1 := fun c => List.countP_le_length
  fun_induction mailQDecodeWord s with
  | case1 a b r h1 h2 hb ha ih =>
    rw [← List.singleton_append, asciiCount_append, asciiCount_cons '=', asciiCount_cons a,
      asciiCount_cons b, if_pos (show '='.toNat < 128 by decide)]
    have hfirst := hone (Char.ofNat ((h1 <<< 4) ||| h2))
    omega
  | case2 a b r h ih =>
    rw [asciiCount_cons, asciiCount_cons '=' (a :: b :: r)]
    omega
  | case3 c r h ih =>
    have hchar : ((if c = '_' then ' ' else c).toNat < 128) ↔ c.toNat < 128 := by
      by_cases hc : c = '_'
      · rw [if_pos hc, hc]
        decide
      · rw [if_neg hc]
    rw [asciiCount_cons, asciiCount_cons c r, if_congr hchar rfl rfl]
    omega
  | case4 => exact Nat.le_refl 0

/-- A decoded word has no more ASCII characters than its text. -/
theorem asciiCount_word (charset : CString) (enc : Char) (payload : CString) (room : Nat) :
    asciiCount (bytesToUtf8 charset (newsWordBytes enc payload) room) ≤ asciiCount payload := by
  have hbytes : asciiCount (newsWordBytes enc payload) ≤ asciiCount payload := by
    unfold newsWordBytes b64DecodeBytes qpDecodeBytes
    split
    · exact (asciiCount_le (List.take_sublist _ _)).trans (asciiCount_b64Bytes payload)
    split
    · exact (asciiCount_le (List.take_sublist _ _)).trans (asciiCount_qp payload)
    · exact asciiCount_le (List.take_sublist _ _)
  unfold bytesToUtf8
  split
  · exact (asciiCount_latin1Room room _).trans hbytes
  · exact (asciiCount_le (List.take_sublist _ _)).trans hbytes

theorem glueWords_suffix (p : CString) : glueWords p <:+ p := by
  unfold glueWords
  dsimp only
  split
  · exact List.dropWhile_suffix isBlank
  · exact List.suffix_refl p

/-- Each `=?` costs two characters, and no character is made. -/
theorem asciiCount_rfc2047Loop (fuel room : Nat) (p : CString) :
    asciiCount (rfc2047Loop fuel room p) ≤ asciiCount p ∧
      ("=?".toList <:+: p → asciiCount (rfc2047Loop fuel room p) < asciiCount p) := by
  have hmark : asciiCount "=?".toList = 2 := by decide
  have hpos : ∀ p : CString, "=?".toList <:+: p → 0 < asciiCount p := by
    intro p h
    have hle := asciiCount_le h.sublist
    omega
  induction fuel generalizing room p with
  | zero => exact ⟨Nat.zero_le _, hpos p⟩
  | succ fuel ih =>
    have hle : ∀ (room : Nat) (q r : CString), q <:+ r →
        asciiCount (rfc2047Loop fuel room q) ≤ asciiCount r := fun room q r h =>
      (ih room q).1.trans (asciiCount_le h.sublist)
    rw [rfc2047Loop]
    split
    · exact ⟨Nat.zero_le _, hpos p⟩
    split
    · rename_i hnone
      refine ⟨asciiCount_le (List.take_sublist _ _), fun h => ?_⟩
      obtain ⟨t, ht⟩ := exists_strstr h
      rw [hnone] at ht
      cases ht
    · rename_i start hstart
      obtain ⟨⟨r, rfl⟩, a, rfl⟩ := strstr_eq_some hstart
      have hdrop : ("=?".toList ++ r).drop 2 = r := rfl
      have hlit : asciiCount ((before (a ++ ("=?".toList ++ r)) ("=?".toList ++ r)).take (room - 1)) ≤
          asciiCount a := by
        rw [before_append]
        exact asciiCount_le (List.take_sublist _ _)
      -- what is written behind the literal text comes from what is behind `=?`
      suffices hrest : ∀ X : CString, asciiCount X ≤ asciiCount r → ∀ lit : CString,
          asciiCount lit ≤ asciiCount a → asciiCount (lit ++ X) ≤ asciiCount (a ++ ("=?".toList ++ r)) ∧
            ("=?".toList <:+: a ++ ("=?".toList ++ r) →
              asciiCount (lit ++ X) < asciiCount (a ++ ("=?".toList ++ r))) by
        refine hrest _ ?_ _ hlit
        rw [hdrop]
        split
        · exact (ih _ r).1
        · rename_i q1 hq1
          obtain ⟨charset, q1', rfl, rfl, -⟩ := strchr_split hq1
          split
          · exact hle _ _ _ ((List.suffix_cons '?' q1').trans (List.suffix_append _ _))
          · rename_i q2 hq2
            obtain ⟨enc, q2', hq2s, rfl, -⟩ := strchr_split hq2
            rw [List.tail_cons] at hq2s
            have hsuffix : q2' <:+ charset ++ '?' :: q1' := by
              rw [hq2s]
              exact (List.suffix_cons '?' q2').trans ((List.suffix_append enc _).trans
                ((List.suffix_cons '?' _).trans (List.suffix_append charset _)))
            split
            · exact hle _ _ _ hsuffix
            · rename_i q3 hq3
              obtain ⟨⟨u, rfl⟩, payload, hq3s⟩ := strstr_eq_some hq3
              rw [List.tail_cons] at hq3s
              rw [List.tail_cons, List.tail_cons, hq3s, before_append payload, asciiCount_append]
              refine Nat.le_trans (Nat.add_le_add (asciiCount_word _ _ _ _)
                (hle _ (glueWords u) u (glueWords_suffix u))) ?_
              have hsub := asciiCount_le hsuffix.sublist
              rw [hq3s, asciiCount_append, asciiCount_append] at hsub
              omega
      intro X hX lit hlit
      rw [asciiCount_append, asciiCount_append, asciiCount_append, hmark]
      exact ⟨by omega, fun _ => by omega⟩

/-! ## Agreement -/

/-- The text holds no well-formed word. -/
def NoWord (s : CString) : Prop := ∀ w : EncodedWord, w.WellFormed → ¬ w.spelling <:+: s

/-- The decoders agree on a value, and leave it alone when it holds no word. -/
structure DecodersAgree (outlen : Nat) (x : HeaderValue) : Prop where
  agree : rfc2047Decode outlen x.text = mailRfc2047Decode x.text
  unchanged : x.pairs = [] → NoWord x.last →
    rfc2047Decode outlen x.last = x.last ∧ mailRfc2047Decode x.last = x.last

/-- The value is a C string, and what it stands for fits the output buffer. -/
structure HeaderValue.Fits (outlen : Nat) (x : HeaderValue) : Prop where
  noNul : '\x00' ∉ x.text
  fits : (x.joined isBlank).length < outlen

/-- Each text is followed by a word that both decoders find and read alike. -/
def WordsAlike (ps : List (CString × EncodedWord)) : Prop := ∀ q ∈ ps, NoMark q.1 ∧ q.2.Alike

/-- White space between two words is blanks. -/
def BlankGaps (ps : List (CString × EncodedWord)) : Prop :=
  ∀ q ∈ ps.tail, q.1.all isSpace = true → q.1.all isBlank = true

/-- Words without a text, and white space between them. -/
inductive Silent : CString → Prop
  | nil : Silent []
  | word {t s : CString} {w : EncodedWord} (ht : t.all isSpace = true) (hw : w.bytes = []) (hs : Silent s) :
      Silent (t ++ (w.spelling ++ s))

/-- Every `=?` begins a word that both decoders read alike, up to the end or to a word with a NUL
with nothing behind it. -/
inductive MarksAlike (outlen : Nat) : CString → Prop
  | toEnd {ps : List (CString × EncodedWord)} {z : CString} (hwords : WordsAlike ps) (hlast : NoMark z)
      (hgaps : BlankGaps ps) (hfits : (joinWords isBlank false ps ++ z).length < outlen) :
      MarksAlike outlen (wordsText ps z)
  | toNul {ps : List (CString × EncodedWord)} {t s : CString} {w : EncodedWord} (hwords : WordsAlike ps)
      (ht : NoMark t) (hw : w.Stops) (hs : Silent s) (hgaps : BlankGaps (ps ++ [(t, w)]))
      (hfits : (joinWords isBlank false (ps ++ [(t, w)])).length < outlen) :
      MarksAlike outlen (wordsText (ps ++ [(t, w)]) s)

/-- Every `=?` of the value begins a word that both decoders read alike; of its well-formed words, if
it holds none. -/
structure HeaderValue.ReadAlike (outlen : Nat) (x : HeaderValue) : Prop where
  words : MarksAlike outlen x.text
  plain : x.pairs = [] → NoWord x.last → NoMark x.last

/-- No word follows the first `=?` that does not begin a word read alike. -/
inductive MissesLast (outlen : Nat) : CString → Prop
  | toEnd {ps : List (CString × EncodedWord)} {z : CString} (hwords : WordsAlike ps)
      (hlast : NoMark z ∨ BlankGaps ps ∧ PlainText z)
      (hfits : (joinWords isBlank false ps ++ z).length < outlen) : MissesLast outlen (wordsText ps z)
  | toNul {ps : List (CString × EncodedWord)} {t s : CString} {w : EncodedWord} (hwords : WordsAlike ps)
      (ht : NoMark t) (hw : w.Stops) (hs : Silent s ∨ BlankGaps (ps ++ [(t, w)]))
      (hfits : (joinWords isBlank false (ps ++ [(t, w)])).length < outlen) :
      MissesLast outlen (wordsText (ps ++ [(t, w)]) s)

theorem gap_eq_iff (after : Bool) (t : CString) :
    (if after && t.all isBlank then [] else t) = (if after && t.all isSpace then [] else t) ↔
      (after = true → t.all isSpace = true → t.all isBlank = true) := by
  cases after with
  | false => simp
  | true =>
    rw [Bool.true_and, Bool.true_and]
    by_cases hb : t.all isBlank = true
    · have hs : t.all isSpace = true :=
        List.all_eq_true.mpr fun c hc => isSpace_of_isBlank (List.all_eq_true.mp hb c hc)
      rw [if_pos hb, if_pos hs]
      exact iff_of_true rfl fun _ _ => hb
    · rw [if_neg hb]
      by_cases hs : t.all isSpace = true
      · rw [if_pos hs]
        refine iff_of_false (fun ht => ?_) fun h => hb (h rfl hs)
        rw [ht] at hb
        exact hb rfl
      · rw [if_neg hs]
        exact iff_of_true rfl fun _ h => absurd h hs

/-- The mail import drops at least as much white space. -/
theorem gap_length (after : Bool) (t : CString) :
    (if after && t.all isSpace then [] else t).length ≤
      (if after && t.all isBlank then [] else t).length := by
  by_cases heq : (if after && t.all isBlank then [] else t) = (if after && t.all isSpace then [] else t)
  · exact (congrArg List.length heq).ge
  · split
    · exact Nat.zero_le _
    · rename_i hs
      rw [if_neg hs] at heq
      split
      · rename_i hb
        rw [Bool.and_eq_true, List.all_eq_true] at hb
        refine absurd ?_ hs
        rw [Bool.and_eq_true, List.all_eq_true]
        exact ⟨hb.1, fun c hc => isSpace_of_isBlank (hb.2 c hc)⟩
      · exact Nat.le_refl _

theorem joinWords_length (after : Bool) (ps : List (CString × EncodedWord)) :
    (joinWords isSpace after ps).length ≤ (joinWords isBlank after ps).length := by
  induction ps generalizing after with
  | nil => exact Nat.le_refl 0
  | cons q ps ih =>
    obtain ⟨t, w⟩ := q
    have hrest := ih true
    have hgap := gap_length after t
    rw [joinWords, joinWords]
    simp only [List.length_append]
    omega

/-- The same is dropped when white space between two words is blanks. -/
theorem joinWords_eq_iff (after : Bool) (ps : List (CString × EncodedWord)) :
    joinWords isBlank after ps = joinWords isSpace after ps ↔
      ∀ q ∈ (if after then ps else ps.tail), q.1.all isSpace = true → q.1.all isBlank = true := by
  induction ps generalizing after with
  | nil =>
    refine iff_of_true rfl fun q hq => ?_
    rw [List.tail_nil, ite_self] at hq
    exact (List.not_mem_nil hq).elim
  | cons q ps ih =>
    obtain ⟨t, w⟩ := q
    have hparts : (∀ q ∈ (if after then (t, w) :: ps else ps),
        q.1.all isSpace = true → q.1.all isBlank = true) ↔
        (after = true → t.all isSpace = true → t.all isBlank = true) ∧
          ∀ q ∈ ps, q.1.all isSpace = true → q.1.all isBlank = true := by
      cases after with
      | false => simp
      | true => simp
    have hrest : joinWords isBlank true ps = joinWords isSpace true ps ↔
        ∀ q ∈ ps, q.1.all isSpace = true → q.1.all isBlank = true := ih true
    rw [List.tail_cons, hparts, ← gap_eq_iff after t, ← hrest, joinWords, joinWords]
    constructor
    · intro heq
      have hlen := congrArg List.length heq
      have hgap := gap_length after t
      have hrest := joinWords_length true ps
      simp only [List.length_append] at hlen
      obtain ⟨h1, h2⟩ := List.append_inj heq (by omega)
      exact ⟨h1, List.append_cancel_left h2⟩
    · rintro ⟨h1, h2⟩
      rw [h1, h2]

theorem nul_notMem_wordsText (h : '\x00' ∉ wordsText ps z) (after : Bool) :
    '\x00' ∉ joinWords isBlank after ps ∧ '\x00' ∉ z := by
  induction ps generalizing after with
  | nil => exact ⟨List.not_mem_nil, h⟩
  | cons q ps ih =>
    obtain ⟨t, w⟩ := q
    rw [wordsText] at h
    simp only [List.mem_append, not_or] at h
    obtain ⟨ht, -, hrest⟩ := h
    obtain ⟨hjoin, hz⟩ := ih hrest true
    refine ⟨?_, hz⟩
    rw [joinWords]
    simp only [List.mem_append, not_or]
    refine ⟨?_, w.nul_notMem_decoded, hjoin⟩
    split
    · exact List.not_mem_nil
    · exact ht

section
variable {x : HeaderValue} {outlen : Nat}

/-- The news import drops the blanks between two words. -/
theorem rfc2047Decode_joined (hnul : '\x00' ∉ wordsText ps z) (hwords : WordsAlike ps) (hlast : NoMark z)
    (hfits : (joinWords isBlank false ps ++ z).length < outlen) :
    rfc2047Decode outlen (wordsText ps z) = joinWords isBlank false ps ++ z := by
  obtain ⟨hjoin, hz⟩ := nul_notMem_wordsText hnul false
  rw [List.length_append] at hfits
  obtain ⟨fuel', hfuel', heq⟩ := rfc2047Loop_words (z := z) hwords false
    (Nat.lt_succ_self _) (show (joinWords isBlank false ps).length < outlen by omega)
  have hglue : ∀ b, glueIf b z = z := by
    intro b
    cases b with
    | false => rfl
    | true => exact glueWords_plain hlast
  have hloop : rfc2047Loop ((wordsText ps z).length + 1) outlen (wordsText ps z) =
      joinWords isBlank false ps ++ z := by
    rw [hglue, rfc2047Loop_plain hlast hfuel' (by omega)] at heq
    exact heq
  rw [rfc2047Decode, hloop]
  exact stringOf_eq (by simp [hjoin, hz])

/-- The news import stops at a NUL. -/
theorem rfc2047Decode_nul {t : CString} {w : EncodedWord} (hnul : '\x00' ∉ wordsText (ps ++ [(t, w)]) s)
    (hwords : WordsAlike ps) (ht : NoMark t) (hw : w.Stops)
    (hfits : (joinWords isBlank false (ps ++ [(t, w)])).length < outlen) :
    rfc2047Decode outlen (wordsText (ps ++ [(t, w)]) s) = joinWords isBlank false (ps ++ [(t, w)]) := by
  rw [wordsText_append] at hnul ⊢
  rw [joinWords_append] at hfits ⊢
  obtain ⟨hjoin, hz⟩ := nul_notMem_wordsText hnul false
  obtain ⟨fuel', hfuel', heq⟩ := rfc2047Loop_words (z := t ++ (w.spelling ++ s)) hwords false
    (Nat.lt_succ_self _) (show (joinWords isBlank false ps).length < outlen by
      rw [List.length_append] at hfits
      omega)
  rw [glueIf_word ht] at heq
  have hgap : NoMark (if (false || !ps.isEmpty) && t.all isBlank then [] else t) ∧
      '\x00' ∉ (if (false || !ps.isEmpty) && t.all isBlank then [] else t) := by
    split
    · exact ⟨noMark_nil, List.not_mem_nil⟩
    · exact ⟨ht, fun hmem => hz (List.mem_append_left _ hmem)⟩
  revert hfits hgap heq
  generalize (if ((false || !ps.isEmpty) && t.all isBlank) = true then [] else t) = gap
  intro hfits heq hgap
  simp only [List.length_append] at hfits
  obtain ⟨n, rfl⟩ := Nat.exists_eq_succ_of_ne_zero (Nat.ne_of_gt (Nat.zero_lt_of_lt hfuel'))
  have hloop : rfc2047Loop ((wordsText ps (t ++ (w.spelling ++ s))).length + 1) outlen
      (wordsText ps (t ++ (w.spelling ++ s))) = joinWords isBlank false ps ++
        rfc2047Loop (n + 1) (outlen - (joinWords isBlank false ps).length) (gap ++ (w.spelling ++ s)) := heq
  rw [rfc2047Decode, hloop, stringOf_append hjoin, rfc2047Loop_stop hgap.1 hgap.2 hw s (by omega)]

/-- The mail import drops the white space between two words. -/
theorem mailRfc2047Decode_joined (hmarks : ∀ q ∈ ps, NoMark q.1) (hlast : PlainText z) :
    mailRfc2047Decode (wordsText ps z) = joinWords isSpace false ps ++ z := by
  obtain ⟨fuel', hfuel', heq⟩ := mailRfc2047Loop_words (z := z) hmarks false (Nat.lt_succ_self _)
  rw [mailRfc2047Loop_plain hlast _ hfuel'] at heq
  exact heq

theorem Silent.mailLoop (h : Silent s) {fuel : Nat} (hfuel : s.length < fuel) :
    mailRfc2047Loop fuel true s = [] := by
  induction h generalizing fuel with
  | nil =>
    cases fuel with
    | zero => rfl
    | succ fuel => rfl
  | @word t s w ht hw hs ih =>
    obtain ⟨fuel', hfuel', heq⟩ := mailRfc2047Loop_word (noMark_of_space ht) w s true hfuel
    rw [heq, ih hfuel', ht, w.decoded_eq_nil.mpr hw]
    rfl

theorem silent_of_mailLoop {fuel : Nat} (hfuel : s.length < fuel) (h : mailRfc2047Loop fuel true s = []) :
    Silent s := by
  induction fuel generalizing s with
  | zero => omega
  | succ fuel ih =>
    cases s with
    | nil => exact .nil
    | cons c s =>
      rw [List.length_cons] at hfuel
      rw [mailRfc2047Loop] at h
      cases hd : mailDecodeEncodedWord (c :: s) with
      | some q =>
        obtain ⟨word, rest⟩ := q
        obtain ⟨w, heq, rfl⟩ := exists_word_of_decode hd
        rw [hd] at h
        obtain ⟨hw, hrest⟩ := List.append_eq_nil_iff.mp h
        have hlen := congrArg List.length heq
        rw [spelling_append] at hlen
        simp only [List.length_cons, List.length_append] at hlen
        rw [heq]
        exact .word (t := []) rfl (w.decoded_eq_nil.mp hw) (ih (by omega) hrest)
      | none =>
        rw [hd] at h
        dsimp only at h
        split at h
        · rename_i hc
          split at h
          · rename_i hglue
            have hle := (List.dropWhile_suffix (l := s) isSpace).length_le
            have hrest := ih (by omega) h
            -- the white space in front of the word is a part of its gap
            generalize hdrop : s.dropWhile isSpace = q at hrest hglue
            cases hrest with
            | nil => cases hglue
            | @word t r w ht hw hr =>
              have hsplit : c :: s = (c :: s.takeWhile isSpace ++ t) ++ (w.spelling ++ r) := by
                rw [List.append_assoc, ← hdrop, List.cons_append, List.takeWhile_append_dropWhile]
              rw [hsplit]
              refine .word ?_ hw hr
              rw [List.all_append, List.all_cons, hc, ht, Bool.true_and, Bool.and_true]
              exact List.all_takeWhile
          · cases h
        · cases h

/-- Words without a text add nothing, and nothing else does. -/
theorem mailRfc2047Decode_silent (hmarks : ∀ q ∈ ps, NoMark q.1) (hps : ps ≠ []) :
    ∃ r, mailRfc2047Decode (wordsText ps s) = joinWords isSpace false ps ++ r ∧ (r = [] ↔ Silent s) := by
  obtain ⟨fuel', hfuel', heq⟩ := mailRfc2047Loop_words (z := s) hmarks false (Nat.lt_succ_self _)
  have hnonempty : (!ps.isEmpty) = true := by simpa using hps
  rw [Bool.false_or, hnonempty] at heq
  exact ⟨_, heq, silent_of_mailLoop hfuel', fun h => h.mailLoop hfuel'⟩

theorem noMark_append {t : CString} {w : EncodedWord} (hwords : WordsAlike ps) (ht : NoMark t) :
    ∀ q ∈ ps ++ [(t, w)], NoMark q.1 := by
  intro q hq
  rcases List.mem_append.mp hq with hq | hq
  · exact (hwords q hq).1
  · rw [List.mem_singleton.mp hq]
    exact ht

/-- The decoders agree on what they read alike. -/
theorem MarksAlike.agree (h : MarksAlike outlen s) (hnul : '\x00' ∉ s) :
    rfc2047Decode outlen s = mailRfc2047Decode s := by
  cases h with
  | toEnd hwords hlast hgaps hfits =>
    rw [rfc2047Decode_joined hnul hwords hlast hfits, (joinWords_eq_iff false _).mpr hgaps]
    exact (mailRfc2047Decode_joined (fun q hq => (hwords q hq).1) hlast.plain).symm
  | toNul hwords ht hw hs hgaps hfits =>
    obtain ⟨r, heq, hr⟩ := mailRfc2047Decode_silent (noMark_append hwords ht) (by simp)
    rw [rfc2047Decode_nul hnul hwords ht hw hfits, (joinWords_eq_iff false _).mpr hgaps, heq, hr.mpr hs,
      List.append_nil]

/-- Text without `=?` is left alone. -/
theorem NoMark.unchanged (h : NoMark z) (hnul : '\x00' ∉ z) (hfits : z.length < outlen) :
    rfc2047Decode outlen z = z ∧ mailRfc2047Decode z = z := by
  have hwords : WordsAlike [] := fun _ hq => (List.not_mem_nil hq).elim
  have hmarks : ∀ q ∈ ([] : List (CString × EncodedWord)), NoMark q.1 := fun q hq => (hwords q hq).1
  have hnews := @rfc2047Decode_joined z [] outlen hnul hwords h hfits
  exact ⟨hnews, mailRfc2047Decode_joined hmarks h.plain⟩

theorem asciiCount_stringOf (s : CString) : asciiCount (stringOf s) ≤ asciiCount s :=
  asciiCount_le (List.takeWhile_sublist _)

theorem mark_glueIf (after : Bool) (h : "=?".toList <:+: z) : "=?".toList <:+: glueIf after z := by
  cases after with
  | false => exact h
  | true =>
    show "=?".toList <:+: glueWords z
    unfold glueWords
    dsimp only
    split
    · rename_i hp
      exact (List.isPrefixOf_iff_prefix.mp hp).isInfix
    · exact h

/-- The news import does not keep a `=?`. -/
theorem noMark_of_unchanged (h : rfc2047Decode outlen z = z) : NoMark z := by
  intro hmark
  have hlt := (asciiCount_rfc2047Loop (z.length + 1) outlen z).2 hmark
  have hle := asciiCount_stringOf (rfc2047Loop (z.length + 1) outlen z)
  rw [show stringOf (rfc2047Loop (z.length + 1) outlen z) = z from h] at hle
  omega

/-- A `=?` behind the words that no word follows is not kept by the news import. -/
theorem noMark_of_agree (hwords : WordsAlike ps) (hgaps : BlankGaps ps) (hlast : PlainText z)
    (hfits : (joinWords isBlank false ps ++ z).length < outlen)
    (hagree : rfc2047Decode outlen (wordsText ps z) = mailRfc2047Decode (wordsText ps z)) : NoMark z := by
  intro hmark
  rw [List.length_append] at hfits
  obtain ⟨fuel', -, heq⟩ := rfc2047Loop_words (z := z) hwords false
    (Nat.lt_succ_self _) (show (joinWords isBlank false ps).length < outlen by omega)
  have hloop : rfc2047Loop ((wordsText ps z).length + 1) outlen (wordsText ps z) =
      joinWords isBlank false ps ++ rfc2047Loop fuel' (outlen - (joinWords isBlank false ps).length)
        (glueIf (false || !ps.isEmpty) z) := heq
  have hlt := (asciiCount_rfc2047Loop fuel' (outlen - (joinWords isBlank false ps).length) _).2
    (mark_glueIf (false || !ps.isEmpty) hmark)
  have hglue : asciiCount (glueIf (false || !ps.isEmpty) z) ≤ asciiCount z := by
    unfold glueIf
    split
    · exact asciiCount_le (glueWords_suffix z).sublist
    · exact Nat.le_refl _
  have hle := asciiCount_stringOf (rfc2047Loop ((wordsText ps z).length + 1) outlen (wordsText ps z))
  have hnews : stringOf (rfc2047Loop ((wordsText ps z).length + 1) outlen (wordsText ps z)) =
      joinWords isSpace false ps ++ z :=
    hagree.trans (mailRfc2047Decode_joined (fun q hq => (hwords q hq).1) hlast)
  rw [← (joinWords_eq_iff false ps).mpr hgaps] at hnews
  rw [hnews, hloop, asciiCount_append, asciiCount_append] at hle
  omega

/-- Where no word follows a near miss, the decoders agree only if they read alike. -/
theorem MissesLast.readAlike (h : MissesLast outlen s) (hnul : '\x00' ∉ s)
    (hagree : rfc2047Decode outlen s = mailRfc2047Decode s) : MarksAlike outlen s := by
  cases h with
  | @toEnd ps z hwords hcase hfits =>
    rcases hcase with hlast | ⟨hgaps, hplain⟩
    · refine .toEnd hwords hlast ?_ hfits
      rw [rfc2047Decode_joined hnul hwords hlast hfits,
        mailRfc2047Decode_joined (fun q hq => (hwords q hq).1) hlast.plain] at hagree
      exact (joinWords_eq_iff false ps).mp (List.append_cancel_right hagree)
    · exact .toEnd hwords (noMark_of_agree hwords hgaps hplain hfits hagree) hgaps hfits
  | @toNul ps t s w hwords ht hw hcase hfits =>
    obtain ⟨r, heq, hr⟩ := mailRfc2047Decode_silent (s := s) (noMark_append (w := w) hwords ht) (by simp)
    rw [rfc2047Decode_nul hnul hwords ht hw hfits, heq] at hagree
    rcases hcase with hs | hgaps
    · rw [hr.mpr hs, List.append_nil] at hagree
      exact .toNul hwords ht hw hs ((joinWords_eq_iff false _).mp hagree) hfits
    · rw [(joinWords_eq_iff false _).mpr hgaps] at hagree
      exact .toNul hwords ht hw (hr.mp (List.append_right_eq_self.mp hagree.symm)) hgaps hfits

end

def hejWord : EncodedWord where
  charset := "UTF-8".toList
  encoding := 'b'
  text := "SGVq".toList
  named := by decide
  charsetEnd := by decide
  known := by decide
  textEnd := by decide

theorem hejWord_wellFormed : hejWord.WellFormed where
  charset := by decide
  text := .inl ⟨by decide, .group (by decide) (by decide) (by decide) (by decide) .nil⟩
  noNul := by decide +kernel
  short := by decide +kernel

def koiWord : EncodedWord where
  charset := "koi8-r".toList
  encoding := 'q'
  text := "Re:".toList
  named := by decide
  charsetEnd := by decide
  known := by decide
  textEnd := by decide

/-- A near miss in front of a word. -/
def koiValue : HeaderValue where
  pairs := [("=?koi8-r?q?Re:?= ".toList, hejWord)]
  last := " du".toList
  wellFormed := List.forall_mem_singleton.mpr hejWord_wellFormed

/-- A value without a word. -/
def HeaderValue.ofPlain (s : CString) : HeaderValue where
  pairs := []
  last := s
  wellFormed := fun _ hq => (List.not_mem_nil hq).elim

end SklaffKom
