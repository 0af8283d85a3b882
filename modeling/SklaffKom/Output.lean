import SklaffKom.Lib.Split
import SklaffKom.Lib.Utf8
import SklaffKom.Sf7
import SklaffKom.Stdio

/-!
# Output to the terminal

`output_prepared` translates the letters of a text for the terminal into the buffer `outline`, and copies
it line by line to the buffer `tmpline`, where the output stops after each full page.
-/

open CString

namespace SklaffKom

/-! ## The two passes -/

structure OutputFlags where
  utf8 : Bool
  ibm : Bool
  iso8859 : Bool
  mac : Bool
  beep : Bool
  special : Bool
  rot13 : Bool
  space : Bool

/-- The state of the paging: `Lines`, `Numlines`, `Cont` and the keys that are pressed. -/
structure Pager where
  lines : Int
  numlines : Int
  cont : Bool
  keys : List Char

/-- What appears on the terminal: a line, or the prompt at the end of a page. -/
inductive Emission
  | text (line : CString)
  | more
deriving DecidableEq

/-- How the output ends: it is complete, the user has stopped it, it waits for a key for ever, or a
byte is written behind a buffer. -/
inductive OutputEnd
  | done
  | aborted
  | waiting
  | overrun
deriving DecidableEq

def hugeLineLen : Nat := 32768

/-- The size of `tmpline`, which is `LONG_LINE_LEN`. -/
def tmplineLen : Nat := 158

def ibmLetter (c : Char) : Char :=
  if c = '}' then '\x86'
  else if c = '\x7b' then '\x84'
  else if c = '|' then '\x94'
  else if c = ']' then '\x8f'
  else if c = '[' then '\x8e'
  else if c = '\\' then '\x99'
  else c

def isoLetter (c : Char) : Char :=
  if c = '}' then '\xe5'
  else if c = '\x7b' then '\xe4'
  else if c = '|' then '\xf6'
  else if c = ']' then '\xc5'
  else if c = '[' then '\xc4'
  else if c = '\\' then '\xd6'
  else c

def macLetter (c : Char) : Char :=
  if c = '}' then '\x8c'
  else if c = '\x7b' then '\x8a'
  else if c = '|' then '\x9a'
  else if c = ']' then '\x81'
  else if c = '[' then '\x80'
  else if c = '\\' then '\x85'
  else c

/-- The translation of a byte. -/
def OutputFlags.translate (o : OutputFlags) (c : Char) : CString :=
  if o.utf8 then
    match sf7Second c with
    | some d => ['\xc3', d]
    | none => [c]
  else if o.ibm then [ibmLetter c]
  else if o.iso8859 then [isoLetter c]
  else if o.mac then [macLetter c]
  else [c]

/-- `outline`, with `in_ansi`, which is never -1. -/
def outline (o : OutputFlags) (translate : Bool) : Bool → CString → CString
  | _, [] => []
  | inAnsi, c :: s =>
    if o.beep ∨ o.special ∨ c ≠ '\x07' then
      let inAnsi :=
        if c = '\x1b' ∧ s.head? = some '[' then true
        else if inAnsi ∧ c.isAlpha then false
        else inAnsi
      let bytes := if translate ∧ inAnsi = false then o.translate c else [c]
      (if bytes = ['\n'] then ['\r', '\n'] else bytes) ++ outline o translate inAnsi s
    else outline o translate inAnsi s

def rot13Byte (c : Char) : Char :=
  if 'A' ≤ c ∧ c ≤ 'Z' then
    if c.toNat - 13 < 65 then Char.ofNat (90 - (65 - (c.toNat - 13) - 1)) else Char.ofNat (c.toNat - 13)
  else if 'a' ≤ c ∧ c ≤ 'z' then
    if c.toNat - 13 < 97 then Char.ofNat (122 - (97 - (c.toNat - 13) - 1)) else Char.ofNat (c.toNat - 13)
  else c

/-- The keys that the prompt accepts. -/
def moreKeys : List Char := ['q', 'Q', ' ', '\r', '\n', '\x03', 'c', 'C']

/-- The keys that stop the output. -/
def OutputFlags.stopsAt (o : OutputFlags) (c : Char) : Bool :=
  c = 'q' || c = 'Q' || c = '\x03' || (c = ' ' && (!o.space || o.special))

/-- `Lines` after a line. -/
def Pager.count (p : Pager) (tmpline : CString) : Pager :=
  if tmpline.getLast? = some '\n' ∧ p.cont = false then { p with lines := p.lines + 1 } else p

/-- The lines, with their line ends, as they go through `tmpline`. -/
def pageLines (o : OutputFlags) : Pager → List CString → List Emission × Pager × OutputEnd
  | p, [] => ([], p, .done)
  | p, l :: ls =>
    let tmpline := if o.rot13 then l.map rot13Byte else l
    -- the terminating NUL needs a place too
    if tmplineLen ≤ tmpline.length then ([], p, .overrun)
    else
      let p := p.count tmpline
      if p.numlines ≤ p.lines ∧ p.numlines ≠ 0 ∧ p.cont = false then
        match p.keys.dropWhile fun c => c ∉ moreKeys with
        | [] => ([.more], p, .waiting)
        | c :: keys =>
          let p := { p with lines := 1, cont := c = 'c' || c = 'C', keys := keys }
          if o.stopsAt c then
            (.more :: (if tmpline = ['\r', '\n'] then [.text tmpline] else []), p, .aborted)
          else
            let r := pageLines o p ls
            (.more :: .text tmpline :: r.1, r.2)
      else
        let r := pageLines o p ls
        (.text tmpline :: r.1, r.2)

def outputPrepared (o : OutputFlags) (translate : Bool) (p : Pager) (fmt2 : CString) :
    List Emission × Pager × OutputEnd :=
  let out := outline o translate false fmt2
  if hugeLineLen ≤ out.length then ([], p, .overrun) else pageLines o p (getlines out)

/-! ## What is expected -/

inductive Charset
  | utf8
  | ibm
  | iso8859
  | mac
  | sf7

def OutputFlags.charset (o : OutputFlags) : Charset :=
  if o.utf8 then .utf8
  else if o.ibm then .ibm
  else if o.iso8859 then .iso8859
  else if o.mac then .mac
  else .sf7

/-- The letter that a byte of the seven bit character set stands for. -/
def swedishLetter (c : Char) : Option Char :=
  if c = '}' then some 'å'
  else if c = '\x7b' then some 'ä'
  else if c = '|' then some 'ö'
  else if c = ']' then some 'Å'
  else if c = '[' then some 'Ä'
  else if c = '\\' then some 'Ö'
  else none

/-- The code of a Swedish letter, given as a character and as its byte in the seven bit set. -/
def Charset.encode (byte letter : Char) : Charset → CString
  | utf8 => Utf8.encodeChar letter
  | ibm => [ibmLetter byte]
  | iso8859 => [letter]
  | mac => [macLetter byte]
  | sf7 => [byte]

/-- The text ends inside an escape sequence: no letter has ended the last one. -/
def inEscape (pre : CString) : Bool :=
  pre.tails.any fun t => "\x1b[".toList.isPrefixOf t && (t.drop 2).all fun c => !c.isAlpha

/-- What a byte is shown as. -/
def OutputFlags.shown (o : OutputFlags) (escaped : Bool) (c : Char) : CString :=
  if c = '\x07' ∧ o.beep = false ∧ o.special = false then []
  else if c = '\n' then ['\r', '\n']
  else
    match escaped, swedishLetter c with
    | false, some letter => o.charset.encode c letter
    | _, _ => [c]

/-- What a text is shown as behind the text `pre`. -/
def displayedFrom (o : OutputFlags) : CString → CString → CString
  | _, [] => []
  | pre, c :: s => o.shown (inEscape (pre ++ [c])) c ++ displayedFrom o (pre ++ [c]) s

def displayed (o : OutputFlags) (s : CString) : CString := displayedFrom o [] s

/-- What is written besides the prompts. -/
def emitted (events : List Emission) : CString :=
  events.flatMap fun
    | .text line => line
    | .more => []

/-- A line of 78 Swedish letters that are two bytes each, with its line end. -/
def FullLine (o : OutputFlags) (s : CString) : Prop :=
  o.utf8 = true ∧ ∃ pre l post, s = pre ++ (l ++ '\n' :: post) ∧ WholeLines pre ∧ l.length = 78 ∧
    (∀ c ∈ l, (swedishLetter c).isSome = true) ∧ inEscape pre = false

/-! ## The translation -/

variable {o : OutputFlags} {pre l s : CString} {c : Char}

theorem swedishLetter_cases {x : Char} (h : swedishLetter c = some x) :
    (c = '}' ∧ x = 'å') ∨ (c = '\x7b' ∧ x = 'ä') ∨ (c = '|' ∧ x = 'ö') ∨ (c = ']' ∧ x = 'Å') ∨
      (c = '[' ∧ x = 'Ä') ∨ (c = '\\' ∧ x = 'Ö') := by
  unfold swedishLetter at h
  split at h
  next hc => exact Or.inl ⟨hc, (Option.some.inj h).symm⟩
  split at h
  next hc => exact Or.inr (Or.inl ⟨hc, (Option.some.inj h).symm⟩)
  split at h
  next hc => exact Or.inr (Or.inr (Or.inl ⟨hc, (Option.some.inj h).symm⟩))
  split at h
  next hc => exact Or.inr (Or.inr (Or.inr (Or.inl ⟨hc, (Option.some.inj h).symm⟩)))
  split at h
  next hc => exact Or.inr (Or.inr (Or.inr (Or.inr (Or.inl ⟨hc, (Option.some.inj h).symm⟩))))
  split at h
  next hc => exact Or.inr (Or.inr (Or.inr (Or.inr (Or.inr ⟨hc, (Option.some.inj h).symm⟩))))
  next => cases h

/-- A Swedish letter is no other character that the passes look for. -/
theorem swedishLetter_plain (h : (swedishLetter c).isSome = true) :
    c ≠ '\x07' ∧ c ≠ '\n' ∧ c ≠ '\x1b' ∧ c.isAlpha = false := by
  obtain ⟨x, hx⟩ := Option.isSome_iff_exists.mp h
  rcases swedishLetter_cases hx with
    ⟨rfl, -⟩ | ⟨rfl, -⟩ | ⟨rfl, -⟩ | ⟨rfl, -⟩ | ⟨rfl, -⟩ | ⟨rfl, -⟩ <;> decide

/-- The tables of the program are the codes of the letters in the character sets. -/
theorem translate_letter (o : OutputFlags) {x : Char} (h : swedishLetter c = some x) :
    o.translate c = o.charset.encode c x := by
  rcases swedishLetter_cases h with ⟨rfl, rfl⟩ | ⟨rfl, rfl⟩ | ⟨rfl, rfl⟩ | ⟨rfl, rfl⟩ | ⟨rfl, rfl⟩ |
    ⟨rfl, rfl⟩ <;>
  · unfold OutputFlags.translate OutputFlags.charset
    split
    · decide
    split
    · rfl
    split
    · rfl
    split
    · rfl
    · rfl

theorem translate_other (o : OutputFlags) (h : swedishLetter c = none) : o.translate c = [c] := by
  have hne : c ≠ '}' ∧ c ≠ '\x7b' ∧ c ≠ '|' ∧ c ≠ ']' ∧ c ≠ '[' ∧ c ≠ '\\' := by
    refine ⟨?_, ?_, ?_, ?_, ?_, ?_⟩ <;>
    · rintro rfl
      revert h
      decide
  obtain ⟨h1, h2, h3, h4, h5, h6⟩ := hne
  simp only [OutputFlags.translate, sf7Second, ibmLetter, isoLetter, macLetter, h1, h2, h3, h4, h5, h6,
    if_false, ite_self]

/-! ## Escape sequences -/

theorem inEscape_iff : inEscape pre = true ↔
    ∃ a b, pre = a ++ '\x1b' :: '[' :: b ∧ ∀ c ∈ b, c.isAlpha = false := by
  unfold inEscape
  simp only [List.any_eq_true, List.mem_tails, Bool.and_eq_true, List.all_eq_true, Bool.not_eq_true',
    List.isPrefixOf_iff_prefix]
  constructor
  · rintro ⟨t, ⟨a, rfl⟩, ⟨b, rfl⟩, hb⟩
    exact ⟨a, b, rfl, hb⟩
  · rintro ⟨a, b, rfl, hb⟩
    exact ⟨_, List.suffix_append a _, ⟨b, rfl⟩, hb⟩

/-- What one more character changes. -/
theorem inEscape_snoc (pre : CString) (c : Char) : inEscape (pre ++ [c]) =
    (decide (pre.getLast? = some '\x1b' ∧ c = '[') || (inEscape pre && !c.isAlpha)) := by
  rw [Bool.eq_iff_iff, Bool.or_eq_true, Bool.and_eq_true, decide_eq_true_eq, inEscape_iff, inEscape_iff]
  constructor
  · rintro ⟨a, b, hab, hb⟩
    rcases List.eq_nil_or_concat b with rfl | ⟨b, d, rfl⟩
    · have hsplit : pre ++ [c] = (a ++ ['\x1b']) ++ ['['] := by simpa using hab
      obtain ⟨rfl, hc⟩ := List.append_inj' hsplit rfl
      exact Or.inl ⟨by simp, by simpa using hc⟩
    · have hsplit : pre ++ [c] = (a ++ '\x1b' :: '[' :: b) ++ [d] := by simpa using hab
      obtain ⟨rfl, hc⟩ := List.append_inj' hsplit rfl
      obtain rfl : c = d := by simpa using hc
      refine Or.inr ⟨⟨a, b, rfl, fun e he => hb e (by simp [he])⟩, ?_⟩
      rw [hb c (by simp)]
      rfl
  · rintro (⟨hlast, rfl⟩ | ⟨⟨a, b, rfl, hb⟩, hc⟩)
    · obtain ⟨a, rfl⟩ := List.getLast?_eq_some_iff.mp hlast
      exact ⟨a, [], by simp, fun _ h => absurd h List.not_mem_nil⟩
    · refine ⟨a, b ++ [c], by simp, fun d hd => ?_⟩
      rcases List.mem_append.mp hd with hd | hd
      · exact hb d hd
      · rw [List.mem_singleton.mp hd]
        simpa using hc

/-- `in_ansi` behind `pre`, with `s` to come: it is set already before the bracket. -/
def ansiState (pre s : CString) : Bool :=
  inEscape pre || decide (pre.getLast? = some '\x1b' ∧ s.head? = some '[')

/-- The state of the first pass goes on with the text. -/
theorem ansiState_step (pre : CString) (c : Char) (s : CString) : ansiState (pre ++ [c]) s =
    if c = '\x1b' ∧ s.head? = some '[' then true
    else if ansiState pre (c :: s) ∧ c.isAlpha then false
    else ansiState pre (c :: s) := by
  unfold ansiState
  rw [inEscape_snoc, List.getLast?_append, List.head?_cons]
  simp only [List.getLast?_singleton, Option.some_or, Option.some.injEq]
  by_cases hesc : c = '\x1b' ∧ s.head? = some '['
  · simp [hesc]
  · by_cases halpha : c.isAlpha = true
    · have hbracket : c ≠ '[' := by
        rintro rfl
        revert halpha
        decide
      simp [hesc, halpha, hbracket]
    · simp [hesc, halpha, Bool.or_comm]

theorem shown_eq (o : OutputFlags) (s : CString) (h : o.beep = true ∨ o.special = true ∨ c ≠ '\x07') :
    (if (if ansiState (pre ++ [c]) s = false then o.translate c else [c]) = ['\n'] then ['\r', '\n']
      else if ansiState (pre ++ [c]) s = false then o.translate c else [c]) =
      o.shown (inEscape (pre ++ [c])) c := by
  have hbell : ¬ (c = '\x07' ∧ o.beep = false ∧ o.special = false) := by
    rintro ⟨hc, hb, hs⟩
    simp [hc, hb, hs] at h
  unfold OutputFlags.shown
  rw [if_neg hbell]
  cases hletter : swedishLetter c with
  | none =>
    rw [translate_other o hletter, ite_self]
    by_cases hc : c = '\n'
    · rw [if_pos hc, if_pos (by rw [hc])]
    · rw [if_neg hc, if_neg (by simpa using hc)]
      cases inEscape (pre ++ [c]) <;> rfl
  | some x =>
    obtain ⟨-, hnl, hesc, -⟩ := swedishLetter_plain (c := c) (by rw [hletter]; rfl)
    -- the state differs from the text only behind an escape character
    have hstate : ansiState (pre ++ [c]) s = inEscape (pre ++ [c]) := by
      unfold ansiState
      rw [List.getLast?_append]
      simp [hesc]
    rw [hstate, if_neg hnl]
    cases inEscape (pre ++ [c]) with
    | true => exact if_neg (by simpa using hnl)
    | false =>
      show (if o.translate c = ['\n'] then _ else o.translate c) = _
      rw [translate_letter o hletter, if_neg]
      rw [← translate_letter o hletter]
      unfold OutputFlags.translate
      rcases swedishLetter_cases hletter with ⟨rfl, -⟩ | ⟨rfl, -⟩ | ⟨rfl, -⟩ | ⟨rfl, -⟩ | ⟨rfl, -⟩ |
        ⟨rfl, -⟩ <;>
      · split
        · decide
        split
        · decide
        split
        · decide
        split
        · decide
        · decide

/-- The first pass writes what is expected. -/
theorem outline_eq (o : OutputFlags) (pre s : CString) :
    outline o true (ansiState pre s) s = displayedFrom o pre s := by
  induction s generalizing pre with
  | nil => rfl
  | cons c s ih =>
    have hstep := ansiState_step pre c s
    rw [outline, displayedFrom]
    split
    next hshown =>
      simp only [true_and, ← hstep]
      rw [shown_eq o s hshown, ih]
    next hbell =>
      have hc : c = '\x07' := by
        by_contra hc
        exact hbell (Or.inr (Or.inr hc))
      have hflags : o.beep = false ∧ o.special = false := by
        simpa [hc] using hbell
      have hdropped : o.shown (inEscape (pre ++ [c])) c = [] := if_pos ⟨hc, hflags⟩
      rw [hdropped, List.nil_append, ← ih (pre ++ [c]), hstep, hc]
      congr 1
      simp

/-! ## The length of a line -/

theorem displayedFrom_append (o : OutputFlags) (pre a b : CString) :
    displayedFrom o pre (a ++ b) = displayedFrom o pre a ++ displayedFrom o (pre ++ a) b := by
  induction a generalizing pre with
  | nil => rw [List.nil_append, List.append_nil, displayedFrom, List.nil_append]
  | cons c a ih =>
    rw [List.cons_append, displayedFrom, displayedFrom, ih, List.append_assoc, List.append_assoc]
    rfl

theorem displayedFrom_newline (o : OutputFlags) (pre s : CString) :
    displayedFrom o pre ('\n' :: s) = '\r' :: '\n' :: displayedFrom o (pre ++ ['\n']) s := by
  have hshown : o.shown (inEscape (pre ++ ['\n'])) '\n' = ['\r', '\n'] := by
    unfold OutputFlags.shown
    rw [if_neg (by rintro ⟨h, -⟩; cases h), if_pos rfl]
  rw [displayedFrom, hshown]
  rfl

/-- Only a Swedish letter outside an escape sequence becomes two bytes. -/
theorem shown_length (o : OutputFlags) (escaped : Bool) (hc : c ≠ '\n') :
    (o.shown escaped c).length ≤ 2 ∧ ((o.shown escaped c).length = 2 ↔
      escaped = false ∧ o.utf8 = true ∧ (swedishLetter c).isSome = true) := by
  unfold OutputFlags.shown
  split
  next hbell =>
    rw [hbell.1]
    exact ⟨by decide, ⟨fun h => absurd h (by decide), fun h => absurd h.2.2 (by decide)⟩⟩
  split
  next x hx =>
    rw [hx]
    cases hutf8 : o.utf8 with
    | true =>
      have hlen : (o.charset.encode c x).length = 2 := by
        rw [← translate_letter o hx]
        rcases swedishLetter_cases hx with ⟨rfl, -⟩ | ⟨rfl, -⟩ | ⟨rfl, -⟩ | ⟨rfl, -⟩ | ⟨rfl, -⟩ |
          ⟨rfl, -⟩ <;>
        · rw [OutputFlags.translate, if_pos hutf8]
          rfl
      exact ⟨hlen.le, iff_of_true hlen ⟨rfl, rfl, rfl⟩⟩
    | false =>
      have hlen : (o.charset.encode c x).length = 1 := by
        rw [← translate_letter o hx, OutputFlags.translate, if_neg (by rw [hutf8]; decide)]
        split
        · rfl
        split
        · rfl
        split
        · rfl
        · rfl
      rw [hlen]
      exact ⟨by decide, ⟨fun h => absurd h (by decide), fun h => absurd h.2.1 (by decide)⟩⟩
  next hnot =>
    refine ⟨by simp, ⟨fun h => by simp at h, ?_⟩⟩
    rintro ⟨rfl, -, hsome⟩
    obtain ⟨x, hx⟩ := Option.isSome_iff_exists.mp hsome
    exact absurd hx (hnot x rfl)

theorem notMem_shown (o : OutputFlags) (escaped : Bool) (hc : c ≠ '\n') : '\n' ∉ o.shown escaped c := by
  unfold OutputFlags.shown
  split
  · exact List.not_mem_nil
  split
  next x hx =>
    rw [← translate_letter o hx]
    unfold OutputFlags.translate
    rcases swedishLetter_cases hx with ⟨rfl, -⟩ | ⟨rfl, -⟩ | ⟨rfl, -⟩ | ⟨rfl, -⟩ | ⟨rfl, -⟩ |
      ⟨rfl, -⟩ <;>
    · split
      · decide
      split
      · decide
      split
      · decide
      split
      · decide
      · decide
  next => simpa using fun h => hc h.symm

theorem notMem_displayedFrom (o : OutputFlags) (pre : CString) (hl : '\n' ∉ l) :
    '\n' ∉ displayedFrom o pre l := by
  induction l generalizing pre with
  | nil => exact List.not_mem_nil
  | cons c l ih =>
    rw [List.mem_cons, not_or] at hl
    rw [displayedFrom, List.mem_append, not_or]
    exact ⟨notMem_shown o _ fun h => hl.1 h.symm, ih _ hl.2⟩

theorem displayedFrom_length_le (o : OutputFlags) (pre s : CString) :
    (displayedFrom o pre s).length ≤ 2 * s.length := by
  induction s generalizing pre with
  | nil => exact Nat.le_refl 0
  | cons c s ih =>
    have hrest := ih (pre ++ [c])
    by_cases hc : c = '\n'
    · rw [hc] at hrest ⊢
      rw [displayedFrom_newline, List.length_cons, List.length_cons, List.length_cons]
      omega
    · have hfirst := (shown_length o (inEscape (pre ++ [c])) hc).1
      rw [displayedFrom, List.length_append, List.length_cons]
      omega

/-- A line of letters outside escape sequences doubles. -/
theorem displayedFrom_length_letters (hutf8 : o.utf8 = true) (hpre : inEscape pre = false)
    (hlast : pre.getLast? ≠ some '\x1b') (hl : ∀ c ∈ l, (swedishLetter c).isSome = true) :
    (displayedFrom o pre l).length = 2 * l.length := by
  induction l generalizing pre with
  | nil => rfl
  | cons c l ih =>
    rw [List.forall_mem_cons] at hl
    obtain ⟨-, hnl, hesc, -⟩ := swedishLetter_plain hl.1
    have hstate : inEscape (pre ++ [c]) = false := by
      rw [inEscape_snoc, hpre]
      simp [hlast]
    have hfirst := (shown_length o (inEscape (pre ++ [c])) hnl).2.mpr ⟨hstate, hutf8, hl.1⟩
    have hrest := ih hstate (by simpa using hesc) hl.2
    rw [displayedFrom, List.length_append, hfirst, hrest, List.length_cons]
    omega

/-- A line that doubles consists of letters outside escape sequences. -/
theorem letters_of_length (hnl : '\n' ∉ l) (hne : l ≠ []) (hlast : pre.getLast? ≠ some '\x1b')
    (h : 2 * l.length ≤ (displayedFrom o pre l).length) :
    o.utf8 = true ∧ (∀ c ∈ l, (swedishLetter c).isSome = true) ∧ inEscape pre = false := by
  induction l generalizing pre with
  | nil => exact absurd rfl hne
  | cons c l ih =>
    rw [List.mem_cons, not_or] at hnl
    have hshown := shown_length o (inEscape (pre ++ [c])) fun h => hnl.1 h.symm
    have hrest := displayedFrom_length_le o (pre ++ [c]) l
    rw [displayedFrom, List.length_append, List.length_cons] at h
    obtain ⟨hstate, hutf8, hletter⟩ := hshown.2.mp (by omega)
    obtain ⟨-, -, hesc, halpha⟩ := swedishLetter_plain hletter
    have hpre : inEscape pre = false := by
      rw [inEscape_snoc, halpha] at hstate
      simpa using (Bool.or_eq_false_iff.mp hstate).2
    refine ⟨hutf8, ?_, hpre⟩
    rw [List.forall_mem_cons]
    refine ⟨hletter, ?_⟩
    by_cases hl : l = []
    · rw [hl]
      exact fun _ h => absurd h List.not_mem_nil
    · have hlast' : (pre ++ [c]).getLast? ≠ some '\x1b' := by simpa using hesc
      exact (ih hnl.2 hl hlast' (by omega)).2.1

/-! ## The lines of the text -/

theorem WholeLines.getLast_ne (h : WholeLines pre) : pre.getLast? ≠ some '\x1b' := by
  intro hlast
  exact absurd (h _ hlast) (by decide)

theorem wholeLines_displayedFrom (o : OutputFlags) (p : CString) (h : WholeLines pre) :
    WholeLines (displayedFrom o p pre) := by
  rcases List.eq_nil_or_concat pre with rfl | ⟨init, c, rfl⟩
  · exact WholeLines.nil
  · obtain rfl : c = '\n' := h c (by simp)
    rw [List.concat_eq_append, displayedFrom_append, displayedFrom_newline, displayedFrom]
    exact (WholeLines.line ['\r']).append_right (List.cons_ne_nil _ _) _

/-- A line is too long for `tmpline` exactly when it consists of 78 letters that double. -/
theorem exists_long_line_iff (hlines : ∀ l ∈ s.splitOn '\n', l.length ≤ 78) :
    (∃ piece ∈ getlines (displayed o s), tmplineLen ≤ piece.length) ↔ FullLine o s := by
  constructor
  · suffices h : ∀ pre, WholeLines pre →
        (∃ piece ∈ getlines (displayedFrom o pre s), tmplineLen ≤ piece.length) →
        o.utf8 = true ∧ ∃ pre' l post, s = pre' ++ (l ++ '\n' :: post) ∧ WholeLines pre' ∧
          l.length = 78 ∧ (∀ c ∈ l, (swedishLetter c).isSome = true) ∧ inEscape (pre ++ pre') = false by
      exact h [] WholeLines.nil
    revert hlines
    refine Split.induction (a := '\n') ?_ ?_ s
    · -- the last line has no line end
      rintro l hl hlines pre - ⟨piece, hpiece, hlong⟩
      rw [List.splitOn_eq_singleton hl] at hlines
      have hlen := hlines l (List.mem_singleton_self l)
      have hle := displayedFrom_length_le o pre l
      have hpiece' : piece.length ≤ (displayedFrom o pre l).length := by
        have hflat := flatten_getlines (displayedFrom o pre l)
        obtain ⟨a, b, hsplit⟩ := List.append_of_mem hpiece
        rw [← hflat, hsplit, List.flatten_append, List.flatten_cons, List.length_append,
          List.length_append]
        omega
      unfold tmplineLen at hlong
      omega
    · rintro part rest hpart ih hlines pre hpre ⟨piece, hpiece, hlong⟩
      rw [Split.splitOn_append hpart, List.forall_mem_cons] at hlines
      have hsplit : displayedFrom o pre (part ++ '\n' :: rest) =
          (displayedFrom o pre part ++ ['\r']) ++ '\n' :: displayedFrom o (pre ++ part ++ ['\n']) rest := by
        rw [displayedFrom_append, displayedFrom_newline]
        simp
      have hnl : '\n' ∉ displayedFrom o pre part ++ ['\r'] := by
        rw [List.mem_append, not_or]
        exact ⟨notMem_displayedFrom o pre hpart, by decide⟩
      rw [hsplit, getlines_line hnl, List.mem_cons] at hpiece
      rcases hpiece with rfl | hpiece
      · have hle := displayedFrom_length_le o pre part
        simp only [tmplineLen, List.length_append, List.length_singleton] at hlong
        have hne : part ≠ [] := by
          rintro rfl
          rw [List.length_nil] at hle
          omega
        obtain ⟨hutf8, hletters, hstate⟩ := letters_of_length (o := o) hpart hne hpre.getLast_ne (by omega)
        refine ⟨hutf8, [], part, rest, rfl, WholeLines.nil, by omega, hletters, ?_⟩
        rwa [List.append_nil]
      · obtain ⟨hutf8, pre', l, post, rfl, hpre', hlen, hletters, hstate⟩ :=
          ih hlines.2 _ (WholeLines.line _) ⟨piece, hpiece, hlong⟩
        refine ⟨hutf8, (part ++ ['\n']) ++ pre', l, post, by simp, (WholeLines.line part).append hpre',
          hlen, hletters, ?_⟩
        rw [← hstate]
        congr 1
        simp
  · rintro ⟨hutf8, pre, l, post, rfl, hpre, hlen, hletters, hstate⟩
    have hl : '\n' ∉ l := fun h => (swedishLetter_plain (hletters _ h)).2.1 rfl
    have hsplit : displayed o (pre ++ (l ++ '\n' :: post)) = displayedFrom o [] pre ++
        ((displayedFrom o pre l ++ ['\r']) ++ '\n' :: displayedFrom o (pre ++ l ++ ['\n']) post) := by
      unfold displayed
      rw [displayedFrom_append, displayedFrom_append, displayedFrom_newline]
      simp
    have hnl : '\n' ∉ displayedFrom o pre l ++ ['\r'] := by
      rw [List.mem_append, not_or]
      exact ⟨notMem_displayedFrom o pre hl, by decide⟩
    rw [hsplit, getlines_append (wholeLines_displayedFrom o [] hpre), getlines_line hnl]
    refine ⟨_, List.mem_append_right _ List.mem_cons_self, ?_⟩
    rw [List.length_append, List.length_append,
      displayedFrom_length_letters hutf8 hstate hpre.getLast_ne hletters, hlen]
    decide

/-! ## Paging -/

theorem emitted_more (events : List Emission) : emitted (.more :: events) = emitted events := rfl

theorem emitted_text (l : CString) (events : List Emission) :
    emitted (.text l :: events) = l ++ emitted events := rfl

/-- When the user does not stop the output, the lines come out whole, up to one that is too long. -/
theorem pageLines_spec {p : Pager} {ls : List CString}
    (habort : (pageLines o p ls).2.2 ≠ .aborted) (hwait : (pageLines o p ls).2.2 ≠ .waiting) :
    ((∃ l ∈ ls, tmplineLen ≤ l.length) ∧ (pageLines o p ls).2.2 = .overrun) ∨
      ((pageLines o p ls).2.2 = .done ∧ (¬ ∃ l ∈ ls, tmplineLen ≤ l.length) ∧
        (o.rot13 = false → emitted (pageLines o p ls).1 = ls.flatten)) := by
  induction ls generalizing p with
  | nil => exact Or.inr ⟨rfl, by simp, fun _ => rfl⟩
  | cons l ls ih =>
    obtain ⟨tmpline, htmp⟩ : ∃ t, t = if o.rot13 then l.map rot13Byte else l := ⟨_, rfl⟩
    -- the rotation keeps the length
    have hlen : tmpline.length = l.length := by
      rw [htmp]
      split
      · exact List.length_map _
      · rfl
    have hplain : o.rot13 = false → tmpline = l := by
      intro hrot
      rw [htmp, hrot]
      rfl
    simp only [pageLines, ← htmp, hlen] at habort hwait ⊢
    by_cases hlong : tmplineLen ≤ l.length
    · exact Or.inl ⟨⟨l, List.mem_cons_self, hlong⟩, by rw [if_pos hlong]⟩
    rw [if_neg hlong] at habort hwait ⊢
    have hcons : (∃ k ∈ l :: ls, tmplineLen ≤ k.length) ↔ ∃ k ∈ ls, tmplineLen ≤ k.length := by
      simp [hlong]
    rw [hcons]
    -- what comes out of the rest comes out behind the line
    have hrest : ∀ {events : List Emission}, (o.rot13 = false → emitted events = ls.flatten) →
        o.rot13 = false → tmpline ++ emitted events = (l :: ls).flatten := by
      intro events hevents hrot
      rw [hplain hrot, hevents hrot, List.flatten_cons]
    split at habort
    next hpage =>
      rw [if_pos hpage] at hwait ⊢
      cases hkeys : (p.count tmpline).keys.dropWhile fun c => decide (c ∉ moreKeys) with
      | nil =>
        rw [hkeys] at hwait
        exact absurd rfl hwait
      | cons c keys =>
        rw [hkeys] at habort hwait
        by_cases hstop : o.stopsAt c = true
        · simp only [hstop, if_true, ne_eq, not_true_eq_false] at habort
        · simp only [hstop, Bool.false_eq_true, if_false] at habort hwait ⊢
          simp only [emitted_more, emitted_text]
          rcases ih habort hwait with hover | ⟨hdone, hshort, hemit⟩
          · exact Or.inl hover
          · exact Or.inr ⟨hdone, hshort, hrest hemit⟩
    next hpage =>
      rw [if_neg hpage] at hwait ⊢
      simp only [emitted_text]
      rcases ih habort hwait with hover | ⟨hdone, hshort, hemit⟩
      · exact Or.inl hover
      · exact Or.inr ⟨hdone, hshort, hrest hemit⟩

/-! ## Output -/

/-- For every text of lines of at most 78 characters, every setting and every paging that goes on, the
output stays inside the two buffers and, without the rotation, writes what is expected, exactly when no line
consists of 78 Swedish letters of two bytes. -/
theorem outputPrepared_iff (p : Pager) (hlen : s.length < hugeLineLen / 2)
    (hlines : ∀ l ∈ s.splitOn '\n', l.length ≤ 78)
    (habort : (outputPrepared o true p s).2.2 ≠ .aborted)
    (hwait : (outputPrepared o true p s).2.2 ≠ .waiting) :
    ((outputPrepared o true p s).2.2 = .done ∧
      (o.rot13 = false → emitted (outputPrepared o true p s).1 = displayed o s)) ↔ ¬ FullLine o s := by
  have hout : outline o true false s = displayed o s := outline_eq o [] s
  have hfits : ¬ hugeLineLen ≤ (displayed o s).length := by
    have hle := displayedFrom_length_le o [] s
    unfold displayed
    unfold hugeLineLen at hlen ⊢
    omega
  simp only [outputPrepared, hout, if_neg hfits] at habort hwait ⊢
  rw [← exists_long_line_iff hlines]
  rcases pageLines_spec habort hwait with ⟨hlong, hend⟩ | ⟨hend, hshort, hemit⟩
  · rw [hend]
    exact iff_of_false (fun h => absurd h.1 (by decide)) (fun h => h hlong)
  · rw [flatten_getlines] at hemit
    exact iff_of_true ⟨hend, hemit⟩ hshort

/-- A terminal for UTF-8 with pages of 24 lines. -/
def utf8Flags : OutputFlags := ⟨true, false, false, false, false, false, false, false⟩

theorem outputPrepared_utf8 : (outputPrepared utf8Flags true ⟨1, 24, false, []⟩ "\x7da\n".toList).2.2 = .done ∧
    (utf8Flags.rot13 = false → emitted (outputPrepared utf8Flags true ⟨1, 24, false, []⟩ "\x7da\n".toList).1 =
      displayed utf8Flags "\x7da\n".toList) := by
  refine (outputPrepared_iff ⟨1, 24, false, []⟩ (by decide) (by decide +kernel) (by decide +kernel)
    (by decide +kernel)).mpr ?_
  rintro ⟨-, pre, l, post, hs, -, hlen, -⟩
  have hle := congrArg List.length hs
  simp only [List.length_append, hlen] at hle
  have hthree : "\x7da\n".toList.length = 3 := rfl
  omega

/-- The line of 78 letters needs 159 bytes with its line end and its NUL. -/
theorem outputPrepared_letters :
    (∀ l ∈ (List.replicate 78 '}' ++ ['\n']).splitOn '\n', l.length ≤ 78) ∧
    (outputPrepared utf8Flags true ⟨1, 24, false, []⟩ (List.replicate 78 '}' ++ ['\n'])).2.2 =
      .overrun := by
  have hsplit : (List.replicate 78 '}' ++ ['\n']).splitOn '\n' = [List.replicate 78 '}', []] := by
    decide
  constructor
  · rw [hsplit]
    simp
  · decide +kernel

end SklaffKom
