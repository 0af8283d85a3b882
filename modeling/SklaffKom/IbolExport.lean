import SklaffKom.NetmailExport
import SklaffKom.IbolStable
import SklaffKom.FtnDate
import SklaffKom.IbolImport

/-!
# A oneliner from one system to another

`export_ibol_job` writes a oneliner as a message of the data area, and the importer of another system makes a
record of it.
-/

open CString Utf8

namespace SklaffKom

/-! ## The export -/

def ibolFtnDomain : CString := "fsxnet".toList

def ibolFtnArea : CString := "FSX_DAT".toList

def ibolBodyLines (author source text : CString) : List CString :=
  ["Author: ".toList ++ author, "Source: ".toList ++ source, [], "Oneliner: ".toList ++ text]

/-- The body of a message; its last line has no line end. -/
def ibolBody (author source text : CString) : CString :=
  "Author: ".toList ++ author ++ '\n' :: ("Source: ".toList ++ source ++ '\n' :: '\n' ::
    ("Oneliner: ".toList ++ text))

/-- `export_ibol_job`: the path and the contents of the file; `none` is -1. -/
def exportIbolJob (env : FtntossEnv) (jobfile : Option CString) : Option (CString × List Char) := do
  let job ← readIbolJob jobfile
  match loadEchomailAreaByIdentity env.load env.prefs ibolFtnDomain ibolFtnArea with
  | .error _ => none
  | .ok (area, feed) =>
    let author := sf7ToUtf8 job.author
    let (path, msgnum) ← nextMsgPath area.path (env.readdir area.path)
    let msgid := makeFtnMsgidForAka area.aka (jobSerial job.created msgnum)
    let body := ibolBody author (sf7ToUtf8 env.site.id) (sf7ToUtf8 job.text)
    if 1024 ≤ body.length then none else
    let file ← writeFidoMsgOut env.site env.clock area.aka feed.address author "IBBS1LINE".toList
      "InterBBS Oneliner".toList body [] msgid
    some (path, file)

/-! ## What arrives unchanged -/

/-- A name that a field keeps: ASCII words with single blanks. -/
structure FieldText (size : Nat) (s : CString) : Prop where
  ascii : ∀ c ∈ s, isAscii c = true
  spaced : Spaced false s
  last : ∀ c ∈ s.getLast?, isGap c = false
  fits : (sf7ToUtf8 s).length < size

/-- A oneliner that arrives unchanged. -/
structure OnelinerText (s : CString) : Prop where
  ascii : ∀ c ∈ s, isAscii c = true
  plain : ∀ c ∈ s, isControl c = false
  last : ∀ c ∈ s.getLast?, isGap c = false
  nonempty : s ≠ []
  fits : (sf7ToUtf8 s).length < 256

/-! ## Converted text -/

variable {s : CString} {size : Nat}

theorem isGap_of_sf7Second {c d : Char} (h : sf7Second c = some d) :
    isGap c = false ∧ isGap d = false ∧ isControl d = false ∧ c ≠ ' ' ∧ Valid ['\xc3', d] := by
  unfold sf7Second at h
  split at h
  next hc => cases h; rw [hc]; exact ⟨rfl, rfl, rfl, by decide, ['å'], rfl⟩
  split at h
  next hc => cases h; rw [hc]; exact ⟨rfl, rfl, rfl, by decide, ['ä'], rfl⟩
  split at h
  next hc => cases h; rw [hc]; exact ⟨rfl, rfl, rfl, by decide, ['ö'], rfl⟩
  split at h
  next hc => cases h; rw [hc]; exact ⟨rfl, rfl, rfl, by decide, ['Å'], rfl⟩
  split at h
  next hc => cases h; rw [hc]; exact ⟨rfl, rfl, rfl, by decide, ['Ä'], rfl⟩
  split at h
  next hc => cases h; rw [hc]; exact ⟨rfl, rfl, rfl, by decide, ['Ö'], rfl⟩
  next => cases h

theorem valid_sf7ToUtf8 (h : ∀ c ∈ s, isAscii c = true) : Valid (sf7ToUtf8 s) := by
  induction s with
  | nil => exact valid_nil
  | cons c s ih =>
    obtain ⟨hc, hs⟩ := List.forall_mem_cons.mp h
    cases hsecond : sf7Second c with
    | none =>
      rw [sf7ToUtf8_plain hsecond]
      exact (ih hs).cons hc
    | some d =>
      rw [sf7ToUtf8_letter hsecond]
      exact (isGap_of_sf7Second hsecond).2.2.2.2.append (ih hs)

theorem spaced_sf7ToUtf8 {b : Bool} (h : Spaced b s) : Spaced b (sf7ToUtf8 s) := by
  induction s generalizing b with
  | nil => trivial
  | cons c s ih =>
    rw [Spaced] at h
    cases hsecond : sf7Second c with
    | none =>
      rw [sf7ToUtf8_plain hsecond, Spaced]
      split
      · rename_i hc
        rw [if_pos hc] at h
        exact ⟨h.1, ih h.2⟩
      · rename_i hc
        rw [if_neg hc] at h
        exact ⟨h.1, ih h.2⟩
    | some d =>
      have hletter := isGap_of_sf7Second hsecond
      rw [if_neg hletter.2.2.2.1] at h
      have hd : d ≠ ' ' := by
        rintro rfl
        cases hletter.2.1
      rw [sf7ToUtf8_letter hsecond, Spaced, if_neg (by decide), Spaced, if_neg hd]
      exact ⟨rfl, hletter.2.1, ih h.2⟩

/-- The last byte of a converted text. -/
theorem getLast_sf7ToUtf8 {P : Char → Bool} (hP : ∀ c d, sf7Second c = some d → P d = false)
    (h : ∀ c ∈ s.getLast?, P c = false) : ∀ c ∈ (sf7ToUtf8 s).getLast?, P c = false := by
  intro c hc
  rcases List.eq_nil_or_concat s with rfl | ⟨t, d, rfl⟩
  · cases hc
  · have hd := h d (by simp)
    rw [List.concat_eq_append, sf7ToUtf8_append] at hc
    cases hsecond : sf7Second d with
    | none =>
      rw [sf7ToUtf8_plain hsecond, List.getLast?_append] at hc
      cases hc
      exact hd
    | some e =>
      rw [sf7ToUtf8_letter hsecond, List.getLast?_append] at hc
      cases hc
      exact hP d _ hsecond

theorem isControl_sf7ToUtf8 (h : ∀ c ∈ s, isControl c = false) : ∀ c ∈ sf7ToUtf8 s, isControl c = false := by
  intro d hd
  rcases mem_sf7ToUtf8 hd with rfl | ⟨c, -, hc⟩ | ⟨hd, -⟩
  · rfl
  · exact (isGap_of_sf7Second hc).2.2.1
  · exact h d hd

theorem escape_notMem (h : ∀ c ∈ s, isControl c = false) : '\x1b' ∉ s := by
  intro hin
  have hctl := h _ hin
  revert hctl
  decide

theorem oneLine_of_notControl (h : ∀ c ∈ s, isControl c = false) : OneLine s := by
  intro c hc
  have hctl := h c hc
  constructor
  · by_contra heol
    simp only [isEol, Bool.not_eq_false, Bool.or_eq_true, decide_eq_true_eq] at heol
    rcases heol with rfl | rfl <;> revert hctl <;> decide
  · rintro rfl
    revert hctl
    decide

theorem FieldText.plain (h : FieldText size s) : ∀ c ∈ sf7ToUtf8 s, isControl c = false :=
  isControl_sf7ToUtf8 h.spaced.not_isControl

/-- The field that is made of such a name. -/
theorem FieldText.sanitized (h : FieldText size s) (flags : Nat) :
    (sanitizeField size (sf7ToUtf8 s) flags).1 = sf7ToUtf8 s := by
  have hlast := getLast_sf7ToUtf8 (fun c d hcd => (isGap_of_sf7Second hcd).2.1) h.last
  have hfits := h.fits
  rw [sanitizeField_eq (by omega),
    stripCodes_eq_self (mysticFree_of_notMem (bar_notMem_sf7ToUtf8 s)) (escape_notMem h.plain),
    (squeeze_spaced _ hlast).1 false (spaced_sf7ToUtf8 h.spaced), List.take_of_length_le (by omega),
    utf8SafeEnd_valid (valid_sf7ToUtf8 h.ascii)]

/-- The text that is made of a oneliner. -/
theorem OnelinerText.sanitized (h : OnelinerText s) (flags : Nat) :
    (sanitizeTextLayout ibolTextMax (sf7ToUtf8 s) flags).1 = sf7ToUtf8 s := by
  have hplain := isControl_sf7ToUtf8 h.plain
  have hlast := getLast_sf7ToUtf8 (fun c d hcd => (isGap_of_sf7Second hcd).2.1) h.last
  have hfits := h.fits
  rw [sanitizeTextLayout_eq (by decide),
    stripCodes_eq_self (mysticFree_of_notMem (bar_notMem_sf7ToUtf8 s)) (escape_notMem hplain),
    layout_eq_self 0 fun c hc => by simp [isTextControl, hplain c hc],
    List.take_of_length_le (by show _ ≤ 4095; omega), trimEnd_eq_self,
      utf8SafeEnd_valid (valid_sf7ToUtf8 h.ascii)]
  intro c hc
  cases hblank : isLayoutBlank c with
  | false => rfl
  | true =>
    have hgap := isGap_of_isLayoutBlank hblank
    rw [hlast c hc] at hgap
    cases hgap

/-! ## The body -/

section Body

variable {author source text : CString}

theorem OneLine.append {a b : CString} (ha : OneLine a) (hb : OneLine b) : OneLine (a ++ b) :=
  fun c hc => (List.mem_append.mp hc).elim (ha c) (hb c)

theorem oneLine_ibolBodyLines (ha : OneLine author) (hs : OneLine source) (ht : OneLine text) :
    ∀ l ∈ ibolBodyLines author source text, OneLine l := by
  intro l hl
  simp only [ibolBodyLines, List.mem_cons, List.not_mem_nil, or_false] at hl
  rcases hl with rfl | rfl | rfl | rfl
  · exact OneLine.append (oneLine_of_all rfl) ha
  · exact OneLine.append (oneLine_of_all rfl) hs
  · exact fun c hc => (List.not_mem_nil hc).elim
  · exact OneLine.append (oneLine_of_all rfl) ht

theorem ibolBody_lines (author source text : CString) :
    ibolBody author source text ++ ['\n'] = unlines (ibolBodyLines author source text) := by
  unfold ibolBody ibolBodyLines
  generalize "Author: ".toList = a, "Source: ".toList = b, "Oneliner: ".toList = c
  simp [unlines]

theorem length_of_mem_unlines {ls : List CString} {l : CString} (h : l ∈ ls) :
    l.length < (unlines ls).length := by
  obtain ⟨a, b, rfl⟩ := List.append_of_mem h
  simp only [unlines, List.flatMap_append, List.flatMap_cons, List.length_append, List.length_singleton]
  omega

theorem textLine_ibolBodyLines (ha : OneLine author) (hs : OneLine source) (ht : OneLine text)
    (hfits : (ibolBody author source text).length < 1024) :
    ∀ l ∈ ibolBodyLines author source text, TextLine l := by
  intro l hl
  have hlen := length_of_mem_unlines hl
  rw [← ibolBody_lines, List.length_append, List.length_singleton] at hlen
  have hmax : bodyLineMax = 4096 := rfl
  refine ⟨⟨oneLine_ibolBodyLines ha hs ht l hl, by omega⟩, ?_⟩
  simp only [ibolBodyLines, List.mem_cons, List.not_mem_nil, or_false] at hl
  rcases hl with rfl | rfl | rfl | rfl
  all_goals simp

theorem textLines_ibolBody (ha : OneLine author) (hs : OneLine source) (ht : OneLine text)
    (hfits : (ibolBody author source text).length < 1024) :
    textLines (ibolBody author source text) = ibolBodyLines author source text := by
  have hsplit := @splitLines_bodyOf '\n' rfl _
    (fun l hl => (textLine_ibolBodyLines ha hs ht hfits l hl).toPlainLine) []
  have hnil : splitLines [] = [] := rfl
  rw [List.append_nil, hnil, List.append_nil] at hsplit
  rw [textLines, ibolBody_lines]
  exact hsplit

theorem plainBody_ibolBody (ha : OneLine author) (hs : OneLine source) (ht : OneLine text)
    (hfits : (ibolBody author source text).length < 1024) : PlainBody (ibolBody author source text) := by
  constructor
  · rw [textLines_ibolBody ha hs ht hfits]
    exact textLine_ibolBodyLines ha hs ht hfits
  · intro hin
    have hmem : '\x00' ∈ unlines (ibolBodyLines author source text) := by
      rw [← ibolBody_lines]
      exact List.mem_append_left _ hin
    obtain ⟨l, hl, hc⟩ := List.mem_flatMap.mp hmem
    rcases List.mem_append.mp hc with hc | hc
    · exact (oneLine_ibolBodyLines ha hs ht l hl _ hc).2 rfl
    · cases List.mem_singleton.mp hc

end Body

/-! ## The lines that the importer sees -/

theorem mem_stripPipeColors {l : CString} {c : Char} (h : c ∈ stripPipeColors l) : c ∈ l := by
  induction l using stripPipeColors.induct with
  | case1 a b r hd ih =>
    rw [stripPipeColors, if_pos hd] at h
    simp [ih h]
  | case2 a b r hd ih =>
    rw [stripPipeColors, if_neg hd] at h
    rcases List.mem_cons.mp h with rfl | h
    · simp
    · exact List.mem_cons_of_mem _ (ih h)
  | case3 d r hno ih =>
    rw [stripPipeColors] at h
    · rcases List.mem_cons.mp h with rfl | h
      · simp
      · exact List.mem_cons_of_mem _ (ih h)
    · exact hno
  | case4 => cases h

theorem skipEol_unlines {ls : List CString} (h : ∀ l ∈ ls, ∀ c ∈ l, isEol c = false) :
    skipEol ('\n' :: unlines ls) = unlines ls := by
  cases ls with
  | nil => rfl
  | cons l ls =>
    rw [unlines_cons]
    cases l with
    | nil => rfl
    | cons c l =>
      have hc := h _ List.mem_cons_self c List.mem_cons_self
      show (if isEol c && c ≠ '\n' then _ else _) = _
      rw [hc]
      rfl

/-- The lines of a text whose lines end with a line feed. -/
theorem ibolLines_unlines {ls : List CString} (h : ∀ l ∈ ls, ∀ c ∈ l, isEol c = false) :
    ibolLines (unlines ls) = ls := by
  induction ls with
  | nil =>
    rw [ibolLines]
    rfl
  | cons l ls ih =>
    obtain ⟨hl, hls⟩ := List.forall_mem_cons.mp h
    have htake : (l ++ '\n' :: unlines ls).takeWhile (fun c => !isEol c) = l := by
      rw [List.takeWhile_append_of_pos fun c hc => by simp [hl c hc], List.takeWhile_cons_of_neg (by decide),
        List.append_nil]
    have hdrop : (l ++ '\n' :: unlines ls).dropWhile (fun c => !isEol c) = '\n' :: unlines ls := by
      rw [List.dropWhile_append_of_pos fun c hc => by simp [hl c hc], List.dropWhile_cons_of_neg (by decide)]
    rw [unlines_cons, ibolLines, if_neg (by simp), htake, hdrop, skipEol_unlines hls, ih hls]

/-- The letter that a line begins with; the name of a field is found there only. -/
def firstLetter (line : CString) : Option Char := (line.dropWhile isBlank).head?.map Char.toLower

theorem fields_of_firstLetter {a : Char} {name line : CString} (h : firstLetter line ≠ some a.toLower) :
    fieldValue (a :: name) line = none ∧ fieldValueLayout (a :: name) line = none := by
  apply fieldValue_none
  cases hafter : afterFieldName (a :: name) line with
  | none => rfl
  | some value => exact absurd (head_of_afterFieldName hafter) h

theorem afterFieldName_own {a : Char} (ha : isBlank a = false) (name v : CString) :
    afterFieldName (a :: name) (a :: name ++ ':' :: v) = some v := by
  have hdrop : (a :: name ++ ':' :: v).dropWhile isBlank = a :: name ++ ':' :: v := by
    rw [List.cons_append, List.dropWhile_cons_of_neg (by simp [ha])]
  have hprefix : hasPrefixCase (a :: name) (a :: name ++ ':' :: v) = true := by
    rw [hasPrefixCase, List.map_append, List.isPrefixOf_iff_prefix]
    exact List.prefix_append _ _
  have hcolon : (a :: name ++ ':' :: v)[(a :: name).length]? = some ':' := by simp
  have hrest : (a :: name ++ ':' :: v).drop ((a :: name).length + 1) = v := by
    rw [← List.drop_drop, List.drop_left]
    rfl
  unfold afterFieldName
  rw [hdrop]
  dsimp only
  rw [if_neg (by simp), hprefix, hcolon, if_neg (by simp), hrest]

section Collect

variable {a s t tear origin : CString}

def ibolMessageLines (a s t tear origin : CString) : List CString :=
  [] :: (ibolBodyLines a s t ++ [[], tear, origin])

theorem firstLetter_field {c : Char} (hc : isBlank c = false) (name v : CString) :
    firstLetter (c :: name ++ v) = some c.toLower := by
  rw [firstLetter, List.cons_append, List.dropWhile_cons_of_neg (by simp [hc])]
  rfl

/-- The values that the importer collects are those that the exporter has printed. -/
theorem ibolMessageLines_values (htear : firstLetter tear = some '-') (horigin : firstLetter origin = some '*')
    (ha : ∀ c ∈ a.head?, isBlank c = false) (ha' : ∀ c ∈ a.getLast?, isBlank c = false)
    (hs : ∀ c ∈ s.head?, isBlank c = false) (hs' : ∀ c ∈ s.getLast?, isBlank c = false) :
    lastValue "Author".toList (ibolMessageLines a s t tear origin) = a ∧
      lastValue "Source".toList (ibolMessageLines a s t tear origin) = s ∧
      (ibolMessageLines a s t tear origin).filterMap (fieldValueLayout "Oneliner".toList) = [t] := by
  have hA : "Author: ".toList = 'A' :: "uthor".toList ++ [':', ' '] := by decide
  have hS : "Source: ".toList = 'S' :: "ource".toList ++ [':', ' '] := by decide
  have hO : "Oneliner: ".toList = 'O' :: "neliner".toList ++ [':', ' '] := by decide
  have hA' : "Author".toList = 'A' :: "uthor".toList := by decide
  have hS' : "Source".toList = 'S' :: "ource".toList := by decide
  have hO' : "Oneliner".toList = 'O' :: "neliner".toList := by decide
  unfold ibolMessageLines ibolBodyLines
  rw [hA, hS, hO, hA', hS', hO']
  generalize "uthor".toList = author, "ource".toList = source, "neliner".toList = oneliner
  have hvalue {c : Char} (hc : isBlank c = false) (name : CString) {v : CString}
      (hv : ∀ d ∈ v.head?, isBlank d = false) (hv' : ∀ d ∈ v.getLast?, isBlank d = false) :
      fieldValue (c :: name) (c :: name ++ [':', ' '] ++ v) = some v := by
    have hstart : (' ' :: v).dropWhile isBlank = v := by
      rw [List.dropWhile_cons_of_pos rfl]
      cases v with
      | nil => rfl
      | cons d v => exact List.dropWhile_cons_of_neg (by simp [hv d rfl])
    rw [List.append_assoc, fieldValue]
    show (afterFieldName (c :: name) (c :: name ++ ':' :: ' ' :: v)).map _ = _
    rw [afterFieldName_own hc, Option.map_some, hstart, trimEnd_eq_self hv']
  have hlayout : fieldValueLayout ('O' :: oneliner) ('O' :: oneliner ++ [':', ' '] ++ t) = some t := by
    rw [List.append_assoc, fieldValueLayout]
    show (afterFieldName ('O' :: oneliner) ('O' :: oneliner ++ ':' :: ' ' :: t)).map _ = _
    rw [afterFieldName_own rfl]
    rfl
  have hletter {c : Char} (hc : isBlank c = false) (name v : CString) :
      firstLetter (c :: name ++ [':', ' '] ++ v) = some c.toLower := by
    rw [List.append_assoc]
    exact firstLetter_field hc name _
  have hempty : firstLetter [] = none := rfl
  have hother {x : Char} {l : CString} (name : CString) {o : Option Char} (h : firstLetter l = o)
      (hne : o ≠ some x.toLower) : fieldValue (x :: name) l = none ∧ fieldValueLayout (x :: name) l = none :=
    fields_of_firstLetter (by rwa [h])
  have hAuthor := hletter (c := 'A') rfl author a
  have hSource := hletter (c := 'S') rfl source s
  have hOneliner := hletter (c := 'O') rfl oneliner t
  refine ⟨?_, ?_, ?_⟩
  · have hnone {l : CString} {o : Option Char} (h : firstLetter l = o) (hne : o ≠ some 'A'.toLower) :=
      (hother author h hne).1
    have hlist := hnone hSource (by decide)
    have hlist' := hnone hOneliner (by decide)
    simp only [List.cons_append, List.nil_append] at hlist hlist' ⊢
    simp only [lastValue, List.filterMap_cons, List.filterMap_nil, hnone hempty (by decide),
      hnone htear (by decide), hnone horigin (by decide), hlist, hlist']
    have hown := hvalue (c := 'A') rfl author ha ha'
    simp only [List.cons_append] at hown
    simp only [hown, List.getLast?_singleton, Option.getD_some]
  · have hnone {l : CString} {o : Option Char} (h : firstLetter l = o) (hne : o ≠ some 'S'.toLower) :=
      (hother source h hne).1
    have hlist := hnone hAuthor (by decide)
    have hlist' := hnone hOneliner (by decide)
    simp only [List.cons_append, List.nil_append] at hlist hlist' ⊢
    simp only [lastValue, List.filterMap_cons, List.filterMap_nil, hnone hempty (by decide),
      hnone htear (by decide), hnone horigin (by decide), hlist, hlist']
    have hown := hvalue (c := 'S') rfl source hs hs'
    simp only [List.cons_append] at hown
    simp only [hown, List.getLast?_singleton, Option.getD_some]
  · have hnone {l : CString} {o : Option Char} (h : firstLetter l = o) (hne : o ≠ some 'O'.toLower) :=
      (hother oneliner h hne).2
    have hlist := hnone hAuthor (by decide)
    have hlist' := hnone hSource (by decide)
    simp only [List.cons_append, List.nil_append] at hlist hlist' hlayout ⊢
    simp only [List.filterMap_cons, List.filterMap_nil, hnone hempty (by decide),
      hnone htear (by decide), hnone horigin (by decide), hlist, hlist', hlayout]

end Collect

/-! ## The record -/

theorem isBlank_of_isGap {c : Char} (h : isGap c = false) : isBlank c = false := by
  cases hblank : isBlank c with
  | false => rfl
  | true =>
    rw [isGap, hblank, Bool.or_true] at h
    cases h

theorem isSpace_of_isGap {c : Char} (h : isGap c = false) : isSpace c = false := by
  cases hspace : isSpace c with
  | false => rfl
  | true =>
    simp only [isSpace, Bool.or_eq_true, beq_iff_eq] at hspace
    rcases hspace with ((((rfl | rfl) | rfl) | rfl) | rfl) | rfl
    all_goals cases h

theorem head_of_spaced {s : CString} (h : Spaced false s) : ∀ c ∈ s.head?, isBlank c = false := by
  intro c hc
  cases s with
  | nil => cases hc
  | cons d s =>
    cases hc
    rw [Spaced] at h
    split at h
    · cases h.1
    · exact isBlank_of_isGap h.1

theorem FieldText.copied (h : FieldText size s) (hsize : 0 < size) :
    (copySegment size (sf7ToUtf8 s)).1 = sf7ToUtf8 s := by
  have hfits := h.fits
  rw [copySegment, List.take_of_length_le (by omega), utf8SafeEnd_valid (valid_sf7ToUtf8 h.ascii)]

theorem sf7ToUtf8_ne_nil (h : s ≠ []) : sf7ToUtf8 s ≠ [] := by
  obtain ⟨c, t, rfl⟩ := List.exists_cons_of_ne_nil h
  cases hc : sf7Second c with
  | none =>
    rw [sf7ToUtf8_plain hc]
    exact List.cons_ne_nil _ _
  | some d =>
    rw [sf7ToUtf8_letter hc]
    exact List.cons_ne_nil _ _

/-- The last character of a oneliner is no blank. -/
theorem OnelinerText.word (h : OnelinerText s) : ∃ c ∈ sf7ToUtf8 s, isGap c = false := by
  have hlast := getLast_sf7ToUtf8 (fun c d hcd => (isGap_of_sf7Second hcd).2.1) h.last
  obtain ⟨ds, d, hds⟩ := (List.eq_nil_or_concat (sf7ToUtf8 s)).resolve_left (sf7ToUtf8_ne_nil h.nonempty)
  exact ⟨d, by simp [hds], hlast d (by simp [hds])⟩

theorem OnelinerText.joined (h : OnelinerText s) :
    joinValues [sf7ToUtf8 s] = sf7ToUtf8 s := by
  have hfits := h.fits
  have happend : joinValues [sf7ToUtf8 s] = utf8SafeEnd ((sf7ToUtf8 s).take 4095) := rfl
  rw [happend, List.take_of_length_le (by omega), utf8SafeEnd_valid (valid_sf7ToUtf8 h.ascii)]

/-- What the importer makes of the body. -/
theorem ibolParseBody_exported {author source text tear origin : CString}
    (hauthor : FieldText ibolAuthorMax author)
    (hsource : FieldText ibolSourceMax source) (htext : OnelinerText text) (htear : firstLetter tear = some '-')
    (horigin : firstLetter origin = some '*') (hends : ∀ l ∈ [tear, origin], ∀ c ∈ l, isEol c = false) :
    ∃ entry, ibolParseBody (unlines (ibolMessageLines (sf7ToUtf8 author) (sf7ToUtf8 source) (sf7ToUtf8 text)
        tear origin)) = (entry, .ok) ∧
      entry.author = sf7ToUtf8 author ∧ entry.source = sf7ToUtf8 source ∧ entry.text = sf7ToUtf8 text := by
  have hlast {size : Nat} {s : CString} (h : FieldText size s) :
      ∀ c ∈ (sf7ToUtf8 s).getLast?, isBlank c = false := fun c hc =>
    isBlank_of_isGap (getLast_sf7ToUtf8 (fun c d hcd => (isGap_of_sf7Second hcd).2.1) h.last c hc)
  have hoverall : ∀ l ∈ ibolMessageLines (sf7ToUtf8 author) (sf7ToUtf8 source) (sf7ToUtf8 text) tear origin,
      ∀ c ∈ l, isEol c = false := by
    have hbody := oneLine_ibolBodyLines (oneLine_of_notControl hauthor.plain)
      (oneLine_of_notControl hsource.plain) (oneLine_of_notControl (isControl_sf7ToUtf8 htext.plain))
    intro l hl c hc
    rcases List.mem_cons.mp hl with rfl | hl
    · cases hc
    · rcases List.mem_append.mp hl with hl | hl
      · exact (hbody l hl c hc).1
      · rcases List.mem_cons.mp hl with rfl | hl
        · cases hc
        · exact hends l hl c hc
  obtain ⟨hauthors, hsources, honeliners⟩ := ibolMessageLines_values (t := sf7ToUtf8 text) htear horigin
    (head_of_spaced (spaced_sf7ToUtf8 hauthor.spaced)) (hlast hauthor)
    (head_of_spaced (spaced_sf7ToUtf8 hsource.spaced)) (hlast hsource)
  obtain ⟨w, hw, hgap⟩ := htext.word
  have hvalues : onelinerValues (ibolMessageLines (sf7ToUtf8 author) (sf7ToUtf8 source) (sf7ToUtf8 text)
      tear origin) = [sf7ToUtf8 text] := by
    have hkeep : (sf7ToUtf8 text).all isBlank = false :=
      List.all_eq_false.mpr ⟨w, hw, by simp [isBlank_of_isGap hgap]⟩
    rw [onelinerValues, honeliners, List.filter_cons_of_pos (by simp [hkeep]), List.filter_nil]
  have hlines := ibolLines_unlines hoverall
  generalize ibolMessageLines (sf7ToUtf8 author) (sf7ToUtf8 source) (sf7ToUtf8 text) tear origin = lines at *
  obtain ⟨hAuthor, hSource, hText, hparts⟩ := collected lines
  rw [hauthors, hauthor.copied (by decide)] at hAuthor
  rw [hsources, hsource.copied (by decide)] at hSource
  rw [hvalues, htext.joined] at hText
  have hcontent : textHasContent (sf7ToUtf8 text) = true :=
    List.any_eq_true.mpr ⟨w, hw, by simp [isSpace_of_isGap hgap]⟩
  generalize hbody : unlines lines = body at *
  obtain ⟨⟨flags, hparsed⟩, ⟨flags', hparsed'⟩, ⟨flags'', hparsed''⟩, -⟩ := ibolParseBody_fields body
  rw [hlines] at hparsed hparsed' hparsed''
  rw [hAuthor, hauthor.sanitized] at hparsed
  rw [hSource, hsource.sanitized] at hparsed'
  rw [hText, htext.sanitized] at hparsed''
  refine ⟨(ibolParseBody body).1, Prod.ext rfl ?_, hparsed, hparsed', hparsed''⟩
  have hstatus : (ibolParseBody body).2 =
      if ((ibolLines body).foldl ibolBodyLine (IbolEntry.init, [])).1.onelinerParts = 0 ∨
        textHasContent (ibolParseBody body).1.text = false then
        .empty "no usable Oneliner: field found".toList
      else .ok := rfl
  rw [hstatus, if_neg]
  rintro (hzero | hblank)
  · rw [hlines] at hzero
    exact sf7ToUtf8_ne_nil htext.nonempty (hText.symm.trans (hparts hzero))
  · rw [hparsed'', hcontent] at hblank
    cases hblank

/-! ## The whole way -/

section Arrives

variable {env : FtntossEnv} {importer : IbolEnv} {c : IbolCall} {now n t : Int} {file path : CString}
variable {area : FtnArea} {feed : FtnLink}

theorem firstLetter_stripped {c d : Char} {pre s : CString} (hpre : ∀ x ∈ pre, isBlank x = true ∧ x ≠ '|')
    (hc : isBlank c = false ∧ c ≠ '|') (hd : c.toLower = d) :
    firstLetter (stripPipeColors (pre ++ c :: s)) = some d := by
  induction pre with
  | nil =>
    rw [List.nil_append, stripPipeColors]
    · rw [firstLetter, List.dropWhile_cons_of_neg (by simp [hc.1])]
      exact congrArg some hd
    · rintro a b r rfl
      exact absurd rfl hc.2
  | cons x pre ih =>
    obtain ⟨hx, hpre⟩ := List.forall_mem_cons.mp hpre
    rw [List.cons_append, stripPipeColors]
    · rw [firstLetter, List.dropWhile_cons_of_pos hx.1]
      exact ih hpre
    · rintro a b r rfl
      exact absurd rfl hx.2

/-- The text of the message as the importer gets it. -/
theorem ibolMessage_cleanBody {author source text : CString} (ha : '|' ∉ author) (hs : '|' ∉ source)
    (ht : '|' ∉ text) {site : Site} {clock : Clock} {orig : FtnAddress} (hprints : Prints site clock orig)
    (msgid : CString) : ∃ tear origin, firstLetter tear = some '-' ∧ firstLetter origin = some '*' ∧
      (∀ l ∈ [tear, origin], ∀ c ∈ l, isEol c = false) ∧
      ((commonKludges clock msgid [] ++ ibolBodyLines author source text ++ [] :: originLines site orig).filter
        fun l => !shouldHideCleanLine l).map stripPipeColors =
          ibolMessageLines author source text tear origin := by
  have hbody : (ibolBodyLines author source text).filter (fun l => !shouldHideCleanLine l) =
      ibolBodyLines author source text := rfl
  have hends : ([] :: originLines site orig).filter (fun l => !shouldHideCleanLine l) =
      [] :: originLines site orig := rfl
  have hlit : '|' ∉ "Author: ".toList ∧ '|' ∉ "Source: ".toList ∧ '|' ∉ "Oneliner: ".toList := by decide
  have hplain {w v : CString} (hw : '|' ∉ w) (hv : '|' ∉ v) : stripPipeColors (w ++ v) = w ++ v :=
    stripPipeColors_eq_self fun h => (List.mem_append.mp h).elim hw hv
  have hstrip : (ibolBodyLines author source text).map stripPipeColors = ibolBodyLines author source text := by
    unfold ibolBodyLines
    rw [List.map_cons, List.map_cons, List.map_cons, List.map_cons, List.map_nil, hplain hlit.1 ha,
      hplain hlit.2.1 hs, hplain hlit.2.2 ht]
    rfl
  have htear : "--- SklaffKOM v".toList = [] ++ '-' :: "-- SklaffKOM v".toList := by decide
  have horigin : " * Origin: ".toList = [' '] ++ '*' :: " Origin: ".toList := by decide
  refine ⟨stripPipeColors ("--- SklaffKOM v".toList ++ sklaffVersionNoBuild site.version),
    stripPipeColors (" * Origin: ".toList ++ site.id ++ ", ".toList ++ site.loc ++ " (".toList ++
      makeFtnAddr orig ++ [')']), ?_, ?_, ?_, ?_⟩
  · rw [htear, List.append_assoc]
    exact firstLetter_stripped (fun x hx => (List.not_mem_nil hx).elim) (by decide) (by decide)
  · rw [horigin, List.append_assoc, List.append_assoc, List.append_assoc, List.append_assoc, List.append_assoc,
      List.append_assoc]
    refine firstLetter_stripped ?_ (by decide) (by decide)
    intro x hx
    rw [List.mem_singleton.mp hx]
    decide
  · intro l hl c hc
    simp only [List.mem_cons, List.not_mem_nil, or_false] at hl
    rcases hl with rfl | rfl
    · exact ((hprints.tail _ List.mem_cons_self).chars c (mem_stripPipeColors hc)).1
    · exact ((hprints.tail _ (List.mem_cons_of_mem _ List.mem_cons_self)).chars c (mem_stripPipeColors hc)).1
  · rw [List.filter_append, List.filter_append, filter_commonKludges, hbody, hends, List.map_append,
      List.map_append, hstrip]
    rfl

/-- The record that is made of the message. -/
theorem messageResult_exported {site : Site} {clock : Clock} {orig : FtnAddress} {author text msgid : CString}
    (hauthor : FieldText ibolAuthorMax author) (hsource : FieldText ibolSourceMax site.id)
    (htext : OnelinerText text) (hprints : Prints site clock orig) (htime : LocalTime clock.tm)
    (ht : importer.mktime (fidoTime clock.tm) = t) (hne : t ≠ -1)
    (hmsgid : KludgeValue 256 msgid) (hmsgidNe : msgid ≠ [])
    (hauthorNe : author ≠ []) (f : IbolMsgFile) :
    messageResult importer f (readMessage clock (sf7ToUtf8 author) "IBBS1LINE".toList
        "InterBBS Oneliner".toList msgid [] (commonKludges clock msgid [] ++
          ibolBodyLines (sf7ToUtf8 author) (sf7ToUtf8 site.id)
            (sf7ToUtf8 text) ++ [] :: originLines site orig)) =
      .record ⟨t, msgid, sf7ToUtf8 author, sf7ToUtf8 site.id, sf7ToUtf8 text⟩ := by
  generalize hmsg : readMessage clock (sf7ToUtf8 author) "IBBS1LINE".toList "InterBBS Oneliner".toList msgid []
    (commonKludges clock msgid [] ++ ibolBodyLines (sf7ToUtf8 author) (sf7ToUtf8 site.id) (sf7ToUtf8 text) ++
      [] :: originLines site orig) = msg
  have hto : msg.toName = "IBBS1LINE".toList := by
    rw [← hmsg]
    show trimEnd isSpace (fixedText 36 "IBBS1LINE".toList) = _
    decide
  have hsubject : msg.subject = "InterBBS Oneliner".toList := by
    rw [← hmsg]
    show trimEnd isSpace (fixedText 72 "InterBBS Oneliner".toList) = _
    decide
  have hid : msg.msgid = msgid := by rw [← hmsg]; rfl
  have hdate : ftnTimestamp importer.mktime 7 msg.date = some t := by
    rw [← hmsg]
    show ftnTimestamp importer.mktime 7 (trimEnd isSpace (fixedText 20 (makeFidoDate clock.tm))) = _
    rw [ftnTimestamp, htime.scanned (by decide)]
    simp only [Option.bind_eq_bind, Option.bind_some, ht]
    rw [if_neg hne]
    rfl
  obtain ⟨tear, origin, htear, horigin, hends, hclean⟩ := ibolMessage_cleanBody (bar_notMem_sf7ToUtf8 author)
    (bar_notMem_sf7ToUtf8 site.id) (bar_notMem_sf7ToUtf8 text) hprints msgid
  have hbody : msg.cleanBody = unlines (ibolMessageLines (sf7ToUtf8 author) (sf7ToUtf8 site.id)
      (sf7ToUtf8 text) tear origin) := by
    rw [← hmsg]
    exact congrArg unlines hclean
  obtain ⟨entry, hparse, hA, hS, hT⟩ := ibolParseBody_exported hauthor hsource htext htear horigin hends
  have hmine : ibolIsMessage msg = true := by
    rw [ibolIsMessage, hto]
    decide
  have hsub : subjectMatches msg.subject = true := by
    rw [hsubject]
    decide
  have hmessage : ibolParseMessage msg IbolEntry.init = (entry, .ok) := by
    unfold ibolParseMessage
    rw [hmine, hbody, hparse, hsub]
    rfl
  have hrecord : makeRecord importer f msg entry =
      some ⟨t, msgid, sf7ToUtf8 author, sf7ToUtf8 site.id, sf7ToUtf8 text⟩ := by
    have hlenA := hauthor.fits
    have hlenS := hsource.fits
    have hlenT := htext.fits
    have hlenM := hmsgid.fits
    have hmaxA : ibolAuthorMax = 128 := rfl
    have hmaxS : ibolSourceMax = 256 := rfl
    have hmaxT : ibolTextMax = 4096 := rfl
    have hmaxM : ibolMsgidMax = 256 := rfl
    have hentry : entry.author ≠ [] := by
      rw [hA]
      exact sf7ToUtf8_ne_nil hauthorNe
    rw [makeRecord, hdate, Option.some_or, Option.bind_eq_bind, Option.bind_some, hid, if_pos hmsgidNe,
      if_pos hentry, hA, hS, hT, strlcpy_of_short (by omega), strlcpy_of_short (by omega),
      strlcpy_of_short (by omega), strlcpy_of_short (by omega)]
    rfl
  unfold messageResult
  rw [hmine, hmessage]
  dsimp only
  rw [hrecord]
  rfl

/-- A oneliner that was queued is written to a new file of the data area, and the importer of the other system makes
a record of it: the author, the system and the text as they were, and the time of the export. -/
theorem oneliner_arrives (hfile : c.file now = some file) (hjob : c.FitsJob)
    (hnow : 0 < now ∧ now.natAbs ≤ longMax) (hauthor : FieldText ibolAuthorMax c.author)
    (hsource : FieldText ibolSourceMax env.site.id) (htext : OnelinerText c.text)
    (hfits : (ibolBody (sf7ToUtf8 c.author) (sf7ToUtf8 env.site.id) (sf7ToUtf8 c.text)).length < 1024)
    (harea : loadEchomailAreaByIdentity env.load env.prefs ibolFtnDomain ibolFtnArea = .ok (area, feed))
    (hpath : nextMsgPath area.path (env.readdir area.path) = some (path, n))
    (hprints : Prints env.site env.clock area.aka) (htime : LocalTime env.clock.tm)
    (ht : importer.mktime (fidoTime env.clock.tm) = t) (hne : t ≠ -1) :
    ∃ data msg, exportIbolJob env (some file) = some (path, data) ∧ readFidoMsg (some data) = some msg ∧
      ∀ f, messageResult importer f msg = .record ⟨t, makeFtnMsgidForAka area.aka (jobSerial now n),
        sf7ToUtf8 c.author, sf7ToUtf8 env.site.id, sf7ToUtf8 c.text⟩ := by
  have hread := readIbolJob_file hfile hjob hnow
  have hA := oneLine_of_notControl hauthor.plain
  have hS := oneLine_of_notControl hsource.plain
  have hT := oneLine_of_notControl (isControl_sf7ToUtf8 htext.plain)
  have hmsgid := kludgeValue_msgid area.aka (jobSerial now n)
  have hmsgidNe : makeFtnMsgidForAka area.aka (jobSerial now n) ≠ [] := by
    rw [makeFtnMsgidForAka_eq]
    simp
  have hempty : KludgeValue 256 [] := ⟨fun c hc => (List.not_mem_nil hc).elim, by simp, by decide⟩
  obtain ⟨data, hdata, hmsg⟩ := @readFidoMsg_echomail env.site env.clock area.aka feed.address
    (sf7ToUtf8 c.author) "IBBS1LINE".toList "InterBBS Oneliner".toList _ [] _ hprints
    (plainBody_ibolBody hA hS hT hfits) hmsgid hempty (fun h => (hA _ h).2 rfl) (by decide) (by decide) hmsgidNe
  refine ⟨data, _, ?_, hmsg, fun f => ?_⟩
  · unfold exportIbolJob
    rw [hread]
    simp only [Option.bind_eq_bind, Option.bind_some]
    rw [harea]
    dsimp only
    rw [hpath]
    simp only [Option.bind_some]
    rw [if_neg (by omega), hdata]
    rfl
  · rw [textLines_ibolBody hA hS hT hfits]
    exact messageResult_exported hauthor hsource htext hprints htime ht hne hmsgid hmsgidNe
      (IbolCall.file_eq_some hfile).1.2.1 f

end Arrives

/-! ## A message -/

theorem notControl_of_all (h : s.all (fun c => !isControl c) = true) : ∀ c ∈ s, isControl c = false :=
  fun c hc => by simpa using List.all_eq_true.mp h c hc

theorem getLast_of_eq {d : Char} (hs : s.getLast? = some d) (hd : isGap d = false) :
    ∀ c ∈ s.getLast?, isGap c = false := by
  intro c hc
  rw [hs] at hc
  cases hc
  exact hd

/-- The same system with the data area and its feed. -/
def ibolEnvExample : FtntossEnv :=
  { envExample with
    prefs := some
      ⟨"AKA 21:1/100\nDOMAIN fsxnet\nAREA FSX_DAT 21:1/100 MSG /ftn/dat\nEXPORT %21:1/1\n".toList, false⟩ }

/-- The seconds since 1970 where the clock is two hours ahead. -/
def summerTime (tm : Tm) : Int :=
  86400 * Calendar.dayNumber tm.year tm.mon tm.mday + 3600 * tm.hour + 60 * tm.min + tm.sec - 7200

def ibolImporterExample : IbolEnv where
  read := fun _ => none
  mtime := fun _ => none
  mktime := fun tm => if -llongMax - 1 ≤ summerTime tm ∧ summerTime tm ≤ llongMax then summerTime tm else -1
  mtime_bounds := fun _ _ h => by cases h
  mktime_bounds := by
    intro tm
    split
    · assumption
    · decide

def ibolCallArrives : IbolCall := ⟨7, "Bj|rn Ek".toList, " \x7dt \x7b\x7dra".toList⟩

def ibolAreaExample : FtnArea :=
  ⟨.echomail, "FSX_DAT".toList, "fsxnet".toList, "MSG".toList, "/ftn/dat".toList, ⟨21, 1, 100, 0⟩,
    [⟨⟨21, 1, 1, 0⟩, '%'⟩]⟩

theorem ibolPrints_example : Prints ibolEnvExample.site ibolEnvExample.clock ibolAreaExample.aka where
  tail := by
    intro l hl
    have hlines : originLines ibolEnvExample.site ibolAreaExample.aka =
        ["--- SklaffKOM v1.32".toList, " * Origin: SKLAFF, Lund (21:1/100)".toList] := by decide +kernel
    rw [hlines] at hl
    simp only [List.mem_cons, List.not_mem_nil, or_false] at hl
    rcases hl with rfl | rfl
    all_goals exact ⟨⟨oneLine_of_all rfl, by decide⟩, by decide⟩
  zone := ⟨oneLine_of_all rfl, head_of_all rfl, by decide⟩

theorem oneliner_arrives_example :
    ∃ data msg, exportIbolJob ibolEnvExample (ibolCallArrives.file 1000) =
      some ("/ftn/dat/8.msg".toList, data) ∧
      readFidoMsg (some data) = some msg ∧
      ∀ f, messageResult ibolImporterExample f msg = .record ⟨1781466949,
        makeFtnMsgidForAka ⟨21, 1, 100, 0⟩ (jobSerial 1000 8), sf7ToUtf8 ibolCallArrives.author,
        sf7ToUtf8 "SKLAFF".toList, sf7ToUtf8 ibolCallArrives.text⟩ :=
  @oneliner_arrives ibolEnvExample ibolImporterExample ibolCallArrives 1000 8 1781466949 _ _ ibolAreaExample
    ⟨⟨21, 1, 1, 0⟩, '%'⟩ rfl ⟨by decide, by decide, head_of_all rfl⟩ (by decide)
    ⟨List.all_eq_true.mp rfl, by simp [ibolCallArrives, Spaced]; decide, getLast_of_eq rfl rfl, by decide⟩
    ⟨List.all_eq_true.mp rfl, by simp [ibolEnvExample, envExample, Spaced]; decide, getLast_of_eq rfl rfl,
      by decide⟩
    ⟨List.all_eq_true.mp rfl, notControl_of_all rfl, getLast_of_eq rfl rfl, by decide, by decide⟩ (by decide)
    (by decide +kernel) (by decide +kernel)
    ibolPrints_example ⟨by decide, by decide, by decide, by decide, by decide, by decide⟩ (by decide +kernel)
    (by decide)

end SklaffKom
