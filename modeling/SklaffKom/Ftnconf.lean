import SklaffKom.ConfExtra

/-!
# The ftnconf of a conference

The interactive program and `ftntoss` read `ftnconf` each with a reader of its own.  The readers differ
in how they trim a line, in what they think of an empty section name, and in how much of a value they
keep; the rest of them is the same.
-/

open CString

namespace SklaffKom

/-- `struct CONF_FTN_CONFIG` and `struct meeting_ftn_config` -/
structure FtnConfig where
  version : Int
  type : CString
  domain : CString
  tag : CString
deriving DecidableEq, Repr

/-- What the two readers differ in. -/
structure FtnconfReader where
  /-- what is left of a line -/
  readLine : CString → CString
  /-- the header `![]` is no error -/
  emptySection : Bool
  domainSize : Nat
  tagSize : Nat

/-- The header read last, and the values read so far. -/
structure FtnconfRead where
  section_ : CString
  version : Option Int
  type : Option CString
  domain : Option CString
  tag : Option CString
deriving DecidableEq

def FtnconfRead.start : FtnconfRead := ⟨[], none, none, none, none⟩

/-- `strtol(line, &ep, 10)` with the tests after it. -/
def readVersion (l : CString) : Option Int :=
  let (version, ep) := strtol l
  if ep = l ∨ ep ≠ [] ∨ version < 0 ∨ version > 2147483647 then none else some version

/-- The name in a section header that begins with `![`; `none` is malformed, or too long. -/
def sectionName (l : CString) : Option CString :=
  match strchr (l.drop 2) ']' with
  | none => none
  | some close =>
    let name := (l.drop 2).take ((l.drop 2).length - close.length)
    if close.tail ≠ [] ∨ 32 ≤ name.length then none else some name

/-- A value below the header of a section. -/
def storeValue (R : FtnconfReader) (s : FtnconfRead) (l : CString) : Option FtnconfRead :=
  if sameNoCase s.section_ "version".toList then
    if s.version.isSome then none
    else (readVersion l).map fun version => { s with section_ := [], version := some version }
  else if sameNoCase s.section_ "type".toList then
    if s.type.isSome then none else some { s with section_ := [], type := some (strlcpy 32 l) }
  else if sameNoCase s.section_ "domain".toList then
    if s.domain.isSome then none
    else some { s with section_ := [], domain := some (strlcpy R.domainSize l) }
  else if sameNoCase s.section_ "tag".toList then
    if s.tag.isSome then none else some { s with section_ := [], tag := some (strlcpy R.tagSize l) }
  else none

/-- A line of the file, after it was trimmed. -/
def takeLine (R : FtnconfReader) (s : FtnconfRead) (l : CString) : Option FtnconfRead :=
  if l = [] ∨ l.head? = some '#' then some s
  else if "![".toList.isPrefixOf l then
    match sectionName l with
    | none => none
    | some name =>
      if name = [] ∧ R.emptySection = false then none else some { s with section_ := name }
  else if s.section_ = [] then none
  else storeValue R s l

/-- The tests after the last line. -/
def checkRead (s : FtnconfRead) : Option FtnConfig :=
  match s.version, s.type, s.domain, s.tag with
  | some version, some type, some domain, some tag =>
    if version ≠ 1 ∨ sameNoCase type "echomail".toList = false ∨ domain = [] ∨ tag = [] then none
    else some ⟨version, type, domain, tag⟩
  | _, _, _, _ => none

/-- Reading a file: `none` is -1, and `some none` that there is no file. -/
def loadFtnconf (R : FtnconfReader) : Option CString → Option (Option FtnConfig)
  | none => some none
  | some file => do
    let s ← (fileLines 1024 file).foldlM (fun s l => takeLine R s (R.readLine (stringOf l))) .start
    let fc ← checkRead s
    pure (some fc)

/-- The trimming of `conf_load_ftnconf`: `line[strcspn(line, "\r\n")] = '\0'; ltrim(line); rtrim(line);` -/
def confLine (l : CString) : CString := rtrim (ltrim (l.takeWhile fun c => !isEol c))

/-- The trimming of `load_meeting_ftnconf`: `strip_eol`, `trim_left`, and white space at the end. -/
def meetingLine (l : CString) : CString := trimEnd isSpace ((stripEol l).dropWhile isSpace)

def confReader : FtnconfReader := ⟨confLine, true, 80, 80⟩

def meetingReader : FtnconfReader := ⟨meetingLine, false, 64, 128⟩

def confLoadFtnconf : Option CString → Option (Option FtnConfig) := loadFtnconf confReader

def loadMeetingFtnconf : Option CString → Option (Option FtnConfig) := loadFtnconf meetingReader

/-- The lines that `conf_write_ftnconf` prints. -/
def ftnconfLines (fc : FtnConfig) : List CString :=
  ["![version]".toList, decimal fc.version, "![type]".toList, fc.type, "![domain]".toList, fc.domain,
    "![tag]".toList, fc.tag]

/-- `conf_write_ftnconf`: what is written, if the configuration is accepted. -/
def confWriteFtnconf (fc : FtnConfig) : Option CString :=
  if fc.version ≠ 1 ∨ sameNoCase fc.type "echomail".toList = false ∨ fc.domain = [] ∨ fc.tag = [] then none
  else if fc.domain.any isEol || fc.tag.any isEol then none
  else
    let data := unlines (ftnconfLines fc)
    -- `LONG_LINE data`
    if 159 ≤ data.length then none else some data

/-- A line that is passed over. -/
def Skipped (l : CString) : Prop := l = [] ∨ l.head? = some '#'

theorem strlcpy_of_short {size : Nat} {l : CString} (h : l.length < size) : strlcpy size l = l := by
  unfold strlcpy
  exact List.take_of_length_le (by omega)

theorem takeLine_skipped (R : FtnconfReader) (s : FtnconfRead) {l : CString} (h : Skipped l) :
    takeLine R s l = some s := by
  unfold takeLine
  exact if_pos h

/-! ## What is written -/

/-- A line that is neither skipped nor a header. -/
def ValueLine (l : CString) : Prop := l ≠ [] ∧ l.head? ≠ some '#' ∧ ¬ "![".toList <+: l

/-- No white space at either end. -/
structure Untrimmed (v : CString) : Prop where
  start : ∀ c ∈ v.head?, isSpace c = false
  stop : ∀ c ∈ v.getLast?, isSpace c = false

/-- A value that reads as it was written. -/
structure PlainValue (v : CString) : Prop where
  value : ValueLine v
  untrimmed : Untrimmed v

theorem takeLine_value (R : FtnconfReader) {s : FtnconfRead} (hs : s.section_ ≠ []) {l : CString}
    (h : ValueLine l) : takeLine R s l = storeValue R s l := by
  obtain ⟨hne, hcomment, hheader⟩ := h
  unfold takeLine
  rw [if_neg (by simp [hne, hcomment]), if_neg (mt List.isPrefixOf_iff_prefix.mp hheader), if_neg hs]

/-- Any other line changes at most the section. -/
theorem takeLine_other (R : FtnconfReader) {s s' : FtnconfRead} {l : CString} (h : ¬ ValueLine l)
    (hl : takeLine R s l = some s') : ∃ name, s' = { s with section_ := name } := by
  unfold takeLine at hl
  split at hl
  · cases hl
    exact ⟨s.section_, rfl⟩
  · next hskip =>
    split at hl
    · split at hl
      · cases hl
      · next name _ =>
        split at hl
        · cases hl
        · cases hl
          exact ⟨name, rfl⟩
    · next hheader =>
      refine absurd ⟨?_, ?_, ?_⟩ h
      · exact fun h => hskip (Or.inl h)
      · exact fun h => hskip (Or.inr h)
      · exact mt List.isPrefixOf_iff_prefix.mpr hheader

/-- Reading the domain and the tag of a file that was written. -/
def readWritten (R : FtnconfReader) (type domain tag : CString) : Option FtnconfRead := do
  let s ← takeLine R ⟨"domain".toList, some 1, some type, none, none⟩ domain
  takeLine R { s with section_ := "tag".toList } tag

theorem storeValue_domain (R : FtnconfReader) (version : Option Int) (type tag : Option CString)
    (l : CString) : storeValue R ⟨"domain".toList, version, type, none, tag⟩ l =
      some ⟨[], version, type, some (strlcpy R.domainSize l), tag⟩ := rfl

theorem storeValue_tag (R : FtnconfReader) (version : Option Int) (type domain : Option CString)
    (l : CString) : storeValue R ⟨"tag".toList, version, type, domain, none⟩ l =
      some ⟨[], version, type, domain, some (strlcpy R.tagSize l)⟩ := rfl

theorem strlcpy_ne_nil {size : Nat} (hs : 1 < size) {l : CString} (hl : l ≠ []) : strlcpy size l ≠ [] := by
  intro h
  unfold strlcpy at h
  rcases List.take_eq_nil_iff.mp h with h | h
  · omega
  · exact hl h

theorem checkRead_complete {section_ type domain tag : CString}
    (htype : sameNoCase type "echomail".toList = true) (hdomain : domain ≠ []) (htag : tag ≠ []) :
    checkRead ⟨section_, some 1, some type, some domain, some tag⟩ = some ⟨1, type, domain, tag⟩ := by
  unfold checkRead
  dsimp only
  rw [if_neg]
  rintro (h | h | h | h)
  · exact h rfl
  · rw [htype] at h
    cases h
  · exact hdomain h
  · exact htag h

/-- What the reader makes of them. -/
theorem readWritten_iff {R : FtnconfReader} (hdomain : 1 < R.domainSize) (htag : 1 < R.tagSize)
    {type domain tag : CString} (htype : sameNoCase type "echomail".toList = true) (fc : FtnConfig) :
    (readWritten R type domain tag).bind checkRead = some fc ↔
      ValueLine domain ∧ ValueLine tag ∧
        fc = ⟨1, type, strlcpy R.domainSize domain, strlcpy R.tagSize tag⟩ := by
  have hd_ne : "domain".toList ≠ [] := by decide
  have ht_ne : "tag".toList ≠ [] := by decide
  unfold readWritten
  dsimp only [Option.bind_eq_bind]
  by_cases hd : ValueLine domain
  · rw [takeLine_value R hd_ne hd, storeValue_domain, Option.bind_some]
    dsimp only
    by_cases ht : ValueLine tag
    · rw [takeLine_value R ht_ne ht, storeValue_tag, Option.bind_some,
        checkRead_complete htype (strlcpy_ne_nil hdomain hd.1) (strlcpy_ne_nil htag ht.1),
        Option.some.injEq]
      exact ⟨fun h => ⟨hd, ht, h.symm⟩, fun h => h.2.2.symm⟩
    · refine iff_of_false ?_ fun h => ht h.2.1
      intro h
      obtain ⟨s', hs', hfc⟩ := Option.bind_eq_some_iff.mp h
      obtain ⟨name, rfl⟩ := takeLine_other R ht hs'
      cases hfc
  · refine iff_of_false ?_ fun h => hd h.1
    intro h
    obtain ⟨s', hs', hfc⟩ := Option.bind_eq_some_iff.mp h
    obtain ⟨s, hs, hs'⟩ := Option.bind_eq_some_iff.mp hs'
    obtain ⟨name, rfl⟩ := takeLine_other R hd hs
    -- no domain was read
    by_cases ht : ValueLine tag
    · rw [takeLine_value R ht_ne ht, storeValue_tag] at hs'
      cases hs'
      cases hfc
    · obtain ⟨name', rfl⟩ := takeLine_other R ht hs'
      cases hfc

/-! ## Trimming -/

theorem stringOf_line {v : CString} (h : '\x00' ∉ v) : stringOf (v ++ ['\n']) = v ++ ['\n'] := by
  unfold stringOf
  apply List.takeWhile_eq_self_iff.mpr
  intro c hc
  rcases List.mem_append.mp hc with hc | hc
  · simp only [ne_eq, decide_not, Bool.not_eq_true', decide_eq_false_iff_not]
    rintro rfl
    exact h hc
  · rw [List.mem_singleton] at hc
    subst hc
    decide

theorem confLine_line {v : CString} (h : ∀ c ∈ v, isEol c = false) :
    confLine (v ++ ['\n']) = rtrim (ltrim v) := by
  unfold confLine
  rw [List.takeWhile_append_of_pos (fun c hc => by simp [h c hc]), List.takeWhile_cons_of_neg (by decide),
    List.append_nil]

theorem meetingLine_line {v : CString} (h : ∀ c ∈ v, isEol c = false) :
    meetingLine (v ++ ['\n']) = trimEnd isSpace (v.dropWhile isSpace) := by
  unfold meetingLine
  rw [stripEol_line h]

theorem dropWhile_of_start {p : Char → Bool} {v : CString} (h : ∀ c ∈ v.head?, p c = false) :
    v.dropWhile p = v := by
  cases v with
  | nil => rfl
  | cons c v => exact List.dropWhile_cons_of_neg (by simp [h c rfl])

theorem untrimmed_of_eq {v : CString} (h : trimEnd isSpace (v.dropWhile isSpace) = v) : Untrimmed v := by
  have hlen := trimEnd_length_le isSpace (v.dropWhile isSpace)
  rw [h] at hlen
  have hdrop : v.dropWhile isSpace = v := (List.dropWhile_suffix isSpace).eq_of_length_le hlen
  constructor
  · intro c hc
    have hnot := List.head?_dropWhile_not isSpace v
    rw [hdrop, Option.mem_def.mp hc] at hnot
    simpa using hnot
  · rw [hdrop] at h
    exact getLast_of_trimEnd h

theorem untrimmed_of_notSpace {v : CString} (h : ∀ c ∈ v, isSpace c = false) : Untrimmed v :=
  ⟨fun c hc => h c (List.mem_of_head? hc), fun c hc => h c (List.mem_of_getLast? hc)⟩

/-- Neither reader trims anything off. -/
theorem trimmed_of_untrimmed {v : CString} (h : Untrimmed v) :
    rtrim (ltrim v) = v ∧ trimEnd isSpace (v.dropWhile isSpace) = v := by
  have hblank : ∀ c, isSpace c = false → ¬ c = ' ' := by
    rintro c hc rfl
    cases hc
  have hleft : ltrim v = v := dropWhile_of_start fun c hc => by simpa using hblank c (h.start c hc)
  rw [hleft, dropWhile_of_start h.start]
  constructor
  · apply rtrim_of_noBlank
    intro hlast
    exact hblank ' ' (h.stop ' ' hlast) rfl
  · exact trimEnd_eq_self h.stop

/-- A value that is cut off to what was written was not trimmed. -/
theorem trimmed_of_strlcpy {size : Nat} {v : CString} (hs : 0 < size)
    (h : v = strlcpy size (trimEnd isSpace (v.dropWhile isSpace))) :
    trimEnd isSpace (v.dropWhile isSpace) = v ∧ v.length < size := by
  have hle : (trimEnd isSpace (v.dropWhile isSpace)).length ≤ v.length :=
    (trimEnd_length_le _ _).trans (List.dropWhile_suffix isSpace).length_le
  have hlen := congrArg List.length h
  unfold strlcpy at h hlen
  rw [List.length_take] at hlen
  have hself : (trimEnd isSpace (v.dropWhile isSpace)).take (size - 1) =
      trimEnd isSpace (v.dropWhile isSpace) := List.take_of_length_le (by omega)
  rw [hself] at h
  exact ⟨h.symm, by omega⟩

/-! ## Reading what was written -/

/-- A value that can stand on a line. -/
def OneLine (v : CString) : Prop := ∀ c ∈ v, isEol c = false ∧ c ≠ '\x00'

theorem OneLine.eol {v : CString} (h : OneLine v) : ∀ c ∈ v, isEol c = false := fun c hc => (h c hc).1

theorem OneLine.nul {v : CString} (h : OneLine v) : '\x00' ∉ v := fun hc => (h _ hc).2 rfl

/-- A reader that reads a line without white space at its ends as it is. -/
def ReadsLines (R : FtnconfReader) : Prop :=
  ∀ v, OneLine v → Untrimmed v → R.readLine (stringOf (v ++ ['\n'])) = v

theorem readsLines_conf : ReadsLines confReader := by
  intro v hline htrim
  show confLine _ = v
  rw [stringOf_line hline.nul, confLine_line hline.eol]
  exact (trimmed_of_untrimmed htrim).1

theorem readsLines_meeting : ReadsLines meetingReader := by
  intro v hline htrim
  show meetingLine _ = v
  rw [stringOf_line hline.nul, meetingLine_line hline.eol]
  exact (trimmed_of_untrimmed htrim).2

/-- The type can only be `echomail`, in some case. -/
theorem letters_of_echomail {type : CString} (h : sameNoCase type "echomail".toList = true) {c : Char}
    (hc : c ∈ type) : c.toLower ∈ "echomail".toList := by
  unfold sameNoCase at h
  have hmap := of_decide_eq_true h
  have hlower : "echomail".toList.map Char.toLower = "echomail".toList := by decide
  rw [hlower] at hmap
  rw [← hmap]
  exact List.mem_map_of_mem hc

theorem length_of_echomail {type : CString} (h : sameNoCase type "echomail".toList = true) :
    type.length = 8 := by
  unfold sameNoCase at h
  have hmap := congrArg List.length (of_decide_eq_true h)
  rwa [List.length_map, List.length_map] at hmap

theorem not_of_echomail {type : CString} (h : sameNoCase type "echomail".toList = true) {c d : Char}
    (hc : c ∈ type) (hd : d.toLower ∉ "echomail".toList) : c ≠ d := by
  rintro rfl
  exact hd (letters_of_echomail h hc)

theorem isSpace_of_echomail {type : CString} (h : sameNoCase type "echomail".toList = true) {c : Char}
    (hc : c ∈ type) : isSpace c = false := by
  have hne : ∀ d, d.toLower ∉ "echomail".toList → (c == d) = false := fun d hd =>
    beq_eq_false_iff_ne.mpr (not_of_echomail h hc hd)
  unfold isSpace
  rw [hne ' ' (by decide), hne '\t' (by decide), hne '\n' (by decide), hne '\x0b' (by decide),
    hne '\x0c' (by decide), hne '\r' (by decide)]
  rfl

theorem isEol_of_isSpace {c : Char} (h : isSpace c = false) : isEol c = false := by
  by_contra hc
  rw [Bool.not_eq_false] at hc
  simp only [isEol, Bool.or_eq_true, decide_eq_true_eq] at hc
  rcases hc with rfl | rfl
  · cases h
  · cases h

theorem oneLine_of_echomail {type : CString} (h : sameNoCase type "echomail".toList = true) :
    OneLine type := fun _ hc =>
  ⟨isEol_of_isSpace (isSpace_of_echomail h hc), not_of_echomail h hc (by decide)⟩

theorem plainValue_of_echomail {type : CString} (h : sameNoCase type "echomail".toList = true) :
    PlainValue type := by
  have hlen := length_of_echomail h
  refine ⟨⟨?_, ?_, ?_⟩, untrimmed_of_notSpace fun c hc => isSpace_of_echomail h hc⟩
  · rintro rfl
    cases hlen
  · intro hhead
    exact not_of_echomail h (List.mem_of_head? hhead) (by decide) rfl
  · rintro ⟨t, rfl⟩
    exact not_of_echomail h (d := '!') (by simp) (by decide) rfl

/-- Reading lines that were written. -/
def readLines (R : FtnconfReader) (s : FtnconfRead) (ls : List CString) : Option FtnconfRead :=
  (ls.map (· ++ ['\n'])).foldlM (fun s l => takeLine R s (R.readLine (stringOf l))) s

theorem readLines_cons {R : FtnconfReader} {s s' : FtnconfRead} {v l : CString}
    (hv : R.readLine (stringOf (v ++ ['\n'])) = l) (h : takeLine R s l = some s') (ls : List CString) :
    readLines R s (v :: ls) = readLines R s' ls := by
  unfold readLines
  rw [List.map_cons, List.foldlM_cons, hv, h]
  rfl

theorem readsLines_ascii {R : FtnconfReader} (hR : ReadsLines R) {v : CString}
    (hv : v.all fun c => !isEol c && !isSpace c && c != '\x00') :
    R.readLine (stringOf (v ++ ['\n'])) = v := by
  have hall : ∀ c ∈ v, isEol c = false ∧ isSpace c = false ∧ c ≠ '\x00' := by
    intro c hc
    have h := List.all_eq_true.mp hv c hc
    simp only [Bool.and_eq_true, Bool.not_eq_true', bne_iff_ne] at h
    exact ⟨h.1.1, h.1.2, h.2⟩
  apply hR
  · exact fun c hc => ⟨(hall c hc).1, (hall c hc).2.2⟩
  · exact untrimmed_of_notSpace fun c hc => (hall c hc).2.1

theorem takeLine_type {R : FtnconfReader} {type : CString}
    (htype : sameNoCase type "echomail".toList = true) :
    takeLine R ⟨"type".toList, some 1, none, none, none⟩ type =
      some ⟨[], some 1, some type, none, none⟩ := by
  have hcut : strlcpy 32 type = type := strlcpy_of_short (by rw [length_of_echomail htype]; decide)
  have hstore : storeValue R ⟨"type".toList, some 1, none, none, none⟩ type =
      some ⟨[], some 1, some (strlcpy 32 type), none, none⟩ := rfl
  rw [takeLine_value R (by decide) (plainValue_of_echomail htype).value, hstore, hcut]

/-- The first lines are read by every reader. -/
theorem readLines_written {R : FtnconfReader} (hR : ReadsLines R) {fc : FtnConfig} (hversion : fc.version = 1)
    (htype : sameNoCase fc.type "echomail".toList = true) :
    readLines R .start (ftnconfLines fc) =
      readWritten R fc.type (R.readLine (stringOf (fc.domain ++ ['\n'])))
        (R.readLine (stringOf (fc.tag ++ ['\n']))) := by
  have hvalue : R.readLine (stringOf (fc.type ++ ['\n'])) = fc.type :=
    hR fc.type (oneLine_of_echomail htype) (plainValue_of_echomail htype).untrimmed
  have hone : R.readLine (stringOf (decimal 1 ++ ['\n'])) = "1".toList :=
    readsLines_ascii hR (by decide)
  have h1 : takeLine R .start "![version]".toList = some ⟨"version".toList, none, none, none, none⟩ := rfl
  have h2 : takeLine R ⟨"version".toList, none, none, none, none⟩ "1".toList =
      some ⟨[], some 1, none, none, none⟩ := rfl
  have h3 : takeLine R ⟨[], some 1, none, none, none⟩ "![type]".toList =
      some ⟨"type".toList, some 1, none, none, none⟩ := rfl
  have h4 : takeLine R ⟨[], some 1, some fc.type, none, none⟩ "![domain]".toList =
      some ⟨"domain".toList, some 1, some fc.type, none, none⟩ := rfl
  have h5 : ∀ s, takeLine R s "![tag]".toList = some { s with section_ := "tag".toList } := fun _ => rfl
  unfold ftnconfLines
  rw [hversion, readLines_cons (readsLines_ascii hR (by decide)) h1, readLines_cons hone h2,
    readLines_cons (readsLines_ascii hR (by decide)) h3, readLines_cons hvalue (takeLine_type htype),
    readLines_cons (readsLines_ascii hR (by decide)) h4]
  unfold readWritten
  cases hd : takeLine R ⟨"domain".toList, some 1, some fc.type, none, none⟩
      (R.readLine (stringOf (fc.domain ++ ['\n']))) with
  | none =>
    unfold readLines
    rw [List.map_cons, List.foldlM_cons, hd]
    rfl
  | some s =>
    rw [readLines_cons rfl hd, readLines_cons (readsLines_ascii hR (by decide)) (h5 s)]
    unfold readLines
    rw [List.map_cons, List.map_nil, List.foldlM_cons]
    exact bind_pure _

/-- What fits into the record as a string. -/
structure FtnConfig.Stored (fc : FtnConfig) : Prop where
  domain : fc.domain.length < 80 ∧ '\x00' ∉ fc.domain
  tag : fc.tag.length < 80 ∧ '\x00' ∉ fc.tag

theorem length_le_of_mem_unlines {l : CString} {ls : List CString} (h : l ∈ ls) :
    l.length ≤ (unlines ls).length := by
  induction ls with
  | nil => cases h
  | cons a ls ih =>
    rw [unlines_cons, List.length_append, List.length_cons]
    rcases List.mem_cons.mp h with rfl | h
    · omega
    · have := ih h
      omega

/-- What is written, and what of it the tests before let through. -/
theorem confWrite_some {fc : FtnConfig} {data : CString} (h : confWriteFtnconf fc = some data) :
    fc.version = 1 ∧ sameNoCase fc.type "echomail".toList = true ∧ (∀ c ∈ fc.domain, isEol c = false) ∧
      (∀ c ∈ fc.tag, isEol c = false) ∧ data = unlines (ftnconfLines fc) ∧ data.length < 159 := by
  unfold confWriteFtnconf at h
  split at h
  · cases h
  · next hfc =>
    rw [not_or, not_or, not_or, not_not, Bool.not_eq_false] at hfc
    obtain ⟨hversion, htype, -, -⟩ := hfc
    split at h
    · cases h
    · next heol =>
      simp only [Bool.or_eq_true, not_or, List.any_eq_true, not_exists, not_and, Bool.not_eq_true] at heol
      dsimp only at h
      split at h
      · cases h
      · next hlen =>
        cases h
        exact ⟨hversion, htype, heol.1, heol.2, rfl, by omega⟩

/-- A file that was written is read line by line. -/
theorem load_written {R : FtnconfReader} (hR : ReadsLines R) {fc : FtnConfig} {data : CString}
    (h : confWriteFtnconf fc = some data) :
    loadFtnconf R (some data) =
      ((readWritten R fc.type (R.readLine (stringOf (fc.domain ++ ['\n'])))
        (R.readLine (stringOf (fc.tag ++ ['\n'])))).bind checkRead).map some := by
  obtain ⟨hversion, htype, hdomain, htag, rfl, hlen⟩ := confWrite_some h
  have hnl : ∀ {v : CString}, (∀ c ∈ v, isEol c = false) → '\n' ∉ v := by
    intro v hv hc
    cases hv _ hc
  have hlines : ∀ l ∈ ftnconfLines fc, '\n' ∉ l ∧ l.length + 1 < 1024 := by
    intro l hl
    refine ⟨?_, by have := length_le_of_mem_unlines hl; omega⟩
    unfold ftnconfLines at hl
    simp only [List.mem_cons, List.not_mem_nil, or_false] at hl
    rcases hl with rfl | rfl | rfl | rfl | rfl | rfl | rfl | rfl
    · decide
    · rw [hversion]
      decide
    · decide
    · exact hnl (oneLine_of_echomail htype).eol
    · decide
    · exact hnl hdomain
    · decide
    · exact hnl htag
  have hfile : fileLines 1024 (unlines (ftnconfLines fc)) = (ftnconfLines fc).map (· ++ ['\n']) :=
    fgetsLoop_unlines hlines _ (Nat.lt_succ_of_le (length_le_unlines _))
  have hread := readLines_written hR hversion htype
  unfold readLines at hread
  unfold loadFtnconf
  dsimp only
  rw [hfile, hread]
  cases readWritten R fc.type (R.readLine (stringOf (fc.domain ++ ['\n'])))
      (R.readLine (stringOf (fc.tag ++ ['\n']))) with
  | none => rfl
  | some s =>
    show (checkRead s).bind (fun fc => some (some fc)) = (checkRead s).map some
    cases checkRead s with
    | none => rfl
    | some fc' => rfl

/-- What a reader has to find to give the configuration back. -/
theorem load_written_iff {R : FtnconfReader} (hR : ReadsLines R) (hdomain : 1 < R.domainSize)
    (htag : 1 < R.tagSize) {fc : FtnConfig} {data : CString} (h : confWriteFtnconf fc = some data) :
    loadFtnconf R (some data) = some (some fc) ↔
      ValueLine (R.readLine (stringOf (fc.domain ++ ['\n']))) ∧
        ValueLine (R.readLine (stringOf (fc.tag ++ ['\n']))) ∧
        fc.domain = strlcpy R.domainSize (R.readLine (stringOf (fc.domain ++ ['\n']))) ∧
        fc.tag = strlcpy R.tagSize (R.readLine (stringOf (fc.tag ++ ['\n']))) := by
  obtain ⟨hversion, htype, -⟩ := confWrite_some h
  have hread := @readWritten_iff R hdomain htag fc.type (R.readLine (stringOf (fc.domain ++ ['\n'])))
    (R.readLine (stringOf (fc.tag ++ ['\n']))) htype
  rw [load_written hR h, Option.map_eq_some_iff]
  constructor
  · rintro ⟨fc', hfc', heq⟩
    cases heq
    obtain ⟨hd, ht, heq⟩ := (hread fc).mp hfc'
    obtain ⟨version, type, domain, tag⟩ := fc
    injection heq with _ _ hdeq hteq
    exact ⟨hd, ht, hdeq, hteq⟩
  · rintro ⟨hd, ht, hdeq, hteq⟩
    refine ⟨fc, (hread fc).mpr ⟨hd, ht, ?_⟩, rfl⟩
    obtain ⟨version, type, domain, tag⟩ := fc
    cases hversion
    exact congrArg₂ (FtnConfig.mk 1 type) hdeq hteq

/-- Both readers give back what was written if the values are plain, and the domain fits the smaller
record. -/
theorem load_both_iff {fc : FtnConfig} {data : CString} (hfc : fc.Stored)
    (h : confWriteFtnconf fc = some data) :
    (confLoadFtnconf (some data) = some (some fc) ∧ loadMeetingFtnconf (some data) = some (some fc)) ↔
      PlainValue fc.domain ∧ PlainValue fc.tag ∧ fc.domain.length < 64 := by
  obtain ⟨-, -, hdomain, htag, -, -⟩ := confWrite_some h
  have hconf := load_written_iff readsLines_conf (by decide) (by decide) h
  have hmeeting := load_written_iff readsLines_meeting (by decide) (by decide) h
  have htrim : ∀ v : CString, (∀ c ∈ v, isEol c = false) → '\x00' ∉ v →
      meetingReader.readLine (stringOf (v ++ ['\n'])) = trimEnd isSpace (v.dropWhile isSpace) := by
    intro v hv hnul
    show meetingLine _ = _
    rw [stringOf_line hnul, meetingLine_line hv]
  have hline : ∀ v : CString, (∀ c ∈ v, isEol c = false) → '\x00' ∉ v → OneLine v := by
    intro v hv hnul c hc
    refine ⟨hv c hc, ?_⟩
    rintro rfl
    exact hnul hc
  constructor
  · rintro ⟨-, hload⟩
    obtain ⟨hd, ht, hdeq, hteq⟩ := hmeeting.mp hload
    rw [htrim _ hdomain hfc.domain.2] at hd hdeq
    rw [htrim _ htag hfc.tag.2] at ht hteq
    obtain ⟨hdself, hdlen⟩ := trimmed_of_strlcpy (by decide) hdeq
    obtain ⟨htself, -⟩ := trimmed_of_strlcpy (by decide) hteq
    rw [hdself] at hd
    rw [htself] at ht
    exact ⟨⟨hd, untrimmed_of_eq hdself⟩, ⟨ht, untrimmed_of_eq htself⟩, hdlen⟩
  · rintro ⟨hd, ht, hlen⟩
    have hsizes : 64 ≤ 80 ∧ 80 ≤ 128 := by decide
    have hdline := hline _ hdomain hfc.domain.2
    have htline := hline _ htag hfc.tag.2
    constructor
    · rw [confLoadFtnconf, hconf, readsLines_conf _ hdline hd.untrimmed, readsLines_conf _ htline ht.untrimmed]
      exact ⟨hd.value, ht.value, (strlcpy_of_short (hlen.trans_le hsizes.1)).symm,
        (strlcpy_of_short hfc.tag.1).symm⟩
    · rw [loadMeetingFtnconf, hmeeting, readsLines_meeting _ hdline hd.untrimmed,
        readsLines_meeting _ htline ht.untrimmed]
      exact ⟨hd.value, ht.value, (strlcpy_of_short hlen).symm,
        (strlcpy_of_short (hfc.tag.1.trans_le hsizes.2)).symm⟩

end SklaffKom
