import SklaffKom.Lib.CString
import SklaffKom.Lib.Runs
import Mathlib.Logic.Function.Basic
import Mathlib.Data.List.Nodup

/-!
# User preferences

`read_sklaffrc` reads the headings and values of the global sklaffrc and then those of the user,
`write_sklaffrc` writes the fields it knows to the user's file, and `rc_set_scalar` replaces a single
value there.
-/

open CString Runs

namespace SklaffKom

/-- The members of `struct SKLAFFRC`, in the order of their headings. -/
inductive Field where
  | adress | postnr | ort | tele1 | tele2 | tele3 | org | note | editor | email1 | email2 | flags
  | paid | login | timeout | paydate | sig | url | blocklist
deriving DecidableEq, Repr

/-- What a heading stands for: a member, or the terminal height. -/
inductive Heading where
  | field (f : Field)
  | numlines
deriving DecidableEq, Repr

def Field.name : Field → CString
  | adress => "adress".toList
  | postnr => "postnr".toList
  | ort => "ort".toList
  | tele1 => "tele1".toList
  | tele2 => "tele2".toList
  | tele3 => "tele3".toList
  | org => "org".toList
  | note => "note".toList
  | editor => "editor".toList
  | email1 => "email1".toList
  | email2 => "email2".toList
  | flags => "flags".toList
  | paid => "paid".toList
  | login => "login".toList
  | timeout => "timeout".toList
  | paydate => "paydate".toList
  | sig => "sig".toList
  | url => "url".toList
  | blocklist => "blocklist".toList

def Heading.name : Heading → CString
  | field f => f.name
  | numlines => "Numlines".toList

/-- The table of `read_sklaffrc`. -/
def headptr : List Heading :=
  [.field .adress, .field .postnr, .field .ort, .field .tele1, .field .tele2, .field .tele3,
    .field .org, .field .note, .field .editor, .field .email1, .field .email2, .field .flags,
    .field .paid, .field .login, .field .timeout, .field .paydate, .field .sig, .field .url,
    .numlines, .field .blocklist]

/-- The loop that looks for a heading in the table. -/
def findHeading (entry : CString) : Option Heading := headptr.find? (·.name = entry)

abbrev SKLAFFRC := Field → CString

/-- The states 0, 1, 2, 4, 5 and 6; the state 3 is left where it is entered.  The text is the one
from `startptr` to `ptr`. -/
inductive RcState where
  | idle
  | bracket
  | heading (text : CString)
  | matched (i : Heading)
  | newline (i : Heading)
  | value (i : Heading) (text : CString)

/-- The tests before the one for a new heading, `c` being `*ptr` and `none` the end. -/
def RcState.test (c : Option Char) : RcState → RcState
  | .newline i => .value i []
  | .matched i => if c = none ∨ c = some '\n' then .newline i else .matched i
  | .heading text =>
    if c = some ']' then
      match findHeading text with
      | none => .idle
      | some i => .matched i
    else
      .heading text
  | .bracket => .heading []
  | .idle => .idle
  | .value i text => .value i text

/-- `ptr++` -/
def RcState.advance (c : Char) : RcState → RcState
  | .heading text => .heading (text ++ [c])
  | .value i text => .value i (text ++ [c])
  | st => st

/-- The last two characters and this one begin a heading on a new line. -/
def headingStart (lasttwo lastchar : Option Char) (c : Char) : Bool :=
  c == '[' && lastchar == some '!' && (lasttwo == some '\n' || lasttwo == none)

/-- The entry that ends here, the last `cut` characters not being a part of it. -/
def RcState.entry (cut : Nat) : RcState → List (Heading × CString)
  | .value i text => [(i, text.take (text.length - cut))]
  | _ => []

/-- The entries of a file in the order in which they are stored. -/
def rcScan : RcState → Option Char → Option Char → CString → List (Heading × CString)
  | st, _, _, [] => (st.test none).entry 1
  | st, lasttwo, lastchar, c :: cs =>
    if headingStart lasttwo lastchar c then
      (st.test (some c)).entry 2 ++ rcScan .bracket lastchar (some c) cs
    else
      rcScan ((st.test (some c)).advance c) lastchar (some c) cs

def rcEntries (file : CString) : List (Heading × CString) := rcScan .idle none none file

/-- What is done with an entry: it goes to its member, or to `Numlines` if it is in range. -/
def storeEntry (s : SKLAFFRC × Int) (e : Heading × CString) : SKLAFFRC × Int :=
  match e.1 with
  | .field f => (Function.update s.1 f e.2, s.2)
  -- what is out of range leaves the variable as it is
  | .numlines => if 10 ≤ atol e.2 ∧ atol e.2 ≤ 200 then (s.1, atol e.2) else s

/-- `read_sklaffrc`: the struct and the new value of `Numlines`. -/
def readSklaffrc (globalrc userrc : CString) (numlines : Int) : SKLAFFRC × Int :=
  (rcEntries globalrc ++ rcEntries userrc).foldl storeEntry (fun _ => [], numlines)

def sectionText (name value : CString) : CString :=
  '!' :: '[' :: (name ++ ']' :: '\n' :: (value ++ ['\n']))

def writeOrder : List Field :=
  [.adress, .postnr, .ort, .tele1, .tele2, .tele3, .email1, .email2, .url, .org, .note, .sig,
    .blocklist, .editor, .flags, .timeout, .paid, .login, .paydate]

/-- `write_sklaffrc`: the new contents of the user's file. -/
def writeSklaffrc (kaffer : SKLAFFRC) : CString :=
  writeOrder.flatMap fun f =>
    if (kaffer f).length > 0 then sectionText f.name (kaffer f) else []

/-- The search for a heading at the start of a line, `prev` being the character before `p`.  Where
the heading stands elsewhere, the search goes on two characters further. -/
def headingHit (heading : CString) (prev : Option Char) : CString → Option CString
  | [] => none
  | [c] => if heading.isPrefixOf [c] ∧ (prev = none ∨ prev = some '\n') then some [c] else none
  | c :: d :: p =>
    if heading.isPrefixOf (c :: d :: p) then
      if prev = none ∨ prev = some '\n' then some (c :: d :: p) else headingHit heading (some d) p
    else
      headingHit heading (some c) (d :: p)

/-- `rc_set_scalar`: the new contents of the file.  A missing file is an empty one. -/
def rcSetScalar (buf key value : CString) : CString :=
  match headingHit ('!' :: '[' :: (key ++ [']'])) none buf with
  | some hit =>
    let valStart := ((strchr hit '\n').map List.tail).getD []
    -- only the first line of the old value is replaced
    let valEnd := valStart.dropWhile (· ≠ '\n')
    buf.take (buf.length - valStart.length) ++ (value ++ '\n' :: valEnd)
  | none =>
    -- a heading has to begin on a line of its own
    let needNl : CString := if buf.length > 0 ∧ buf.getLast? ≠ some '\n' then ['\n'] else []
    buf ++ (needNl ++ sectionText key value)

/-! ## Files of sections -/

/-- No place where a heading begins on a new line. -/
def Clean (s : CString) : Prop := ¬ ['\n', '!', '['] <:+: s

instance (s : CString) : Decidable (Clean s) := inferInstanceAs (Decidable (¬ _))

theorem clean_cons {c : Char} {s : CString} :
    Clean (c :: s) ↔ ¬ ['\n', '!', '['] <+: c :: s ∧ Clean s := by
  unfold Clean
  rw [List.infix_cons_iff, not_or]

theorem Clean.tail {c : Char} {s : CString} (h : Clean (c :: s)) : Clean s := (clean_cons.mp h).2

theorem Clean.part {s t : CString} (h : Clean t) (hst : s <:+: t) : Clean s :=
  fun hs => h (hs.trans hst)

theorem clean_cons_of_ne {c : Char} {s : CString} (hc : c ≠ '\n') (h : Clean s) : Clean (c :: s) := by
  rw [clean_cons]
  refine ⟨?_, h⟩
  intro hp
  exact hc (List.cons_prefix_cons.mp hp).1.symm

theorem clean_of_notMem {s : CString} (h : '\n' ∉ s) : Clean s := fun hs => h (hs.subset (by simp))

/-- A text with a newline after it begins a heading nowhere when the text does not. -/
theorem not_prefix_append {s : CString} {rest : CString} (h : Clean ('\n' :: s)) :
    ¬ ['!', '['] <+: s ++ '\n' :: rest := by
  intro hp
  apply (clean_cons.mp h).1
  rw [List.cons_prefix_cons]
  refine ⟨rfl, ?_⟩
  match s, hp with
  | [], hp => exact absurd (List.cons_prefix_cons.mp hp).1 (by decide)
  | [c], hp =>
    obtain ⟨_, hp⟩ := List.cons_prefix_cons.mp hp
    exact absurd (List.cons_prefix_cons.mp hp).1 (by decide)
  | c :: d :: s, hp =>
    obtain ⟨hc, hp⟩ := List.cons_prefix_cons.mp hp
    obtain ⟨hd, _⟩ := List.cons_prefix_cons.mp hp
    rw [hc, hd]
    exact ⟨s, rfl⟩

/-- A heading, known or not, and its value, no line of which begins with `"!["`. -/
structure Section where
  heading : CString
  value : CString
  heading_ne : heading ≠ []
  noBracket : ']' ∉ heading
  noNewline : '\n' ∉ heading
  clean : Clean ('\n' :: value)

def Section.text (s : Section) : CString := sectionText s.heading s.value

def sectionsText (secs : List Section) : CString := secs.flatMap Section.text

/-- The entry that `read_sklaffrc` stores for a section with a known heading. -/
def Section.entry (s : Section) : Option (Heading × CString) :=
  (findHeading s.heading).map fun i => (i, s.value)

/-! ## Reading the sections -/

theorem test_matched (i : Heading) (c : Option Char) :
    (RcState.matched i).test c = if c = none ∨ c = some '\n' then .newline i else .matched i := rfl

theorem test_heading (text : CString) (c : Option Char) :
    (RcState.heading text).test c =
      if c = some ']' then
        match findHeading text with
        | none => .idle
        | some i => .matched i
      else .heading text := rfl

/-- The state in the value of a known heading, or in the text after an unknown one. -/
def pending (i : Option Heading) (text : CString) : RcState :=
  match i with
  | none => .idle
  | some i => .value i text

theorem pending_test (i : Option Heading) (text : CString) (c : Option Char) :
    (pending i text).test c = pending i text := by
  cases i <;> rfl

theorem pending_advance (i : Option Heading) (text : CString) (c : Char) :
    (pending i text).advance c = pending i (text ++ [c]) := by
  cases i <;> rfl

theorem pending_entry (i : Option Heading) (text cut : CString) :
    (pending i (text ++ cut)).entry cut.length = (i.map fun i => (i, text)).toList := by
  cases i with
  | none => rfl
  | some i =>
    show [(i, (text ++ cut).take ((text ++ cut).length - cut.length))] = [(i, text)]
    rw [take_before]

theorem headingStart_eq_false {x y c : Char} {s : CString} (h : Clean (x :: y :: c :: s)) :
    headingStart (some x) (some y) c = false := by
  by_contra hne
  rw [Bool.not_eq_false] at hne
  simp only [headingStart, Bool.and_eq_true, Bool.or_eq_true, beq_iff_eq, Option.some.injEq,
    reduceCtorEq, or_false] at hne
  obtain ⟨⟨rfl, rfl⟩, rfl⟩ := hne
  exact (clean_cons.mp h).1 ⟨s, rfl⟩

theorem rcScan_cons {st : RcState} {lasttwo lastchar : Option Char} {c : Char}
    (h : headingStart lasttwo lastchar c = false) (cs : CString) :
    rcScan st lasttwo lastchar (c :: cs) =
      rcScan ((st.test (some c)).advance c) lastchar (some c) cs := by
  rw [rcScan, h]
  rfl

/-- A value goes on to the next heading. -/
theorem rcScan_pending_next (i : Option Heading) (text v rest : CString) {x y : Char}
    (hv : Clean (x :: y :: v)) :
    rcScan (pending i text) (some x) (some y) (v ++ '\n' :: '!' :: '[' :: rest) =
      (i.map fun i => (i, text ++ v)).toList ++ rcScan .bracket (some '!') (some '[') rest := by
  induction v generalizing text x y with
  | nil =>
    -- the newline and `'!'` are taken for text first, and are cut off again at `'['`
    rw [List.nil_append, rcScan_cons (by simp [headingStart]), pending_test, pending_advance,
      rcScan_cons (by simp [headingStart]), pending_test, pending_advance, rcScan]
    rw [if_pos (by decide), pending_test, List.append_nil, List.append_assoc]
    congr 1
    exact pending_entry i text ['\n', '!']
  | cons c v ih =>
    rw [List.cons_append, rcScan_cons (headingStart_eq_false hv), pending_test, pending_advance,
      ih (text ++ [c]) hv.tail, List.append_assoc, List.singleton_append]

/-- A value goes on to the end of the file. -/
theorem rcScan_pending_end (i : Option Heading) (text v : CString) {x y : Char}
    (hv : Clean (x :: y :: v)) :
    rcScan (pending i text) (some x) (some y) (v ++ ['\n']) =
      (i.map fun i => (i, text ++ v)).toList := by
  induction v generalizing text x y with
  | nil =>
    rw [List.nil_append, rcScan_cons (by simp [headingStart]), pending_test, pending_advance, rcScan,
      pending_test, List.append_nil]
    exact pending_entry i text ['\n']
  | cons c v ih =>
    rw [List.cons_append, rcScan_cons (headingStart_eq_false hv), pending_test, pending_advance,
      ih (text ++ [c]) hv.tail, List.append_assoc, List.singleton_append]

/-- After the newline of a heading line the value begins. -/
theorem rcScan_afterHeading (i : Option Heading) (lasttwo lastchar : Option Char) (s : CString) :
    rcScan (match i with | none => .idle | some i => .newline i) lasttwo lastchar s =
      rcScan (pending i []) lasttwo lastchar s := by
  cases i with
  | none => rfl
  | some i => cases s <;> rfl

theorem rcScan_heading (text h rest : CString) {x y : Char} (hx : x ≠ '\n') (hy : y ≠ '\n')
    (hb : ']' ∉ h) (hn : '\n' ∉ h) :
    rcScan (.heading text) (some x) (some y) (h ++ ']' :: '\n' :: rest) =
      rcScan (pending (findHeading (text ++ h)) []) (some ']') (some '\n') rest := by
  induction h generalizing text x y with
  | nil =>
    rw [List.nil_append, rcScan_cons (by simp [headingStart]), rcScan_cons (by simp [headingStart]),
      List.append_nil, ← rcScan_afterHeading]
    rw [test_heading, if_pos rfl]
    cases findHeading text <;> rfl
  | cons c h ih =>
    obtain ⟨hcb, hb⟩ := not_or.mp (fun hm => hb (List.mem_cons.mpr hm))
    obtain ⟨hcn, hn⟩ := not_or.mp (fun hm => hn (List.mem_cons.mpr hm))
    have hstart : headingStart (some x) (some y) c = false := by
      simp [headingStart, hx]
    have htest : (RcState.heading text).test (some c) = .heading text := by
      rw [test_heading]
      exact if_neg (fun hc => hcb (Option.some.inj hc).symm)
    rw [List.cons_append, rcScan_cons hstart, htest]
    show rcScan (.heading (text ++ [c])) _ _ _ = _
    rw [ih (text ++ [c]) hy (Ne.symm hcn) hb hn, List.append_assoc, List.singleton_append]

/-- The brackets of a heading and what comes after it. -/
theorem rcScan_bracket (s : Section) (rest : CString) :
    rcScan .bracket (some '!') (some '[') (s.heading ++ ']' :: '\n' :: rest) =
      rcScan (pending (findHeading s.heading) []) (some ']') (some '\n') rest := by
  obtain ⟨c, h, hch⟩ := List.exists_cons_of_ne_nil s.heading_ne
  have hb := s.noBracket
  have hn := s.noNewline
  rw [hch] at hb hn ⊢
  rw [← List.nil_append (c :: h), ← rcScan_heading [] (c :: h) rest (by decide : '!' ≠ '\n')
    (by decide : '[' ≠ '\n') hb hn, List.nil_append, List.cons_append]
  have hstart : headingStart (some '!') (some '[') c = false := by
    simp [headingStart]
  have htest : (RcState.heading []).test (some c) = .heading [] := by
    rw [test_heading]
    apply if_neg
    intro hc
    exact hb (by rw [Option.some.inj hc]; exact List.mem_cons_self)
  rw [rcScan_cons hstart, rcScan_cons hstart, htest]
  rfl

theorem rcScan_pending_sections (i : Option Heading) (v : CString) (hv : Clean ('\n' :: v))
    (secs : List Section) :
    rcScan (pending i []) (some ']') (some '\n') (v ++ '\n' :: sectionsText secs) =
      (i.map fun i => (i, v)).toList ++ secs.filterMap Section.entry := by
  have hv' : Clean (']' :: '\n' :: v) := clean_cons_of_ne (by decide) hv
  induction secs generalizing i v with
  | nil =>
    have hend := rcScan_pending_end i [] v hv'
    rw [List.filterMap_nil, List.append_nil]
    exact hend
  | cons s secs ih =>
    have htext : sectionsText (s :: secs) =
        '!' :: '[' :: (s.heading ++ ']' :: '\n' :: (s.value ++ '\n' :: sectionsText secs)) := by
      simp [sectionsText, Section.text, sectionText]
    rw [htext, rcScan_pending_next i [] v _ hv', rcScan_bracket,
      ih (findHeading s.heading) s.value s.clean (clean_cons_of_ne (by decide) s.clean),
      List.nil_append, List.filterMap_cons]
    unfold Section.entry
    cases findHeading s.heading <;> rfl

/-- `read_sklaffrc` finds the sections of a file with known headings, in order. -/
theorem rcEntries_sectionsText (secs : List Section) :
    rcEntries (sectionsText secs) = secs.filterMap Section.entry := by
  cases secs with
  | nil => rfl
  | cons s secs =>
    have htext : sectionsText (s :: secs) =
        '!' :: '[' :: (s.heading ++ ']' :: '\n' :: (s.value ++ '\n' :: sectionsText secs)) := by
      simp [sectionsText, Section.text, sectionText]
    unfold rcEntries
    rw [htext, rcScan_cons (by decide)]
    show rcScan .idle none (some '!') _ = _
    rw [rcScan, if_pos (by decide)]
    show [] ++ rcScan .bracket (some '!') (some '[') _ = _
    rw [List.nil_append, rcScan_bracket, rcScan_pending_sections _ _ s.clean, List.filterMap_cons]
    unfold Section.entry
    cases findHeading s.heading <;> rfl

/-! ## Any file -/

/-- What is known while a value is read: its text, after the newline before it, begins no heading,
and ends with the last two characters. -/
def RcState.Reads (lasttwo lastchar : Option Char) : RcState → Prop
  | .newline _ => lastchar = some '\n'
  | .value _ text => Clean ('\n' :: text) ∧
      ∃ p x y, '\n' :: text = p ++ [x, y] ∧ lasttwo = some x ∧ lastchar = some y
  | _ => True

theorem clean_concat {p : CString} {x y c : Char} (h : Clean (p ++ [x, y]))
    (hc : headingStart (some x) (some y) c = false) : Clean (p ++ [x, y] ++ [c]) := by
  intro hi
  rcases List.infix_concat_iff.mp hi with hs | hi
  · obtain ⟨q, hq⟩ := hs
    have hq' : q ++ ['\n', '!', '['] = p ++ [x, y, c] := by
      rw [hq, List.append_assoc]
      rfl
    have hlast := (List.append_inj' hq' rfl).2
    simp only [List.cons.injEq, and_true] at hlast
    obtain ⟨rfl, rfl, rfl⟩ := hlast
    exact absurd hc (by decide)
  · exact h hi

theorem RcState.Reads.advance {st : RcState} {lasttwo lastchar : Option Char} {c : Char}
    (h : st.Reads lasttwo lastchar) (hc : headingStart lasttwo lastchar c = false) :
    ((st.test (some c)).advance c).Reads lastchar (some c) := by
  -- one case for each state, as in the switch of the source
  cases st with
  | newline i =>
    refine ⟨?_, [], '\n', c, rfl, h, rfl⟩
    intro hi
    exact absurd hi.length_le (by simp)
  | value i text =>
    obtain ⟨hclean, p, x, y, htext, rfl, rfl⟩ := h
    have hnew : '\n' :: (text ++ [c]) = p ++ [x, y] ++ [c] := by
      rw [← htext]
      rfl
    refine ⟨?_, p ++ [x], y, c, ?_, rfl, rfl⟩
    · rw [hnew]
      exact clean_concat (htext ▸ hclean) hc
    · rw [hnew, List.append_assoc, List.append_assoc]
      rfl
  | matched i =>
    rw [test_matched]
    split
    · rename_i hnl
      exact hnl.resolve_left (by simp)
    · trivial
  | heading text =>
    rw [test_heading]
    split
    · cases findHeading text <;> trivial
    · trivial
  | _ => trivial

theorem RcState.Reads.entry {st : RcState} {lasttwo lastchar : Option Char}
    (h : st.Reads lasttwo lastchar) (c : Option Char) (cut : Nat) :
    ∀ e ∈ (st.test c).entry cut, Clean ('\n' :: e.2) := by
  intro e he
  cases st with
  | newline i =>
    rw [List.mem_singleton.mp he]
    intro hi
    exact absurd hi.length_le (by simp)
  | value i text =>
    rw [List.mem_singleton.mp he]
    apply h.1.part
    exact (List.cons_prefix_cons.mpr ⟨rfl, List.take_prefix _ _⟩).isInfix
  | matched i =>
    rw [test_matched] at he
    split at he <;> cases he
  | heading text =>
    rw [test_heading] at he
    split at he
    · cases hf : findHeading text <;> rw [hf] at he <;> cases he
    · cases he
  | _ => cases he

theorem rcScan_clean {st : RcState} {lasttwo lastchar : Option Char}
    (h : st.Reads lasttwo lastchar) (file : CString) :
    ∀ e ∈ rcScan st lasttwo lastchar file, Clean ('\n' :: e.2) := by
  induction file generalizing st lasttwo lastchar with
  | nil => exact h.entry none 1
  | cons c cs ih =>
    intro e he
    rw [rcScan] at he
    split at he
    · rcases List.mem_append.mp he with he | he
      · exact h.entry (some c) 2 e he
      · have hbracket : RcState.bracket.Reads lastchar (some c) := trivial
        exact ih hbracket e he
    · rename_i hc
      exact ih (h.advance (Bool.not_eq_true _ |>.mp hc)) e he

/-- No value that is read from any file has a line that begins with `"!["`. -/
theorem rcEntries_clean (file : CString) : ∀ e ∈ rcEntries file, Clean ('\n' :: e.2) := by
  have hidle : RcState.idle.Reads none none := trivial
  exact rcScan_clean hidle file

/-! ## The last entry of a heading -/

def lastEntry (h : Heading) : List (Heading × CString) → Option CString
  | [] => none
  | e :: es => (lastEntry h es).or (if e.1 = h then some e.2 else none)

theorem lastEntry_append (h : Heading) (es es' : List (Heading × CString)) :
    lastEntry h (es ++ es') = (lastEntry h es').or (lastEntry h es) := by
  induction es with
  | nil =>
    rw [List.nil_append, lastEntry, Option.or_none]
  | cons e es ih =>
    rw [List.cons_append, lastEntry, ih, lastEntry, Option.or_assoc]

theorem lastEntry_mem {h : Heading} {es : List (Heading × CString)} {v : CString}
    (hv : lastEntry h es = some v) : (h, v) ∈ es := by
  induction es with
  | nil => cases hv
  | cons e es ih =>
    rw [lastEntry] at hv
    rcases Option.or_eq_some_iff.mp hv with hv | ⟨_, hv⟩
    · exact List.mem_cons_of_mem _ (ih hv)
    · split at hv
      · rename_i he
        cases hv
        subst he
        exact List.mem_cons_self
      · cases hv

theorem lastEntry_eq_none {h : Heading} {es : List (Heading × CString)} (hes : ∀ e ∈ es, e.1 ≠ h) :
    lastEntry h es = none := by
  cases hl : lastEntry h es with
  | none => rfl
  | some v => exact absurd rfl (hes _ (lastEntry_mem hl))

/-- A member gets the last of its entries. -/
theorem foldl_storeEntry (f : Field) (es : List (Heading × CString)) (s : SKLAFFRC × Int) :
    (es.foldl storeEntry s).1 f = (lastEntry (.field f) es).getD (s.1 f) := by
  induction es generalizing s with
  | nil => rfl
  | cons e es ih =>
    obtain ⟨h, v⟩ := e
    rw [List.foldl_cons, ih, lastEntry]
    cases lastEntry (.field f) es with
    | some w => rfl
    | none =>
      rw [Option.none_or, Option.getD_none]
      cases h with
      | field g =>
        by_cases hg : g = f
        · subst hg
          rw [if_pos rfl]
          exact Function.update_self g v s.1
        · rw [if_neg (fun he => hg (Heading.field.inj he))]
          exact Function.update_of_ne (Ne.symm hg) v s.1
      | numlines =>
        rw [if_neg (by simp)]
        unfold storeEntry
        dsimp only
        split <;> rfl

/-- A member reads as the user has it, else as the global file has it. -/
theorem readSklaffrc_field (globalrc userrc : CString) (numlines : Int) (f : Field) :
    (readSklaffrc globalrc userrc numlines).1 f =
      (lastEntry (.field f) (rcEntries userrc)).getD
        ((lastEntry (.field f) (rcEntries globalrc)).getD []) := by
  unfold readSklaffrc
  rw [foldl_storeEntry, lastEntry_append]
  cases lastEntry (.field f) (rcEntries userrc) <;> rfl

theorem readSklaffrc_clean (globalrc userrc : CString) (numlines : Int) (f : Field) :
    Clean ('\n' :: (readSklaffrc globalrc userrc numlines).1 f) := by
  rw [readSklaffrc_field]
  cases hu : lastEntry (.field f) (rcEntries userrc) with
  | some v => exact rcEntries_clean userrc _ (lastEntry_mem hu)
  | none =>
    cases hg : lastEntry (.field f) (rcEntries globalrc) with
    | some v => exact rcEntries_clean globalrc _ (lastEntry_mem hg)
    | none =>
      intro hi
      exact absurd hi.length_le (by simp)

/-! ## Writing all members -/

theorem findHeading_name (h : Heading) : findHeading h.name = some h := by
  cases h with
  | field f => cases f <;> decide
  | numlines => decide

theorem Field.name_ok (f : Field) : f.name ≠ [] ∧ ']' ∉ f.name ∧ '\n' ∉ f.name := by
  cases f <;> decide

theorem Field.name_injective : Function.Injective Field.name := by
  intro f g h
  have hf := findHeading_name (.field f)
  rw [show Heading.name (.field f) = Heading.name (.field g) from h, findHeading_name] at hf
  exact (Heading.field.inj (Option.some.inj hf)).symm

def fieldSection (f : Field) (v : CString) (h : Clean ('\n' :: v)) : Section where
  heading := f.name
  value := v
  heading_ne := f.name_ok.1
  noBracket := f.name_ok.2.1
  noNewline := f.name_ok.2.2
  clean := h

def writtenSections (kaffer : SKLAFFRC) (h : ∀ f, Clean ('\n' :: kaffer f)) (fs : List Field) :
    List Section :=
  fs.filterMap fun f => if (kaffer f).length > 0 then some (fieldSection f (kaffer f) (h f)) else none

theorem writeSklaffrc_eq (kaffer : SKLAFFRC) (h : ∀ f, Clean ('\n' :: kaffer f)) :
    writeSklaffrc kaffer = sectionsText (writtenSections kaffer h writeOrder) := by
  unfold writeSklaffrc
  generalize writeOrder = fs
  induction fs with
  | nil => rfl
  | cons f fs ih =>
    unfold writtenSections at ih ⊢
    rw [List.flatMap_cons, ih, List.filterMap_cons]
    split <;> rfl

theorem mem_writtenSections_entries {kaffer : SKLAFFRC} {h : ∀ f, Clean ('\n' :: kaffer f)}
    {fs : List Field} {e : Heading × CString} :
    e ∈ (writtenSections kaffer h fs).filterMap Section.entry ↔
      ∃ f ∈ fs, kaffer f ≠ [] ∧ e = (.field f, kaffer f) := by
  have hentry : ∀ f, (fieldSection f (kaffer f) (h f)).entry = some (.field f, kaffer f) := by
    intro f
    have hf : findHeading f.name = some (.field f) := findHeading_name (.field f)
    show (findHeading f.name).map (fun i => (i, kaffer f)) = _
    rw [hf]
    rfl
  constructor
  · intro he
    obtain ⟨s, hs, hse⟩ := List.mem_filterMap.mp he
    obtain ⟨f, hf, hfs⟩ := List.mem_filterMap.mp hs
    split at hfs
    · rename_i hlen
      cases hfs
      rw [hentry] at hse
      exact ⟨f, hf, List.length_pos_iff.mp hlen, (Option.some.inj hse).symm⟩
    · cases hfs
  · intro ⟨f, hf, hne, he⟩
    rw [List.mem_filterMap]
    refine ⟨fieldSection f (kaffer f) (h f), List.mem_filterMap.mpr ⟨f, hf, ?_⟩, ?_⟩
    · exact if_pos (List.length_pos_iff.mpr hne)
    · rw [hentry, he]

theorem Field.mem_writeOrder (f : Field) : f ∈ writeOrder := by
  cases f <;> decide

theorem lastEntry_isSome {h : Heading} {es : List (Heading × CString)} {v : CString}
    (hv : (h, v) ∈ es) : (lastEntry h es).isSome := by
  by_contra hn
  rw [Option.not_isSome_iff_eq_none] at hn
  induction es with
  | nil => cases hv
  | cons e es ih =>
    rw [lastEntry, Option.or_eq_none_iff] at hn
    rcases List.mem_cons.mp hv with rfl | hv
    · simp at hn
    · exact ih hv hn.1

/-- After `write_sklaffrc` a member reads as it was written, unless it is empty. -/
theorem lastEntry_writeSklaffrc {kaffer : SKLAFFRC} (h : ∀ f, Clean ('\n' :: kaffer f)) (f : Field) :
    lastEntry (.field f) (rcEntries (writeSklaffrc kaffer)) =
      if kaffer f = [] then none else some (kaffer f) := by
  rw [writeSklaffrc_eq kaffer h, rcEntries_sectionsText]
  have hmem : ∀ v, (Heading.field f, v) ∈
      (writtenSections kaffer h writeOrder).filterMap Section.entry → kaffer f ≠ [] ∧ v = kaffer f := by
    intro v hv
    obtain ⟨g, _, hne, he⟩ := mem_writtenSections_entries.mp hv
    cases he
    exact ⟨hne, rfl⟩
  split
  · rename_i hnil
    apply lastEntry_eq_none
    intro e he hef
    obtain ⟨i, v⟩ := e
    cases hef
    exact (hmem v he).1 hnil
  · rename_i hne
    have hin := (mem_writtenSections_entries (h := h)).mpr ⟨f, f.mem_writeOrder, hne, rfl⟩
    obtain ⟨v, hv⟩ := Option.isSome_iff_exists.mp (lastEntry_isSome hin)
    rw [hv, (hmem v (lastEntry_mem hv)).2]

theorem lastEntry_numlines_writeSklaffrc {kaffer : SKLAFFRC} (h : ∀ f, Clean ('\n' :: kaffer f)) :
    lastEntry .numlines (rcEntries (writeSklaffrc kaffer)) = none := by
  rw [writeSklaffrc_eq kaffer h, rcEntries_sectionsText]
  apply lastEntry_eq_none
  intro e he hn
  obtain ⟨f, _, _, rfl⟩ := mem_writtenSections_entries.mp he
  cases hn

theorem writtenSections_nodup (kaffer : SKLAFFRC) (h : ∀ f, Clean ('\n' :: kaffer f)) :
    ((writtenSections kaffer h writeOrder).map Section.heading).Nodup := by
  have hsub : ∀ fs,
      ((writtenSections kaffer h fs).map Section.heading).Sublist (fs.map Field.name) := by
    intro fs
    induction fs with
    | nil => exact List.Sublist.refl _
    | cons f fs ih =>
      unfold writtenSections at ih ⊢
      rw [List.filterMap_cons]
      split
      · exact ih.cons _
      · rename_i s hs
        split at hs
        · cases hs
          exact ih.cons_cons _
        · cases hs
  apply (hsub writeOrder).nodup
  exact List.Nodup.map Field.name_injective (by decide)

/-! ## Replacing one value -/

theorem headingHit_cons {pat : CString} {prev : Option Char} {c : Char} {p : CString}
    (h : ¬ ['!', '['] <+: c :: p) :
    headingHit ('!' :: '[' :: pat) prev (c :: p) = headingHit ('!' :: '[' :: pat) (some c) p := by
  have hpre : ('!' :: '[' :: pat).isPrefixOf (c :: p) = false := by
    rw [← Bool.not_eq_true, List.isPrefixOf_iff_prefix]
    intro hp
    exact h ((List.prefix_append ['!', '['] pat).trans hp)
  cases p with
  | nil =>
    unfold headingHit
    rw [hpre, if_neg (by simp)]
  | cons d p =>
    rw [headingHit, hpre]
    simp

/-- No heading is found in a value. -/
theorem headingHit_clean (pat rest : CString) {y : Char} {v : CString} (hv : Clean (y :: v)) :
    headingHit ('!' :: '[' :: pat) (some y) (v ++ '\n' :: rest) =
      headingHit ('!' :: '[' :: pat) (some '\n') rest := by
  induction hn : v.length using Nat.strong_induction_on generalizing y v with
  | _ n ih =>
    by_cases hp : ['!', '['] <+: v
    · obtain ⟨w, rfl⟩ := hp
      have hy : y ≠ '\n' := by
        intro hy
        subst hy
        exact (clean_cons.mp hv).1 ⟨w, rfl⟩
      have hw : Clean ('[' :: w) := hv.tail.tail
      have hlen : w.length + 2 = n := hn
      show headingHit _ _ ('!' :: '[' :: (w ++ '\n' :: rest)) = _
      rw [headingHit]
      split
      -- the heading stands inside a line: the search goes on behind its `"!["`
      · rw [if_neg (by simp [hy])]
        exact ih w.length (by omega) hw rfl
      · exact ih (w.length + 1) (by omega) hv.tail rfl
    · cases v with
      | nil => exact headingHit_cons (fun h => absurd (List.cons_prefix_cons.mp h).1 (by decide))
      | cons c v =>
        have hnp : ¬ ['!', '['] <+: c :: (v ++ '\n' :: rest) := by
          have hclean : Clean ('\n' :: c :: v) := by
            rw [clean_cons]
            refine ⟨?_, hv.tail⟩
            intro h
            exact hp (List.cons_prefix_cons.mp h).2
          exact not_prefix_append hclean
        rw [List.cons_append, headingHit_cons hnp]
        exact ih v.length (by rw [← hn]; simp) hv.tail rfl

theorem headings_agree {key h t : CString} (hk : ']' ∉ key) (hh : ']' ∉ h)
    (hp : key ++ [']'] <+: h ++ ']' :: t) : key = h := by
  induction key generalizing h with
  | nil =>
    cases h with
    | nil => rfl
    | cons c h =>
      have := (List.cons_prefix_cons.mp hp).1
      exact absurd List.mem_cons_self (this ▸ hh)
  | cons k key ih =>
    obtain ⟨hk1, hk⟩ := not_or.mp (fun hm => hk (List.mem_cons.mpr hm))
    cases h with
    | nil => exact absurd (List.cons_prefix_cons.mp hp).1.symm hk1
    | cons c h =>
      obtain ⟨_, hh⟩ := not_or.mp (fun hm => hh (List.mem_cons.mpr hm))
      obtain ⟨hkc, hrest⟩ := List.cons_prefix_cons.mp hp
      rw [hkc, ih hk hh hrest]

variable {key : CString}

theorem headingHit_other {s : Section} (hk : ']' ∉ key) (hne : s.heading ≠ key) (rest : CString)
    (prev : Option Char) :
    headingHit ('!' :: '[' :: (key ++ [']'])) prev (s.text ++ rest) =
      headingHit ('!' :: '[' :: (key ++ [']'])) (some '\n') rest := by
  have htext : s.text ++ rest =
      '!' :: '[' :: (s.heading ++ ']' :: '\n' :: (s.value ++ '\n' :: rest)) := by
    simp [Section.text, sectionText]
  have hpre : ¬ ('!' :: '[' :: (key ++ [']'])).isPrefixOf
      ('!' :: '[' :: (s.heading ++ ']' :: '\n' :: (s.value ++ '\n' :: rest))) := by
    rw [List.isPrefixOf_iff_prefix, List.cons_prefix_cons, List.cons_prefix_cons]
    intro ⟨_, _, hp⟩
    exact hne (headings_agree hk s.noBracket hp).symm
  have hline : Clean ('!' :: '[' :: (s.heading ++ [']'])) := by
    apply clean_of_notMem
    simp [s.noNewline]
  rw [htext, headingHit, if_neg hpre, ← headingHit_clean (key ++ [']']) rest s.clean]
  have := headingHit_clean (key ++ [']']) (s.value ++ '\n' :: rest) hline
  rw [← this]
  simp

theorem headingHit_self {s : Section} (hs : s.heading = key) (rest : CString) {prev : Option Char}
    (hprev : prev = none ∨ prev = some '\n') :
    headingHit ('!' :: '[' :: (key ++ [']'])) prev (s.text ++ rest) = some (s.text ++ rest) := by
  have htext : s.text ++ rest =
      '!' :: '[' :: (key ++ ']' :: '\n' :: (s.value ++ '\n' :: rest)) := by
    simp [Section.text, sectionText, hs]
  have hpre : ('!' :: '[' :: (key ++ [']'])).isPrefixOf
      ('!' :: '[' :: (key ++ ']' :: '\n' :: (s.value ++ '\n' :: rest))) := by
    rw [List.isPrefixOf_iff_prefix]
    exact ⟨'\n' :: (s.value ++ '\n' :: rest), by simp⟩
  rw [htext, headingHit, if_pos hpre, if_pos hprev]

theorem headingHit_sections (hk : ']' ∉ key) {a : List Section} (ha : ∀ s ∈ a, s.heading ≠ key)
    (rest : CString) {prev : Option Char} (hprev : prev = none ∨ prev = some '\n') :
    ∃ prev', (prev' = none ∨ prev' = some '\n') ∧
      headingHit ('!' :: '[' :: (key ++ [']'])) prev (sectionsText a ++ rest) =
        headingHit ('!' :: '[' :: (key ++ [']'])) prev' rest := by
  induction a generalizing prev with
  | nil => exact ⟨prev, hprev, rfl⟩
  | cons s a ih =>
    obtain ⟨hs, ha⟩ := List.forall_mem_cons.mp ha
    have hnewline : some '\n' = none ∨ some '\n' = some '\n' := Or.inr rfl
    obtain ⟨prev', hprev', heq⟩ := ih ha hnewline
    refine ⟨prev', hprev', ?_⟩
    have htext : sectionsText (s :: a) = s.text ++ sectionsText a := rfl
    rw [htext, List.append_assoc, headingHit_other hk hs]
    exact heq

/-- A new first line for a value: what follows the old one stays, and so does its newline. -/
def replaceValue (value old : CString) : CString := value ++ '\n' :: old.dropWhile (· ≠ '\n')

theorem dropWhile_append_newline (v rest : CString) :
    (v ++ '\n' :: rest).dropWhile (· ≠ '\n') = v.dropWhile (· ≠ '\n') ++ '\n' :: rest := by
  induction v with
  | nil => rfl
  | cons c v ih =>
    rw [List.cons_append, List.dropWhile_cons, List.dropWhile_cons]
    split
    · exact ih
    · rfl

theorem clean_replaceValue {value old : CString} (hn : '\n' ∉ value) (hb : ¬ '!' ∈ value.head?)
    (hne : value ≠ []) (h : Clean ('\n' :: old)) : Clean ('\n' :: replaceValue value old) := by
  have hold : Clean (old.dropWhile (· ≠ '\n')) := h.tail.part (List.dropWhile_suffix _).isInfix
  have hrest : Clean ('\n' :: old.dropWhile (· ≠ '\n')) := by
    rw [clean_cons]
    refine ⟨?_, hold⟩
    intro hp
    -- what is left of the old value is empty or begins with its newline
    cases hd : old.dropWhile (· ≠ '\n') with
    | nil =>
      rw [hd] at hp
      exact absurd hp.length_le (by simp)
    | cons c w =>
      rw [hd, dropWhile_ne_head hd] at hp
      exact absurd (List.cons_prefix_cons.mp (List.cons_prefix_cons.mp hp).2).1 (by decide)
  -- a value without a newline puts nothing before what is left
  have happ : ∀ v : CString, '\n' ∉ v → Clean (v ++ '\n' :: old.dropWhile (· ≠ '\n')) := by
    intro v hv
    induction v with
    | nil => exact hrest
    | cons c v ih =>
      obtain ⟨hc, hv⟩ := not_or.mp (fun hm => hv (List.mem_cons.mpr hm))
      exact clean_cons_of_ne (Ne.symm hc) (ih hv)
  obtain ⟨c, v, rfl⟩ := List.exists_cons_of_ne_nil hne
  rw [clean_cons]
  refine ⟨?_, happ _ hn⟩
  intro hp
  have hc := (List.cons_prefix_cons.mp (List.cons_prefix_cons.mp hp).2).1
  exact hb (by rw [hc]; rfl)

theorem sectionsText_append (a b : List Section) :
    sectionsText (a ++ b) = sectionsText a ++ sectionsText b := by
  unfold sectionsText
  rw [List.flatMap_append]

theorem rcSetScalar_hit (hk : ']' ∉ key) (hkn : '\n' ∉ key) {a b : List Section} {s : Section}
    (ha : ∀ t ∈ a, t.heading ≠ key) (hs : s.heading = key) (value : CString) :
    rcSetScalar (sectionsText (a ++ s :: b)) key value =
      sectionsText a ++ (sectionText key (replaceValue value s.value) ++ sectionsText b) := by
  have hall : sectionsText (a ++ s :: b) = sectionsText a ++ (s.text ++ sectionsText b) :=
    sectionsText_append a (s :: b)
  have htext : s.text ++ sectionsText b =
      '!' :: '[' :: (key ++ [']']) ++ '\n' :: (s.value ++ '\n' :: sectionsText b) := by
    simp [Section.text, sectionText, hs]
  obtain ⟨prev, hprev, hhit⟩ := headingHit_sections hk ha (s.text ++ sectionsText b) (Or.inl rfl)
  rw [headingHit_self hs _ hprev] at hhit
  have hline : '\n' ∉ '!' :: '[' :: (key ++ [']']) := by
    simp [hkn]
  have hstart : strchr (s.text ++ sectionsText b) '\n' =
      some ('\n' :: (s.value ++ '\n' :: sectionsText b)) := by
    rw [htext, strchr_append hline]
  unfold rcSetScalar
  rw [hall, hhit]
  dsimp only
  rw [hstart, Option.map_some, Option.getD_some, List.tail_cons, dropWhile_append_newline, htext]
  have htake : ∀ p q r : CString,
      (p ++ (q ++ '\n' :: r)).take ((p ++ (q ++ '\n' :: r)).length - r.length) =
        p ++ (q ++ ['\n']) := by
    intro p q r
    have hsplit : p ++ (q ++ '\n' :: r) = (p ++ (q ++ ['\n'])) ++ r := by simp
    rw [hsplit, take_before]
  rw [htake]
  simp [sectionText, replaceValue]

theorem rcSetScalar_new (hk : ']' ∉ key) {secs : List Section} (h : ∀ t ∈ secs, t.heading ≠ key)
    (value : CString) :
    rcSetScalar (sectionsText secs) key value = sectionsText secs ++ sectionText key value := by
  obtain ⟨prev, hprev, hhit⟩ := headingHit_sections hk h [] (Or.inl rfl)
  rw [List.append_nil] at hhit
  have hlast : ¬ ((sectionsText secs).length > 0 ∧ (sectionsText secs).getLast? ≠ some '\n') := by
    intro ⟨hlen, hne⟩
    apply hne
    rcases List.eq_nil_or_concat' secs with rfl | ⟨init, s, rfl⟩
    · exact absurd hlen (by decide)
    · rw [sectionsText_append, List.getLast?_append]
      simp [sectionsText, Section.text, sectionText, List.getLast?_cons]
  unfold rcSetScalar
  rw [hhit]
  show _ ++ ((if _ then _ else _) ++ _) = _
  rw [if_neg hlast, List.nil_append]

/-! ## Changes of preferences -/

/-- What a member may be set to. -/
abbrev NewValue := { v : CString // v ≠ [] ∧ Clean ('\n' :: v) }

/-- A change: a member is replaced in what `read_sklaffrc` gives and all is written, or the terminal
height is set. -/
inductive RcChange where
  | field (f : Field) (v : NewValue)
  | numlines (n : Int)

/-- The user's file and the variable `Numlines`. -/
structure RcFile where
  userrc : CString
  numlines : Int

variable (globalrc : CString)

/-- What a member reads as. -/
def RcFile.read (s : RcFile) (f : Field) : CString :=
  (readSklaffrc globalrc s.userrc s.numlines).1 f

/-- The terminal height that is stored in the user's file. -/
def RcFile.stored (s : RcFile) : Option Int :=
  (lastEntry .numlines (rcEntries s.userrc)).map atol

def rcStep (s : RcFile) : RcChange → Option RcFile
  | .field f v =>
    let (kaffer, numlines) := readSklaffrc globalrc s.userrc s.numlines
    some ⟨writeSklaffrc (Function.update kaffer f v), numlines⟩
  | .numlines n => some { s with userrc := rcSetScalar s.userrc "Numlines".toList (decimal n) }

/-- The change reads back as set, and all else reads as before. -/
def RcKept (s : RcFile) (c : RcChange) (s' : RcFile) : Prop :=
  match c with
  | .field f v => s'.read globalrc f = v.val ∧ (∀ g ≠ f, s'.read globalrc g = s.read globalrc g) ∧
      s'.stored = s.stored
  | .numlines n => (∀ g, s'.read globalrc g = s.read globalrc g) ∧ s'.stored = some n

/-- A member is set only while the user has no terminal height stored, and has no other member empty
that the global file gives a value. -/
def RcSafe (s : RcFile) (c : RcChange) : Prop :=
  match c with
  | .field f _ => s.stored = none ∧
      ∀ g ≠ f, s.read globalrc g = [] → (readSklaffrc globalrc [] 0).1 g = []
  | .numlines _ => True

/-- The user's file consists of sections, every heading at most once. -/
def RcInv (s : RcFile) : Prop :=
  ∃ secs : List Section, s.userrc = sectionsText secs ∧ (secs.map Section.heading).Nodup

variable {globalrc}

theorem writeSklaffrc_read {kaffer : SKLAFFRC} (h : ∀ f, Clean ('\n' :: kaffer f)) (numlines : Int)
    (f : Field) :
    (RcFile.mk (writeSklaffrc kaffer) numlines).read globalrc f =
      if kaffer f = [] then (readSklaffrc globalrc [] 0).1 f else kaffer f := by
  unfold RcFile.read
  rw [readSklaffrc_field, readSklaffrc_field, lastEntry_writeSklaffrc h]
  split <;> rfl

theorem update_clean {kaffer : SKLAFFRC} (h : ∀ f, Clean ('\n' :: kaffer f)) (f : Field)
    (v : NewValue) (g : Field) : Clean ('\n' :: Function.update kaffer f v.val g) := by
  by_cases hg : g = f
  · subst hg
    rw [Function.update_self]
    exact v.property.2
  · rw [Function.update_of_ne hg]
    exact h g

theorem rcStep_field {s s' : RcFile} {f : Field} {v : NewValue}
    (hs : rcStep globalrc s (.field f v) = some s') :
    RcInv s' ∧ (RcKept globalrc s (.field f v) s' ↔ RcSafe globalrc s (.field f v)) := by
  set kaffer := (readSklaffrc globalrc s.userrc s.numlines).1 with hk
  have hclean : ∀ g, Clean ('\n' :: kaffer g) := readSklaffrc_clean globalrc s.userrc s.numlines
  have hnew := update_clean hclean f v
  have hs' : s' = ⟨writeSklaffrc (Function.update kaffer f v.val),
      (readSklaffrc globalrc s.userrc s.numlines).2⟩ := (Option.some.inj hs).symm
  have hread : ∀ g, s'.read globalrc g =
      if Function.update kaffer f v.val g = [] then (readSklaffrc globalrc [] 0).1 g
      else Function.update kaffer f v.val g := by
    rw [hs']
    exact writeSklaffrc_read hnew _
  have hstored : s'.stored = none := by
    rw [hs']
    unfold RcFile.stored
    rw [lastEntry_numlines_writeSklaffrc hnew]
    rfl
  have hother : ∀ g ≠ f, s'.read globalrc g =
      if s.read globalrc g = [] then (readSklaffrc globalrc [] 0).1 g else s.read globalrc g := by
    intro g hg
    rw [hread g, Function.update_of_ne hg]
    rfl
  constructor
  · rw [hs']
    exact ⟨_, writeSklaffrc_eq _ hnew, writtenSections_nodup _ hnew⟩
  -- the height is gone after any change of a member, so it must not have been there
  · constructor
    · intro ⟨_, hkept, hst⟩
      refine ⟨hst.symm.trans hstored, ?_⟩
      intro g hg hnil
      have hg' := hkept g hg
      rw [hother g hg, if_pos hnil] at hg'
      rw [hg', hnil]
    · intro ⟨hst, hdefault⟩
      refine ⟨?_, ?_, hstored.trans hst.symm⟩
      · rw [hread f, Function.update_self, if_neg v.property.1]
      · intro g hg
        rw [hother g hg]
        split
        · rename_i hnil
          rw [hdefault g hg hnil, hnil]
        · rfl

def numlinesSection (v : CString) (h : Clean ('\n' :: v)) : Section where
  heading := "Numlines".toList
  value := v
  heading_ne := by decide
  noBracket := by decide
  noNewline := by decide
  clean := h

theorem decimal_head (n : Int) : ¬ '!' ∈ (decimal n).head? := by
  intro h
  exact notMem_decimal (by decide) (by decide) (List.mem_of_mem_head? h)

theorem clean_decimal (n : Int) : Clean ('\n' :: decimal n) := by
  rw [clean_cons]
  constructor
  · intro hp
    obtain ⟨w, hw⟩ := (List.cons_prefix_cons.mp hp).2
    have hm : '!' ∈ decimal n := by
      rw [← hw]
      exact List.mem_cons_self
    exact notMem_decimal (by decide) (by decide) hm
  · exact clean_of_notMem (notMem_decimal (by decide) (by decide))

theorem entries_append (a b : List Section) :
    rcEntries (sectionsText (a ++ b)) = rcEntries (sectionsText a) ++ rcEntries (sectionsText b) := by
  rw [rcEntries_sectionsText, rcEntries_sectionsText, rcEntries_sectionsText, List.filterMap_append]

theorem rcEntries_cons (s : Section) (secs : List Section) :
    rcEntries (sectionsText (s :: secs)) = s.entry.toList ++ rcEntries (sectionsText secs) := by
  rw [rcEntries_sectionsText, rcEntries_sectionsText, List.filterMap_cons]
  cases s.entry <;> rfl

theorem findHeading_eq_some {v : CString} {h : Heading} (hv : findHeading v = some h) :
    h.name = v := by
  have := List.find?_some hv
  exact of_decide_eq_true this

/-- The entries of other sections are not terminal heights. -/
theorem entries_ne_numlines {secs : List Section}
    (h : ∀ s ∈ secs, s.heading ≠ "Numlines".toList) :
    ∀ e ∈ rcEntries (sectionsText secs), e.1 ≠ .numlines := by
  intro e he hn
  rw [rcEntries_sectionsText] at he
  obtain ⟨s, hs, hse⟩ := List.mem_filterMap.mp he
  obtain ⟨i, hi, rfl⟩ := Option.map_eq_some_iff.mp hse
  cases hn
  exact h s hs (findHeading_eq_some hi).symm

theorem numlinesSection_entry (v : CString) (h : Clean ('\n' :: v)) :
    (numlinesSection v h).entry = some (.numlines, v) := rfl

/-- A terminal height was stored before: its first line is replaced. -/
theorem rcStep_numlines_hit {s s' : RcFile} {n : Int} {a b : List Section} {x : Section}
    (hsecs : s.userrc = sectionsText (a ++ x :: b)) (hxn : x.heading = "Numlines".toList)
    (hnodup : ((a ++ x :: b).map Section.heading).Nodup)
    (hs : rcStep globalrc s (.numlines n) = some s') :
    RcInv s' ∧ RcKept globalrc s (.numlines n) s' := by
  -- no other section is one of a terminal height
  rw [List.map_append, List.map_cons, List.nodup_middle, List.nodup_cons, ← List.map_append,
    hxn] at hnodup
  have hab : ∀ t ∈ a ++ b, t.heading ≠ "Numlines".toList := by
    intro t ht he
    apply hnodup.1
    rw [← he]
    exact List.mem_map_of_mem ht
  have hclean : Clean ('\n' :: replaceValue (decimal n) x.value) :=
    clean_replaceValue (notMem_decimal (by decide) (by decide)) (decimal_head n) (decimal_ne_nil n)
      x.clean
  have hfile : s'.userrc = sectionsText (a ++ numlinesSection _ hclean :: b) := by
    have hs' : s'.userrc = rcSetScalar s.userrc "Numlines".toList (decimal n) := by
      cases hs
      rfl
    rw [hs', hsecs, rcSetScalar_hit (by decide) (by decide)
      (fun t ht => hab t (List.mem_append_left _ ht)) hxn, sectionsText_append]
    rfl
  -- the entries differ in the terminal height only, and no other one comes after it
  have hb := entries_ne_numlines (fun t ht => hab t (List.mem_append_right a ht))
  have hafter : rcEntries s'.userrc = rcEntries (sectionsText a) ++
      ((.numlines, replaceValue (decimal n) x.value) :: rcEntries (sectionsText b)) := by
    rw [hfile, entries_append, rcEntries_cons, numlinesSection_entry]
    rfl
  have hbefore : rcEntries s.userrc = rcEntries (sectionsText a) ++
      ((.numlines, x.value) :: rcEntries (sectionsText b)) := by
    have hxe : x.entry = some (.numlines, x.value) := by
      unfold Section.entry
      rw [hxn]
      rfl
    rw [hsecs, entries_append, rcEntries_cons, hxe]
    rfl
  constructor
  · refine ⟨_, hfile, ?_⟩
    rw [List.map_append, List.map_cons, List.nodup_middle, List.nodup_cons, ← List.map_append]
    exact hnodup
  · constructor
    · intro g
      unfold RcFile.read
      rw [readSklaffrc_field, readSklaffrc_field, hafter, hbefore, lastEntry_append,
        lastEntry_append, lastEntry, lastEntry, if_neg (by simp), if_neg (by simp)]
    · unfold RcFile.stored
      rw [hafter, lastEntry_append, lastEntry, lastEntry_eq_none hb]
      show some (atol (decimal n ++ '\n' :: _)) = some n
      rw [atol_decimal n (by simp)]

/-- No terminal height was stored before: its section comes last. -/
theorem rcStep_numlines_new {s s' : RcFile} {n : Int} {secs : List Section}
    (hsecs : s.userrc = sectionsText secs) (hno : ∀ t ∈ secs, t.heading ≠ "Numlines".toList)
    (hnodup : (secs.map Section.heading).Nodup)
    (hs : rcStep globalrc s (.numlines n) = some s') :
    RcInv s' ∧ RcKept globalrc s (.numlines n) s' := by
  have hfile : s'.userrc =
      sectionsText (secs ++ [numlinesSection (decimal n) (clean_decimal n)]) := by
    have hs' : s'.userrc = rcSetScalar s.userrc "Numlines".toList (decimal n) := by
      cases hs
      rfl
    rw [hs', hsecs, rcSetScalar_new (by decide) hno, sectionsText_append]
    congr 1
    exact (List.flatMap_singleton ..).symm
  have hafter : rcEntries s'.userrc = rcEntries (sectionsText secs) ++ [(.numlines, decimal n)] := by
    rw [hfile, entries_append, rcEntries_cons, numlinesSection_entry]
    rfl
  constructor
  · refine ⟨_, hfile, ?_⟩
    rw [List.map_append, List.nodup_append]
    refine ⟨hnodup, List.nodup_singleton _, ?_⟩
    intro h hh k hk he
    obtain ⟨t, ht, rfl⟩ := List.mem_map.mp hh
    rw [List.map_singleton, List.mem_singleton] at hk
    exact hno t ht (he.trans hk)
  · constructor
    · intro g
      unfold RcFile.read
      rw [readSklaffrc_field, readSklaffrc_field, hafter, hsecs, lastEntry_append, lastEntry,
        if_neg (by simp)]
      rfl
    · unfold RcFile.stored
      rw [hafter, lastEntry_append, lastEntry, if_pos rfl]
      show some (atol (decimal n)) = some n
      rw [← List.append_nil (decimal n), atol_decimal n (by simp)]

theorem rcStep_numlines {s s' : RcFile} {n : Int} (hI : RcInv s)
    (hs : rcStep globalrc s (.numlines n) = some s') :
    RcInv s' ∧ RcKept globalrc s (.numlines n) s' := by
  obtain ⟨secs, hsecs, hnodup⟩ := hI
  by_cases hin : ∃ x ∈ secs, x.heading = "Numlines".toList
  · obtain ⟨x, hx, hxn⟩ := hin
    obtain ⟨a, b, rfl⟩ := List.append_of_mem hx
    exact rcStep_numlines_hit hsecs hxn hnodup hs
  · exact rcStep_numlines_new hsecs (fun t ht he => hin ⟨t, ht, he⟩) hnodup hs

/-- Over any run of changes, from any file of a user: every change reads back and leaves the others
alone exactly as long as every step is safe. -/
theorem preferences_over_runs (globalrc : CString) (secs : List Section)
    (hnodup : (secs.map Section.heading).Nodup) (numlines : Int) (cs : List RcChange) :
    AllSteps (rcStep globalrc) (RcKept globalrc) ⟨sectionsText secs, numlines⟩ cs ↔
      AllSteps (rcStep globalrc) (fun s c _ => RcSafe globalrc s c) ⟨sectionsText secs, numlines⟩ cs := by
  have hstep : ∀ s c s', RcInv s → rcStep globalrc s c = some s' →
      (RcKept globalrc s c s' ↔ RcSafe globalrc s c) ∧ (RcSafe globalrc s c → RcInv s') := by
    intro s c s' hI hs
    cases c with
    | field f v => exact ⟨(rcStep_field hs).2, fun _ => (rcStep_field hs).1⟩
    | numlines n =>
      obtain ⟨hI', hkept⟩ := rcStep_numlines hI hs
      exact ⟨iff_of_true hkept trivial, fun _ => hI'⟩
  exact allSteps_iff hstep ⟨secs, rfl, hnodup⟩ cs

def lund : NewValue := ⟨"Lund".toList, by decide⟩

/-- A town and then a terminal height, where the user had a signature only. -/
theorem preferences_over_runs_townAndHeight :
    ([fieldSection .sig "bye".toList (by decide)].map Section.heading).Nodup ∧
      AllSteps (rcStep []) (RcKept []) ⟨sectionsText [fieldSection .sig "bye".toList (by decide)], 24⟩
        [.field .ort lund, .numlines 40] := by
  constructor
  · decide
  · apply (preferences_over_runs [] _ (by decide) 24 _).mpr
    exact ⟨_, rfl, ⟨rfl, fun _ _ _ => rfl⟩, _, rfl, trivial, trivial⟩

/-- The user's file with a terminal height only. -/
def heightOnly : RcFile := ⟨sectionsText [numlinesSection "50".toList (by decide)], 50⟩

/-- A new town takes the terminal height away. -/
theorem town_drops_height :
    heightOnly.stored = some 50 ∧ ∃ s', rcStep [] heightOnly (.field .ort lund) = some s' ∧
      s'.userrc = "![ort]\nLund\n".toList ∧ s'.stored = none ∧
        ¬ RcKept [] heightOnly (.field .ort lund) s' := by
  have hbefore : heightOnly.stored = some 50 := by decide
  refine ⟨hbefore, _, rfl, ?_⟩
  refine ⟨by decide, by decide, ?_⟩
  intro ⟨_, _, hst⟩
  rw [hbefore] at hst
  exact absurd hst (by decide)

end SklaffKom
