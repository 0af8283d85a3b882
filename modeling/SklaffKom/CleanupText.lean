import SklaffKom.TextFile
import SklaffKom.UrlPieces

/-!
# The text of a mail, cleaned up

`cleanup_text` takes the carriage returns, the blanks at the ends of the lines and the third and later
ones of several blank lines out of a text, and the tracking parameters out of its URLs.
-/

open CString

namespace SklaffKom

structure Cleanup where
  out : CString
  col : Nat
  blankRun : Nat
  lineHasText : Bool
  urlsCleaned : Nat
  blankLinesRemoved : Nat

def Cleanup.start : Cleanup := ⟨[], 0, 0, false, 0, 0⟩

def Cleanup.putUrl (m : Cleanup) (u : CString) : Cleanup :=
  let (cleaned, changed) := cleanUrl u
  { m with
    out := m.out ++ cleaned
    col := m.col + cleaned.length
    lineHasText := true
    urlsCleaned := if changed then m.urlsCleaned + 1 else m.urlsCleaned }

/-- The end of a line. -/
def Cleanup.newline (m : Cleanup) : Cleanup :=
  let out := trimEnd isBlank m.out
  if m.lineHasText then
    { m with out := out ++ ['\n'], blankRun := 0, col := 0, lineHasText := false }
  else if m.blankRun + 1 > 2 then
    { m with
      out := out
      blankRun := m.blankRun + 1
      blankLinesRemoved := m.blankLinesRemoved + 1
      col := 0 }
  else
    { m with out := out ++ ['\n'], blankRun := m.blankRun + 1, col := 0, lineHasText := false }

/-- Any other character. -/
def Cleanup.putChar (m : Cleanup) (c : Char) : Cleanup :=
  if c = '\r' then m
  else if c = '\n' then m.newline
  else if isBlank c && m.col = 0 then m
  else
    { m with
      out := m.out ++ [c]
      lineHasText := m.lineHasText || !isSpace c
      col := m.col + 1 }

def cleanupLoop (m : Cleanup) : CString → Cleanup
  | [] => m
  | c :: s =>
    if isUrlStart (c :: s) then
      cleanupLoop (m.putUrl (urlAt (c :: s))) ((c :: s).drop (urlAt (c :: s)).length)
    else cleanupLoop (m.putChar c) s
termination_by s => s.length
decreasing_by
  · have hpos := List.length_pos_iff.mpr (urlAt_ne_nil ‹isUrlStart (c :: s) = true›)
    rw [List.length_drop, List.length_cons]
    omega
  · exact Nat.lt_add_one _

/-- `cleanup_text`: the text, `*urls_cleaned` and `*blank_lines_removed` -/
def cleanupText (s : CString) : CString × Nat × Nat :=
  let m := cleanupLoop Cleanup.start s
  (trimEnd isSpace m.out ++ ['\n'], m.urlsCleaned, m.blankLinesRemoved)

/-! ## What is expected -/

/-- A line without a visible character. -/
def blankLine (line : CString) : Bool := line.all isSpace

/-- The visible characters outside of the URLs, and the places of the URLs between them. -/
def outside (s : CString) : List (Option Char) := marksOf (pieces s)

/-- A text without needless white space. -/
structure NormalText (s : CString) : Prop where
  newline : ∃ body, s = body ++ ['\n'] ∧ body.getLast? ≠ some '\n'
  ends : ∀ line ∈ s.splitOn '\n', (∀ c ∈ line.head?, isBlank c = false) ∧
    ∀ c ∈ line.getLast?, isBlank c = false
  blanks : ∀ a b c, [a, b, c] <:+: s.splitOn '\n' → ¬(blankLine a ∧ blankLine b ∧ blankLine c)

/-- `cleanup_text` brings a text into a normal form and loses nothing. -/
structure NormalizesText (s : CString) : Prop where
  normal : NormalText (cleanupText s).1
  outside : outside (cleanupText s).1 = outside s
  again : (cleanupText (cleanupText s).1).1 = (cleanupText s).1

/-- A URL that is still one, and the same, when it has been cleaned. -/
structure SettledUrl (u : CString) : Prop where
  tail : ∀ c ∈ (cleanUrl u).1.getLast?, urlTail c = false
  again : (cleanUrl (cleanUrl u).1).1 = (cleanUrl u).1

/-- No carriage return stands in a URL, or where a URL would be without it, and all URLs are settled. -/
structure SettledText (s : CString) : Prop where
  returns : pieces (s.filter (· ≠ '\r')) = (pieces s).filter (· ≠ .char '\r')
  urls : ∀ u, .url u ∈ pieces s → SettledUrl u

/-! ## The loop over the pieces -/

/-- A piece of the text. -/
def Cleanup.put (m : Cleanup) : Piece → Cleanup
  | .url u => m.putUrl u
  | .char c => m.putChar c

theorem cleanupLoop_eq (m : Cleanup) (s : CString) :
    cleanupLoop m s = (pieces s).foldl Cleanup.put m := by
  induction s using pieces_induction generalizing m with
  | nil => rw [cleanupLoop, pieces]; rfl
  | url s h ih =>
    obtain ⟨t, rfl⟩ := isUrlStart_head h
    rw [cleanupLoop, if_pos h, pieces_url h, ih]
    rfl
  | char c s h ih =>
    rw [cleanupLoop, if_neg (by rw [h]; exact Bool.false_ne_true), pieces_char h, ih]
    rfl

/-- What is not left out as a carriage return, with the URLs cleaned. -/
def cleanedPieces (ps : List Piece) : List Piece :=
  (ps.filter (· ≠ .char '\r')).map (Piece.mapUrl fun u => (cleanUrl u).1)

/-! ## Lines -/

section Lines

variable {a b o : CString} {c : Char}

def lineStep (st : List CString × CString) (c : Char) : List CString × CString :=
  if c = '\n' then (st.1 ++ [st.2], []) else (st.1, st.2 ++ [c])

/-- The lines that have ended, and the last one. -/
def lineState (s : CString) : List CString × CString := s.foldl lineStep ([], [])

theorem lineState_snoc (a : CString) (c : Char) : lineState (a ++ [c]) = lineStep (lineState a) c := by
  rw [lineState, List.foldl_append]
  rfl

theorem lineState_newline (a : CString) :
    lineState (a ++ ['\n']) = ((lineState a).1 ++ [(lineState a).2], []) := by
  rw [lineState_snoc, lineStep, if_pos rfl]

theorem lineState_append (a : CString) (hb : '\n' ∉ b) :
    lineState (a ++ b) = ((lineState a).1, (lineState a).2 ++ b) := by
  induction b generalizing a with
  | nil => rw [List.append_nil, List.append_nil]
  | cons c b ih =>
    rw [List.mem_cons, not_or] at hb
    have hsnoc : a ++ c :: b = (a ++ [c]) ++ b := by simp
    rw [hsnoc, ih _ hb.2, lineState_snoc, lineStep, if_neg (Ne.symm hb.1), List.append_assoc]
    rfl

theorem lineState_unlines (a : CString) :
    a = unlines (lineState a).1 ++ (lineState a).2 ∧ (∀ l ∈ (lineState a).1, '\n' ∉ l) ∧
      '\n' ∉ (lineState a).2 := by
  induction a using List.reverseRecOn with
  | nil => exact ⟨rfl, nofun, nofun⟩
  | append_singleton a c ih =>
    obtain ⟨heq, hlines, hline⟩ := ih
    rw [lineState_snoc, lineStep]
    split
    · next hc =>
      refine ⟨?_, ?_, List.not_mem_nil⟩
      · conv_lhs => rw [heq, hc]
        simp [unlines]
      · intro l hl
        rcases List.mem_append.mp hl with hl | hl
        · exact hlines l hl
        · rw [List.mem_singleton.mp hl]
          exact hline
    · next hc =>
      refine ⟨?_, hlines, ?_⟩
      · conv_lhs => rw [heq]
        rw [List.append_assoc]
      · rw [List.mem_append, List.mem_singleton]
        exact fun h => h.elim hline (fun h => hc h.symm)

theorem splitOn_lineState (a : CString) :
    a.splitOn '\n' = (lineState a).1 ++ [(lineState a).2] := by
  obtain ⟨heq, hlines, hline⟩ := lineState_unlines a
  conv_lhs => rw [heq]
  generalize (lineState a).1 = ls at hlines
  generalize (lineState a).2 = l at hline
  induction ls with
  | nil => exact List.splitOn_eq_singleton hline
  | cons l' ls ih =>
    have hcons : unlines (l' :: ls) ++ l = l' ++ '\n' :: (unlines ls ++ l) := by simp [unlines]
    rw [hcons, Split.splitOn_append (hlines l' List.mem_cons_self),
      ih fun l hl => hlines l (List.mem_cons_of_mem _ hl)]
    rfl

/-- The blank lines at the end. -/
def blankRun (ls : List CString) : Nat := (ls.reverse.takeWhile blankLine).length

theorem blankRun_snoc (ls : List CString) (l : CString) :
    blankRun (ls ++ [l]) = if blankLine l then blankRun ls + 1 else 0 := by
  rw [blankRun, List.reverse_append, List.reverse_singleton, List.singleton_append]
  split
  · next h => rw [List.takeWhile_cons_of_pos h]; rfl
  · next h => rw [List.takeWhile_cons_of_neg h]; rfl

/-- `c` may stand behind `a` in a text that is tidy. -/
structure TidyChar (a : CString) (c : Char) : Prop where
  noReturn : c ≠ '\r'
  blank : isBlank c = true → (lineState a).2 ≠ []
  newline : c = '\n' → (∀ d ∈ a.getLast?, isBlank d = false) ∧
    (blankLine (lineState a).2 = true → blankRun (lineState a).1 < 2)

/-- Every character fits behind those in front of it. -/
def Tidy (o : CString) : Prop := ∀ a c, a ++ [c] <+: o → TidyChar a c

theorem tidy_nil : Tidy [] := fun a c h => by simp at h

theorem Tidy.of_begin (h : Tidy o) (hpre : a <+: o) : Tidy a := fun a' c h' => h a' c (h'.trans hpre)

theorem Tidy.snoc (h : Tidy o) (hc : TidyChar o c) : Tidy (o ++ [c]) := by
  intro a d hpre
  rcases List.prefix_concat_iff.mp hpre with heq | hpre
  · obtain ⟨rfl, hd⟩ := List.append_inj' heq rfl
    rw [(List.cons.inj hd).1]
    exact hc
  · exact h a d hpre

/-- Characters of a word fit everywhere. -/
theorem Tidy.word (h : Tidy o) (hb : ∀ c ∈ b, urlChar c = true) : Tidy (o ++ b) := by
  induction b generalizing o with
  | nil => rwa [List.append_nil]
  | cons c b ih =>
    have hc : isSpace c = false := isSpace_of_urlChar (hb c List.mem_cons_self)
    have hchar : TidyChar o c := by
      refine ⟨?_, fun hblank => ?_, ?_⟩
      · rintro rfl
        cases hc
      · simp only [isBlank, Bool.or_eq_true, decide_eq_true_eq] at hblank
        rcases hblank with rfl | rfl <;> cases hc
      · rintro rfl
        cases hc
    have hsnoc : o ++ c :: b = (o ++ [c]) ++ b := by simp
    rw [hsnoc]
    exact ih (h.snoc hchar) fun d hd => hb d (List.mem_cons_of_mem _ hd)

end Lines

/-! ## What is visible -/

section Solid

variable {a b o y : CString} {c : Char}

/-- The pieces that are not white space. -/
def solidOf (s : CString) : List Piece := (pieces s).filter Piece.solid

theorem outside_eq (s : CString) : outside s = (solidOf s).map Piece.mark := rfl

theorem urlChar_of_isSpace (hc : isSpace c = true) : urlChar c = false := by
  cases h : urlChar c with
  | false => rfl
  | true =>
    rw [isSpace_of_urlChar h] at hc
    cases hc

theorem solidOf_nil : solidOf [] = [] := by
  rw [solidOf, pieces]
  rfl

theorem solidOf_space (hc : isSpace c = true) (a b : CString) :
    solidOf (a ++ c :: b) = solidOf a ++ solidOf b := by
  rw [solidOf, pieces_sep (urlChar_of_isSpace hc), List.filter_append,
    List.filter_cons_of_neg (by simp [Piece.solid, hc])]
  rfl

theorem solidOf_spaces (hb : b.all isSpace = true) (a : CString) : solidOf (a ++ b) = solidOf a := by
  induction b generalizing a with
  | nil => rw [List.append_nil]
  | cons c b ih =>
    rw [List.all_cons, Bool.and_eq_true] at hb
    have hnil := ih hb.2 []
    rw [List.nil_append, solidOf_nil] at hnil
    rw [solidOf_space hb.1, hnil, List.append_nil]

/-- A text whose last line is blank ends with white space, or is empty. -/
theorem solidOf_append (h : blankLine (lineState a).2 = true) (b : CString) :
    solidOf (a ++ b) = solidOf a ++ solidOf b := by
  rcases List.eq_nil_or_concat a with rfl | ⟨a, c, rfl⟩
  · rw [List.nil_append, solidOf_nil, List.nil_append]
  · have hc : isSpace c = true := by
      rw [List.concat_eq_append, lineState_snoc, lineStep] at h
      split at h
      · next hc => rw [hc]; rfl
      · exact List.all_eq_true.mp h c (by simp)
    rw [List.concat_eq_append, List.append_assoc, List.singleton_append, solidOf_space hc,
      solidOf_space hc, solidOf_nil, List.append_nil]

theorem blankLine_append (a b : CString) : blankLine (a ++ b) = (blankLine a && blankLine b) :=
  List.all_append

end Solid

/-! ## The first pass -/

section Pass

variable {m : Cleanup} {y u : CString} {c : Char}

/-- What holds when `m` has come through the pieces of `y`. -/
structure CameThrough (m : Cleanup) (y : CString) : Prop where
  tidy : Tidy m.out
  col : m.col ≠ 0 → (lineState m.out).2 ≠ []
  flush : m.col = 0 → m.lineHasText = false
  text : m.lineHasText = !blankLine (lineState m.out).2
  run : blankRun (lineState m.out).1 ≤ m.blankRun
  /-- Whatever follows, the same is visible. -/
  same : ∀ z, solidOf (m.out ++ z) = solidOf (y ++ z)

theorem cameThrough_start : CameThrough Cleanup.start [] where
  tidy := tidy_nil
  col h := absurd rfl h
  flush _ := rfl
  text := rfl
  run := Nat.le_refl _
  same _ := rfl

theorem cleanUrl_chars (hu : IsUrl u) : ∀ c ∈ (cleanUrl u).1, urlChar c = true := fun c hc =>
  hu.chars c ((cleanUrl_sublist u).subset hc)

theorem cleanUrl_start (hu : IsUrl u) : isUrlStart (cleanUrl u).1 = true := by
  have h := hu.start
  rw [isUrlStart, Bool.or_eq_true] at h ⊢
  exact h.imp (isPrefixOf_cleanUrl (by decide)) (isPrefixOf_cleanUrl (by decide))

theorem notMem_word {w : CString} (hw : ∀ c ∈ w, urlChar c = true) : '
' ∉ w := fun h => by
  cases hw _ h

theorem blankLine_url {w : CString} (hw : isUrlStart w = true) : blankLine w = false := by
  obtain ⟨t, rfl⟩ := isUrlStart_head hw
  rfl

theorem CameThrough.putUrl (h : CameThrough m y) (hu : IsUrl u) :
    CameThrough (m.putUrl u) (y ++ (cleanUrl u).1) := by
  have hchars := cleanUrl_chars hu
  have hstart := cleanUrl_start hu
  have hline := lineState_append m.out (notMem_word hchars)
  obtain ⟨t, ht⟩ := isUrlStart_head hstart
  have hout : (m.putUrl u).out = m.out ++ (cleanUrl u).1 := rfl
  have hcol : (m.putUrl u).col = m.col + (cleanUrl u).1.length := rfl
  refine ⟨?_, ?_, ?_, ?_, ?_, ?_⟩
  · exact h.tidy.word hchars
  · intro _
    rw [hout, hline, ht]
    simp
  · intro hzero
    rw [hcol, ht, List.length_cons] at hzero
    omega
  · rw [hout, hline, blankLine_append, blankLine_url hstart, Bool.and_false]
    rfl
  · rw [hout, hline]
    exact h.run
  · intro z
    rw [hout, List.append_assoc, List.append_assoc]
    exact h.same _

/-- The line without the blanks at its end. -/
theorem lineState_trimEnd (o : CString) :
    lineState (trimEnd isBlank o) = ((lineState o).1, (lineState (trimEnd isBlank o)).2) ∧
      blankLine (lineState (trimEnd isBlank o)).2 = blankLine (lineState o).2 ∧
      solidOf (trimEnd isBlank o) = solidOf o := by
  obtain ⟨b, hb, hall⟩ := trimEnd_append isBlank o
  have hspaces : b.all isSpace = true := List.all_eq_true.mpr fun c hc => isSpace_of_isBlank (hall c hc)
  have hno : '
' ∉ b := fun hmem => by cases hall _ hmem
  have hline := lineState_append (trimEnd isBlank o) hno
  have hsolid := solidOf_spaces hspaces (trimEnd isBlank o)
  rw [← hb] at hline hsolid
  refine ⟨?_, ?_, hsolid.symm⟩
  · rw [hline]
  · rw [hline, blankLine_append]
    have hblank : blankLine b = true := hspaces
    rw [hblank, Bool.and_true]

theorem CameThrough.newline (h : CameThrough m y) : CameThrough m.newline (y ++ ['
']) := by
  obtain ⟨hline, hblank, hsolid⟩ := lineState_trimEnd m.out
  have hlines := congrArg Prod.fst hline
  dsimp only at hlines
  have htidy : Tidy (trimEnd isBlank m.out) := by
    obtain ⟨b, hb, -⟩ := trimEnd_append isBlank m.out
    exact h.tidy.of_begin ⟨b, hb.symm⟩
  have hvisible : solidOf (trimEnd isBlank m.out) = solidOf y := by
    have hsame := h.same []
    rw [List.append_nil, List.append_nil] at hsame
    rw [hsolid, hsame]
  have hput : ∀ z, solidOf (trimEnd isBlank m.out ++ ['
'] ++ z) = solidOf (y ++ ['
'] ++ z) := by
    intro z
    rw [List.append_assoc, List.append_assoc, List.singleton_append, solidOf_space rfl,
      solidOf_space rfl, hvisible]
  have hchar : (blankLine (lineState m.out).2 = true → blankRun (lineState m.out).1 < 2) →
      TidyChar (trimEnd isBlank m.out) '
' := by
    intro hrun
    refine ⟨by decide, nofun, fun _ => ⟨getLast_trimEnd _ _, ?_⟩⟩
    rw [hblank, hlines]
    exact hrun
  have hstate := lineState_newline (trimEnd isBlank m.out)
  rw [Cleanup.newline]
  split
  · next htext =>
    have hthis : blankLine (lineState m.out).2 = false := by
      rw [h.text] at htext
      simpa using htext
    refine ⟨htidy.snoc (hchar fun hl => by rw [hthis] at hl; cases hl), fun hne => absurd rfl hne,
      fun _ => rfl, ?_, ?_, hput⟩
    · show false = !blankLine (lineState (trimEnd isBlank m.out ++ ['
'])).2
      rw [hstate]
      rfl
    · show blankRun (lineState (trimEnd isBlank m.out ++ ['
'])).1 ≤ 0
      rw [hstate, blankRun_snoc, hblank, hthis]
      exact Nat.le_refl _
  · next htext =>
    have hnotext : m.lineHasText = false := by simpa using htext
    have hthis : blankLine (lineState m.out).2 = true := by
      have ht := h.text
      rw [hnotext] at ht
      simpa using ht.symm
    split
    · -- the third blank line
      refine ⟨htidy, fun hne => absurd rfl hne, fun _ => hnotext, ?_, ?_, fun z => ?_⟩
      · show m.lineHasText = !blankLine (lineState (trimEnd isBlank m.out)).2
        rw [hblank]
        exact h.text
      · show blankRun (lineState (trimEnd isBlank m.out)).1 ≤ m.blankRun + 1
        rw [hlines]
        exact Nat.le_succ_of_le h.run
      · show solidOf (trimEnd isBlank m.out ++ z) = _
        rw [solidOf_append (by rw [hblank]; exact hthis), List.append_assoc, List.singleton_append,
          solidOf_space rfl, hvisible]
    · next hfew =>
      have hrun := h.run
      refine ⟨htidy.snoc (hchar fun _ => by omega), fun hne => absurd rfl hne, fun _ => rfl, ?_, ?_, hput⟩
      · show false = !blankLine (lineState (trimEnd isBlank m.out ++ ['
'])).2
        rw [hstate]
        rfl
      · show blankRun (lineState (trimEnd isBlank m.out ++ ['
'])).1 ≤ m.blankRun + 1
        rw [hstate, blankRun_snoc, hblank, hthis, if_pos rfl, hlines]
        omega

theorem CameThrough.putChar (h : CameThrough m y) (hc : c ≠ '\r') :
    CameThrough (m.putChar c) (y ++ [c]) := by
  rw [Cleanup.putChar, if_neg hc]
  by_cases hnl : c = '\n'
  · rw [if_pos hnl, hnl]
    exact h.newline
  · rw [if_neg hnl]
    split
    · -- a blank at the beginning of a line
      next hskip =>
      rw [Bool.and_eq_true, decide_eq_true_eq] at hskip
      have hblank : blankLine (lineState m.out).2 = true := by
        have ht := h.text
        rw [h.flush hskip.2] at ht
        simpa using ht.symm
      have hsame := h.same []
      rw [List.append_nil, List.append_nil] at hsame
      refine ⟨h.tidy, h.col, h.flush, h.text, h.run, fun z => ?_⟩
      rw [solidOf_append hblank, List.append_assoc, List.singleton_append,
        solidOf_space (isSpace_of_isBlank hskip.1), hsame]
    · next hput =>
      have hline : lineState (m.out ++ [c]) = ((lineState m.out).1, (lineState m.out).2 ++ [c]) := by
        rw [lineState_snoc, lineStep, if_neg hnl]
      have hchar : TidyChar m.out c := by
        refine ⟨hc, fun hblank => h.col fun hzero => hput ?_, fun heq => absurd heq hnl⟩
        rw [hblank, hzero]
        rfl
      refine ⟨h.tidy.snoc hchar, fun _ => ?_, nofun, ?_, ?_, fun z => ?_⟩
      · show (lineState (m.out ++ [c])).2 ≠ []
        rw [hline]
        simp
      · show (m.lineHasText || !isSpace c) = !blankLine (lineState (m.out ++ [c])).2
        have hone : blankLine [c] = isSpace c := by simp [blankLine]
        rw [hline, blankLine_append, hone, Bool.not_and, h.text]
      · show blankRun (lineState (m.out ++ [c])).1 ≤ m.blankRun
        rw [hline]
        exact h.run
      · show solidOf (m.out ++ [c] ++ z) = _
        rw [List.append_assoc, List.append_assoc]
        exact h.same _

theorem cleanedPieces_url (u : CString) (ps : List Piece) :
    cleanedPieces (.url u :: ps) = .url (cleanUrl u).1 :: cleanedPieces ps := rfl

theorem cleanedPieces_return (ps : List Piece) :
    cleanedPieces (.char '\r' :: ps) = cleanedPieces ps := rfl

theorem cleanedPieces_char (hc : c ≠ '\r') (ps : List Piece) :
    cleanedPieces (.char c :: ps) = .char c :: cleanedPieces ps := by
  rw [cleanedPieces, List.filter_cons_of_pos (by simp [hc])]
  rfl

/-- The whole loop. -/
theorem CameThrough.foldl {ps : List Piece} (h : CameThrough m y) (hu : ∀ u, .url u ∈ ps → IsUrl u) :
    CameThrough (ps.foldl Cleanup.put m) (y ++ joinPieces (cleanedPieces ps)) := by
  induction ps generalizing m y with
  | nil =>
    have hnil : joinPieces (cleanedPieces []) = [] := rfl
    rw [hnil, List.append_nil]
    exact h
  | cons p ps ih =>
    have hu' : ∀ u, .url u ∈ ps → IsUrl u := fun u hm => hu u (List.mem_cons_of_mem _ hm)
    cases p with
    | url u =>
      rw [cleanedPieces_url, joinPieces_cons, ← List.append_assoc]
      exact ih (h.putUrl (hu u List.mem_cons_self)) hu'
    | char c =>
      by_cases hc : c = '\r'
      · subst hc
        rw [cleanedPieces_return]
        exact ih h hu'
      · rw [cleanedPieces_char hc, joinPieces_cons, ← List.append_assoc]
        exact ih (h.putChar hc) hu'

theorem cameThrough_loop (s : CString) :
    CameThrough (cleanupLoop Cleanup.start s) (joinPieces (cleanedPieces (pieces s))) := by
  rw [cleanupLoop_eq]
  exact cameThrough_start.foldl fun u hm => isUrl_of_mem hm

end Pass

/-! ## The normal form -/

section Normal

variable {o l : CString} {ls : List CString}

def NoThreeBlank (ls : List CString) : Prop :=
  ∀ a b c, [a, b, c] <:+: ls → ¬(blankLine a ∧ blankLine b ∧ blankLine c)

theorem NoThreeBlank.snoc (h : NoThreeBlank ls) (hl : blankLine l = true → blankRun ls < 2) :
    NoThreeBlank (ls ++ [l]) := by
  intro a b c hin hblank
  rcases List.infix_concat_iff.mp hin with ⟨t, ht⟩ | hin
  · have hsplit : (t ++ [a] ++ [b]) ++ [c] = ls ++ [l] := by
      rw [← ht]
      simp
    obtain ⟨rfl, hlast⟩ := List.append_inj' hsplit rfl
    rw [← (List.cons.inj hlast).1, blankRun_snoc, blankRun_snoc, if_pos hblank.1, if_pos hblank.2.1] at hl
    have hrun := hl hblank.2.2
    omega
  · exact h a b c hin hblank

/-- Neither end of a line is a blank. -/
def NoBlankEnds (l : CString) : Prop :=
  (∀ c ∈ l.head?, isBlank c = false) ∧ ∀ c ∈ l.getLast?, isBlank c = false

theorem Tidy.lines (h : Tidy o) :
    (∀ l ∈ (lineState o).1, NoBlankEnds l) ∧ (∀ c ∈ (lineState o).2.head?, isBlank c = false) ∧
      NoThreeBlank (lineState o).1 := by
  induction o using List.reverseRecOn with
  | nil => exact ⟨nofun, nofun, fun a b c hin => by simp [lineState] at hin⟩
  | append_singleton o c ih =>
    obtain ⟨hlines, hline, hthree⟩ := ih (h.of_begin (List.prefix_append _ _))
    have hchar := h o c (List.prefix_refl _)
    rw [lineState_snoc, lineStep]
    split
    · next hc =>
      obtain ⟨hlast, hrun⟩ := hchar.newline hc
      refine ⟨fun l hl => ?_, nofun, hthree.snoc hrun⟩
      rcases List.mem_append.mp hl with hl | hl
      · exact hlines l hl
      · rw [List.mem_singleton.mp hl]
        refine ⟨hline, fun d hd => hlast d ?_⟩
        rw [(lineState_unlines o).1]
        exact List.mem_getLast?_append_of_mem_getLast? hd
    · refine ⟨hlines, fun d hd => ?_, hthree⟩
      cases hl : (lineState o).2 with
      | nil =>
        rw [hl, List.nil_append, List.head?_cons] at hd
        obtain rfl := Option.some.inj hd
        cases hblank : isBlank c with
        | false => rfl
        | true => exact absurd hl (hchar.blank hblank)
      | cons e l =>
        rw [hl] at hd hline
        exact hline d hd

/-- Only an empty text ends with a blank line and without white space. -/
theorem eq_nil_of_blankLine (h : ∀ c ∈ o.getLast?, isSpace c = false)
    (hblank : blankLine (lineState o).2 = true) : o = [] := by
  rcases List.eq_nil_or_concat o with rfl | ⟨a, c, rfl⟩
  · rfl
  · rw [List.concat_eq_append] at h hblank
    have hc : isSpace c = false := h c List.getLast?_concat
    rw [lineState_snoc, lineStep, if_neg (by rintro rfl; cases hc), blankLine_append] at hblank
    simp [blankLine, hc] at hblank

theorem Tidy.finish (h : Tidy o) : Tidy (trimEnd isSpace o ++ ['\n']) := by
  obtain ⟨b, hb, -⟩ := trimEnd_append isSpace o
  have hlast := getLast_trimEnd isSpace o
  have hbody : Tidy (trimEnd isSpace o) := h.of_begin ⟨b, hb.symm⟩
  refine hbody.snoc ⟨by decide, nofun, fun _ => ⟨fun d hd => ?_, fun hblank => ?_⟩⟩
  · cases hd' : isBlank d with
    | false => rfl
    | true =>
      have hsp := hlast d hd
      rw [isSpace_of_isBlank hd'] at hsp
      cases hsp
  · rw [eq_nil_of_blankLine hlast hblank]
    decide

theorem solidOf_finish (o : CString) : solidOf (trimEnd isSpace o ++ ['\n']) = solidOf o := by
  obtain ⟨b, hb, hall⟩ := trimEnd_append isSpace o
  have hsolid := solidOf_spaces (List.all_eq_true.mpr hall) (trimEnd isSpace o)
  rw [← hb] at hsolid
  rw [solidOf_spaces rfl, hsolid]

theorem normalText_finish (h : Tidy o) : NormalText (trimEnd isSpace o ++ ['\n']) := by
  have hlast := getLast_trimEnd isSpace o
  obtain ⟨hlines, -, hthree⟩ := h.finish.lines
  have hsplit := splitOn_lineState (trimEnd isSpace o ++ ['\n'])
  rw [lineState_newline] at hlines hthree hsplit
  refine ⟨⟨_, rfl, fun hnl => ?_⟩, ?_, ?_⟩
  · cases hlast _ hnl
  · rw [hsplit]
    intro l hl
    rcases List.mem_append.mp hl with hl | hl
    · exact hlines l hl
    · rw [List.mem_singleton.mp hl]
      exact ⟨nofun, nofun⟩
  · rw [hsplit]
    refine hthree.snoc fun _ => ?_
    rw [blankRun_snoc]
    split
    · next hblank =>
      rw [eq_nil_of_blankLine hlast hblank]
      decide
    · decide

end Normal

/-! ## The second pass -/

section Again

variable {m : Cleanup} {a o u : CString} {ps : List Piece}

/-- What holds when `m` has come through a tidy text `a` and has not changed it. -/
structure Unchanged (m : Cleanup) (a : CString) : Prop where
  out : m.out = a
  col : m.col = 0 ↔ (lineState a).2 = []
  text : m.lineHasText = !blankLine (lineState a).2
  run : m.blankRun = blankRun (lineState a).1

theorem Unchanged.putUrl (h : Unchanged m a) (hu : IsUrl u) (hclean : (cleanUrl u).1 = u) :
    Unchanged (m.putUrl u) (a ++ u) := by
  have hline := lineState_append a (notMem_word hu.chars)
  obtain ⟨t, ht⟩ := isUrlStart_head hu.start
  refine ⟨?_, ?_, ?_, ?_⟩
  · show m.out ++ (cleanUrl u).1 = _
    rw [hclean, h.out]
  · show m.col + (cleanUrl u).1.length = 0 ↔ _
    rw [hclean, hline, ht]
    simp
  · show true = _
    rw [hline, blankLine_append, blankLine_url hu.start, Bool.and_false]
    rfl
  · show m.blankRun = _
    rw [hline]
    exact h.run

theorem Unchanged.putChar {c : Char} (h : Unchanged m a) (hc : TidyChar a c) :
    Unchanged (m.putChar c) (a ++ [c]) := by
  rw [Cleanup.putChar, if_neg hc.noReturn]
  by_cases hnl : c = '\n'
  · obtain ⟨hlast, hrun⟩ := hc.newline hnl
    have hself : trimEnd isBlank m.out = a := by
      rw [h.out]
      exact trimEnd_eq_self hlast
    subst hnl
    have hstate := lineState_newline a
    rw [if_pos rfl, Cleanup.newline, hself]
    by_cases hblank : blankLine (lineState a).2 = true
    · have htext : m.lineHasText = false := by rw [h.text, hblank]; rfl
      have hfew : ¬m.blankRun + 1 > 2 := by
        have hthis := hrun hblank
        rw [h.run]
        omega
      rw [htext, if_neg Bool.false_ne_true, if_neg hfew]
      refine ⟨rfl, ?_, ?_, ?_⟩
      · rw [hstate]
        exact iff_of_true rfl rfl
      · rw [hstate]
        rfl
      · rw [hstate, blankRun_snoc, if_pos hblank, ← h.run]
    · have htext : m.lineHasText = true := by rw [h.text]; simp [hblank]
      rw [if_pos htext]
      refine ⟨rfl, ?_, ?_, ?_⟩
      · rw [hstate]
        exact iff_of_true rfl rfl
      · rw [hstate]
        rfl
      · rw [hstate, blankRun_snoc, if_neg hblank]
  · have hskip : (isBlank c && m.col = 0) = false := by
      cases hblank : isBlank c with
      | false => rfl
      | true =>
        have hcol : m.col ≠ 0 := fun hzero => hc.blank hblank (h.col.mp hzero)
        simpa using hcol
    have hline : lineState (a ++ [c]) = ((lineState a).1, (lineState a).2 ++ [c]) := by
      rw [lineState_snoc, lineStep, if_neg hnl]
    rw [if_neg hnl, hskip, if_neg Bool.false_ne_true]
    refine ⟨?_, ?_, ?_, ?_⟩
    · show m.out ++ [c] = _
      rw [h.out]
    · show m.col + 1 = 0 ↔ _
      rw [hline]
      simp
    · show (m.lineHasText || !isSpace c) = _
      have hone : blankLine [c] = isSpace c := by simp [blankLine]
      rw [hline, blankLine_append, hone, Bool.not_and, h.text]
    · show m.blankRun = _
      rw [hline]
      exact h.run

theorem Unchanged.foldl (h : Unchanged m a) (hu : ∀ u, .url u ∈ ps → IsUrl u ∧ (cleanUrl u).1 = u)
    (htidy : Tidy (a ++ joinPieces ps)) : Unchanged (ps.foldl Cleanup.put m) (a ++ joinPieces ps) := by
  induction ps generalizing m a with
  | nil =>
    rw [joinPieces_nil, List.append_nil]
    exact h
  | cons p ps ih =>
    have hu' : ∀ u, .url u ∈ ps → IsUrl u ∧ (cleanUrl u).1 = u := fun u hm =>
      hu u (List.mem_cons_of_mem _ hm)
    rw [joinPieces_cons, ← List.append_assoc] at htidy ⊢
    cases p with
    | url u =>
      obtain ⟨hurl, hclean⟩ := hu u List.mem_cons_self
      exact ih (h.putUrl hurl hclean) hu' htidy
    | char c =>
      have hchar : TidyChar a c := htidy a c (List.prefix_append _ _)
      exact ih (h.putChar hchar) hu' htidy

/-- A tidy text whose URLs are clean is left alone. -/
theorem cleanupText_tidy (htidy : Tidy (trimEnd isSpace o ++ ['\n']))
    (hu : ∀ u, .url u ∈ pieces (trimEnd isSpace o ++ ['\n']) → (cleanUrl u).1 = u) :
    (cleanupText (trimEnd isSpace o ++ ['\n'])).1 = trimEnd isSpace o ++ ['\n'] := by
  have hstart : Unchanged Cleanup.start [] := ⟨rfl, iff_of_true rfl rfl, rfl, rfl⟩
  have hrun : Unchanged ((pieces (trimEnd isSpace o ++ ['\n'])).foldl Cleanup.put Cleanup.start)
      ([] ++ joinPieces (pieces (trimEnd isSpace o ++ ['\n']))) :=
    hstart.foldl (fun u hm => ⟨isUrl_of_mem hm, hu u hm⟩) (by rwa [List.nil_append, joinPieces_pieces])
  rw [← cleanupLoop_eq, List.nil_append, joinPieces_pieces] at hrun
  have hnewline : ∀ c ∈ ['\n'], isSpace c = true := by
    intro c hc
    rw [List.mem_singleton.mp hc]
    rfl
  show trimEnd isSpace (cleanupLoop Cleanup.start _).out ++ ['\n'] = _
  rw [hrun.out, trimEnd_tails hnewline, trimEnd_eq_self (getLast_trimEnd _ _)]

def visible (s : CString) : CString := s.filter fun c => !isSpace c

theorem visible_append (a b : CString) : visible (a ++ b) = visible a ++ visible b :=
  List.filter_append _ _

theorem visible_word {w : CString} (hw : ∀ c ∈ w, urlChar c = true) : visible w = w :=
  List.filter_eq_self.mpr fun c hc => by simp [isSpace_of_urlChar (hw c hc)]

theorem joinPieces_solid (hu : ∀ u, .url u ∈ ps → IsUrl u) :
    joinPieces (ps.filter Piece.solid) = visible (joinPieces ps) := by
  induction ps with
  | nil => rfl
  | cons p ps ih =>
    have ih := ih fun u hm => hu u (List.mem_cons_of_mem _ hm)
    rw [joinPieces_cons, visible_append, ← ih]
    cases p with
    | url u =>
      rw [Piece.text, visible_word (hu u List.mem_cons_self).chars]
      rfl
    | char c =>
      cases hc : isSpace c with
      | true =>
        rw [List.filter_cons_of_neg (by simp [Piece.solid, hc])]
        simp [visible, Piece.text, hc]
      | false =>
        rw [List.filter_cons_of_pos (by simp [Piece.solid, hc])]
        simp [visible, Piece.text, hc]

theorem joinPieces_solidOf (s : CString) : joinPieces (solidOf s) = visible s := by
  rw [solidOf, joinPieces_solid fun u hm => isUrl_of_mem hm, joinPieces_pieces]

/-- Cleaned URLs are shorter, or the same. -/
theorem visible_cleaned (hu : ∀ u, .url u ∈ ps → IsUrl u) :
    (visible (joinPieces (cleanedPieces ps))).length ≤ (visible (joinPieces ps)).length ∧
      ((visible (joinPieces (cleanedPieces ps))).length = (visible (joinPieces ps)).length →
        ∀ u, .url u ∈ ps → (cleanUrl u).1 = u) := by
  induction ps with
  | nil => exact ⟨Nat.le_refl _, fun _ u hu => absurd hu List.not_mem_nil⟩
  | cons p ps ih =>
    obtain ⟨hle, heq⟩ := ih fun u hm => hu u (List.mem_cons_of_mem _ hm)
    cases p with
    | url u =>
      have hurl := hu u List.mem_cons_self
      have hsub := cleanUrl_sublist u
      have hlen := hsub.length_le
      rw [cleanedPieces_url, joinPieces_cons, joinPieces_cons, visible_append, visible_append, Piece.text,
        Piece.text, visible_word hurl.chars, visible_word (cleanUrl_chars hurl), List.length_append,
        List.length_append]
      refine ⟨by omega, fun h v hv => ?_⟩
      rcases List.mem_cons.mp hv with hv | hv
      · rw [Piece.url.inj hv]
        exact hsub.eq_of_length (by omega)
      · exact heq (by omega) v hv
    | char c =>
      have hmem : ∀ v, .url v ∈ .char c :: ps → .url v ∈ ps := by
        intro v hv
        rcases List.mem_cons.mp hv with hv | hv
        · cases hv
        · exact hv
      by_cases hc : c = '\r'
      · subst hc
        have hreturn : visible (joinPieces (.char '\r' :: ps)) = visible (joinPieces ps) := rfl
        rw [cleanedPieces_return, hreturn]
        exact ⟨hle, fun h v hv => heq h v (hmem v hv)⟩
      · rw [cleanedPieces_char hc, joinPieces_cons, joinPieces_cons, visible_append, visible_append,
          List.length_append, List.length_append]
        exact ⟨by omega, fun h v hv => heq (by omega) v (hmem v hv)⟩

theorem solidOf_cleanupText (s : CString) :
    solidOf (cleanupText s).1 = solidOf (joinPieces (cleanedPieces (pieces s))) := by
  have hsame := (cameThrough_loop s).same []
  rw [List.append_nil, List.append_nil] at hsame
  rw [← hsame]
  exact solidOf_finish _

/-- Only clean URLs come through unchanged. -/
theorem clean_of_again {s : CString} (h : (cleanupText s).1 = s) :
    ∀ u, .url u ∈ pieces s → (cleanUrl u).1 = u := by
  have hsolid := solidOf_cleanupText s
  have hvisible := congrArg joinPieces hsolid
  rw [h, joinPieces_solidOf, joinPieces_solidOf] at hvisible
  refine (visible_cleaned fun u hm => isUrl_of_mem hm).2 ?_
  rw [joinPieces_pieces, ← hvisible]

end Again

/-! ## Results -/

section Results

variable {s v : CString} {ps : List Piece}

theorem marksOf_cleanedPieces (ps : List Piece) : marksOf (cleanedPieces ps) = marksOf ps := by
  induction ps with
  | nil => rfl
  | cons p ps ih =>
    cases p with
    | url u => rw [cleanedPieces_url, marksOf_url, marksOf_url, ih]
    | char c =>
      by_cases hc : c = '\r'
      · subst hc
        rw [cleanedPieces_return, marksOf_space rfl, ih]
      · rw [cleanedPieces_char hc]
        cases hsp : isSpace c with
        | true => rw [marksOf_space hsp, marksOf_space hsp, ih]
        | false => rw [marksOf_char hsp, marksOf_char hsp, ih]

theorem mem_cleanedPieces : .url v ∈ cleanedPieces ps ↔ ∃ u, .url u ∈ ps ∧ v = (cleanUrl u).1 := by
  constructor
  · intro h
    obtain ⟨p, hp, hpv⟩ := List.mem_map.mp h
    cases p with
    | url u => exact ⟨u, List.mem_of_mem_filter hp, (Piece.url.inj hpv).symm⟩
    | char c => cases hpv
  · rintro ⟨u, hu, rfl⟩
    exact List.mem_map.mpr ⟨.url u, List.mem_filter.mpr ⟨hu, by simp⟩, rfl⟩

/-- The text without its carriage returns. -/
theorem joinPieces_filter (hu : ∀ u, .url u ∈ ps → IsUrl u) :
    joinPieces (ps.filter (· ≠ .char '\r')) = (joinPieces ps).filter (· ≠ '\r') := by
  induction ps with
  | nil => rfl
  | cons p ps ih =>
    have ih := ih fun u hm => hu u (List.mem_cons_of_mem _ hm)
    rw [joinPieces_cons, List.filter_append, ← ih]
    cases p with
    | url u =>
      have hself : u.filter (· ≠ '\r') = u := by
        refine List.filter_eq_self.mpr fun c hc => ?_
        have hne : c ≠ '\r' := by
          rintro rfl
          cases (hu u List.mem_cons_self).chars _ hc
        simpa using hne
      rw [Piece.text, hself]
      rfl
    | char c =>
      by_cases hc : c = '\r'
      · subst hc
        rfl
      · rw [List.filter_cons_of_pos (by simpa using hc)]
        simp [Piece.text, hc]

theorem normalizesText_of_settled (h : SettledText s) : NormalizesText s := by
  have hcons : Consistent (cleanedPieces (pieces s)) := by
    refine (consistent_mapUrl _ _).mpr ?_
    rw [← h.returns]
    exact consistent_pieces _
  have hread : pieces (joinPieces (cleanedPieces (pieces s))) = cleanedPieces (pieces s) := by
    refine pieces_joinPieces hcons fun v hv => ?_
    obtain ⟨u, hu, rfl⟩ := mem_cleanedPieces.mp hv
    have hurl := isUrl_of_mem hu
    exact ⟨cleanUrl_start hurl, cleanUrl_chars hurl, (h.urls u hu).tail⟩
  have hsolid := solidOf_cleanupText s
  refine ⟨normalText_finish (cameThrough_loop s).tidy, ?_, ?_⟩
  · rw [outside_eq, hsolid]
    show marksOf (pieces _) = _
    rw [hread, marksOf_cleanedPieces]
    rfl
  · refine cleanupText_tidy (cameThrough_loop s).tidy.finish fun v hv => ?_
    have hin : .url v ∈ solidOf (cleanupText s).1 := List.mem_filter.mpr ⟨hv, rfl⟩
    rw [hsolid, solidOf, hread] at hin
    obtain ⟨u, hu, rfl⟩ := mem_cleanedPieces.mp (List.mem_of_mem_filter hin)
    exact (h.urls u hu).again

theorem settled_of_normalizesText (h : NormalizesText s) : SettledText s := by
  have hmarks : marksOf (pieces (joinPieces (cleanedPieces (pieces s)))) =
      marksOf (cleanedPieces (pieces s)) := by
    have hout := h.outside
    rw [outside_eq, solidOf_cleanupText] at hout
    rw [marksOf_cleanedPieces]
    exact hout
  have hread : pieces (joinPieces (cleanedPieces (pieces s))) = cleanedPieces (pieces s) := by
    refine (markCounts_pieces _ fun v hv => ?_).of_eq hmarks
    obtain ⟨u, hu, rfl⟩ := mem_cleanedPieces.mp hv
    have hurl := isUrl_of_mem hu
    exact ⟨cleanUrl_start hurl, cleanUrl_chars hurl⟩
  have hcons : Consistent ((pieces s).filter (· ≠ .char '\r')) := by
    refine (consistent_mapUrl (fun u => (cleanUrl u).1) _).mp ?_
    show Consistent (cleanedPieces (pieces s))
    rw [← hread]
    exact consistent_pieces _
  refine ⟨?_, fun u hu => ?_⟩
  · have hjoin : joinPieces ((pieces s).filter (· ≠ .char '\r')) =
        (joinPieces (pieces s)).filter (· ≠ '\r') := joinPieces_filter fun u hm => isUrl_of_mem hm
    rw [joinPieces_pieces] at hjoin
    rw [← hjoin]
    exact pieces_joinPieces hcons fun u hm => isUrl_of_mem (List.mem_of_mem_filter hm)
  · have hv : .url (cleanUrl u).1 ∈ pieces (joinPieces (cleanedPieces (pieces s))) := by
      rw [hread]
      exact mem_cleanedPieces.mpr ⟨u, hu, rfl⟩
    refine ⟨(isUrl_of_mem hv).tail, clean_of_again h.again _ ?_⟩
    have hin : .url (cleanUrl u).1 ∈ solidOf (cleanupText s).1 := by
      rw [solidOf_cleanupText]
      exact List.mem_filter.mpr ⟨hv, rfl⟩
    exact List.mem_of_mem_filter hin

end Results

/-- The text is brought into a normal form without a loss, exactly where its URLs are settled. -/
theorem normalizesText_iff (s : CString) : NormalizesText s ↔ SettledText s :=
  ⟨settled_of_normalizesText, normalizesText_of_settled⟩

/-- The empty parameter in front of a tracking one goes in the second pass only. -/
theorem cleanupText_twice :
    (cleanupText "http://a?x&&utm_a\n".toList).1 = "http://a?x&\n".toList ∧
      (cleanupText "http://a?x&\n".toList).1 = "http://a?x\n".toList ∧
      ¬NormalizesText "http://a?x&&utm_a\n".toList := by
  have hfirst : (cleanupText "http://a?x&&utm_a\n".toList).1 = "http://a?x&\n".toList := by
    decide +kernel
  have hsecond : (cleanupText "http://a?x&\n".toList).1 = "http://a?x\n".toList := by
    decide +kernel
  refine ⟨hfirst, hsecond, fun h => ?_⟩
  have hagain := h.again
  rw [hfirst, hsecond] at hagain
  exact absurd hagain (by decide)

end SklaffKom
