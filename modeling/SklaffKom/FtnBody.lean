import Mathlib.Data.List.Forall2
import SklaffKom.FtnMsg
import SklaffKom.TextFile

/-!
# The body of a `.MSG` file

`process_body` takes a body apart at each `CR` and each `LF`, and copies the lines that are shown
without their pipe codes.  Whether a line is shown is decided before its codes are gone.
-/

open CString

namespace SklaffKom

variable {l s o w : CString} {ls : List CString} {msg : FidoMsg}

/-! ## The lines of a body -/

/-- The lines between line ends, a last one only when it is not empty. -/
def splitLines : CString → List CString
  | [] => []
  | c :: s =>
    if isEol c then [] :: splitLines s
    else
      match splitLines s with
      | [] => [[c]]
      | l :: ls => (c :: l) :: ls

/-- The lines of a body as they fit the line buffer. -/
def bodyLines (buf : List Char) : List CString :=
  (splitLines (buf.takeWhile (· ≠ '\x00'))).map (·.take (bodyLineMax - 1))

/-- The lines behind the beginning of the first one. -/
def continueLine (line : CString) : List CString → List CString
  | [] => if line = [] then [] else [line]
  | l :: ls => (line ++ l) :: ls

theorem splitLines_char {c : Char} (hc : isEol c = false) :
    splitLines (c :: s) = continueLine [c] (splitLines s) := by
  rw [splitLines, if_neg (by simp [hc])]
  cases splitLines s with
  | nil => rfl
  | cons l ls => rfl

theorem continueLine_nil (ls : List CString) : continueLine [] ls = ls := by
  cases ls with
  | nil => rfl
  | cons l ls => rfl

theorem continueLine_char (line : CString) (c : Char) (ls : List CString) :
    continueLine line (continueLine [c] ls) = continueLine (line ++ [c]) ls := by
  cases ls with
  | nil => simp [continueLine]
  | cons l ls => simp [continueLine]

/-- Characters that do not fit the line buffer are lost. -/
theorem continueLine_full {line : CString} {c : Char} (hlen : line.length ≤ bodyLineMax - 1)
    (ls : List CString) :
    (continueLine (if line.length + 1 < bodyLineMax then line ++ [c] else line) ls).map
      (·.take (bodyLineMax - 1)) =
    (continueLine (line ++ [c]) ls).map (·.take (bodyLineMax - 1)) := by
  by_cases hfit : line.length + 1 < bodyLineMax
  · rw [if_pos hfit]
  · have hfull : line.length = bodyLineMax - 1 := by omega
    have hne : line ≠ [] := by
      intro hnil
      rw [hnil] at hfull
      revert hfull
      decide
    have hcut : ∀ t : CString, (line ++ t).take (bodyLineMax - 1) = line := fun t =>
      List.take_left' hfull
    rw [if_neg hfit]
    cases ls with
    | nil =>
      have hline := hcut []
      rw [List.append_nil] at hline
      simp [continueLine, hne, hcut, hline]
    | cons l ls => simp only [continueLine, List.map_cons, List.append_assoc, hcut]

theorem bodyLine_last {line : CString} (hlen : line.length ≤ bodyLineMax - 1) (msg : FidoMsg) :
    (if line = [] then msg else bodyLine msg line) =
      ((continueLine line []).map (·.take (bodyLineMax - 1))).foldl bodyLine msg := by
  by_cases hnil : line = []
  · simp [continueLine, hnil]
  · simp [continueLine, hnil, List.take_of_length_le hlen]

theorem processBody_continue (buf : List Char) {line : CString}
    (hlen : line.length ≤ bodyLineMax - 1) (msg : FidoMsg) :
    processBody buf line msg =
      ((continueLine line (splitLines (buf.takeWhile (· ≠ '\x00')))).map
        (·.take (bodyLineMax - 1))).foldl bodyLine msg := by
  induction buf generalizing line msg with
  | nil => exact bodyLine_last hlen msg
  | cons c buf ih =>
    rw [processBody]
    by_cases hnul : c = '\x00'
    · rw [if_pos hnul, List.takeWhile_cons_of_neg (by simp [hnul])]
      exact bodyLine_last hlen msg
    · rw [if_neg hnul, List.takeWhile_cons_of_pos (by simp [hnul])]
      by_cases hc : isEol c = true
      · rw [if_pos hc, splitLines, if_pos hc, ih (Nat.zero_le _), continueLine_nil, continueLine,
          List.append_nil, List.map_cons, List.take_of_length_le hlen, List.foldl_cons]
      · have hgrown : (if line.length + 1 < bodyLineMax then line ++ [c] else line).length ≤
            bodyLineMax - 1 := by
          split
          · rw [List.length_append, List.length_singleton]
            omega
          · exact hlen
        rw [if_neg hc, splitLines_char (by simpa using hc), continueLine_char, ih hgrown,
          continueLine_full hlen]

theorem processBody_lines (buf : List Char) (msg : FidoMsg) :
    processBody buf [] msg = (bodyLines buf).foldl bodyLine msg := by
  rw [processBody_continue buf (Nat.zero_le _), continueLine_nil]
  rfl

/-! ## What is shown -/

def shownLines (buf : List Char) : List CString :=
  (bodyLines buf).filter fun l => !shouldHideCleanLine l

theorem bodyLine_cleanBody (msg : FidoMsg) (l : CString) : (bodyLine msg l).cleanBody =
    if shouldHideCleanLine l then msg.cleanBody else msg.cleanBody ++ stripPipeColors l ++ ['\n'] := by
  unfold bodyLine
  dsimp only
  split
  · exact parseKludge_cleanBody msg l
  · show (parseKludge msg l).cleanBody ++ _ ++ _ = _
    rw [parseKludge_cleanBody]

theorem foldl_bodyLine_cleanBody (ls : List CString) (msg : FidoMsg) :
    (ls.foldl bodyLine msg).cleanBody =
      msg.cleanBody ++ unlines ((ls.filter fun l => !shouldHideCleanLine l).map stripPipeColors) := by
  induction ls generalizing msg with
  | nil => simp [unlines]
  | cons l ls ih =>
    rw [List.foldl_cons, ih, bodyLine_cleanBody]
    by_cases hl : shouldHideCleanLine l = true
    · simp [hl]
    · simp [hl, unlines]

/-! ## Pipe codes -/

/-- A code stands at the beginning. -/
inductive AtCode : CString → Prop
  | mk {x y : Char} {s : CString} (hx : x.isDigit = true) (hy : y.isDigit = true) :
      AtCode ('|' :: x :: y :: s)

/-- `o` is `s` without some of its codes. -/
inductive WithoutCodes : CString → CString → Prop
  | nil : WithoutCodes [] []
  | char {c : Char} {s o : CString} (h : WithoutCodes s o) : WithoutCodes (c :: s) (c :: o)
  | code {x y : Char} {s o : CString} (hx : x.isDigit = true) (hy : y.isDigit = true)
      (h : WithoutCodes s o) : WithoutCodes ('|' :: x :: y :: s) o

theorem stripPipeColors_code {x y : Char} (hx : x.isDigit = true) (hy : y.isDigit = true)
    (s : CString) : stripPipeColors ('|' :: x :: y :: s) = stripPipeColors s := by
  rw [stripPipeColors, if_pos ⟨hx, hy⟩]

theorem stripPipeColors_char {c : Char} (h : ¬ AtCode (c :: s)) :
    stripPipeColors (c :: s) = c :: stripPipeColors s := by
  conv_lhs => unfold stripPipeColors
  split
  · rename_i x y r heq
    cases heq
    split
    · rename_i hxy
      exact absurd (.mk hxy.1 hxy.2) h
    · rfl
  · rename_i heq
    cases heq
    rfl
  · rename_i heq
    cases heq

/-- Codes are taken off from the left. -/
theorem codes_induction {P : CString → Prop} (nil : P [])
    (code : ∀ x y s, x.isDigit = true → y.isDigit = true → P s → P ('|' :: x :: y :: s))
    (char : ∀ c s, ¬ AtCode (c :: s) → P s → P (c :: s)) (s : CString) : P s := by
  induction hn : s.length using Nat.strong_induction_on generalizing s with
  | _ n ih =>
    cases s with
    | nil => exact nil
    | cons c s =>
      by_cases h : AtCode (c :: s)
      · cases h with
        | @mk x y s hx hy =>
          exact code x y s hx hy (ih s.length (by simp only [List.length_cons] at hn; omega) s rfl)
      · exact char c s h (ih s.length (by rw [List.length_cons] at hn; omega) s rfl)

theorem stripPipeColors_withoutCodes (s : CString) : WithoutCodes s (stripPipeColors s) := by
  induction s using codes_induction with
  | nil => exact .nil
  | code x y s hx hy ih =>
    rw [stripPipeColors_code hx hy]
    exact .code hx hy ih
  | char c s h ih =>
    rw [stripPipeColors_char h]
    exact .char ih

/-- `s` begins with `w` when codes are passed over. -/
inductive BeginsWith : CString → CString → Prop
  | nil {s : CString} : BeginsWith [] s
  | char {c : Char} {w s : CString} (h : BeginsWith w s) : BeginsWith (c :: w) (c :: s)
  | code {x y : Char} {w s : CString} (hx : x.isDigit = true) (hy : y.isDigit = true)
      (h : BeginsWith w s) : BeginsWith w ('|' :: x :: y :: s)

theorem beginsWith_iff (hw : '|' ∉ w) : BeginsWith w s ↔ w <+: stripPipeColors s := by
  induction s using codes_induction generalizing w with
  | nil =>
    constructor
    · intro h
      cases h with
      | nil => exact List.nil_prefix
    · intro h
      rw [List.prefix_nil.mp h]
      exact .nil
  | code x y s hx hy ih =>
    rw [stripPipeColors_code hx hy, ← ih hw]
    constructor
    · intro h
      cases h with
      | nil => exact .nil
      | char h => exact absurd List.mem_cons_self hw
      | code _ _ h => exact h
    · exact .code hx hy
  | char c s hc ih =>
    rw [stripPipeColors_char hc]
    cases w with
    | nil => exact ⟨fun _ => List.nil_prefix, fun _ => .nil⟩
    | cons d w =>
      rw [List.cons_prefix_cons, ← ih fun h => hw (List.mem_cons_of_mem _ h)]
      constructor
      · intro h
        cases h with
        | char h => exact ⟨rfl, h⟩
        | code hx hy h => exact absurd (.mk hx hy) hc
      · rintro ⟨rfl, h⟩
        exact .char h

/-- A code stands somewhere. -/
def HasCode (s : CString) : Prop := ∃ a b, s = a ++ b ∧ AtCode b

/-- A bar that begins no code comes before two digits when the codes behind it are gone. -/
def TornCode (s : CString) : Prop :=
  ∃ a b x y, s = a ++ '|' :: b ∧ ¬ AtCode ('|' :: b) ∧ BeginsWith [x, y] b ∧
    x.isDigit = true ∧ y.isDigit = true

theorem hasCode_cons {c : Char} : HasCode (c :: s) ↔ AtCode (c :: s) ∨ HasCode s := by
  constructor
  · rintro ⟨a, b, heq, hb⟩
    cases a with
    | nil => exact .inl (heq ▸ hb)
    | cons d a => exact .inr ⟨a, b, (List.cons.inj heq).2, hb⟩
  · rintro (h | ⟨a, b, rfl, hb⟩)
    · exact ⟨[], _, rfl, h⟩
    · exact ⟨c :: a, b, rfl, hb⟩

theorem tornCode_cons {c : Char} : TornCode (c :: s) ↔
    (c = '|' ∧ ¬ AtCode ('|' :: s) ∧
      ∃ x y, BeginsWith [x, y] s ∧ x.isDigit = true ∧ y.isDigit = true) ∨ TornCode s := by
  constructor
  · rintro ⟨a, b, x, y, heq, hb⟩
    cases a with
    | nil =>
      obtain ⟨rfl, rfl⟩ := List.cons.inj heq
      exact .inl ⟨rfl, hb.1, x, y, hb.2⟩
    | cons d a => exact .inr ⟨a, b, x, y, (List.cons.inj heq).2, hb⟩
  · rintro (⟨rfl, hb, x, y, hxy⟩ | ⟨a, b, x, y, rfl, hb⟩)
    · exact ⟨[], s, x, y, rfl, hb, hxy⟩
    · exact ⟨c :: a, b, x, y, rfl, hb⟩

theorem ne_bar_of_isDigit {c : Char} (h : c.isDigit = true) : c ≠ '|' := by
  rintro rfl
  revert h
  decide

theorem atCode_cons_iff {c : Char} : AtCode (c :: s) ↔
    c = '|' ∧ ∃ x y, [x, y] <+: s ∧ x.isDigit = true ∧ y.isDigit = true := by
  constructor
  · intro h
    cases h with
    | @mk x y s hx hy => exact ⟨rfl, x, y, ⟨s, rfl⟩, hx, hy⟩
  · rintro ⟨rfl, x, y, ⟨r, rfl⟩, hx, hy⟩
    exact .mk hx hy

theorem hasCode_strip_iff : HasCode (stripPipeColors s) ↔ TornCode s := by
  induction s using codes_induction with
  | nil =>
    constructor
    · rintro ⟨a, b, heq, hb⟩
      obtain ⟨-, rfl⟩ := List.append_eq_nil_iff.mp heq.symm
      cases hb
    · rintro ⟨a, b, x, y, heq, -⟩
      simp at heq
  | code x y s hx hy ih =>
    have hx' := ne_bar_of_isDigit hx
    have hy' := ne_bar_of_isDigit hy
    have hcode : AtCode ('|' :: x :: y :: s) := .mk hx hy
    rw [stripPipeColors_code hx hy, ih, tornCode_cons, tornCode_cons, tornCode_cons]
    simp [hx', hy', hcode]
  | char c s hc ih =>
    rw [stripPipeColors_char hc, hasCode_cons, tornCode_cons, ih, atCode_cons_iff]
    have hdigits : ∀ x y : Char, x.isDigit = true → y.isDigit = true →
        (BeginsWith [x, y] s ↔ [x, y] <+: stripPipeColors s) := by
      intro x y hx hy
      apply beginsWith_iff
      simp [(ne_bar_of_isDigit hx).symm, (ne_bar_of_isDigit hy).symm]
    constructor
    · rintro (⟨rfl, x, y, hxy, hx, hy⟩ | h)
      · exact .inl ⟨rfl, hc, x, y, (hdigits x y hx hy).mpr hxy, hx, hy⟩
      · exact .inr h
    · rintro (⟨rfl, -, x, y, hxy, hx, hy⟩ | h)
      · exact .inl ⟨rfl, x, y, (hdigits x y hx hy).mp hxy, hx, hy⟩
      · exact .inr h

/-! ## Control lines -/

def controlWords : List CString :=
  [['\x01'], "SEEN-BY:".toList, "AREA:".toList, "PATH:".toList]

theorem shouldHideCleanLine_iff :
    shouldHideCleanLine l = true ↔ ∃ w ∈ controlWords, w <+: l := by
  have hkludge : l.head? = some '\x01' ↔ ['\x01'] <+: l := by
    cases l with
    | nil => simp
    | cons c l => simp [eq_comm]
  simp only [shouldHideCleanLine, controlWords, Bool.or_eq_true, decide_eq_true_eq,
    List.isPrefixOf_iff_prefix, List.mem_cons, List.not_mem_nil, or_false, exists_eq_or_imp,
    exists_eq_left, hkludge, or_assoc]

/-- A line that is shown as it should be. -/
structure Displayable (l : CString) : Prop where
  noControl : ∀ w ∈ controlWords, ¬ w <+: l
  noCode : ¬ HasCode l

/-- A line that is shown as it should be once its codes are gone. -/
structure CleanlyCoded (l : CString) : Prop where
  noControl : ∀ w ∈ controlWords, ¬ BeginsWith w l
  noTorn : ¬ TornCode l

theorem bar_notMem_controlWords (hw : w ∈ controlWords) : '|' ∉ w := by
  simp only [controlWords, List.mem_cons, List.not_mem_nil, or_false] at hw
  rcases hw with rfl | rfl | rfl | rfl
  · simp
  · simp
  · simp
  · simp

theorem displayable_strip_iff : Displayable (stripPipeColors l) ↔ CleanlyCoded l := by
  constructor
  · rintro ⟨hcontrol, hcode⟩
    exact ⟨fun w hw h => hcontrol w hw ((beginsWith_iff (bar_notMem_controlWords hw)).mp h),
      fun h => hcode (hasCode_strip_iff.mpr h)⟩
  · rintro ⟨hcontrol, hcode⟩
    exact ⟨fun w hw h => hcontrol w hw ((beginsWith_iff (bar_notMem_controlWords hw)).mpr h),
      fun h => hcode (hasCode_strip_iff.mp h)⟩

def cleanLines (msg : FidoMsg) : List CString := (getlines msg.cleanBody).map List.dropLast

theorem getlines_unlines (h : ∀ l ∈ ls, '\n' ∉ l) : getlines (unlines ls) = ls.map (· ++ ['\n']) := by
  induction ls with
  | nil => rfl
  | cons l ls ih =>
    have hsplit : unlines (l :: ls) = l ++ '\n' :: unlines ls := by simp [unlines]
    rw [hsplit, getlines_line (h l List.mem_cons_self),
      ih fun l' hl' => h l' (List.mem_cons_of_mem _ hl')]
    rfl

theorem cleanLines_unlines (h : ∀ l ∈ ls, '\n' ∉ l) (hmsg : msg.cleanBody = unlines ls) :
    cleanLines msg = ls := by
  unfold cleanLines
  rw [hmsg, getlines_unlines h, List.map_map]
  simp [Function.comp_def]

theorem isEol_of_mem_splitLines {c : Char} (h : l ∈ splitLines s) (hc : c ∈ l) : isEol c = false := by
  induction s generalizing l with
  | nil => cases h
  | cons d s ih =>
    by_cases hd : isEol d = true
    · rw [splitLines, if_pos hd, List.mem_cons] at h
      rcases h with rfl | h
      · cases hc
      · exact ih h hc
    · have hd' : isEol d = false := by simpa using hd
      rw [splitLines_char hd'] at h
      cases hs : splitLines s with
      | nil =>
        rw [hs, continueLine, if_neg (List.cons_ne_nil d []), List.mem_singleton] at h
        rw [h, List.mem_singleton] at hc
        rw [hc, hd']
      | cons l' ls =>
        rw [hs, continueLine, List.mem_cons] at h
        rcases h with rfl | h
        · rcases List.mem_cons.mp hc with rfl | hc
          · exact hd'
          · exact ih (hs ▸ List.mem_cons_self) hc
        · exact ih (hs ▸ List.mem_cons_of_mem _ h) hc

theorem WithoutCodes.subset (h : WithoutCodes s o) : o ⊆ s := by
  induction h with
  | nil => exact List.Subset.refl _
  | char _ ih => exact List.cons_subset_cons _ ih
  | code _ _ _ ih =>
    intro c hc
    exact List.mem_cons_of_mem _ (List.mem_cons_of_mem _ (List.mem_cons_of_mem _ (ih hc)))

theorem newline_notMem_of_shown {buf : List Char} (h : l ∈ shownLines buf) :
    '\n' ∉ stripPipeColors l := by
  intro hc
  have hmem := (stripPipeColors_withoutCodes l).subset hc
  obtain ⟨l', hl', rfl⟩ := List.mem_map.mp (List.mem_of_mem_filter h)
  have heol := isEol_of_mem_splitLines hl' (List.mem_of_mem_take hmem)
  revert heol
  decide

theorem processBody_cleanLines (buf : List Char) (h : msg.cleanBody = []) :
    cleanLines (processBody buf [] msg) = (shownLines buf).map stripPipeColors := by
  apply cleanLines_unlines
  · intro l hl
    obtain ⟨l', hl', rfl⟩ := List.mem_map.mp hl
    exact newline_notMem_of_shown hl'
  · rw [processBody_lines, foldl_bodyLine_cleanBody, h, List.nil_append]
    rfl

/-- What `clean_body` is made for: its lines can be displayed, and they are the lines of the body that
are no control lines without some codes. -/
structure ShowsBody (buf : List Char) (msg : FidoMsg) : Prop where
  displayable : ∀ l ∈ cleanLines msg, Displayable l
  shown : List.Forall₂ WithoutCodes (shownLines buf) (cleanLines msg)

/-- A body is shown right unless a code stands inside of another one, or in front of or inside of a
control word. -/
theorem processBody_shows_iff (buf : List Char) (h : msg.cleanBody = []) :
    ShowsBody buf (processBody buf [] msg) ↔
      ∀ l ∈ bodyLines buf, shouldHideCleanLine l = false → CleanlyCoded l := by
  have hlines := processBody_cleanLines buf h
  have hshown : ∀ l, l ∈ shownLines buf ↔ l ∈ bodyLines buf ∧ shouldHideCleanLine l = false := by
    intro l
    simp [shownLines]
  constructor
  · intro hs l hl hhide
    apply displayable_strip_iff.mp
    apply hs.displayable
    rw [hlines]
    exact List.mem_map_of_mem ((hshown l).mpr ⟨hl, hhide⟩)
  · intro hclean
    refine ⟨fun l hl => ?_, ?_⟩
    · rw [hlines] at hl
      obtain ⟨l', hl', rfl⟩ := List.mem_map.mp hl
      obtain ⟨hmem, hhide⟩ := (hshown l').mp hl'
      exact displayable_strip_iff.mpr (hclean l' hmem hhide)
    · rw [hlines, List.forall₂_map_right_iff]
      exact List.forall₂_same.mpr fun l _ => stripPipeColors_withoutCodes l

theorem not_hasCode (h : '|' ∉ l) : ¬ HasCode l := by
  rintro ⟨a, b, rfl, hb⟩
  cases hb with
  | mk hx hy => exact h (List.mem_append_right _ List.mem_cons_self)

/-- The message before its body is read. -/
def noBody : FidoMsg := ⟨[], [], [], [], [], [], [], [], [], [], []⟩

theorem processBody_shows_hej :
    ShowsBody "|07Hej\rSEEN-BY: 201/1\r".toList
      (processBody "|07Hej\rSEEN-BY: 201/1\r".toList [] noBody) := by
  refine (processBody_shows_iff _ rfl).mpr fun l hl hhide => ?_
  have hlines : bodyLines "|07Hej\rSEEN-BY: 201/1\r".toList =
      ["|07Hej".toList, "SEEN-BY: 201/1".toList] := by decide +kernel
  rw [hlines, List.mem_cons, List.mem_singleton] at hl
  rcases hl with rfl | rfl
  · apply displayable_strip_iff.mp
    refine ⟨fun w hw h => ?_, not_hasCode (by decide +kernel)⟩
    have hcontrol := shouldHideCleanLine_iff.mpr ⟨w, hw, h⟩
    revert hcontrol
    decide +kernel
  · exact absurd hhide (by decide +kernel)

/-- The control line appears when its colour is gone. -/
theorem processBody_shows_seenBy :
    ¬ ShowsBody "|00SEEN-BY: 201/1\r".toList
      (processBody "|00SEEN-BY: 201/1\r".toList [] noBody) := by
  intro h
  have hlines : cleanLines (processBody "|00SEEN-BY: 201/1\r".toList [] noBody) =
      ["SEEN-BY: 201/1".toList] := by decide +kernel
  have hmem : "SEEN-BY: 201/1".toList ∈
      cleanLines (processBody "|00SEEN-BY: 201/1\r".toList [] noBody) := by
    rw [hlines]
    exact List.mem_cons_self
  exact (h.displayable _ hmem).noControl "SEEN-BY:".toList
    (List.mem_cons_of_mem _ List.mem_cons_self) ⟨" 201/1".toList, rfl⟩

/-! ## Line ends -/

/-- A body of lines with the line end `e`. -/
def bodyOf (e : CString) (ls : List CString) : List Char := ls.flatMap (· ++ e)

/-- A line that the line buffer holds. -/
structure PlainLine (l : CString) : Prop where
  chars : ∀ c ∈ l, isEol c = false ∧ c ≠ '\x00'
  fits : l.length < bodyLineMax

theorem plainLine_of_all (h : l.all (fun c => !isEol c && c ≠ '\x00') = true)
    (hfits : l.length < bodyLineMax) : PlainLine l :=
  ⟨fun c hc => by simpa using List.all_eq_true.mp h c hc, hfits⟩

theorem splitLines_line (hl : ∀ c ∈ l, isEol c = false) {c : Char} (hc : isEol c = true)
    (s : CString) : splitLines (l ++ c :: s) = l :: splitLines s := by
  induction l with
  | nil => rw [List.nil_append, splitLines, if_pos hc]
  | cons d l ih =>
    rw [List.cons_append, splitLines_char (hl d List.mem_cons_self),
      ih fun c hc => hl c (List.mem_cons_of_mem _ hc)]
    rfl

theorem bodyOf_cons (e : CString) (l : CString) (ls : List CString) :
    bodyOf e (l :: ls) = l ++ (e ++ bodyOf e ls) := by
  simp [bodyOf]

theorem splitLines_single {c : Char} (hc : isEol c = true) (h : ∀ l ∈ ls, PlainLine l) :
    splitLines (bodyOf [c] ls) = ls := by
  induction ls with
  | nil => rfl
  | cons l ls ih =>
    rw [bodyOf_cons, List.singleton_append,
      splitLines_line (fun d hd => ((h l List.mem_cons_self).chars d hd).1) hc,
      ih fun l' hl' => h l' (List.mem_cons_of_mem _ hl')]

/-- The second character of a line end is an empty line. -/
theorem splitLines_crlf (h : ∀ l ∈ ls, PlainLine l) :
    splitLines (bodyOf ['\r', '\n'] ls) = ls.flatMap fun l => [l, []] := by
  induction ls with
  | nil => rfl
  | cons l ls ih =>
    rw [bodyOf_cons, List.cons_append, List.singleton_append,
      splitLines_line (fun d hd => ((h l List.mem_cons_self).chars d hd).1) rfl, splitLines,
      if_pos (show isEol '\n' = true from rfl), ih fun l' hl' => h l' (List.mem_cons_of_mem _ hl')]
    rfl

theorem bodyLines_bodyOf {e : CString} (he : ∀ c ∈ e, c ≠ '\x00') (h : ∀ l ∈ ls, PlainLine l) :
    bodyLines (bodyOf e ls) = (splitLines (bodyOf e ls)).map (·.take (bodyLineMax - 1)) := by
  have hnul : ∀ c ∈ bodyOf e ls, c ≠ '\x00' := by
    intro c hc
    obtain ⟨l, hl, hc⟩ := List.mem_flatMap.mp hc
    rcases List.mem_append.mp hc with hc | hc
    · exact ((h l hl).chars c hc).2
    · exact he c hc
  unfold bodyLines
  rw [List.takeWhile_eq_self_iff.mpr fun c hc => by simp [hnul c hc]]

theorem map_take_lines (h : ∀ l ∈ ls, PlainLine l) : ls.map (·.take (bodyLineMax - 1)) = ls := by
  have hfit : ∀ l ∈ ls, l.take (bodyLineMax - 1) = l := by
    intro l hl
    have hlen := (h l hl).fits
    exact List.take_of_length_le (by omega)
  rw [List.map_congr_left hfit, List.map_id']

theorem bodyLines_single {c : Char} (hc : isEol c = true) (hnul : c ≠ '\x00')
    (h : ∀ l ∈ ls, PlainLine l) : bodyLines (bodyOf [c] ls) = ls := by
  rw [bodyLines_bodyOf (fun d hd => List.mem_singleton.mp hd ▸ hnul) h, splitLines_single hc h,
    map_take_lines h]

theorem bodyLines_crlf (h : ∀ l ∈ ls, PlainLine l) :
    bodyLines (bodyOf ['\r', '\n'] ls) = ls.flatMap fun l => [l, []] := by
  have hends : ∀ c ∈ ['\r', '\n'], c ≠ '\x00' := by
    intro c hc
    simp only [List.mem_cons, List.not_mem_nil, or_false] at hc
    rcases hc with rfl | rfl
    · decide
    · decide
  rw [bodyLines_bodyOf hends h, splitLines_crlf h]
  apply map_take_lines
  intro l hl
  obtain ⟨l', hl', hl⟩ := List.mem_flatMap.mp hl
  simp only [List.mem_cons, List.not_mem_nil, or_false] at hl
  rcases hl with rfl | rfl
  · exact h l hl'
  · exact ⟨fun c hc => (List.not_mem_nil hc).elim, by decide⟩

theorem parseKludge_rawBody (msg : FidoMsg) (line : CString) :
    (parseKludge msg line).rawBody = msg.rawBody := by
  unfold parseKludge
  split
  · repeat' split
    all_goals rfl
  · rfl

theorem bodyLine_rawBody (msg : FidoMsg) (l : CString) :
    (bodyLine msg l).rawBody = msg.rawBody ++ l ++ ['\n'] := by
  unfold bodyLine
  dsimp only
  split
  · rw [parseKludge_rawBody]
  · rw [parseKludge_rawBody]

theorem foldl_bodyLine_rawBody (ls : List CString) (msg : FidoMsg) :
    (ls.foldl bodyLine msg).rawBody = msg.rawBody ++ unlines ls := by
  induction ls generalizing msg with
  | nil => simp [unlines]
  | cons l ls ih =>
    rw [List.foldl_cons, ih, bodyLine_rawBody]
    simp [unlines]

theorem length_doubled (ls : List CString) :
    (ls.flatMap fun l => [l, []]).length = 2 * ls.length := by
  induction ls with
  | nil => rfl
  | cons l ls ih =>
    rw [List.flatMap_cons, List.length_append, ih]
    simp only [List.length_cons, List.length_nil]
    omega

/-- `CR` and `LF` end a line alike, but each on its own: with both there is an empty line behind each
line. -/
theorem processBody_lineEnds_iff (h : ∀ l ∈ ls, PlainLine l) (msg : FidoMsg) :
    (processBody (bodyOf ['\r'] ls) [] msg = processBody (bodyOf ['\n'] ls) [] msg ∧
      processBody (bodyOf ['\r', '\n'] ls) [] msg = processBody (bodyOf ['\r'] ls) [] msg) ↔
      ls = [] := by
  rw [processBody_lines, processBody_lines, processBody_lines, bodyLines_crlf h,
    bodyLines_single rfl (by decide) h, bodyLines_single rfl (by decide) h]
  constructor
  · rintro ⟨-, heq⟩
    have hraw := congrArg FidoMsg.rawBody heq
    rw [foldl_bodyLine_rawBody, foldl_bodyLine_rawBody, List.append_cancel_left_eq] at hraw
    have hno : ∀ l ∈ ls, '\n' ∉ l := fun l hl hc =>
      absurd ((h l hl).chars _ hc).1 (by decide)
    have hno' : ∀ l ∈ ls.flatMap fun l => [l, []], '\n' ∉ l := by
      intro l hl
      obtain ⟨l', hl', hmem⟩ := List.mem_flatMap.mp hl
      simp only [List.mem_cons, List.not_mem_nil, or_false] at hmem
      rcases hmem with rfl | rfl
      · exact hno l hl'
      · exact List.not_mem_nil
    have hcount := congrArg (List.count '\n') hraw
    rw [count_unlines hno, count_unlines hno', length_doubled] at hcount
    apply List.length_eq_zero_iff.mp
    omega
  · rintro rfl
    exact ⟨rfl, rfl⟩

theorem processBody_lineEnds_hej :
    ¬ (processBody (bodyOf ['\r'] ["Hej".toList]) [] noBody =
        processBody (bodyOf ['\n'] ["Hej".toList]) [] noBody ∧
      processBody (bodyOf ['\r', '\n'] ["Hej".toList]) [] noBody =
        processBody (bodyOf ['\r'] ["Hej".toList]) [] noBody) := by
  have hplain : ∀ l ∈ ["Hej".toList], PlainLine l := by
    intro l hl
    rw [List.mem_singleton.mp hl]
    exact plainLine_of_all (by decide +kernel) (by decide +kernel)
  exact fun hall => List.cons_ne_nil _ _ ((processBody_lineEnds_iff hplain noBody).mp hall)

theorem processBody_lineEnds_crlf :
    processBody (bodyOf ['\r', '\n'] ["Hej".toList]) [] noBody ≠
      processBody (bodyOf ['\r'] ["Hej".toList]) [] noBody := by
  decide +kernel

end SklaffKom
