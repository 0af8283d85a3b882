import Mathlib.Logic.Function.Basic
import SklaffKom.Lib.Runs
import SklaffKom.Stdio

/-!
# The line input

`input` edits a line in the buffer `out_str` of its caller.  A line that is full wraps: its last word goes
to `Overflow`, with which the next call begins.  The old lines of the history are copied to the buffer.
-/

open CString Runs

namespace SklaffKom

/-! ## The buffer -/

/-- The bytes of a buffer from one index to another that are read or written. -/
abbrev Span := Int × Int

/-- The bytes of a string and its NUL. -/
def stringSpan (start : Int) (s : CString) : Span := (start, start + s.length)

/-- The last index that the caller of `input` expects to be used. -/
def lastIndex (maxLen : Int) : Int := max (maxLen - 1) 0

def Span.Within (maxLen : Int) (r : Span) : Prop :=
  ∀ i, r.1 ≤ i → i ≤ r.2 → 0 ≤ i ∧ i ≤ lastIndex maxLen

/-! ## The keys -/

/-- The arguments of `input` besides the default string, and whether a space on an empty line ends it. -/
structure InputCall where
  maxLen : Int
  wrap : Bool
  hist : Bool
  spaceEnds : Bool
deriving DecidableEq

inductive KeyAction
  | enter
  | store
  | wrap
  | backspace
  | killWord
  | killLine
  | up
  | down
  | ignore
deriving DecidableEq

/-- What is done on a key, behind the translation of arrow keys and national characters. -/
def keyAction (c : InputCall) (text : CString) (k : Char) : KeyAction :=
  if k = '\r' ∨ k = '\n' ∨ (k = ' ' ∧ text = [] ∧ c.spaceEnds) then .enter
  else if ' ' ≤ k ∧ k ≤ '~' then
    if (text.length : Int) < c.maxLen - 3 then .store else if c.wrap then .wrap else .ignore
  else if (k = '\x08' ∨ k = '\x7f') ∧ text ≠ [] then .backspace
  else if k = '\x17' ∧ text ≠ [] then .killWord
  else if (k = '\x18' ∨ k = '\x15') ∧ text ≠ [] then .killLine
  else if k = '\x10' ∧ c.hist then .up
  else if k = '\x0e' ∧ c.hist then .down
  else .ignore

/-- What a key leads to: the line goes on with an index in the history, it is done, or what stands in
front of the buffer is taken for text. -/
inductive KeyResult
  | edit (text : CString) (hptr : Nat)
  | done (out : CString) (overflow : CString)
  | lost
deriving DecidableEq

/-- The wrapping of the line that the last character has been put on. -/
def inputWrap (maxLen : Int) (line : CString) : List Span × KeyResult :=
  let len : Int := line.length
  -- the character, the NUL, and `strrchr`
  let written := [(len - 1, len), (0, len)]
  match cutLastAt ' ' line with
  | none =>
    let space := maxLen - 5
    if space < 0 then (written ++ [(space, space)], .lost)
    else
      (written ++ [(space, len), (space, space + 1)],
        .done (line.take space.toNat ++ ['+']) (line.drop space.toNat))
  | some (before, after) =>
    let space : Int := before.length
    (written ++ [(space, len), (space, space + 1)], .done (before ++ ['+']) after)

def historySize : Nat := 20

/-- A line of the history in place of the text. -/
def recallLine (h : CString) (hptr : Nat) : List Span × KeyResult := ([stringSpan 0 h], .edit h hptr)

/-- `Comstack` before and behind an index. -/
def historyUp (hptr : Nat) : Nat := if hptr = 0 then historySize - 1 else hptr - 1

def historyDown (hptr : Nat) : Nat := if historySize - 1 < hptr + 1 then 0 else hptr + 1

/-- The bytes that a key reads and writes, and what it leads to. -/
def pressKey (c : InputCall) (overflow : CString) (comstack : Nat → CString) (text : CString)
    (hptr : Nat) (k : Char) : List Span × KeyResult :=
  let len : Int := text.length
  match keyAction c text k with
  | .enter => ([(len, len)], .done text overflow)
  | .store => ([(len, len)], .edit (text ++ [k]) hptr)
  | .wrap => inputWrap c.maxLen (text ++ [k])
  | .backspace => ([], .edit text.dropLast hptr)
  | .killWord =>
    let p := trimEnd (· = ' ') text
    let rest := trimEnd (· ≠ ' ') p
    -- the blanks are passed over by looking at the byte in front of each
    (((p.length : Int) - 1, len - 1) :: [(max ((rest.length : Int) - 1) 0, (p.length : Int) - 1)],
      .edit rest hptr)
  | .killLine => ([], .edit [] hptr)
  | .up =>
    let ltop := historyUp hptr
    if comstack ltop ≠ [] then recallLine (comstack ltop) ltop else ([], .edit text hptr)
  | .down =>
    let ltop := historyDown hptr
    if comstack hptr ≠ [] then recallLine (comstack ltop) ltop else ([], .edit text hptr)
  | .ignore => ([], .edit text hptr)

/-! ## The calls -/

inductive InputMode
  | idle
  | editing (c : InputCall) (text : CString) (hptr : Nat)
  | lost

/-- `Overflow`, the history, and the call that is going on. -/
structure InputSystem where
  overflow : CString
  comstack : Nat → CString
  comtop : Nat
  mode : InputMode

inductive InputEvent
  /-- A call of `input`. -/
  | call (c : InputCall) (inStr : CString)
  | key (k : Char)
  /-- `strcpy(Overflow, "")` at the end of `cmd_say` -/
  | clear

/-- `strlen(in_str) >= max_len`, which compares unsigned numbers. -/
def defaultCut (c : InputCall) (inStr : CString) : Bool :=
  0 ≤ c.maxLen ∧ c.maxLen ≤ inStr.length

/-- The default string in the buffer. -/
def defaultText (c : InputCall) (inStr : CString) : CString :=
  if defaultCut c inStr then inStr.take (c.maxLen - 1).toNat else inStr

/-- The bytes that the copy of the default string reads and writes. -/
def defaultSpans (c : InputCall) (inStr : CString) : List Span :=
  if defaultCut c inStr then
    -- `strncpy` with -1, which is SIZE_MAX = 18446744073709551615, pads with NULs
    if c.maxLen = 0 then [(0, 18446744073709551614), (-1, -1)]
    else [(0, c.maxLen - 2), (c.maxLen - 1, c.maxLen - 1)]
  else [stringSpan 0 inStr]

/-- The overflow of the last line is put back. -/
def putsBack (c : InputCall) (inStr : CString) : Bool := c.wrap && defaultText c inStr = []

/-- The bytes that the beginning of a call reads and writes. -/
def callSpans (c : InputCall) (inStr overflow : CString) : List Span :=
  defaultSpans c inStr ++ [stringSpan 0 (defaultText c inStr)] ++
    if putsBack c inStr then [stringSpan 0 overflow] else []

/-- The history and the result when a line is done. -/
def InputSystem.finish (s : InputSystem) (c : InputCall) (out overflow : CString) : InputSystem :=
  let s := { s with overflow := overflow, mode := .idle }
  if c.hist ∧ out ≠ [] then
    let top := if historySize ≤ s.comtop then 0 else s.comtop
    let next := if historySize ≤ top + 1 then 0 else top + 1
    { s with
      comstack := Function.update (Function.update s.comstack top out) next []
      comtop := next }
  else s

def InputSystem.start (s : InputSystem) (c : InputCall) (inStr : CString) : InputSystem :=
  let text := if putsBack c inStr then s.overflow else defaultText c inStr
  { s with
    overflow := if putsBack c inStr then [] else s.overflow
    mode := if c.maxLen = 0 then .lost else .editing c text s.comtop }

def InputSystem.key (s : InputSystem) (c : InputCall) (text : CString) (hptr : Nat) (k : Char) :
    InputSystem :=
  match (pressKey c s.overflow s.comstack text hptr k).2 with
  | .edit text hptr => { s with mode := .editing c text hptr }
  | .done out overflow => s.finish c out overflow
  | .lost => { s with mode := .lost }

def inputStep (s : InputSystem) (e : InputEvent) : Option InputSystem :=
  match s.mode, e with
  | .idle, .call c inStr => some (s.start c inStr)
  | .editing c text hptr, .key k => some (s.key c text hptr k)
  | .idle, .clear => some { s with overflow := [] }
  | _, _ => some s

/-- The bytes of `out_str` that a step reads and writes are those the caller expects. -/
def StaysInside (s : InputSystem) (e : InputEvent) (_ : InputSystem) : Prop :=
  match s.mode, e with
  | .idle, .call c inStr => ∀ r ∈ callSpans c inStr s.overflow, r.Within c.maxLen
  | .editing c text hptr, .key k =>
    ∀ r ∈ (pressKey c s.overflow s.comstack text hptr k).1, r.Within c.maxLen
  | _, _ => True

/-! ## The condition -/

/-- The string fits the buffer. -/
def FitsInput (maxLen : Int) (s : CString) : Prop := (s.length : Int) ≤ lastIndex maxLen

/-- The size is not zero, and a negative one comes with an empty default; the overflow that is put back
fits. -/
def SafeCall (c : InputCall) (inStr overflow : CString) : Prop :=
  c.maxLen ≠ 0 ∧ (c.maxLen < 0 → inStr = []) ∧ (putsBack c inStr = true → FitsInput c.maxLen overflow)

/-- A line that wraps has two free bytes, and a blank unless the last four bytes of a word can be moved;
the kill of a word finds one; a line of the history fits. -/
def SafeKey (c : InputCall) (comstack : Nat → CString) (text : CString) (hptr : Nat) (k : Char) : Prop :=
  match keyAction c text k with
  | .wrap => text.length + 2 ≤ c.maxLen ∧ (' ' ∈ text ++ [k] ∨ 5 ≤ c.maxLen)
  | .killWord => ∃ d ∈ text, d ≠ ' '
  | .up => comstack (historyUp hptr) ≠ [] → FitsInput c.maxLen (comstack (historyUp hptr))
  | .down => comstack hptr ≠ [] → FitsInput c.maxLen (comstack (historyDown hptr))
  | _ => True

def SafeInput (s : InputSystem) (e : InputEvent) : Prop :=
  match s.mode, e with
  | .idle, .call c inStr => SafeCall c inStr s.overflow
  | .editing c text hptr, .key k => SafeKey c s.comstack text hptr k
  | _, _ => True

/-! ## Spans -/

variable {maxLen : Int} {c : InputCall} {text inStr overflow : CString} {hptr : Nat} {k : Char}
  {comstack : Nat → CString}

theorem within_iff {a b : Int} (h : a ≤ b) : Span.Within maxLen (a, b) ↔ 0 ≤ a ∧ b ≤ lastIndex maxLen := by
  constructor
  · intro hall
    exact ⟨(hall a (Int.le_refl _) h).1, (hall b h (Int.le_refl _)).2⟩
  · rintro ⟨ha, hb⟩ i hai hib
    dsimp only at hai hib
    exact ⟨by omega, by omega⟩

theorem within_string {s : CString} : (stringSpan 0 s).Within maxLen ↔ FitsInput maxLen s := by
  unfold stringSpan FitsInput
  rw [within_iff (by omega)]
  omega

theorem within_empty {a b : Int} (h : b < a) : Span.Within maxLen (a, b) := by
  intro i hai hib
  dsimp only at hai hib
  omega

/-! ## A call -/

/-- The default string fits exactly when the size is not zero, and none comes with a negative size. -/
theorem defaultSpans_within : (∀ r ∈ defaultSpans c inStr, r.Within c.maxLen) ↔
    c.maxLen ≠ 0 ∧ (c.maxLen < 0 → inStr = []) := by
  unfold defaultSpans
  by_cases hcut : defaultCut c inStr = true
  · have hle : 0 ≤ c.maxLen ∧ c.maxLen ≤ inStr.length := by simpa [defaultCut] using hcut
    rw [if_pos hcut]
    by_cases hzero : c.maxLen = 0
    · rw [if_pos hzero]
      refine iff_of_false (fun h => ?_) fun h => h.1 hzero
      have hneg := h (-1, -1) (by simp)
      rw [within_iff (Int.le_refl _)] at hneg
      omega
    · rw [if_neg hzero]
      refine iff_of_true ?_ ⟨hzero, fun h => by omega⟩
      rw [List.forall_mem_cons, List.forall_mem_singleton]
      constructor
      · by_cases hone : c.maxLen = 1
        · exact within_empty (by omega)
        · rw [within_iff (by omega), lastIndex]
          omega
      · rw [within_iff (Int.le_refl _), lastIndex]
        omega
  · have hlt : ¬ (0 ≤ c.maxLen ∧ c.maxLen ≤ inStr.length) := by simpa [defaultCut] using hcut
    rw [if_neg hcut, List.forall_mem_singleton, within_string, FitsInput, lastIndex,
      ← List.length_eq_zero_iff]
    omega

/-- The default text fits as well. -/
theorem fitsInput_defaultText (h : c.maxLen ≠ 0 ∧ (c.maxLen < 0 → inStr = [])) :
    FitsInput c.maxLen (defaultText c inStr) := by
  unfold defaultText FitsInput lastIndex
  by_cases hcut : defaultCut c inStr = true
  · have hle : 0 ≤ c.maxLen ∧ c.maxLen ≤ inStr.length := by simpa [defaultCut] using hcut
    rw [if_pos hcut, List.length_take]
    omega
  · have hlt : ¬ (0 ≤ c.maxLen ∧ c.maxLen ≤ inStr.length) := by simpa [defaultCut] using hcut
    rw [if_neg hcut]
    have hneg := h.2
    rw [← List.length_eq_zero_iff] at hneg
    omega

theorem callSpans_within :
    (∀ r ∈ callSpans c inStr overflow, r.Within c.maxLen) ↔ SafeCall c inStr overflow := by
  unfold callSpans SafeCall
  simp only [List.forall_mem_append, List.forall_mem_singleton, defaultSpans_within, within_string]
  have hback : (∀ r ∈ (if putsBack c inStr then [stringSpan 0 overflow] else []), r.Within c.maxLen) ↔
      (putsBack c inStr = true → FitsInput c.maxLen overflow) := by
    by_cases hputs : putsBack c inStr = true
    · rw [if_pos hputs, List.forall_mem_singleton, within_string]
      exact ⟨fun h _ => h, fun h => h hputs⟩
    · rw [if_neg hputs]
      exact iff_of_true (fun _ h => absurd h List.not_mem_nil) fun h => absurd h hputs
  rw [hback]
  constructor
  · rintro ⟨⟨hdefault, -⟩, hover⟩
    exact ⟨hdefault.1, hdefault.2, hover⟩
  · rintro ⟨hzero, hneg, hover⟩
    exact ⟨⟨⟨hzero, hneg⟩, fitsInput_defaultText ⟨hzero, hneg⟩⟩, hover⟩

/-! ## A key -/

/-- What the action on a key says about the text. -/
theorem keyAction_text {a : KeyAction} (h : keyAction c text k = a) :
    (a = .store → (text.length : Int) < c.maxLen - 3) ∧
      (a = .wrap → c.maxLen - 3 ≤ (text.length : Int)) ∧ (a = .killWord → text ≠ []) := by
  have hother (b : KeyAction) (hb : b ≠ .store ∧ b ≠ .wrap ∧ b ≠ .killWord) :
      (b = .store → (text.length : Int) < c.maxLen - 3) ∧
        (b = .wrap → c.maxLen - 3 ≤ (text.length : Int)) ∧ (b = .killWord → text ≠ []) :=
    ⟨fun h => absurd h hb.1, fun h => absurd h hb.2.1, fun h => absurd h hb.2.2⟩
  subst h
  unfold keyAction
  split
  · exact hother _ (by decide)
  split
  · split
    next hlt => exact ⟨fun _ => hlt, (fun h => by cases h), (fun h => by cases h)⟩
    next hle =>
      split
      · exact ⟨(fun h => by cases h), fun _ => by omega, (fun h => by cases h)⟩
      · exact hother _ (by decide)
  split
  · exact hother _ (by decide)
  split
  next hkill => exact ⟨(fun h => by cases h), (fun h => by cases h), fun _ => hkill.2⟩
  split
  · exact hother _ (by decide)
  split
  · exact hother _ (by decide)
  split
  · exact hother _ (by decide)
  · exact hother _ (by decide)

/-- The history is there only for the calls that ask for it. -/
theorem keyAction_hist (h : keyAction c text k = .up ∨ keyAction c text k = .down) : c.hist = true := by
  unfold keyAction at h
  split at h
  · rcases h with h | h <;> cases h
  split at h
  · split at h
    · rcases h with h | h <;> cases h
    · split at h <;> rcases h with h | h <;> cases h
  split at h
  · rcases h with h | h <;> cases h
  split at h
  · rcases h with h | h <;> cases h
  split at h
  · rcases h with h | h <;> cases h
  split at h
  next hup => exact hup.2
  split at h
  next hdown => exact hdown.2
  next => rcases h with h | h <;> cases h

/-- The wrapping of a line stays in the buffer exactly when there are two free bytes, and a blank or the
last word is moved from inside the buffer. -/
theorem inputWrap_within (hfull : maxLen - 3 ≤ (text.length : Int)) :
    (∀ r ∈ (inputWrap maxLen (text ++ [k])).1, r.Within maxLen) ↔
      text.length + 2 ≤ maxLen ∧ (' ' ∈ text ++ [k] ∨ 5 ≤ maxLen) := by
  have hlen : ((text ++ [k]).length : Int) = text.length + 1 := by simp
  have hwritten : (∀ r ∈ [((text.length : Int) + 1 - 1, (text.length : Int) + 1),
      (0, (text.length : Int) + 1)], Span.Within maxLen r) ↔ text.length + 2 ≤ maxLen := by
    rw [List.forall_mem_cons, List.forall_mem_singleton, within_iff (by omega), within_iff (by omega),
      lastIndex]
    omega
  unfold inputWrap
  rw [hlen]
  by_cases hblank : ' ' ∈ text ++ [k]
  · obtain ⟨before, after, hsplit, hafter⟩ := exists_last hblank
    have hbefore : before.length ≤ text.length := by
      have hcount := congrArg List.length hsplit
      simp only [List.length_append, List.length_cons, List.length_nil] at hcount
      omega
    rw [hsplit, cutLastAt_append hafter]
    dsimp only
    rw [List.forall_mem_append, hwritten, List.forall_mem_cons, List.forall_mem_singleton,
      within_iff (by omega), within_iff (by omega), lastIndex]
    simp only [List.mem_append, List.mem_cons, true_or, or_true, and_true]
    omega
  · rw [cutLastAt_none hblank]
    dsimp only
    split
    next hneg =>
      rw [List.forall_mem_append, List.forall_mem_singleton, within_iff (Int.le_refl _)]
      simp only [hblank, false_or]
      omega
    next hpos =>
      rw [List.forall_mem_append, hwritten, List.forall_mem_cons, List.forall_mem_singleton,
        within_iff (by omega), within_iff (by omega), lastIndex]
      simp only [hblank, false_or]
      omega

/-- The kill of a word looks at the byte in front of the buffer exactly when the text is blank. -/
theorem killWord_within (hfits : FitsInput maxLen text) (hne : text ≠ []) :
    (∀ r ∈ [(((trimEnd (· = ' ') text).length : Int) - 1, (text.length : Int) - 1),
        (max (((trimEnd (· ≠ ' ') (trimEnd (· = ' ') text)).length : Int) - 1) 0,
          ((trimEnd (· = ' ') text).length : Int) - 1)], Span.Within maxLen r) ↔
      ∃ d ∈ text, d ≠ ' ' := by
  have hpos := List.length_pos_iff.mpr hne
  have hle := trimEnd_length_le (· = ' ') text
  have hrest := trimEnd_length_le (· ≠ ' ') (trimEnd (· = ' ') text)
  have hnil : trimEnd (· = ' ') text = [] ↔ ¬ ∃ d ∈ text, d ≠ ' ' := by
    rw [trimEnd, List.reverse_eq_nil_iff, List.dropWhile_eq_nil_iff]
    simp
  unfold FitsInput at hfits
  rw [List.forall_mem_cons, List.forall_mem_singleton, within_iff (by omega)]
  by_cases htrim : trimEnd (· = ' ') text = []
  · have hno := hnil.mp htrim
    rw [htrim, List.length_nil]
    exact iff_of_false (fun h => by omega) hno
  · have hsome := not_not.mp (mt hnil.mpr htrim)
    have hpos' := List.length_pos_iff.mpr htrim
    refine iff_of_true ⟨⟨by omega, by omega⟩, ?_⟩ hsome
    rw [within_iff (by omega)]
    omega

theorem recall_within {h : CString} {hptr : Nat} :
    (∀ r ∈ (recallLine h hptr).1, r.Within maxLen) ↔ FitsInput maxLen h := by
  rw [recallLine, List.forall_mem_singleton, within_string]

/-- A key stays in the buffer exactly when it is safe. -/
theorem pressKey_within (hfits : FitsInput c.maxLen text) :
    (∀ r ∈ (pressKey c overflow comstack text hptr k).1, r.Within c.maxLen) ↔
      SafeKey c comstack text hptr k := by
  have hone : Span.Within c.maxLen ((text.length : Int), (text.length : Int)) := by
    rw [within_iff (Int.le_refl _)]
    unfold FitsInput at hfits
    omega
  have hempty : (∀ r ∈ ([] : List Span), r.Within c.maxLen) := fun _ h => absurd h List.not_mem_nil
  unfold pressKey SafeKey
  cases hact : keyAction c text k with
  | enter => exact iff_of_true (List.forall_mem_singleton.mpr hone) trivial
  | store => exact iff_of_true (List.forall_mem_singleton.mpr hone) trivial
  | wrap => exact inputWrap_within ((keyAction_text hact).2.1 rfl)
  | backspace => exact iff_of_true hempty trivial
  | killWord => exact killWord_within hfits ((keyAction_text hact).2.2 rfl)
  | killLine => exact iff_of_true hempty trivial
  | up =>
    dsimp only
    by_cases hline : comstack (historyUp hptr) ≠ []
    · rw [if_pos hline, recall_within]
      exact ⟨fun h _ => h, fun h => h hline⟩
    · rw [if_neg hline]
      exact iff_of_true hempty fun h => absurd h hline
  | down =>
    dsimp only
    by_cases hline : comstack hptr ≠ []
    · rw [if_pos hline, recall_within]
      exact ⟨fun h _ => h, fun h => h hline⟩
    · rw [if_neg hline]
      exact iff_of_true hempty fun h => absurd h hline
  | ignore => exact iff_of_true hempty trivial

/-! ## All calls -/

/-- The text of a call that goes on fits the buffer. -/
def InputFits (s : InputSystem) : Prop :=
  ∀ c text hptr, s.mode = .editing c text hptr → FitsInput c.maxLen text

theorem FitsInput.of_length_le {s t : CString} (h : FitsInput maxLen t) (hle : s.length ≤ t.length) :
    FitsInput maxLen s := by
  unfold FitsInput at *
  omega

theorem start_fits {s : InputSystem} (h : SafeCall c inStr s.overflow) :
    FitsInput c.maxLen (if putsBack c inStr then s.overflow else defaultText c inStr) := by
  split
  next hputs => exact h.2.2 hputs
  next => exact fitsInput_defaultText ⟨h.1, h.2.1⟩

/-- What a safe key leaves in the buffer fits. -/
theorem pressKey_fits (hfits : FitsInput c.maxLen text) (hsafe : SafeKey c comstack text hptr k)
    {text' : CString} {hptr' : Nat}
    (h : (pressKey c overflow comstack text hptr k).2 = .edit text' hptr') : FitsInput c.maxLen text' := by
  unfold pressKey at h
  unfold SafeKey at hsafe
  cases hact : keyAction c text k with
  | enter => rw [hact] at h; cases h
  | store =>
    rw [hact] at h
    cases h
    have hlt := (keyAction_text hact).1 rfl
    unfold FitsInput lastIndex
    rw [List.length_append, List.length_singleton]
    omega
  | wrap =>
    rw [hact] at h
    unfold inputWrap at h
    dsimp only at h
    split at h
    · split at h <;> cases h
    · cases h
  | backspace =>
    rw [hact] at h
    cases h
    exact hfits.of_length_le (List.dropLast_sublist text).length_le
  | killWord =>
    rw [hact] at h
    cases h
    exact hfits.of_length_le ((trimEnd_length_le _ _).trans (trimEnd_length_le _ _))
  | killLine =>
    rw [hact] at h
    cases h
    exact hfits.of_length_le (Nat.zero_le _)
  | up =>
    rw [hact] at h hsafe
    dsimp only at h hsafe
    split at h
    next hline =>
      cases h
      exact hsafe hline
    next =>
      cases h
      exact hfits
  | down =>
    rw [hact] at h hsafe
    dsimp only at h hsafe
    split at h
    next hline =>
      cases h
      exact hsafe hline
    next =>
      cases h
      exact hfits
  | ignore =>
    rw [hact] at h
    cases h
    exact hfits

theorem finish_mode (s : InputSystem) (c : InputCall) (out overflow : CString) :
    (s.finish c out overflow).mode = .idle := by
  unfold InputSystem.finish
  dsimp only
  split <;> rfl

/-- A step stays in the buffer exactly when it is safe, and then what is in the buffer fits. -/
theorem input_step {s : InputSystem} (e : InputEvent) (hs : InputFits s) :
    ∃ s', inputStep s e = some s' ∧ (StaysInside s e s' ↔ SafeInput s e) ∧
      (SafeInput s e → InputFits s') := by
  unfold inputStep StaysInside SafeInput
  cases hmode : s.mode with
  | idle =>
    cases e with
    | call c inStr =>
      refine ⟨_, rfl, callSpans_within, fun hsafe c' text hptr hedit => ?_⟩
      unfold InputSystem.start at hedit
      dsimp only at hedit
      rw [if_neg hsafe.1] at hedit
      cases hedit
      exact start_fits hsafe
    | key k => exact ⟨s, rfl, Iff.rfl, fun _ => hs⟩
    | clear =>
      refine ⟨_, rfl, Iff.rfl, fun _ c text hptr hedit => ?_⟩
      cases hedit
  | editing c text hptr =>
    have hfits := hs c text hptr hmode
    cases e with
    | call c' inStr => exact ⟨s, rfl, Iff.rfl, fun _ => hs⟩
    | key k =>
      refine ⟨_, rfl, pressKey_within hfits, fun hsafe c' text' hptr' hedit => ?_⟩
      unfold InputSystem.key at hedit
      split at hedit
      next text₁ hptr₁ hkey =>
        cases hedit
        exact pressKey_fits hfits hsafe hkey
      next out carried _ =>
        rw [finish_mode] at hedit
        cases hedit
      next => cases hedit
    | clear => exact ⟨s, rfl, Iff.rfl, fun _ => hs⟩
  | lost =>
    cases e with
    | call c' inStr => exact ⟨s, rfl, Iff.rfl, fun _ => hs⟩
    | key k => exact ⟨s, rfl, Iff.rfl, fun _ => hs⟩
    | clear => exact ⟨s, rfl, Iff.rfl, fun _ => hs⟩

def betweenCalls (overflow : CString) (comstack : Nat → CString) (comtop : Nat) : InputSystem :=
  ⟨overflow, comstack, comtop, .idle⟩

/-- In every run of calls and keys, from any history and any overflow, every byte of the buffers that is
read or written lies below their sizes exactly when every call and every key is safe. -/
theorem input_staysInside_iff (overflow : CString) (comstack : Nat → CString) (comtop : Nat)
    (es : List InputEvent) :
    AllSteps inputStep StaysInside (betweenCalls overflow comstack comtop) es ↔
      AllPre inputStep SafeInput (betweenCalls overflow comstack comtop) es := by
  refine allSteps_iff_allPre (I := InputFits) (fun s e h => input_step e h) ?_ es
  intro c text hptr hedit
  cases hedit

/-- The call of `cmd_say` for the user's name. -/
def sayCall (name : CString) (spaceEnds : Bool) : InputCall := ⟨77 - name.length, true, false, spaceEnds⟩

/-- The kill of a word after a single blank looks at the byte in front of the buffer, and for a name of 77
bytes `cmd_say` calls `input` with the size 0. -/
theorem input_leavesBuffer :
    ¬ AllSteps inputStep StaysInside (betweenCalls [] (fun _ => []) 0)
        [.call (sayCall "Bo".toList false) [], .key ' ', .key '\x17'] ∧
    ¬ AllSteps inputStep StaysInside (betweenCalls [] (fun _ => []) 0)
        [.call (sayCall (List.replicate 77 'x') false) []] := by
  constructor
  · rintro ⟨_, hcall, -, _, hblank, -, _, -, hkill, -⟩
    cases hcall
    cases hblank
    have hspan := hkill (-1, 0) (by decide)
    exact absurd (hspan (-1) (Int.le_refl _) (by decide)).1 (by decide)
  · rintro ⟨_, -, hinside, -⟩
    have hspan := hinside (-1, -1) (by decide)
    exact absurd (hspan (-1) (Int.le_refl _) (Int.le_refl _)).1 (by decide)

/-! ## `cmd_say` -/

/-- What `cmd_say` does: calls without a default, and no kill of a word on a blank line. -/
def SayEvent (name : CString) (s : InputSystem) : InputEvent → Prop
  | .call c inStr => (∃ spaceEnds, c = sayCall name spaceEnds) ∧ inStr = []
  | .key k => ∀ c text hptr, s.mode = .editing c text hptr → keyAction c text k = .killWord →
      ∃ d ∈ text, d ≠ ' '
  | .clear => True

/-- The line and the overflow leave three bytes free. -/
structure SayFits (name : CString) (s : InputSystem) : Prop where
  overflow : (s.overflow.length : Int) ≤ 74 - name.length
  editing : ∀ c text hptr, s.mode = .editing c text hptr →
    (∃ spaceEnds, c = sayCall name spaceEnds) ∧ (text.length : Int) ≤ 74 - name.length

/-- The overflow of a wrapped line is shorter than the line. -/
theorem inputWrap_overflow {line out carried : CString} (hlen : (line.length : Int) ≤ maxLen - 2)
    (hmax : 6 ≤ maxLen) (h : (inputWrap maxLen line).2 = .done out carried) :
    (carried.length : Int) ≤ maxLen - 3 := by
  unfold inputWrap at h
  dsimp only at h
  by_cases hblank : ' ' ∈ line
  · obtain ⟨before, after, rfl, hafter⟩ := exists_last hblank
    rw [cutLastAt_append hafter] at h
    cases h
    rw [List.length_append, List.length_cons] at hlen
    omega
  · rw [cutLastAt_none hblank] at h
    dsimp only at h
    rw [if_neg (by omega)] at h
    cases h
    rw [List.length_drop]
    omega

variable {name : CString} {spaceEnds : Bool}

/-- No key takes more than the three bytes. -/
theorem pressKey_say (spaceEnds : Bool) (comstack : Nat → CString) (hptr : Nat) (k : Char)
    (hname : name.length ≤ 71) (htext : (text.length : Int) ≤ 74 - name.length)
    (hover : (overflow.length : Int) ≤ 74 - name.length) :
    match (pressKey (sayCall name spaceEnds) overflow comstack text hptr k).2 with
    | .edit text' _ => (text'.length : Int) ≤ 74 - name.length
    | .done _ carried => (carried.length : Int) ≤ 74 - name.length
    | .lost => True := by
  have hshorter (t : CString) (h : t.length ≤ text.length) : (t.length : Int) ≤ 74 - name.length := by
    omega
  unfold pressKey
  cases hact : keyAction (sayCall name spaceEnds) text k with
  | enter => exact hover
  | store =>
    have hlt : (text.length : Int) < 77 - name.length - 3 := (keyAction_text hact).1 rfl
    show ((text ++ [k]).length : Int) ≤ 74 - name.length
    rw [List.length_append, List.length_singleton]
    omega
  | wrap =>
    dsimp only
    split
    next h =>
      unfold inputWrap at h
      dsimp only at h
      split at h
      · split at h <;> cases h
      · cases h
    next h =>
      have hlen : ((text ++ [k]).length : Int) ≤ 77 - name.length - 2 := by
        rw [List.length_append, List.length_singleton]
        omega
      have hover := inputWrap_overflow hlen (by omega) h
      omega
    next => trivial
  | backspace => exact hshorter _ (List.dropLast_sublist text).length_le
  | killWord => exact hshorter _ ((trimEnd_length_le _ _).trans (trimEnd_length_le _ _))
  | killLine => exact hshorter _ (Nat.zero_le _)
  | up => cases keyAction_hist (Or.inl hact)
  | down => cases keyAction_hist (Or.inr hact)
  | ignore => exact htext

theorem finish_overflow (s : InputSystem) (c : InputCall) (out overflow : CString) :
    (s.finish c out overflow).overflow = overflow := by
  unfold InputSystem.finish
  dsimp only
  split <;> rfl

theorem say_step (hname : name.length ≤ 71) {s : InputSystem} (e : InputEvent) (hs : SayFits name s)
    (he : SayEvent name s e) :
    ∃ s', inputStep s e = some s' ∧ SayFits name s' ∧ StaysInside s e s' := by
  have hover := hs.overflow
  unfold inputStep StaysInside
  cases hmode : s.mode with
  | idle =>
    cases e with
    | call c inStr =>
      obtain ⟨⟨spaceEnds, rfl⟩, rfl⟩ := he
      have hmax : (sayCall name spaceEnds).maxLen = 77 - name.length := rfl
      have hputs : putsBack (sayCall name spaceEnds) [] = true := by
        unfold putsBack defaultText
        split <;> simp [sayCall]
      refine ⟨_, rfl, ⟨?_, fun c text hptr hedit => ?_⟩, callSpans_within.mpr ⟨?_, fun _ => rfl, ?_⟩⟩
      · show ((if putsBack (sayCall name spaceEnds) [] then [] else s.overflow).length : Int) ≤ _
        rw [if_pos hputs, List.length_nil]
        omega
      · unfold InputSystem.start at hedit
        dsimp only at hedit
        rw [if_neg (by omega), if_pos hputs] at hedit
        cases hedit
        exact ⟨⟨spaceEnds, rfl⟩, hover⟩
      · omega
      · intro _
        unfold FitsInput lastIndex
        omega
    | key k => exact ⟨s, rfl, hs, trivial⟩
    | clear =>
      refine ⟨_, rfl, ⟨?_, fun c text hptr hedit => by cases hedit⟩, trivial⟩
      show (0 : Int) ≤ _
      omega
  | editing c text hptr =>
    cases e with
    | call c' inStr => exact ⟨s, rfl, hs, trivial⟩
    | key k =>
      obtain ⟨⟨spaceEnds, rfl⟩, htext⟩ := hs.editing c text hptr hmode
      have hmax : (sayCall name spaceEnds).maxLen = 77 - name.length := rfl
      have hafter := pressKey_say spaceEnds s.comstack hptr k hname htext hover
      refine ⟨_, rfl, ?_, (pressKey_within ?_).mpr ?_⟩
      · unfold InputSystem.key
        split
        next text' hptr' hkey =>
          rw [hkey] at hafter
          refine ⟨hover, fun c text hptr hedit => ?_⟩
          cases hedit
          exact ⟨⟨spaceEnds, rfl⟩, hafter⟩
        next out carried hkey =>
          rw [hkey] at hafter
          refine ⟨?_, fun c text hptr hedit => ?_⟩
          · rw [finish_overflow]
            exact hafter
          · rw [finish_mode] at hedit
            cases hedit
        next => exact ⟨hover, fun c text hptr hedit => by cases hedit⟩
      · unfold FitsInput lastIndex
        omega
      · unfold SafeKey
        cases hact : keyAction (sayCall name spaceEnds) text k with
        | wrap => exact ⟨by omega, Or.inr (by omega)⟩
        | killWord => exact he _ text hptr hmode hact
        | up => cases keyAction_hist (Or.inl hact)
        | down => cases keyAction_hist (Or.inr hact)
        | enter => trivial
        | store => trivial
        | backspace => trivial
        | killLine => trivial
        | ignore => trivial
    | clear => exact ⟨s, rfl, hs, trivial⟩
  | lost =>
    cases e with
    | call c' inStr => exact ⟨s, rfl, hs, trivial⟩
    | key k => exact ⟨s, rfl, hs, trivial⟩
    | clear => exact ⟨s, rfl, hs, trivial⟩

/-- For a name of at most 71 bytes `cmd_say` stays in its buffer, whatever is typed and carried over, as
long as no word is killed on a blank line. -/
theorem cmdSay_staysInside (hname : name.length ≤ 71) (comstack : Nat → CString) (comtop : Nat)
    {es : List InputEvent}
    (h : AllPre inputStep (SayEvent name) (betweenCalls [] comstack comtop) es) :
    AllSteps inputStep StaysInside (betweenCalls [] comstack comtop) es := by
  refine h.allSteps (I := SayFits name) (fun s e hs he => say_step hname e hs he) ⟨?_, ?_⟩
  · show (0 : Int) ≤ _
    omega
  · intro c text hptr hedit
    cases hedit

end SklaffKom
