import SklaffKom.ResumedEdit

/-!
# The text that the editor saves

`line_ed` counts the lines in `numlines` wherever it puts a line into its list or takes one out, and
`numlines` becomes the size in the header.  Lines are cut or wrapped below the length of a `LINE`.
-/

open CString Runs

namespace SklaffKom

/-- A key typed at `input` without word wrap and history. -/
def inputKey (maxLen : Nat) (line : CString) (c : Char) : CString :=
  if ' ' ≤ c ∧ c ≤ '~' then if line.length < maxLen - 3 then line ++ [c] else line
  else if c = '\x08' ∨ c = '\x7f' then line.dropLast
  else if c = '\x17' then trimEnd (· ≠ ' ') (trimEnd (· = ' ') line)
  else if c = '\x18' ∨ c = '\x15' then []
  else line

/-- `input` on the keys before the return key. -/
def inputLine (maxLen : Nat) (inStr keys : CString) : CString :=
  keys.foldl (inputKey maxLen) (if maxLen ≤ inStr.length then inStr.take (maxLen - 1) else inStr)

/-- What a line of the buffer is: at most 78 characters without a newline. -/
def FitsLine (l : CString) : Prop := l.length ≤ 78 ∧ '\n' ∉ l

/-- What commands get from elsewhere: lines of `input`, and a commented text of lines. -/
structure Outside.Fits (o : Outside) : Prop where
  input : ∀ old, ∃ keys, o.input old = inputLine 77 old keys
  commented : ∀ te, o.commented = some te → ∀ l ∈ te.body, '\n' ∉ l

structure LinesFit (s : EdState) : Prop where
  before : ∀ l ∈ s.before, FitsLine l
  line : FitsLine s.line
  waste : FitsLine s.waste

/-- The key goes to `save`: the end of the text, or a command that saves it. -/
def savesText (w : EdWords) (a : EdArgs) (s : EdState) (c : Char) : Bool :=
  !s.ended &&
    match endsLine s c with
    | none => c = '\x1a' || c = '\x04'
    | some s' => s'.line.head? = some '!' && (splitCommand s'.line).1.length > 1 &&
        edCommand w a (splitCommand s'.line).1 = .save

/-- The lines in the buffer: the current one counts if it is not empty and no command. -/
def bufferLines (s : EdState) (c : Char) : List CString :=
  s.before ++ if endsLine s c = none ∧ s.line ≠ [] then [s.line] else []

/-! ## Lines -/

section Lines

variable {l l' : CString} {c : Char}

theorem fitsLine_nil : FitsLine [] := ⟨Nat.zero_le 78, List.not_mem_nil⟩

/-- Leaving out characters does no harm. -/
theorem FitsLine.sublist (h : FitsLine l) (hsub : l'.Sublist l) : FitsLine l' :=
  ⟨hsub.length_le.trans h.1, fun hn => h.2 (hsub.subset hn)⟩

theorem fitsLine_append (h : '\n' ∉ l) (h' : '\n' ∉ l') (hlen : l.length + l'.length ≤ 78) :
    FitsLine (l ++ l') := by
  refine ⟨by rw [List.length_append]; exact hlen, fun hn => ?_⟩
  rcases List.mem_append.mp hn with hn | hn
  · exact h hn
  · exact h' hn

theorem printable_ne_newline (h : ' ' ≤ c ∧ c ≤ '~') : '\n' ∉ [c] := by
  intro hn
  rw [← List.mem_singleton.mp hn] at h
  exact absurd h.1 (by decide)

theorem inputKey_fits {maxLen : Nat} (h : l.length ≤ maxLen - 1 ∧ '\n' ∉ l) (c : Char) :
    (inputKey maxLen l c).length ≤ maxLen - 1 ∧ '\n' ∉ inputKey maxLen l c := by
  have hkeep : ∀ l' : CString, l'.Sublist l → l'.length ≤ maxLen - 1 ∧ '\n' ∉ l' := fun l' hsub =>
    ⟨hsub.length_le.trans h.1, fun hn => h.2 (hsub.subset hn)⟩
  unfold inputKey
  split
  · rename_i hc
    split
    · rename_i hshort
      refine ⟨?_, fun hn => ?_⟩
      · rw [List.length_append, List.length_singleton]
        omega
      · rcases List.mem_append.mp hn with hn | hn
        · exact h.2 hn
        · exact printable_ne_newline hc hn
    · exact h
  split
  · exact hkeep _ (List.dropLast_sublist l)
  split
  · exact hkeep _ ((trimEnd_sublist _ _).trans (trimEnd_sublist _ l))
  split
  · exact hkeep [] (List.nil_sublist l)
  · exact h

/-- `input` gives less than `max_len` characters. -/
theorem inputLine_fits {maxLen : Nat} (hpos : 0 < maxLen) {inStr : CString} (h : '\n' ∉ inStr)
    (keys : CString) :
    (inputLine maxLen inStr keys).length ≤ maxLen - 1 ∧ '\n' ∉ inputLine maxLen inStr keys := by
  have hstart : (if maxLen ≤ inStr.length then inStr.take (maxLen - 1) else inStr).length ≤
      maxLen - 1 ∧ '\n' ∉ if maxLen ≤ inStr.length then inStr.take (maxLen - 1) else inStr := by
    split
    · exact ⟨List.length_take_le _ _, fun hn => h (List.mem_of_mem_take hn)⟩
    · exact ⟨by omega, h⟩
  rw [inputLine]
  generalize (if maxLen ≤ inStr.length then inStr.take (maxLen - 1) else inStr) = line at hstart ⊢
  induction keys generalizing line with
  | nil => exact hstart
  | cons c keys ih => exact ih _ (inputKey_fits hstart c)

theorem Outside.Fits.line {o : Outside} (h : o.Fits) (hl : FitsLine l) : FitsLine (o.input l) := by
  obtain ⟨keys, hkeys⟩ := h.input l
  rw [hkeys]
  obtain ⟨hlen, hn⟩ := inputLine_fits (show 0 < 77 by decide) hl.2 keys
  exact ⟨by omega, hn⟩

end Lines

/-! ## Every key -/

section Keys

variable {w : EdWords} {a : EdArgs} {o : Outside} {s : EdState}

theorem LinesFit.append (h : LinesFit s) {l line waste : CString} (hl : FitsLine l)
    (hline : FitsLine line) (hwaste : FitsLine waste) (numlines size : Int) :
    LinesFit { s with before := s.before ++ [l], line := line, waste := waste,
                      numlines := numlines, size := size } where
  before l' hl' := by
    rcases List.mem_append.mp hl' with hl' | hl'
    · exact h.before l' hl'
    · rw [List.mem_singleton.mp hl']
      exact hl
  line := hline
  waste := hwaste

theorem quoteLine_fits {text : CString} (h : '\n' ∉ text) :
    FitsLine ('>' :: ' ' :: text.take quoteTextWidth) := by
  have hlen : (text.take quoteTextWidth).length ≤ 71 := List.length_take_le _ _
  apply fitsLine_append (l := ['>', ' ']) (by decide)
  · exact fun hn => h (List.mem_of_mem_take hn)
  · rw [List.length_cons, List.length_singleton]
    omega

theorem appendQuoteLine_fits (h : LinesFit s) {text : CString} (htext : '\n' ∉ text) :
    LinesFit (appendQuoteLine text s) :=
  h.append (quoteLine_fits htext) fitsLine_nil h.waste _ _

/-- The two lines of an orphan are parts of lines. -/
theorem orphan_fits (h : LinesFit s) {start previous tail : CString} (hstart : '\n' ∉ start)
    (ho : orphan start s = some (previous, tail)) : FitsLine previous ∧ '\n' ∉ tail := by
  unfold orphan at ho
  split at ho
  · cases ho
  rename_i line hline
  have hfit : FitsLine line := h.before line (List.mem_of_getLast? hline)
  split at ho
  · cases ho
  rename_i rest word hsplit
  have hbody := splitLast_some hsplit
  have hparts : rest.Sublist (line.drop 2) ∧ word.Sublist (line.drop 2) := by
    rw [hbody]
    exact ⟨List.sublist_append_left _ _,
      (List.sublist_cons_self ' ' word).trans (List.sublist_append_right _ _)⟩
  split at ho
  · rw [Option.some.injEq, Prod.mk.injEq] at ho
    rw [← ho.1, ← ho.2]
    constructor
    · apply hfit.sublist
      have hjoin := (List.Sublist.refl (line.take 2)).append
        ((trimEnd_sublist (· = ' ') rest).trans hparts.1)
      rwa [List.take_append_drop] at hjoin
    · intro hn
      rcases List.mem_append.mp hn with hn | hn
      · exact hfit.2 (List.mem_of_mem_drop (hparts.2.subset hn))
      · rcases List.mem_cons.mp hn with hn | hn
        · cases hn
        · exact hstart hn
  · cases ho

theorem addQuoteSourceLine_fits {paragraph line : CString} (hp : '\n' ∉ paragraph)
    (hl : '\n' ∉ line) : '\n' ∉ addQuoteSourceLine paragraph line := by
  unfold addQuoteSourceLine
  split
  · exact hl
  · intro hn
    rcases List.mem_append.mp hn with hn | hn
    · exact hp hn
    · rcases List.mem_cons.mp hn with hn | hn
      · cases hn
      · exact hl hn

theorem quoteInvariant_fits : QuoteInvariant LinesFit fun text => '\n' ∉ text where
  line h htext := appendQuoteLine_fits h htext
  orphan := by
    intro s start previous tail h hstart ho
    obtain ⟨hprevious, htail⟩ := orphan_fits h hstart ho
    refine ⟨⟨fun l hl => ?_, h.line, h.waste⟩, htail⟩
    rcases List.mem_append.mp hl with hl | hl
    · exact h.before l ((List.dropLast_sublist _).subset hl)
    · rw [List.mem_singleton.mp hl]
      exact hprevious
  cut hstart n :=
    ⟨fun hn => hstart (List.mem_of_mem_take ((trimEnd_sublist _ _).subset hn)),
      fun hn => hstart (List.mem_of_mem_drop ((List.dropWhile_sublist _).subset hn))⟩
  nil := List.not_mem_nil
  join := addQuoteSourceLine_fits

theorem LinesFit.newLine (h : LinesFit s) : LinesFit
    { s with before := s.before ++ [s.line], line := [], numlines := s.numlines + 1,
             size := s.size + 1 } := h.append h.line fitsLine_nil h.waste _ _

theorem LinesFit.withLine (h : LinesFit s) {line : CString} (hline : FitsLine line) :
    LinesFit { s with line := line } := ⟨h.before, hline, h.waste⟩

/-- One more character of a file. -/
theorem fitsLine_snoc {line : CString} {c : Char} (h : FitsLine line) (hc : c ≠ '\n')
    (hlen : line.length < 78) : FitsLine (line ++ [c]) := by
  apply fitsLine_append h.2
  · exact fun hn => hc (List.mem_singleton.mp hn).symm
  · rw [List.length_singleton]
    omega

/-- `!include` keeps 74 columns. -/
theorem includeLoop_fits (ll : Nat) (cs : CString) (h : LinesFit s) (hll : s.line.length ≤ ll)
    (hlen : s.line.length ≤ 74) : LinesFit (copyFile (· < 74) ll cs s) := by
  induction cs generalizing ll s with
  | nil => exact h
  | cons c cs ih =>
    rw [copyFile]
    split
    · exact ih 0 h.newLine le_rfl (Nat.zero_le 74)
    · rename_i hc
      by_cases hkeep : ll < 74
      · rw [if_pos (by simpa using hkeep)]
        have hsnoc : (s.line ++ [c]).length = s.line.length + 1 := by simp
        exact ih (ll + 1) (h.withLine (fitsLine_snoc h.line hc (by omega))) (by dsimp only; omega)
          (by dsimp only; omega)
      · rw [if_neg (by simpa using hkeep)]
        exact ih (ll + 1) h (by omega) hlen

/-- The lines of a file that is loaded. -/
theorem loadLoop_fits (ll : Nat) (cs : CString) (h : LinesFit s)
    (hcs : ∀ l ls, cs.splitOn '\n' = l :: ls →
      s.line.length + l.length ≤ 78 ∧ ∀ l' ∈ ls, l'.length ≤ 78) :
    LinesFit (copyFile (fun _ => true) ll cs s) := by
  induction cs generalizing ll s with
  | nil => exact h
  | cons c cs ih =>
    obtain ⟨l, ls, hsplit⟩ := List.exists_cons_of_ne_nil (List.splitOnP_ne_nil (· == '\n') cs)
    have hsplit' : cs.splitOn '\n' = l :: ls := hsplit
    have hcons : (c :: cs).splitOn '\n' =
        if (c == '\n') = true then [] :: cs.splitOn '\n' else (cs.splitOn '\n').modifyHead (c :: ·) :=
      List.splitOnP_cons_eq_if_modifyHead ..
    rw [copyFile]
    split
    · rename_i hc
      rw [hc, if_pos (beq_self_eq_true _), hsplit'] at hcons
      obtain ⟨-, hrest⟩ := hcs [] (l :: ls) (hc ▸ hcons)
      rw [List.forall_mem_cons] at hrest
      apply ih 0 h.newLine
      intro l₁ ls₁ h₁
      rw [hsplit', List.cons.injEq] at h₁
      rw [← h₁.1, ← h₁.2]
      exact ⟨by simpa using hrest.1, hrest.2⟩
    · rename_i hc
      rw [if_neg (by simpa using hc), hsplit', List.modifyHead_cons] at hcons
      obtain ⟨hhead, hrest⟩ := hcs (c :: l) ls hcons
      rw [List.length_cons] at hhead
      rw [if_pos rfl]
      apply ih (ll + 1) (h.withLine (fitsLine_snoc h.line hc (by omega)))
      intro l₁ ls₁ h₁
      rw [hsplit', List.cons.injEq] at h₁
      rw [← h₁.1, ← h₁.2]
      refine ⟨?_, hrest⟩
      dsimp only
      rw [List.length_append, List.length_singleton]
      omega

theorem edStart_fits {file : CString} (hfile : ∀ l ∈ file.splitOn '\n', l.length ≤ 78) :
    LinesFit (edStart file) := by
  apply loadLoop_fits
  · exact ⟨fun l hl => absurd hl List.not_mem_nil, fitsLine_nil, fitsLine_nil⟩
  · intro l ls hsplit
    rw [hsplit, List.forall_mem_cons] at hfile
    exact ⟨by simpa using hfile.1, hfile.2⟩

theorem quoteLines_subset (te : TextEntry) : ∀ l ∈ quoteLines te, l ∈ te.body := by
  intro l hl
  unfold quoteLines at hl
  split at hl
  · split at hl
    · rename_i l₁ l₂ rest hdrop
      have hsuffix : l₁ :: l₂ :: rest <:+ te.body := hdrop ▸ List.dropWhile_suffix _
      exact hsuffix.subset (List.mem_cons_of_mem _ hl)
    · exact hl
  · exact hl

theorem LinesFit.last (h : LinesFit s) : FitsLine (s.before.getLastD []) := by
  rcases List.eq_nil_or_concat s.before with hb | ⟨ls, l, hb⟩
  · rw [hb]
    exact fitsLine_nil
  · rw [hb, List.concat_eq_append, List.getLastD_concat]
    apply h.before
    rw [hb, List.concat_eq_append]
    exact List.mem_append_right ls (List.mem_singleton_self l)

theorem LinesFit.dropLast (h : LinesFit s) : ∀ l ∈ s.before.dropLast, FitsLine l :=
  fun l hl => h.before l ((List.dropLast_sublist _).subset hl)

theorem leave_fits (h : LinesFit s) : LinesFit (leave s) := by
  unfold leave
  refine ⟨?_, ?_, h.waste⟩
  · dsimp only
    split
    · exact h.dropLast
    · exact h.before
  · dsimp only
    split
    · exact h.last
    · exact h.line

theorem removeEditing_fits (h : LinesFit s) : LinesFit (removeEditing w o s) := by
  unfold removeEditing
  split
  · exact ⟨h.before, h.line, fitsLine_nil⟩
  · exact ⟨h.before, h.line, h.waste⟩

theorem runEdCommand_fits (h : LinesFit s) (ho : o.Fits) : LinesFit (runEdCommand w a o s) := by
  have h0 : LinesFit { s with line := [] } := h.withLine fitsLine_nil
  unfold runEdCommand
  dsimp only
  split
  · split
    · unfold includeFile
      dsimp only
      generalize (if (splitCommand s.line).2 = [] then o.input [] else (splitCommand s.line).2) = name
      split
      · exact h0
      · split
        · exact h0
        · exact includeLoop_fits 0 _ h0 le_rfl (Nat.zero_le 74)
    · unfold deleteLine
      split
      · exact ⟨fun l hl => h0.before l ((List.eraseIdx_sublist _ _).subset hl), h0.line, h0.waste⟩
      · exact h0
    · unfold insertLine
      split
      · refine ⟨fun l hl => ?_, h0.line, h0.waste⟩
        obtain ⟨i, hi, rfl⟩ := List.getElem_of_mem hl
        rw [List.getElem_insertIdx]
        split
        · exact h0.before _ (List.getElem_mem _)
        · split
          · exact fitsLine_nil
          · exact h0.before _ (List.getElem_mem _)
      · exact h0
    · unfold changeLine
      split
      · refine ⟨fun l hl => ?_, h0.line, h0.waste⟩
        obtain ⟨i, hi, rfl⟩ := List.getElem_of_mem hl
        rw [List.getElem_modify]
        split
        · exact ho.line (h0.before _ (List.getElem_mem _))
        · exact h0.before _ (List.getElem_mem _)
      · exact h0
    · unfold quoteText
      split
      · exact h0
      · rename_i te hte
        split
        · exact h0
        · exact quoteLoop_keeps quoteInvariant_fits w o false 0 h0 List.not_mem_nil fun l hl =>
            ho.commented te hte l (quoteLines_subset te l hl)
    · exact removeEditing_fits h0
    · exact leave_fits h0
    all_goals exact h0
  · exact h0

/-- A line that is too long is cut in two. -/
theorem wrapLine_fits {line : CString} (hlen : line.length ≤ 79) (hline : '\n' ∉ line) :
    FitsLine (wrapLine line).1 ∧ FitsLine (wrapLine line).2 := by
  unfold wrapLine
  split
  · rename_i front rest hsplit
    -- the blank between the two parts is left out
    have hparts := splitLast_some hsplit
    rw [hparts, List.length_append, List.length_cons] at hlen
    rw [hparts, List.mem_append, List.mem_cons, not_or, not_or] at hline
    constructor
    · exact ⟨show front.length ≤ 78 by omega, hline.1⟩
    · exact ⟨show rest.length ≤ 78 by omega, hline.2.2⟩
  · refine ⟨⟨?_, fun hn => hline (List.mem_of_mem_take hn)⟩,
      ⟨?_, fun hn => hline (List.mem_of_mem_drop hn)⟩⟩
    · exact (List.length_take_le 65 line).trans (by decide)
    · rw [List.length_drop]
      omega

theorem endsLine_fits (h : LinesFit s) {c : Char} {s' : EdState} (hs : endsLine s c = some s') :
    LinesFit s' ∧ s'.before = s.before := by
  unfold endsLine at hs
  split at hs
  · rename_i hc
    split at hs
    · cases hs
    · cases hs
      have hline : '\n' ∉ s.line ++ [c] := by
        intro hn
        rcases List.mem_append.mp hn with hn | hn
        · exact h.line.2 hn
        · exact printable_ne_newline hc hn
      have hlen : (s.line ++ [c]).length ≤ 79 := by
        have := h.line.1
        rw [List.length_append, List.length_singleton]
        omega
      obtain ⟨h1, h2⟩ := wrapLine_fits hlen hline
      exact ⟨⟨h.before, h1, h2⟩, rfl⟩
  · split at hs
    · cases hs
      exact ⟨h, rfl⟩
    · cases hs

theorem editKey_fits (h : LinesFit s) {c : Char} (hs : endsLine s c = none) :
    LinesFit (editKey w o s c) := by
  unfold editKey
  split
  · rename_i hc
    have hshort : s.line.length < 74 := by
      by_contra hlong
      rw [endsLine, if_pos hc, if_neg hlong] at hs
      cases hs
    exact h.withLine (fitsLine_append h.line.2 (printable_ne_newline hc)
      (by rw [List.length_singleton]; omega))
  split
  · split
    · -- a tab ends at column 72 at most
      apply h.withLine
      apply fitsLine_append h.line.2
      · intro hn
        exact absurd (List.eq_of_mem_replicate hn) (by decide)
      · rw [List.length_replicate]
        omega
    · exact h
  split
  · split
    · exact h.withLine (h.line.sublist (List.dropLast_sublist _))
    · split
      · exact ⟨h.dropLast, h.last, h.waste⟩
      · exact h
  split
  · exact h.withLine (h.line.sublist ((trimEnd_sublist _ _).trans (trimEnd_sublist _ _)))
  split
  · exact h.withLine fitsLine_nil
  split
  · exact removeEditing_fits h
  split
  · split
    · exact leave_fits h
    · exact ⟨h.before, h.line, h.waste⟩
  · exact h

theorem edStep_fits {k : Char × Outside} {s' : EdState} (h : LinesFit s) (ho : k.2.Fits)
    (hs : edStep w a s k = some s') : LinesFit s' := by
  have hlastchar : ∀ s₁ : EdState, LinesFit s₁ → LinesFit { s₁ with lastchar := k.1 } :=
    fun s₁ h₁ => ⟨h₁.before, h₁.line, h₁.waste⟩
  unfold edStep at hs
  split at hs
  · cases hs
    exact h
  cases he : endsLine s k.1 with
  | none =>
    rw [he] at hs
    cases hs
    exact hlastchar _ (editKey_fits h he)
  | some s₁ =>
    rw [he] at hs
    cases hs
    obtain ⟨h₁, -⟩ := endsLine_fits h he
    apply hlastchar
    unfold finishLine
    split
    · exact runEdCommand_fits h₁ ho
    · exact h₁.append h₁.line h₁.waste fitsLine_nil _ _

end Keys

/-! ## Saving -/

section Saving

variable {w : EdWords} {a : EdArgs} {s s' : EdState} {k : Char × Outside}

theorem leave_numlines (h : Numbered s) : (leave s).numlines = s.before.length := by
  have hn : s.numlines = s.before.length + 1 := h
  show s.numlines - 1 = s.before.length
  omega

/-- The end of the text: an empty current line is left out. -/
theorem editKey_end {o : Outside} {c : Char} (hc : c = '\x1a' ∨ c = '\x04') :
    editKey w o s c = if s.line = [] then leave s else { s with ended := true } := by
  rcases hc with rfl | rfl
  · rfl
  · rfl

/-- What is written at a key that goes to `save`. -/
theorem saved_bufferLines (h : Numbered s) (hsave : savesText w a s k.1 = true)
    (hs : edStep w a s k = some s') :
    savedFile s' = unlines (bufferLines s k.1) ∧ s'.numlines = (bufferLines s k.1).length := by
  have hn : s.numlines = s.before.length + 1 := h
  rw [savesText, Bool.and_eq_true, Bool.not_eq_true'] at hsave
  obtain ⟨hended, hkey⟩ := hsave
  rw [edStep, if_neg (by simp [hended])] at hs
  cases he : endsLine s k.1 with
  | none =>
    rw [he] at hkey hs
    simp only [Bool.or_eq_true, decide_eq_true_iff] at hkey
    dsimp only at hs
    rw [editKey_end hkey, Option.some.injEq] at hs
    by_cases hline : s.line = []
    · rw [if_pos hline] at hs
      have hlines : bufferLines s k.1 = s.before := by
        rw [bufferLines, if_neg fun hne => hne.2 hline, List.append_nil]
      rw [hlines, ← hs]
      exact ⟨savedFile_leave h, leave_numlines h⟩
    · rw [if_neg hline] at hs
      have hlines : bufferLines s k.1 = s.before ++ [s.line] := by
        rw [bufferLines, if_pos ⟨he, hline⟩]
      rw [hlines, ← hs]
      refine ⟨?_, ?_⟩
      · rw [savedFile, if_neg (by dsimp only; omega)]
      · rw [List.length_append, List.length_singleton]
        exact hn
  | some s₁ =>
    rw [he] at hkey hs
    simp only [Bool.and_eq_true, decide_eq_true_iff] at hkey
    obtain ⟨⟨hbang, hlen⟩, hcmd⟩ := hkey
    have h₁ : s₁.before = s.before ∧ s₁.numlines = s.numlines := by
      unfold endsLine at he
      split at he
      · split at he
        · cases he
        · cases he
          exact ⟨rfl, rfl⟩
      · split at he
        · cases he
          exact ⟨rfl, rfl⟩
        · cases he
    have hnumbered : Numbered { s₁ with line := [] } := by
      show s₁.numlines = s₁.before.length + 1
      rw [h₁.1, h₁.2]
      exact hn
    have hlines : bufferLines s k.1 = s₁.before := by
      rw [bufferLines, if_neg (by simp [he]), List.append_nil, h₁.1]
    dsimp only at hs
    rw [finishLine, if_pos hbang, runEdCommand] at hs
    dsimp only at hs
    rw [if_pos hlen, hcmd, Option.some.injEq] at hs
    rw [hlines, ← hs]
    exact ⟨savedFile_leave hnumbered, leave_numlines hnumbered⟩

theorem bufferLines_fit (h : LinesFit s) (c : Char) : ∀ l ∈ bufferLines s c, FitsLine l := by
  intro l hl
  rcases List.mem_append.mp hl with hl | hl
  · exact h.before l hl
  · split at hl
    · rw [List.mem_singleton.mp hl]
      exact h.line
    · exact absurd hl List.not_mem_nil

/-- Whatever is typed, the file that is saved has the lines of the buffer, as many as the header
says, and none is longer than 78 characters. -/
theorem saved_lines {file : CString} (hfile : ∀ l ∈ file.splitOn '\n', l.length ≤ 78)
    {ks : List (Char × Outside)} (hks : ∀ k ∈ ks, k.2.Fits)
    (hrun : run (edStep w a) (edStart file) ks = some s) (hsave : savesText w a s k.1 = true)
    (hs : edStep w a s k = some s') (now : Int) (th : TextHeader) :
    savedFile s' = unlines (bufferLines s k.1) ∧
      (savedHeader s' now th).size = (bufferLines s k.1).length ∧
      (∀ l ∈ bufferLines s k.1, l.length ≤ 78 ∧ '\n' ∉ l) ∧
      (bufferLines s k.1 = [] → savedFile s' = [] ∧ (savedHeader s' now th).size = 0) := by
  have hended : s.ended = false := by
    rw [savesText, Bool.and_eq_true, Bool.not_eq_true'] at hsave
    exact hsave.1
  have hfits : LinesFit s := run_invariant_of (I := LinesFit) (E := fun k => k.2.Fits)
    (fun _ _ _ h ho hs => edStep_fits h ho hs) (edStart_fits hfile) hks hrun
  obtain ⟨hbytes, hsize⟩ := saved_bufferLines (numbered_run hrun hended) hsave hs
  refine ⟨hbytes, hsize, bufferLines_fit hfits k.1, fun hnil => ?_⟩
  rw [hnil] at hbytes hsize
  exact ⟨hbytes, hsize⟩

end Saving

/-- Return is typed at once where a line is asked for. -/
def plainOutside : Outside := ⟨fun _ => none, fun old => inputLine 77 old [], none, fun _ => 'n'⟩

theorem plainOutside_fits : plainOutside.Fits where
  input old := ⟨[], rfl⟩
  commented te hte := by cases hte

/-- A line is typed and deleted, and a longer one is wrapped. -/
def wrappedKeys : CString :=
  "hej\r!radera 1\r".toList ++ (List.replicate 15 "hej du ".toList).flatten

theorem saved_lines_wrapped : ∃ s s', run (edStep swedishWords ⟨true, true, true⟩) (edStart [])
      (wrappedKeys.map fun c => (c, plainOutside)) = some s ∧
    edStep swedishWords ⟨true, true, true⟩ s ('\x04', plainOutside) = some s' ∧
      (bufferLines s '\x04').map List.length = [73, 31] ∧ savedFile s' = unlines (bufferLines s '\x04') ∧
      (savedHeader s' 7 sampleHeader).size = 2 := by
  have hfile : ∀ l ∈ ([] : CString).splitOn '\n', l.length ≤ 78 := by
    intro l hl
    rw [List.mem_singleton.mp hl]
    exact Nat.zero_le 78
  have hks : ∀ k ∈ wrappedKeys.map fun c => (c, plainOutside), k.2.Fits := by
    intro k hk
    obtain ⟨c, -, rfl⟩ := List.mem_map.mp hk
    exact plainOutside_fits
  have hend : (run (edStep swedishWords ⟨true, true, true⟩) (edStart [])
      (wrappedKeys.map fun c => (c, plainOutside))).bind (fun s =>
        (edStep swedishWords ⟨true, true, true⟩ s ('\x04', plainOutside)).map fun _ =>
          (savesText swedishWords ⟨true, true, true⟩ s '\x04', (bufferLines s '\x04').map List.length)) =
      some (true, [73, 31]) := by decide +kernel
  obtain ⟨s, hrun, hend⟩ := Option.bind_eq_some_iff.mp hend
  obtain ⟨s', hs, hend⟩ := Option.map_eq_some_iff.mp hend
  obtain ⟨hsave, hlengths⟩ := Prod.mk.inj hend
  obtain ⟨hbytes, hsize, -, -⟩ := saved_lines hfile hks hrun hsave hs 7 sampleHeader
  refine ⟨s, s', hrun, hs, hlengths, hbytes, hsize.trans ?_⟩
  have htwo := congrArg List.length hlengths
  rw [List.length_map] at htwo
  rw [htwo]
  rfl

end SklaffKom
