import SklaffKom.LineEd
import SklaffKom.Rights
import SklaffKom.ConfExtra

/-!
# A comment that is resumed at the next login

`cmd_comment` chooses the conference of a comment before the editor is entered and adds the link to
the commented text after it has been left.  When the line is hung up in between, `abort_edit` saves
the lines, the header and the current conference, and `resume_aborted_edit` stores the text from
these.
-/

open CString Runs

namespace SklaffKom

def confIsNews (type : Int) : Bool := type == 3 || type == 5 || type == 6

/-- The conference list and the text files of all conferences. -/
structure Boards where
  conffile : CString
  texts : Int → Int → Option CString

/-- `save_text` into one of the conferences. -/
def saveIn (b : Boards) (th : TextHeader) (inbuf : CString) (conf : Int) : Option (Int × Boards) :=
  (saveText th inbuf conf ⟨b.conffile, b.texts conf⟩).map fun (num, board) =>
    (num, ⟨board.conffile, Function.update b.texts conf board.texts⟩)

/-- The user, the conference, and the text that is commented. -/
structure Comment where
  uid : Int
  conf : Int
  commenttext : Int
  commentuid : Int

/-- What `cmd_comment` holds while the text is edited. -/
structure CommentEdit where
  th : TextHeader
  nc : Int

/-- "Prepare new header for comment" -/
def commentHeader (c : Comment) (subject : CString) (sh : SurveyHeader) : TextHeader where
  num := 0
  author := c.uid
  time := 0
  commentNum := c.commenttext
  commentConf := 0
  commentAuthor := c.commentuid
  size := 0
  subject := subject
  type := typeText
  sh := sh

/-- "Decide target conference for the comment"; a conference that is missing crashes the program. -/
def commentTarget (c : Comment) (conffile : CString) (ul : List Int) (th : TextHeader) :
    Option CommentEdit :=
  match getConfStruct c.conf conffile with
  | some (some ce) =>
    if ce.comconf ≠ 0 ∧ confRight ul c.uid ce.type ce.creator = 0 then
      match getConfStruct ce.comconf conffile with
      | some (some _) => some ⟨{ th with commentConf := c.conf }, ce.comconf⟩
      | _ => none
    else some ⟨th, c.conf⟩
  | _ => none

/-- What the user can do to the header in the editor: another subject, and another conference
(`!move`, which `line_ed` refuses for the mailbox and where the user is no member). -/
inductive HeaderEdit where
  | subject (subject : CString)
  | move (newconf : Int)

/-- `!change` and `!move`, the text being written in `origconf`. -/
def headerStep (origconf : Int) (e : CommentEdit) : HeaderEdit → CommentEdit
  | .subject subject => { e with th := { e.th with subject := subject } }
  | .move newconf =>
    ⟨{ e.th with commentConf := if newconf = origconf then 0 else origconf }, newconf⟩

/-- What `line_ed` writes when the text is saved. -/
def savedFile (s : EdState) : CString :=
  if s.numlines = 0 then [] else unlines (s.before ++ [s.line])

def savedLines (s : EdState) : List CString := if s.numlines = 0 then [] else s.before ++ [s.line]

theorem savedFile_eq (s : EdState) : savedFile s = unlines (savedLines s) := by
  unfold savedFile savedLines
  split
  · rfl
  · rfl

/-- `line_ed` returns the header with the time and the number of lines. -/
def savedHeader (s : EdState) (now : Int) (th : TextHeader) : TextHeader :=
  { th with time := now, size := s.numlines }

/-- A text that was stored: its conference, its number, its header and its lines. -/
structure StoredText where
  conf : Int
  num : Int
  th : TextHeader
  inbuf : CString

/-- The files afterwards, and the text if one was stored. -/
structure Posted where
  boards : Boards
  stored : Option StoredText

/-- "After local save: update reply pointers if needed" -/
def updateReplyPointer (c : Comment) (nc savednum : Int) (b : Boards) : Boards :=
  if c.conf ≠ 0 ∧ nc = c.conf then
    match b.texts c.conf c.commenttext with
    | none => b
    | some buf =>
      { b with texts := Function.update b.texts c.conf (Function.update (b.texts c.conf)
                 c.commenttext (some (appendLink buf ⟨savednum, c.uid⟩))) }
  else b

/-- The rest of `cmd_comment`, after the editor has returned the header `th`. -/
def commentSave (c : Comment) (nc : Int) (th : TextHeader) (inbuf : CString) (b : Boards) :
    Option Posted :=
  match getConfStruct nc b.conffile with
  | some (some ce) =>
    let th := if confIsNews ce.type then { th with author := 0 } else th
    if c.commentuid ≠ 0 ∨ (th.author ≠ 0 ∧ nc ≠ 0) then
      match saveIn b th inbuf nc with
      | none => none
      | some (savednum, b) =>
        if savednum = -1 then some ⟨b, none⟩
        else some ⟨updateReplyPointer c nc savednum b, some ⟨nc, savednum, th, inbuf⟩⟩
    -- a news article is posted instead
    else some ⟨b, none⟩
  | _ => none

/-- The user saves the text in the editor. -/
def commentFinish (c : Comment) (e : CommentEdit) (s : EdState) (now : Int) (b : Boards) :
    Option Posted :=
  commentSave c e.nc (savedHeader (leave s) now e.th) (savedFile (leave s)) b

/-- `resume_aborted_edit` on the file, the conference and the header that `abort_edit` wrote, the
user saving the text at once. -/
def resumeAbortedEdit (file : CString) (conf : Int) (th : TextHeader) (now : Int) (b : Boards) :
    Option Posted :=
  let s := leave (edStart file)
  let th := savedHeader s now th
  match saveIn b th (savedFile s) conf with
  | none => none
  | some (num, b) =>
    if num = -1 then some ⟨b, none⟩ else some ⟨b, some ⟨conf, num, th, savedFile s⟩⟩

/-- The resumed text is the one that `cmd_comment` would have stored, and the commented text is
the same. -/
structure ResumedAs (c : Comment) (o o' : Posted) : Prop where
  text : ∃ t t', o.stored = some t ∧ o'.stored = some t' ∧ t'.conf = t.conf ∧
    t'.th.author = t.th.author ∧ t'.th.subject = t.th.subject ∧
    t'.th.commentNum = t.th.commentNum ∧ t'.th.commentConf = t.th.commentConf ∧
    t'.th.commentAuthor = t.th.commentAuthor ∧ t'.inbuf = t.inbuf
  link : o'.boards.texts c.conf c.commenttext = o.boards.texts c.conf c.commenttext

/-! ## The number of the current line -/

/-- `numlines` is right also after `!delete` and `!insert`. -/
def Numbered (s : EdState) : Prop := s.numlines = s.before.length + 1

variable {w : EdWords} {a : EdArgs} {s : EdState}

theorem Numbered.append (h : Numbered s) (l line waste : CString) :
    Numbered { s with before := s.before ++ [l], line := line, waste := waste,
                      numlines := s.numlines + 1, size := s.size + 1 } := by
  have hn : s.numlines = s.before.length + 1 := h
  show s.numlines + 1 = ((s.before ++ [l]).length : Int) + 1
  rw [List.length_append, List.length_singleton]
  omega

theorem Numbered.before (h : Numbered s) {before : List CString} (line waste : CString)
    (hlen : before.length = s.before.length) :
    Numbered { s with before := before, line := line, waste := waste } := by
  show s.numlines = (before.length : Int) + 1
  rw [hlen]
  exact h

theorem quoteInvariant_numbered : QuoteInvariant Numbered fun _ => True where
  line h _ := h.append _ _ _
  orphan := by
    intro s start previous tail h _ ho
    refine ⟨h.before s.line s.waste ?_, trivial⟩
    have hpos := List.length_pos_iff.mpr (orphan_before ho)
    rw [List.length_append, List.length_dropLast, List.length_singleton]
    omega
  cut _ _ := ⟨trivial, trivial⟩
  nil := trivial
  join _ _ := trivial

theorem numbered_copyFile (keep : Nat → Bool) (ll : Nat) (cs : CString) (h : Numbered s) :
    Numbered (copyFile keep ll cs s) :=
  copyFile_keeps (fun _ h => h.append _ [] _) (fun _ _ h => h.before _ _ rfl) keep ll cs h

theorem numbered_edStart (file : CString) : Numbered (edStart file) :=
  numbered_copyFile _ 0 file (Eq.refl (1 : Int))

theorem lineIndex_inside (h : Numbered s) {arg : CString} {i : Nat} (hi : lineIndex s arg = some i) :
    i < s.before.length := by
  have hn : s.numlines = s.before.length + 1 := h
  unfold lineIndex at hi
  split at hi
  · cases hi
    omega
  · cases hi

theorem numbered_deleteLine (arg : CString) (h : Numbered s) : Numbered (deleteLine arg s) := by
  unfold deleteLine
  split
  next i hi =>
    have hlt := lineIndex_inside h hi
    have hn : s.numlines = s.before.length + 1 := h
    show s.numlines - 1 = ((s.before.eraseIdx i).length : Int) + 1
    rw [List.length_eraseIdx_of_lt hlt]
    omega
  next => exact h

theorem numbered_insertLine (arg : CString) (h : Numbered s) : Numbered (insertLine arg s) := by
  unfold insertLine
  split
  next i hi =>
    have hlt := lineIndex_inside h hi
    have hn : s.numlines = s.before.length + 1 := h
    show s.numlines + 1 = ((s.before.insertIdx i []).length : Int) + 1
    rw [List.length_insertIdx_of_le_length (by omega)]
    omega
  next => exact h

/-- The editing is over, or the current line has its number. -/
def NumberedInv (s : EdState) : Prop := s.ended = true ∨ Numbered s

theorem numbered_removeEditing (o : Outside) (h : Numbered s) : NumberedInv (removeEditing w o s) := by
  unfold removeEditing
  split
  · exact Or.inr (h.before s.line [] rfl)
  · exact Or.inl rfl

theorem numbered_runEdCommand (o : Outside) (h : Numbered s) :
    NumberedInv (runEdCommand w a o s) := by
  have h0 : Numbered { s with line := [] } := h
  unfold runEdCommand
  dsimp only
  split
  · split
    · refine Or.inr ?_
      unfold includeFile
      dsimp only
      generalize (if (splitCommand s.line).2 = [] then o.input [] else (splitCommand s.line).2) = name
      split
      · exact h0
      · split
        · exact h0
        · exact numbered_copyFile _ 0 _ h0
    · exact Or.inr (numbered_deleteLine _ h0)
    · exact Or.inr (numbered_insertLine _ h0)
    · refine Or.inr ?_
      unfold changeLine
      split
      · exact h0.before [] s.waste (List.length_modify ..)
      · exact h0
    · refine Or.inr ?_
      unfold quoteText
      split
      · exact h0
      · split
        · exact h0
        · exact quoteLoop_keeps quoteInvariant_numbered w o false 0 h0 trivial fun _ _ => trivial
    · exact numbered_removeEditing o h0
    · exact Or.inl rfl
    all_goals exact Or.inr h0
  · exact Or.inr h0

theorem numbered_editKey (o : Outside) (h : Numbered s) (c : Char) : NumberedInv (editKey w o s c) := by
  unfold editKey
  split
  · exact Or.inr h
  split
  · split
    · exact Or.inr h
    · exact Or.inr h
  split
  · split
    · exact Or.inr h
    · split
      · rename_i hmore
        have hn : s.numlines = s.before.length + 1 := h
        refine Or.inr ?_
        show s.numlines - 1 = (s.before.dropLast.length : Int) + 1
        rw [List.length_dropLast]
        omega
      · exact Or.inr h
  split
  · exact Or.inr h
  split
  · exact Or.inr h
  split
  · exact numbered_removeEditing o h
  split
  · split
    · exact Or.inl rfl
    · exact Or.inl rfl
  · exact Or.inr h

theorem numbered_edStep {k : Char × Outside} {s' : EdState} (h : NumberedInv s)
    (hs : edStep w a s k = some s') : NumberedInv s' := by
  unfold edStep at hs
  split at hs
  next hended =>
    cases hs
    exact Or.inl hended
  next hended =>
    have hn : Numbered s := h.resolve_left hended
    cases he : endsLine s k.1 with
    | none =>
      rw [he] at hs
      cases hs
      exact numbered_editKey k.2 hn k.1
    | some s₁ =>
      rw [he] at hs
      cases hs
      have h₁ : Numbered s₁ := by
        unfold endsLine at he
        split at he
        · split at he
          · cases he
          · cases he
            exact hn
        · split at he
          · cases he
            exact hn
          · cases he
      unfold finishLine
      split
      · exact numbered_runEdCommand k.2 h₁
      · exact Or.inr (h₁.append s₁.line s₁.waste [])

/-- In every state of the editor before its end. -/
theorem numbered_run {file : CString} {ks : List (Char × Outside)}
    (hrun : run (edStep w a) (edStart file) ks = some s) (hended : s.ended = false) : Numbered s := by
  have hinv : NumberedInv s := run_invariant (I := NumberedInv)
    (fun _ _ _ h hs => numbered_edStep h hs) (Or.inr (numbered_edStart file)) hrun
  exact hinv.resolve_left (by simp [hended])

/-! ## The lines that are recovered -/

/-- A saved text has the lines before the current one. -/
theorem savedLines_leave (h : Numbered s) : savedLines (leave s) = s.before := by
  have hn : s.numlines = s.before.length + 1 := h
  unfold savedLines leave
  dsimp only
  rcases List.eq_nil_or_concat s.before with hb | ⟨ls, l, hb⟩
  · rw [hb, List.length_nil] at hn
    rw [if_pos (by omega), hb]
  · have hlen : s.before.length = ls.length + 1 := by rw [hb, List.length_concat]
    have hmore : s.numlines > 1 := by omega
    rw [if_neg (by omega), if_pos hmore, if_pos hmore, hb, List.concat_eq_append,
      List.dropLast_concat, List.getLastD_concat]

theorem savedFile_leave (h : Numbered s) : savedFile (leave s) = unlines s.before := by
  rw [savedFile_eq, savedLines_leave h]

/-- Nothing is lost of a file that is loaded. -/
theorem copyFile_bytes (ll : Nat) (cs : CString) (s : EdState) :
    unlines (copyFile (fun _ => true) ll cs s).before ++ (copyFile (fun _ => true) ll cs s).line =
      unlines s.before ++ s.line ++ cs := by
  induction cs generalizing ll s with
  | nil => rw [copyFile, List.append_nil]
  | cons c cs ih =>
    rw [copyFile]
    split
    next hc =>
      rw [ih, unlines_append, unlines_cons, unlines_nil, hc]
      simp
    next =>
      rw [if_pos rfl, ih]
      simp

/-- No line has a newline in it. -/
theorem copyFile_line (ll : Nat) (cs : CString) {s : EdState} (h : '\n' ∉ s.line) :
    '\n' ∉ (copyFile (fun _ => true) ll cs s).line := by
  induction cs generalizing ll s with
  | nil => exact h
  | cons c cs ih =>
    rw [copyFile]
    split
    next => exact ih 0 List.not_mem_nil
    next hc =>
      rw [if_pos rfl]
      apply ih
      simp only [List.mem_append, List.mem_singleton, not_or]
      exact ⟨h, Ne.symm hc⟩

/-- A text of whole lines is stored as it was loaded. -/
theorem savedFile_edStart (ls : List CString) : savedFile (leave (edStart (unlines ls))) = unlines ls := by
  have hbytes := copyFile_bytes 0 (unlines ls) ⟨[], [], 1, 1, [], '\x00', false⟩
  have hline := copyFile_line 0 (unlines ls) (s := ⟨[], [], 1, 1, [], '\x00', false⟩) List.not_mem_nil
  rw [savedFile_leave (numbered_edStart _)]
  change unlines (edStart (unlines ls)).before ++ (edStart (unlines ls)).line = unlines ls at hbytes
  change '\n' ∉ (edStart (unlines ls)).line at hline
  generalize edStart (unlines ls) = s at hbytes hline ⊢
  -- what is after the last newline is empty
  have hempty : s.line = [] := by
    by_contra hne
    obtain ⟨front, c, hfront⟩ := (List.eq_nil_or_concat _).resolve_left hne
    rw [List.concat_eq_append] at hfront
    have hc : c = '\n' := by
      rcases List.eq_nil_or_concat ls with hls | ⟨ls', l, hls⟩
      · rw [hls, hfront] at hbytes
        simp at hbytes
      · rw [hfront, hls, List.concat_eq_append, unlines_append, unlines_cons, unlines_nil,
          ← List.append_assoc, ← List.append_assoc] at hbytes
        have hlast := congrArg List.getLast? hbytes
        simpa using hlast
    exact hline (by rw [hfront, hc]; simp)
  rw [hempty, List.append_nil] at hbytes
  exact hbytes

theorem abortLoop_low (ls : List CString) {size : Int} (h : size ≤ 1) : abortLoop ls size = [] := by
  cases ls with
  | nil => rfl
  | cons l ls => rw [abortLoop, if_pos h]

/-- As many lines are recovered as `Size` counts besides the current one. -/
theorem abortEdit_eq (junk : CString) (s : EdState) :
    abortEdit junk s = unlines ((s.before ++ [s.line ++ junk]).take (s.size - 1).toNat) := by
  unfold abortEdit
  by_cases h : 1 ≤ s.size
  · exact abortLoop_eq _ h
  · rw [abortLoop_low _ (by omega), show (s.size - 1).toNat = 0 by omega]
    rfl

theorem unlines_take_inj {ls : List CString} {m n : Nat} (hm : m ≤ ls.length) (hn : n ≤ ls.length)
    (h : unlines (ls.take m) = unlines (ls.take n)) : m = n := by
  -- the longer prefix has another newline
  have hlt : ∀ {m n : Nat}, n ≤ ls.length → m < n → unlines (ls.take m) ≠ unlines (ls.take n) := by
    intro m n hn hmn he
    have hsplit : ls.take n = ls.take m ++ (ls.take n).drop m := by
      have h := List.take_append_drop m (ls.take n)
      rw [List.take_take, Nat.min_eq_left (by omega)] at h
      exact h.symm
    rw [hsplit, unlines_append] at he
    have hne : (ls.take n).drop m ≠ [] := by
      apply List.ne_nil_of_length_pos
      rw [List.length_drop, List.length_take]
      omega
    exact unlines_ne_nil hne (List.append_right_eq_self.mp he.symm)
  rcases Nat.lt_trichotomy m n with hlt' | heq | hgt
  · exact absurd h (hlt hn hlt')
  · exact heq
  · exact absurd h.symm (hlt hm hgt)

/-- All lines but the current one are recovered exactly when `Size` is their number and one. -/
theorem abortEdit_iff (junk : CString) (s : EdState) :
    abortEdit junk s = unlines s.before ↔ (s.size - 1).toNat = s.before.length := by
  set ls := s.before ++ [s.line ++ junk] with hls
  have hlen : ls.length = s.before.length + 1 := by simp [hls]
  have hall : unlines s.before = unlines (ls.take s.before.length) := by rw [hls, List.take_left]
  have habort : abortEdit junk s = unlines (ls.take (min (s.size - 1).toNat ls.length)) := by
    rw [abortEdit_eq, ← hls, ← List.take_eq_take_min]
  rw [habort, hall]
  constructor
  · intro h
    have hmin := unlines_take_inj (Nat.min_le_right _ _) (by omega) h
    omega
  · intro h
    rw [h, Nat.min_eq_left (by omega)]

/-! ## The two ways to the stored text -/

/-- What `cmd_comment` has checked: a user comments one of the texts of a conference that is
neither a news nor an FTN conference. -/
structure Comment.InConf (c : Comment) (ce : ConfEntry) (b : Boards) : Prop where
  uid : 0 < c.uid
  conf : 0 < c.conf
  entry : ∃ next, confEntry c.conf b.conffile = .entry ce next
  ordinary : confIsExternal ce.type = false
  first : 0 < c.commenttext
  last : c.commenttext ≤ ce.lastText

variable {c : Comment} {ce : ConfEntry} {b : Boards}

theorem confIsNews_of_ordinary {type : Int} (h : confIsExternal type = false) :
    confIsNews type = false := by
  simp only [confIsExternal, Bool.or_eq_false_iff] at h
  simp only [confIsNews, h, Bool.or_false]

/-- The text is stored under the next number, and the commented text stays. -/
theorem saveIn_inConf (h : c.InConf ce b) (th : TextHeader) (inbuf : CString) :
    ∃ b', saveIn b th inbuf c.conf = some (ce.lastText + 1, b') ∧
      b'.texts c.conf (ce.lastText + 1) = some (textBytes (ce.lastText + 1) th inbuf) ∧
      b'.texts c.conf c.commenttext = b.texts c.conf c.commenttext := by
  obtain ⟨next, hentry⟩ := h.entry
  obtain ⟨nbuf, hsave⟩ := saveText_entry hentry (b.texts c.conf) th inbuf
  have hlast := h.last
  refine ⟨⟨nbuf, Function.update b.texts c.conf (Function.update (b.texts c.conf) (ce.lastText + 1)
    (some (textBytes (ce.lastText + 1) th inbuf)))⟩, ?_, ?_, ?_⟩
  · rw [saveIn, hsave]
    rfl
  · dsimp only
    rw [Function.update_self, Function.update_self]
  · dsimp only
    rw [Function.update_self, Function.update_of_ne (by omega)]

/-- The resumed text is stored in the conference of the commented one. -/
theorem resumeAbortedEdit_inConf (h : c.InConf ce b) (ls : List CString) (th : TextHeader)
    (now : Int) :
    ∃ b', resumeAbortedEdit (unlines ls) c.conf th now b =
        some ⟨b', some ⟨c.conf, ce.lastText + 1,
          savedHeader (leave (edStart (unlines ls))) now th, unlines ls⟩⟩ ∧
      b'.texts c.conf c.commenttext = b.texts c.conf c.commenttext := by
  have hfirst := h.first
  have hlast := h.last
  obtain ⟨b', hsave, -, hkept⟩ := saveIn_inConf h
    (savedHeader (leave (edStart (unlines ls))) now th) (unlines ls)
  refine ⟨b', ?_, hkept⟩
  simp only [resumeAbortedEdit, savedFile_edStart, hsave]
  rw [if_neg (by omega)]

/-- Without interruption the text is stored there too when its conference was not changed, and the
link is added to the commented text if it can be opened. -/
theorem commentFinish_inConf (h : c.InConf ce b) {e : CommentEdit} (hauthor : e.th.author = c.uid)
    (hnc : e.nc = c.conf) {s : EdState} (hs : Numbered s) (now : Int) :
    ∃ b', commentFinish c e s now b = some ⟨b', some ⟨c.conf, ce.lastText + 1,
        savedHeader (leave s) now e.th, unlines s.before⟩⟩ ∧
      b'.texts c.conf c.commenttext = (b.texts c.conf c.commenttext).map
        (fun buf => appendLink buf ⟨ce.lastText + 1, c.uid⟩) := by
  have huid := h.uid
  have hconf := h.conf
  have hfirst := h.first
  have hlast := h.last
  obtain ⟨next, hentry⟩ := h.entry
  have hce : getConfStruct c.conf b.conffile = some (some ce) := by
    rw [getConfStruct_eq (by omega), hentry]
  set th := savedHeader (leave s) now e.th with hth
  have hlocal : c.commentuid ≠ 0 ∨ (th.author ≠ 0 ∧ c.conf ≠ 0) := by
    refine Or.inr ⟨?_, by omega⟩
    show e.th.author ≠ 0
    omega
  obtain ⟨b₁, hsave, -, hkept⟩ := saveIn_inConf h th (unlines s.before)
  refine ⟨updateReplyPointer c c.conf (ce.lastText + 1) b₁, ?_, ?_⟩
  · simp only [commentFinish, commentSave, savedFile_leave hs, hnc, hce,
      confIsNews_of_ordinary h.ordinary, Bool.false_eq_true, if_false, ← hth, if_pos hlocal, hsave]
    rw [if_neg (by omega)]
  · rw [updateReplyPointer, if_pos ⟨by omega, rfl⟩, hkept]
    cases hbuf : b.texts c.conf c.commenttext with
    | none => rw [hkept, hbuf, Option.map_none]
    | some buf => simp only [Function.update_self, Option.map_some]

/-- What the user does to the header leaves the author. -/
theorem author_headerSteps (origconf : Int) (e : CommentEdit) (edits : List HeaderEdit) :
    (edits.foldl (headerStep origconf) e).th.author = e.th.author := by
  induction edits generalizing e with
  | nil => rfl
  | cons d edits ih =>
    rw [List.foldl_cons, ih]
    cases d <;> rfl

theorem author_commentTarget {conffile : CString} {ul : List Int} {th : TextHeader}
    {e : CommentEdit} (h : commentTarget c conffile ul th = some e) : e.th.author = th.author := by
  unfold commentTarget at h
  split at h
  · split at h
    · split at h
      · cases h
        rfl
      · cases h
    · cases h
      rfl
  · cases h

/-- A comment is stored where it was directed to. -/
theorem commentSave_conf {nc : Int} {th : TextHeader} {inbuf : CString} {o : Posted} {t : StoredText}
    (h : commentSave c nc th inbuf b = some o) (ht : o.stored = some t) : t.conf = nc := by
  unfold commentSave at h
  split at h
  next ce' _ =>
    dsimp only at h
    generalize (if confIsNews ce'.type = true then { th with author := 0 } else th) = th' at h
    split at h
    · split at h
      · cases h
      · split at h
        · cases h
          cases ht
        · cases h
          cases ht
          rfl
    · cases h
      cases ht
  next => cases h

theorem appendLink_ne (buf : CString) (l : CommentLink) : appendLink buf l ≠ buf := by
  intro h
  have hlen := congrArg List.length h
  simp [appendLink, linkLine] at hlen

/-- For every comment, whatever has been done to its header and its lines when the line is hung up:
the resumed text equals the one that would have been stored exactly when the comment still goes to
the conference of the commented text, that text is gone meanwhile, and `Size` counts the lines. -/
theorem resumed_comment_iff (h : c.InConf ce b) {conffile : CString} {ul : List Int}
    {subject : CString} {sh : SurveyHeader} {e₀ : CommentEdit}
    (hstart : commentTarget c conffile ul (commentHeader c subject sh) = some e₀)
    (edits : List HeaderEdit) {file : CString} {ks : List (Char × Outside)}
    (hrun : run (edStep w a) (edStart file) ks = some s) (hended : s.ended = false)
    (junk : CString) (now now' : Int) :
    (∃ o o', commentFinish c (edits.foldl (headerStep c.conf) e₀) s now b = some o ∧
        resumeAbortedEdit (abortEdit junk s) c.conf (edits.foldl (headerStep c.conf) e₀).th now' b =
          some o' ∧ ResumedAs c o o') ↔
      (edits.foldl (headerStep c.conf) e₀).nc = c.conf ∧
        b.texts c.conf c.commenttext = none ∧ (s.size - 1).toNat = s.before.length := by
  have hs := numbered_run hrun hended
  have hauthor : (edits.foldl (headerStep c.conf) e₀).th.author = c.uid := by
    rw [author_headerSteps, author_commentTarget hstart]
    rfl
  generalize edits.foldl (headerStep c.conf) e₀ = e at hauthor ⊢
  rw [← abortEdit_iff junk s]
  obtain ⟨ls, hls⟩ : ∃ ls, abortEdit junk s = unlines ls := ⟨_, abortEdit_eq junk s⟩
  obtain ⟨b', hresume, hkept'⟩ := resumeAbortedEdit_inConf h ls e.th now'
  rw [hls, hresume]
  constructor
  · rintro ⟨o, o', ho, ho', hsame⟩
    cases ho'
    obtain ⟨t, t', ht, ht', hconf, -, -, -, -, -, hbytes⟩ := hsame.text
    cases ht'
    -- the resumed text is in the conference of the commented one
    have hnc : e.nc = c.conf := (commentSave_conf ho ht).symm.trans hconf.symm
    obtain ⟨b₁, hfinish, hlinked⟩ := commentFinish_inConf h hauthor hnc hs now
    rw [hfinish] at ho
    cases ho
    cases ht
    refine ⟨hnc, ?_, hbytes⟩
    -- only the other way adds a link
    have hlink := hsame.link
    rw [hkept', hlinked] at hlink
    cases hbuf : b.texts c.conf c.commenttext with
    | none => rfl
    | some buf =>
      rw [hbuf, Option.map_some, Option.some.injEq] at hlink
      exact absurd hlink.symm (appendLink_ne buf _)
  · rintro ⟨hnc, hgone, hbytes⟩
    obtain ⟨b₁, hfinish, hlinked⟩ := commentFinish_inConf h hauthor hnc hs now
    refine ⟨_, _, hfinish, rfl, ⟨⟨_, _, rfl, rfl, rfl, rfl, rfl, rfl, rfl, rfl, hbytes⟩, ?_⟩⟩
    rw [hkept', hlinked, hgone, Option.map_none]

/-- A user comments the first text of a conference. -/
def sampleComment : Comment := ⟨7, 3, 1, 8⟩

def sampleEntry : ConfEntry := ⟨3, 5, 1, 0, 0, 0, 0, "Test".toList⟩

def sampleBoards (text : Option CString) : Boards where
  conffile := stringifyConfStruct sampleEntry
  texts conf num := if conf = 3 ∧ num = 1 then text else none

def sampleEdit : CommentEdit := ⟨commentHeader sampleComment "s".toList ⟨0, 0⟩, 3⟩

theorem sampleComment_inConf (text : Option CString) :
    sampleComment.InConf sampleEntry (sampleBoards text) :=
  ⟨by decide, by decide, ⟨[], rfl⟩, by decide, by decide, by decide⟩

theorem sampleEdit_start : commentTarget sampleComment (stringifyConfStruct sampleEntry) []
    (commentHeader sampleComment "s".toList ⟨0, 0⟩) = some sampleEdit := rfl

def sampleLines : EdState := ⟨["a".toList], [], 2, 2, [], '\r', false⟩

/-- The commented text has been removed. -/
theorem resumed_comment_sample :
    ∃ o o', commentFinish sampleComment sampleEdit sampleLines 5 (sampleBoards none) = some o ∧
      resumeAbortedEdit (abortEdit [] sampleLines) 3 sampleEdit.th 9 (sampleBoards none) = some o' ∧
      ResumedAs sampleComment o o' := by
  have hrun : run (edStep swedishWords ⟨true, true, true⟩) (edStart []) (typed "a\r") =
      some sampleLines := by decide +kernel
  exact (resumed_comment_iff (sampleComment_inConf none) sampleEdit_start [] hrun rfl
    [] 5 9).mpr ⟨rfl, rfl, rfl⟩

def sampleText : CString := "1:8:0:0:0:0:0:0\n\n".toList

/-- The link of an ordinary comment is lost. -/
theorem resumed_comment_not_linked :
    ¬ ∃ o o', commentFinish sampleComment sampleEdit sampleLines 5
        (sampleBoards (some sampleText)) = some o ∧
      resumeAbortedEdit (abortEdit [] sampleLines) 3 sampleEdit.th 9
        (sampleBoards (some sampleText)) = some o' ∧ ResumedAs sampleComment o o' := by
  rintro ⟨o, o', ho, ho', hsame⟩
  have hlinked : (commentFinish sampleComment sampleEdit sampleLines 5
      (sampleBoards (some sampleText))).map (fun o => o.boards.texts 3 1) =
      some (some "1:8:0:0:0:0:0:0\n\n6:7\n".toList) := by decide +kernel
  have hplain : (resumeAbortedEdit (abortEdit [] sampleLines) 3 sampleEdit.th 9
      (sampleBoards (some sampleText))).map (fun o => o.boards.texts 3 1) =
      some (some sampleText) := by decide +kernel
  rw [ho, Option.map_some, Option.some.injEq] at hlinked
  rw [ho', Option.map_some, Option.some.injEq] at hplain
  have hlink : o'.boards.texts 3 1 = o.boards.texts 3 1 := hsame.link
  rw [hlinked, hplain] at hlink
  exact absurd hlink (by decide)

end SklaffKom
