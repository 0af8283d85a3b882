import SklaffKom.Posting
import SklaffKom.Lib.FaultyFiles

/-!
# Saving a text when a file operation fails

`save_text` with its file operations one by one: it locks the conference list (or a mailbox),
creates the text file and copies the editor's file into it, and then writes the list back.  A mail
is saved a second time, in the sender's mailbox.  Every operation may fail.
-/

open CString FaultyFiles

namespace SklaffKom

/-- The files that `save_text` uses: the conference list, the mailbox lists, the texts of
conferences and mailboxes, and the editor's file. -/
inductive SavePath where
  | confFile
  | mailbox (usernum : Int)
  | text (conf num : Int)
  | mail (usernum num : Int)
  | editFile
deriving DecidableEq, Repr

/-- `conffile` and `confdir`, and the number of the entry in `conffile`. -/
structure SaveTarget where
  conffile : SavePath
  textfile : Int → SavePath
  conf : Int

/-- The operations on each of the two targets, in the order in which they are made. -/
inductive SaveSite where
  | openConf
  | readConf
  | createText
  | openEdit
  | readEdit
  | closeEdit
  | writeText
  | closeText
  | writeConf
  | closeConf
deriving DecidableEq, Repr

/-- Which operations fail. -/
abbrev SaveFaults := SaveSite → Option Fault

abbrev SaveWorld := World SavePath Char

abbrev SaveOp := Op SavePath Char

/-- A mailbox for negative numbers. -/
def saveTarget (conf : Int) : SaveTarget :=
  if conf < 0 then ⟨.mailbox (-conf), .mail (-conf), 0⟩ else ⟨.confFile, .text conf, conf⟩

/-- The mailbox of the sender. -/
def copyTarget (uid : Int) : SaveTarget := ⟨.mailbox uid, .mail uid, 0⟩

/-- The entry with the new `last_text`, and the list that has it. -/
def nextNumber (conf : Int) (oldbuf : CString) : SaveOp (ConfEntry × CString) :=
  match confEntry conf oldbuf with
  | .crash => stop .crash
  | .null => stop .failed
  | .entry ce _ =>
    let ce := { ce with lastText := ce.lastText + 1 }
    match replaceConf ce oldbuf with
    | none => stop .crash
    | some none => stop .failed
    | some (some nbuf) => pure (ce, nbuf)

/-- The text file is created and written. -/
def writeText (faults : SaveFaults) (textfile : SavePath) (fbuf : CString → CString) :
    SaveOp Unit := do
  openFile (faults .createText) textfile true
  openFile (faults .openEdit) .editFile false
  let inbuf ← readFile (faults .readEdit) .editFile
  closeFile (faults .closeEdit) .editFile
  writeFile (faults .writeText) textfile (fbuf inbuf)
  closeFile (faults .closeText) textfile

/-- One of the two halves of `save_text`; `fbuf` gives the contents of the text file. -/
def saveInto (faults : SaveFaults) (t : SaveTarget) (fbuf : Int → CString → CString) :
    SaveOp Int := do
  openFile (faults .openConf) t.conffile false
  let oldbuf ← readFile (faults .readConf) t.conffile
  let (ce, nbuf) ← nextNumber t.conf oldbuf
  writeText faults (t.textfile ce.lastText) (fbuf ce.lastText)
  writeFile (faults .writeConf) t.conffile nbuf
  closeFile (faults .closeConf) t.conffile
  pure ce.lastText

/-- The copy of a mail: a comment to nothing, its comment author the receiver, and never printed
as a survey. -/
def copyBytes (usernum num : Int) (th : TextHeader) (inbuf : CString) : CString :=
  field num ++ field th.author ++ field th.time ++ field 0 ++ field 0 ++ field usernum ++
    field th.size ++ decimal th.type ++ ['\n'] ++ (th.subject ++ ['\n'] ++ inbuf)

/-- `(oldconf < 0) && Copy && (usernum != Uid)` -/
def savesCopy (uid : Int) (copy : Bool) (conf : Int) : Prop :=
  conf < 0 ∧ copy = true ∧ -conf ≠ uid

instance (uid : Int) (copy : Bool) (conf : Int) : Decidable (savesCopy uid copy conf) :=
  inferInstanceAs (Decidable (conf < 0 ∧ copy = true ∧ -conf ≠ uid))

/-- Save copy if flag set and in mailbox, and remove the editor's file. -/
def saveRest (copyFaults : SaveFaults) (uid : Int) (copy : Bool) (th : TextHeader) (conf num : Int) :
    SaveOp Int :=
  if savesCopy uid copy conf then do
    let num ← saveInto copyFaults (copyTarget uid) (fun num inbuf => copyBytes (-conf) num th inbuf)
    unlink .editFile
    pure num
  else do
    unlink .editFile
    pure num

/-- `save_text` for the user `uid`, whose `Copy` flag is `copy`. -/
def saveTextOps (faults copyFaults : SaveFaults) (uid : Int) (copy : Bool) (th : TextHeader)
    (conf : Int) : SaveOp Int := do
  let num ← saveInto faults (saveTarget conf) (fun num inbuf => textBytes num th inbuf)
  saveRest copyFaults uid copy th conf num

/-! ## One half -/

/-- The operations between the locking of the list and its writing succeed. -/
structure TextWritten (faults : SaveFaults) (textfile : SavePath) (w : SaveWorld) : Prop where
  create : CanOpen (faults .createText) textfile true w
  edit : CanOpen (faults .openEdit) .editFile false w
  read : faults .readEdit = none
  close : faults .closeEdit = none
  write : faults .writeText ≠ some .call
  closed : faults .closeText = none

theorem writeText_ok {faults : SaveFaults} {textfile : SavePath} {w : SaveWorld} {inbuf : CString}
    (h : TextWritten faults textfile w) (hne : textfile ≠ .editFile)
    (hin : w.files .editFile = some inbuf) (fbuf : CString → CString) :
    writeText faults textfile fbuf w =
      (.ok (), { files := Function.update w.files textfile
                   (some (afterWrite (faults .writeText) ((w.files textfile).getD []) (fbuf inbuf))),
                 fds := w.fds, written := textfile :: w.written }) := by
  -- the files after the first open
  set w₁ : SaveWorld := { w with
    files := Function.update w.files textfile (some ((w.files textfile).getD []))
    fds := textfile :: w.fds } with hw₁
  have hfiles : w₁.files = Function.update w.files textfile (some ((w.files textfile).getD [])) :=
    rfl
  have hedit : w₁.files .editFile = some inbuf := by
    rw [hfiles, Function.update_of_ne (Ne.symm hne), hin]
  have hopen : CanOpen (faults .openEdit) .editFile false w₁ := by
    have hsame := openFile_leaves (γ := Char) (Ne.symm hne) (faults .createText) true w
    rw [openFile_ok h.create] at hsame
    exact (hsame.canOpen_iff _ _).mpr h.edit
  have hsame : Function.update w₁.files .editFile (some ((w₁.files .editFile).getD [])) =
      w₁.files := by
    rw [hedit, Option.getD_some, ← hedit, Function.update_eq_self]
  have hread := readFile_ok (w := { w₁ with fds := .editFile :: w₁.fds }) h.read hedit
  rw [writeText, bind_ok (openFile_ok h.create), ← hw₁, bind_ok (openFile_ok hopen), hsame,
    bind_ok hread, bind_ok (closeFile_ok h.close ..),
    bind_ok (writeFile_ok h.write ..), closeFile_ok h.closed]
  simp only [hw₁, List.erase_cons_head, Function.update_idem, Function.update_self,
    Option.getD_some]

theorem writeText_error {faults : SaveFaults} {textfile : SavePath} {w : SaveWorld}
    (h : ¬ TextWritten faults textfile w) (hne : textfile ≠ .editFile)
    (fbuf : CString → CString) : ∃ w', writeText faults textfile fbuf w = (.error .failed, w') := by
  -- the first operation that fails ends the program
  by_cases hcreate : CanOpen (faults .createText) textfile true w
  swap
  · obtain ⟨files', -, hopen⟩ := openFile_error hcreate
    exact ⟨_, bind_error hopen⟩
  have hsame := openFile_leaves (γ := Char) (Ne.symm hne) (faults .createText) true w
  rw [openFile_ok hcreate] at hsame
  rw [writeText, bind_ok (openFile_ok hcreate)]
  by_cases hedit : CanOpen (faults .openEdit) .editFile false w
  swap
  · obtain ⟨files', -, hopen⟩ := openFile_error (mt (hsame.canOpen_iff _ _).mp hedit)
    exact ⟨_, bind_error hopen⟩
  rw [bind_ok (openFile_ok ((hsame.canOpen_iff _ _).mpr hedit))]
  by_cases hread : faults .readEdit = none
  swap
  · exact ⟨_, bind_error (readFile_error hread _ _)⟩
  obtain ⟨inbuf, hin⟩ : ∃ b, (Function.update (Function.update w.files textfile
      (some ((w.files textfile).getD []))) .editFile
      (some ((Function.update w.files textfile (some ((w.files textfile).getD []))
        .editFile).getD []))) .editFile = some b := ⟨_, Function.update_self ..⟩
  rw [bind_ok (readFile_ok hread hin)]
  by_cases hclose : faults .closeEdit = none
  swap
  · exact ⟨_, bind_error (closeFile_error hclose _ _)⟩
  rw [bind_ok (closeFile_ok hclose ..)]
  by_cases hwrite : faults .writeText = some .call
  · exact ⟨_, bind_error (writeFile_error hwrite _ _ _)⟩
  rw [bind_ok (writeFile_ok hwrite ..)]
  have hclosed : faults .closeText ≠ none :=
    fun hclosed => h ⟨hcreate, hedit, hread, hclose, hwrite, hclosed⟩
  exact ⟨_, closeFile_error hclosed _ _⟩

/-- What the text file is written from and to, the list stays as it is. -/
theorem writeText_leaves (faults : SaveFaults) (textfile : SavePath) (fbuf : CString → CString)
    {q : SavePath} (htext : q ≠ textfile) (hedit : q ≠ .editFile) :
    Leaves q (writeText faults textfile fbuf) :=
  (openFile_leaves htext _ _).bind fun _ =>
    (openFile_leaves hedit _ _).bind fun _ =>
      (readFile_leaves _ _ _).bind fun _ =>
        (closeFile_leaves hedit _).bind fun _ =>
          (writeFile_leaves htext _ _).bind fun _ => closeFile_leaves htext _

/-- The number after `last_text` is taken whenever the list has an entry. -/
theorem nextNumber_entry {conf : Int} {buf next : CString} {ce : ConfEntry}
    (h : confEntry conf buf = .entry ce next) :
    ∃ nbuf, replaceConf { ce with lastText := ce.lastText + 1 } buf = some (some nbuf) ∧
      nextNumber conf buf = pure ({ ce with lastText := ce.lastText + 1 }, nbuf) := by
  obtain ⟨nbuf, hrep⟩ := replaceConf_entry h { ce with lastText := ce.lastText + 1 } rfl
  refine ⟨nbuf, hrep, ?_⟩
  simp only [nextNumber, h, hrep]

/-- The two files of a target are never the editor's file, and not each other. -/
structure SaveTarget.Apart (t : SaveTarget) : Prop where
  conf : t.conffile ≠ .editFile
  text : ∀ num, t.textfile num ≠ .editFile
  both : ∀ num, t.conffile ≠ t.textfile num

theorem saveTarget_apart (conf : Int) : (saveTarget conf).Apart := by
  unfold saveTarget
  split <;> constructor <;> simp

theorem copyTarget_apart (uid : Int) : (copyTarget uid).Apart := by
  constructor <;> simp [copyTarget]

theorem saveInto_leaves (faults : SaveFaults) (t : SaveTarget) (fbuf : Int → CString → CString)
    {q : SavePath} (hconf : q ≠ t.conffile) (htext : ∀ num, q ≠ t.textfile num)
    (hedit : q ≠ .editFile) : Leaves q (saveInto faults t fbuf) := by
  refine (openFile_leaves hconf _ _).bind fun _ => (readFile_leaves _ _ _).bind fun oldbuf => ?_
  refine Leaves.bind ?_ fun cn => ?_
  · unfold nextNumber
    split
    next => exact .stop _ _
    next => exact .stop _ _
    next =>
      dsimp only
      split
      next => exact .stop _ _
      next => exact .stop _ _
      next => exact .pure _ _
  · exact (writeText_leaves _ _ _ (htext _) hedit).bind fun _ =>
      (writeFile_leaves hconf _ _).bind fun _ =>
        (closeFile_leaves hconf _).bind fun _ => .pure _ _

/-- The list is opened and read, it has the entry, and nothing fails before it is written. -/
structure ListWritten (faults : SaveFaults) (t : SaveTarget) (w : SaveWorld) (ce : ConfEntry) :
    Prop where
  create : TextWritten faults (t.textfile (ce.lastText + 1)) w
  write : faults .writeConf ≠ some .call

/-- Opening a file that exists only takes its lock. -/
theorem openFile_found {fault : Option Fault} {p : SavePath} {w : SaveWorld} {b : CString}
    (h : CanOpen fault p false w) (hb : w.files p = some b) :
    openFile fault p false w = (.ok (), { w with fds := p :: w.fds }) := by
  rw [openFile_ok h, hb, Option.getD_some, ← hb, Function.update_eq_self]

theorem sameAt_locked {p q : SavePath} (hq : q ≠ p) (w : SaveWorld) :
    SameAt q w { w with fds := p :: w.fds } := ⟨rfl, by simp [hq], Iff.rfl⟩

theorem SameAt.textWritten_iff {textfile : SavePath} {w w' : SaveWorld}
    (htext : SameAt textfile w w') (hedit : SameAt .editFile w w') (faults : SaveFaults) :
    TextWritten faults textfile w' ↔ TextWritten faults textfile w := by
  constructor
  · intro h
    exact { h with create := (htext.canOpen_iff _ _).mp h.create
                   edit := (hedit.canOpen_iff _ _).mp h.edit }
  · intro h
    exact { h with create := (htext.canOpen_iff _ _).mpr h.create
                   edit := (hedit.canOpen_iff _ _).mpr h.edit }

section Half

variable {faults : SaveFaults} {t : SaveTarget} {w : SaveWorld} {oldbuf : CString}

theorem saveInto_notOpened (h : ¬ CanOpen (faults .openConf) t.conffile false w)
    (fbuf : Int → CString → CString) : saveInto faults t fbuf w = (.error .failed, w) := by
  obtain ⟨files', hkept, hopen⟩ := openFile_error h
  rw [hkept rfl] at hopen
  exact bind_error hopen

/-- The list was not read, or it has no entry: the lock is kept. -/
theorem saveInto_noEntry (hopen : CanOpen (faults .openConf) t.conffile false w)
    (hold : w.files t.conffile = some oldbuf)
    (h : faults .readConf ≠ none ∨ confEntry t.conf oldbuf = .null)
    (fbuf : Int → CString → CString) :
    saveInto faults t fbuf w = (.error .failed, { w with fds := t.conffile :: w.fds }) := by
  rw [saveInto, bind_ok (openFile_found hopen hold)]
  by_cases hread : faults .readConf = none
  · have hnull := h.resolve_left (not_not_intro hread)
    have hr := readFile_ok (w := { w with fds := t.conffile :: w.fds }) hread hold
    rw [bind_ok hr]
    refine bind_error ?_
    simp only [nextNumber, hnull, stop_run]
  · exact bind_error (readFile_error hread _ _)

theorem saveInto_crash (hopen : CanOpen (faults .openConf) t.conffile false w)
    (hold : w.files t.conffile = some oldbuf) (hread : faults .readConf = none)
    (hcrash : confEntry t.conf oldbuf = .crash) (fbuf : Int → CString → CString) :
    saveInto faults t fbuf w = (.error .crash, { w with fds := t.conffile :: w.fds }) := by
  have hr := readFile_ok (w := { w with fds := t.conffile :: w.fds }) hread hold
  rw [saveInto, bind_ok (openFile_found hopen hold), bind_ok hr]
  refine bind_error ?_
  simp only [nextNumber, hcrash, stop_run]

variable {ce : ConfEntry} {next : CString}

/-- The list has the entry, and an operation fails before the list is written. -/
theorem saveInto_notWritten (ht : t.Apart) (hopen : CanOpen (faults .openConf) t.conffile false w)
    (hold : w.files t.conffile = some oldbuf) (hread : faults .readConf = none)
    (hentry : confEntry t.conf oldbuf = .entry ce next) (h : ¬ ListWritten faults t w ce)
    (fbuf : Int → CString → CString) :
    ∃ w', saveInto faults t fbuf w = (.error .failed, w') ∧
      SameAt t.conffile { w with fds := t.conffile :: w.fds } w' := by
  set w₁ : SaveWorld := { w with fds := t.conffile :: w.fds } with hw₁
  have hr := readFile_ok (w := w₁) hread hold
  obtain ⟨nbuf, -, hnext⟩ := nextNumber_entry hentry
  rw [saveInto, bind_ok (openFile_found hopen hold), ← hw₁, bind_ok hr, hnext,
    bind_ok (pure_run _ _)]
  dsimp only
  set num := ce.lastText + 1
  have hkeeps := writeText_leaves faults (t.textfile num) (fbuf num) (ht.both num) ht.conf w₁
  by_cases htext : TextWritten faults (t.textfile num) w₁
  · -- the text file is complete, so the list itself cannot be written
    have hwrite : faults .writeConf = some .call := by
      by_contra hwrite
      have htext' := (SameAt.textWritten_iff (sameAt_locked (Ne.symm (ht.both num)) w)
        (sameAt_locked (Ne.symm ht.conf) w) faults).mp htext
      exact h ⟨htext', hwrite⟩
    obtain ⟨inbuf, hin⟩ : ∃ inbuf, w₁.files .editFile = some inbuf := by
      cases hin : w₁.files .editFile with
      | none => exact absurd (htext.edit.found hin) (by decide)
      | some inbuf => exact ⟨inbuf, rfl⟩
    have hrun := writeText_ok htext (ht.text num) hin (fbuf num)
    rw [hrun] at hkeeps
    rw [bind_ok hrun]
    exact ⟨_, bind_error (writeFile_error hwrite _ _ _), hkeeps⟩
  · obtain ⟨w', hrun⟩ := writeText_error htext (ht.text num) (fbuf num)
    rw [hrun] at hkeeps
    exact ⟨w', bind_error hrun, hkeeps⟩

/-- The list is written: it is unlocked again in any case. -/
theorem saveInto_written (ht : t.Apart) (hopen : CanOpen (faults .openConf) t.conffile false w)
    (hold : w.files t.conffile = some oldbuf) (hread : faults .readConf = none)
    (hentry : confEntry t.conf oldbuf = .entry ce next) (h : ListWritten faults t w ce)
    (fbuf : Int → CString → CString) :
    ∃ nbuf inbuf, replaceConf { ce with lastText := ce.lastText + 1 } oldbuf = some (some nbuf) ∧
      w.files .editFile = some inbuf ∧
      saveInto faults t fbuf w =
        (if faults .closeConf = none then .ok (ce.lastText + 1) else .error .failed,
          { files := Function.update (Function.update w.files (t.textfile (ce.lastText + 1))
              (some (afterWrite (faults .writeText)
                ((w.files (t.textfile (ce.lastText + 1))).getD [])
                (fbuf (ce.lastText + 1) inbuf)))) t.conffile
              (some (afterWrite (faults .writeConf) oldbuf nbuf)),
            fds := w.fds,
            written := t.conffile :: t.textfile (ce.lastText + 1) :: w.written }) := by
  set w₁ : SaveWorld := { w with fds := t.conffile :: w.fds } with hw₁
  have hr := readFile_ok (w := w₁) hread hold
  obtain ⟨nbuf, hrep, hnext⟩ := nextNumber_entry hentry
  set num := ce.lastText + 1
  have htext : TextWritten faults (t.textfile num) w₁ :=
    (SameAt.textWritten_iff (sameAt_locked (Ne.symm (ht.both num)) w)
      (sameAt_locked (Ne.symm ht.conf) w) faults).mpr h.create
  obtain ⟨inbuf, hin⟩ : ∃ inbuf, w₁.files .editFile = some inbuf := by
    cases hin : w₁.files .editFile with
    | none => exact absurd (htext.edit.found hin) (by decide)
    | some inbuf => exact ⟨inbuf, rfl⟩
  have hrun := writeText_ok htext (ht.text num) hin (fbuf num)
  refine ⟨nbuf, inbuf, hrep, hin, ?_⟩
  rw [saveInto, bind_ok (openFile_found hopen hold), ← hw₁, bind_ok hr, hnext,
    bind_ok (pure_run _ _)]
  dsimp only
  rw [bind_ok hrun, bind_ok (writeFile_ok h.write ..)]
  have hlist : Function.update w.files (t.textfile num) (some (afterWrite (faults .writeText)
      ((w.files (t.textfile num)).getD []) (fbuf num inbuf))) t.conffile = some oldbuf := by
    rw [Function.update_of_ne (ht.both num), hold]
  by_cases hclose : faults .closeConf = none
  · rw [bind_ok (closeFile_ok hclose ..), if_pos hclose, pure_run]
    simp only [hw₁, hlist, Option.getD_some, List.erase_cons_head]
  · rw [bind_error (closeFile_error hclose _ _), if_neg hclose]
    simp only [hw₁, hlist, Option.getD_some, List.erase_cons_head]

end Half

/-! ## What a failed post leaves behind -/

/-- The list is as it was and can be locked, and no text was added. -/
structure Untouched (t : SaveTarget) (w w' : SaveWorld) : Prop where
  list : w'.files t.conffile = w.files t.conffile
  unlocked : t.conffile ∉ w'.fds
  noText : ∀ oldbuf ce next, w.files t.conffile = some oldbuf →
    confEntry t.conf oldbuf = .entry ce next → w.files (t.textfile (ce.lastText + 1)) = none →
      w'.files (t.textfile (ce.lastText + 1)) = none

/-- When -1 is returned and the list was not written, nothing is left. -/
def LeavesNoTrace {α : Type} (t : SaveTarget) (w : SaveWorld) (r : Except Stop α × SaveWorld) :
    Prop :=
  r.1 = .error .failed → t.conffile ∉ r.2.written → Untouched t w r.2

/-- The list was opened and read, and `get_conf_entry` runs off its end. -/
def ListCrashes (faults : SaveFaults) (t : SaveTarget) (w : SaveWorld) : Prop :=
  CanOpen (faults .openConf) t.conffile false w ∧ ∃ oldbuf, w.files t.conffile = some oldbuf ∧
    faults .readConf = none ∧ confEntry t.conf oldbuf = .crash

/-- The list was opened and read, it has the entry, and nothing fails before it is written. -/
def ListSaved (faults : SaveFaults) (t : SaveTarget) (w : SaveWorld) : Prop :=
  CanOpen (faults .openConf) t.conffile false w ∧ ∃ oldbuf ce next,
    w.files t.conffile = some oldbuf ∧ faults .readConf = none ∧
    confEntry t.conf oldbuf = .entry ce next ∧ ListWritten faults t w ce

/-- The first operation fails and the list was not locked before, or no operation up to the
writing of the list does and the list has the entry. -/
def SavesCleanly (faults : SaveFaults) (t : SaveTarget) (w : SaveWorld) : Prop :=
  t.conffile ∉ w.fds ∧
    (CanOpen (faults .openConf) t.conffile false w → ListCrashes faults t w ∨ ListSaved faults t w)

/-- How one half of `save_text` ends. -/
theorem saveInto_cases (faults : SaveFaults) {t : SaveTarget} (ht : t.Apart) (w : SaveWorld)
    (fbuf : Int → CString → CString) :
    (¬ CanOpen (faults .openConf) t.conffile false w ∧
        saveInto faults t fbuf w = (.error .failed, w)) ∨
      (ListCrashes faults t w ∧ ∃ w', saveInto faults t fbuf w = (.error .crash, w')) ∨
      (CanOpen (faults .openConf) t.conffile false w ∧ ¬ ListCrashes faults t w ∧
        ¬ ListSaved faults t w ∧ ∃ w', saveInto faults t fbuf w = (.error .failed, w') ∧
          SameAt t.conffile { w with fds := t.conffile :: w.fds } w') ∨
      (ListSaved faults t w ∧ ∃ num w', saveInto faults t fbuf w =
          (if faults .closeConf = none then .ok num else .error .failed, w') ∧
        t.conffile ∈ w'.written ∧ SameAt .editFile w w') := by
  by_cases hopen : CanOpen (faults .openConf) t.conffile false w
  swap
  · exact Or.inl ⟨hopen, saveInto_notOpened hopen fbuf⟩
  obtain ⟨oldbuf, hold⟩ : ∃ oldbuf, w.files t.conffile = some oldbuf := by
    cases hold : w.files t.conffile with
    | none => exact absurd (hopen.found hold) (by decide)
    | some oldbuf => exact ⟨oldbuf, rfl⟩
  have hcrash : ListCrashes faults t w →
      faults .readConf = none ∧ confEntry t.conf oldbuf = .crash := by
    rintro ⟨-, b, hb, hread, hc⟩
    rw [hold] at hb
    cases hb
    exact ⟨hread, hc⟩
  have hsaved : ListSaved faults t w → faults .readConf = none ∧ ∃ ce next,
      confEntry t.conf oldbuf = .entry ce next ∧ ListWritten faults t w ce := by
    rintro ⟨-, b, ce, next, hb, hread, hentry, hwritten⟩
    rw [hold] at hb
    cases hb
    exact ⟨hread, ce, next, hentry, hwritten⟩
  have hlock : SameAt t.conffile { w with fds := t.conffile :: w.fds }
      { w with fds := t.conffile :: w.fds } := .refl _ _
  by_cases hread : faults .readConf = none
  swap
  · refine Or.inr (Or.inr (Or.inl ⟨hopen, fun h => hread (hcrash h).1, fun h => hread (hsaved h).1,
      _, saveInto_noEntry hopen hold (Or.inl hread) fbuf, hlock⟩))
  cases hentry : confEntry t.conf oldbuf with
  | crash =>
    exact Or.inr (Or.inl ⟨⟨hopen, oldbuf, hold, hread, hentry⟩, _,
      saveInto_crash hopen hold hread hentry fbuf⟩)
  | null =>
    rw [hentry] at hcrash hsaved
    refine Or.inr (Or.inr (Or.inl ⟨hopen, fun h => ?_, fun h => ?_,
      _, saveInto_noEntry hopen hold (Or.inr hentry) fbuf, hlock⟩))
    · cases (hcrash h).2
    · obtain ⟨-, ce, next, hce, -⟩ := hsaved h
      cases hce
  | entry ce next =>
    rw [hentry] at hcrash hsaved
    by_cases hwritten : ListWritten faults t w ce
    · obtain ⟨nbuf, inbuf, -, -, hrun⟩ :=
        saveInto_written ht hopen hold hread hentry hwritten fbuf
      refine Or.inr (Or.inr (Or.inr ⟨⟨hopen, oldbuf, ce, next, hold, hread, hentry, hwritten⟩,
        _, _, hrun, List.mem_cons_self, ?_, Iff.rfl, ?_⟩))
      · exact (Function.update_of_ne (Ne.symm ht.conf) _ _).trans
          (Function.update_of_ne (Ne.symm (ht.text _)) _ _)
      · simp [Ne.symm ht.conf, Ne.symm (ht.text _)]
    · obtain ⟨w', hrun, hsame⟩ := saveInto_notWritten ht hopen hold hread hentry hwritten fbuf
      refine Or.inr (Or.inr (Or.inl ⟨hopen, fun h => ?_, fun h => ?_, w', hrun, hsame⟩))
      · cases (hcrash h).2
      · obtain ⟨-, ce', next', hce, hw'⟩ := hsaved h
        cases hce
        exact hwritten hw'

/-- One half leaves no trace exactly when it fails at once or writes the list. -/
theorem saveInto_leavesNoTrace_iff (faults : SaveFaults) {t : SaveTarget} (ht : t.Apart)
    {w : SaveWorld} (hnew : t.conffile ∉ w.written) (fbuf : Int → CString → CString) :
    LeavesNoTrace t w (saveInto faults t fbuf w) ↔ SavesCleanly faults t w := by
  rcases saveInto_cases faults ht w fbuf with ⟨hopen, hrun⟩ | ⟨hcrash, w', hrun⟩ |
    ⟨hopen, hcrash, hsaved, w', hrun, hsame⟩ | ⟨hsaved, num, w', hrun, hwritten, -⟩
  · rw [hrun]
    constructor
    · intro h
      exact ⟨(h rfl hnew).unlocked, fun ho => absurd ho hopen⟩
    · intro h _ _
      exact ⟨rfl, h.1, fun _ _ _ _ _ hnone => hnone⟩
  · rw [hrun]
    refine iff_of_true (fun he => ?_) ⟨hcrash.1.free, fun _ => Or.inl hcrash⟩
    cases he
  · rw [hrun]
    -- the lock of the list is still held
    refine iff_of_false (fun h => ?_) (fun h => (h.2 hopen).elim hcrash hsaved)
    exact (h rfl (mt hsame.written.mp hnew)).unlocked (hsame.fds.mpr List.mem_cons_self)
  · rw [hrun]
    exact iff_of_true (fun _ h => absurd hwritten h) ⟨hsaved.1.free, fun _ => Or.inr hsaved⟩

/-- The two halves of `save_text`. -/
def saveTargets (uid : Int) (copy : Bool) (conf : Int) : List SaveTarget :=
  if savesCopy uid copy conf then [saveTarget conf, copyTarget uid] else [saveTarget conf]

/-- The condition of each half, the second being reached only when the first has saved its text. -/
def PostsCleanly (faults copyFaults : SaveFaults) (uid : Int) (copy : Bool) (conf : Int)
    (w : SaveWorld) : Prop :=
  SavesCleanly faults (saveTarget conf) w ∧
    (savesCopy uid copy conf → ¬ ListCrashes faults (saveTarget conf) w →
      (copyTarget uid).conffile ∉ w.fds ∧
      (ListSaved faults (saveTarget conf) w → faults .closeConf = none →
        SavesCleanly copyFaults (copyTarget uid) w))

/-- What the first half is about is nothing to the copy. -/
structure CopyApart (w w' : SaveWorld) (uid : Int) : Prop where
  conf : SameAt (copyTarget uid).conffile w w'
  text : ∀ num, SameAt ((copyTarget uid).textfile num) w w'

theorem saveInto_copyApart {uid : Int} {copy : Bool} {conf : Int} (h : savesCopy uid copy conf)
    (faults : SaveFaults) (fbuf : Int → CString → CString) (w : SaveWorld) :
    CopyApart w (saveInto faults (saveTarget conf) fbuf w).2 uid := by
  have htarget : saveTarget conf = ⟨.mailbox (-conf), .mail (-conf), 0⟩ := by
    simp only [saveTarget, if_pos h.1]
  have hne : uid ≠ -conf := Ne.symm h.2.2
  rw [htarget]
  constructor
  · apply saveInto_leaves <;> simp [copyTarget, hne]
  · intro num
    apply saveInto_leaves <;> simp [copyTarget, hne]

theorem CopyApart.untouched_iff {w w₁ w' : SaveWorld} {uid : Int} (h : CopyApart w w₁ uid) :
    Untouched (copyTarget uid) w₁ w' ↔ Untouched (copyTarget uid) w w' := by
  constructor
  · intro hu
    refine ⟨hu.list.trans h.conf.files, hu.unlocked, fun oldbuf ce next hold hentry hnone => ?_⟩
    exact hu.noText oldbuf ce next (h.conf.files.trans hold) hentry
      ((h.text _).files.trans hnone)
  · intro hu
    refine ⟨hu.list.trans h.conf.files.symm, hu.unlocked, fun oldbuf ce next hold hentry hnone => ?_⟩
    exact hu.noText oldbuf ce next (h.conf.files.symm.trans hold) hentry
      ((h.text _).files.symm.trans hnone)

theorem CopyApart.savesCleanly_iff {w w₁ : SaveWorld} {uid : Int} (h : CopyApart w w₁ uid)
    (hedit : SameAt .editFile w w₁) (faults : SaveFaults) :
    SavesCleanly faults (copyTarget uid) w₁ ↔ SavesCleanly faults (copyTarget uid) w := by
  have hopen := h.conf.canOpen_iff (faults .openConf) false
  have hcrash : ListCrashes faults (copyTarget uid) w₁ ↔ ListCrashes faults (copyTarget uid) w := by
    simp only [ListCrashes, hopen, h.conf.files]
  have hwritten : ∀ ce, ListWritten faults (copyTarget uid) w₁ ce ↔
      ListWritten faults (copyTarget uid) w ce := by
    intro ce
    have htext := SameAt.textWritten_iff (h.text (ce.lastText + 1)) hedit faults
    exact ⟨fun hl => ⟨htext.mp hl.create, hl.write⟩, fun hl => ⟨htext.mpr hl.create, hl.write⟩⟩
  have hsaved : ListSaved faults (copyTarget uid) w₁ ↔ ListSaved faults (copyTarget uid) w := by
    simp only [ListSaved, hopen, h.conf.files, hwritten]
  simp only [SavesCleanly, h.conf.fds, hopen, hcrash, hsaved]

/-- An end that always succeeds changes nothing about a failure. -/
theorem leavesNoTrace_bind {α β : Type} {t : SaveTarget} {w w₀ : SaveWorld} {x : SaveOp α}
    {f : α → SaveOp β} (hf : ∀ a w, ∃ b w', f a w = (.ok b, w')) :
    LeavesNoTrace t w ((x >>= f) w₀) ↔ LeavesNoTrace t w (x w₀) := by
  rcases hx : x w₀ with ⟨r, w'⟩
  cases r with
  | error e =>
    rw [bind_error hx]
    exact ⟨fun h he => h (by cases he; rfl), fun h he => h (by cases he; rfl)⟩
  | ok a =>
    obtain ⟨b, w'', hfa⟩ := hf a w'
    rw [bind_ok hx, hfa]
    exact iff_of_true (fun he => by cases he) (fun he => by cases he)

/-- The second half saves nothing where the first one did. -/
theorem saveRest_leaves (copyFaults : SaveFaults) (uid : Int) (copy : Bool) (th : TextHeader)
    (conf num : Int) :
    Leaves (saveTarget conf).conffile (saveRest copyFaults uid copy th conf num) := by
  have hend : ∀ num, Leaves (saveTarget conf).conffile (do unlink .editFile; pure num :
      SaveOp Int) := by
    intro num w
    have hne := (saveTarget_apart conf).conf
    exact ⟨Function.update_of_ne hne _ _, Iff.rfl, Iff.rfl⟩
  unfold saveRest
  split
  next hcopy =>
    have htarget : saveTarget conf = ⟨.mailbox (-conf), .mail (-conf), 0⟩ := by
      simp only [saveTarget, if_pos hcopy.1]
    have hne := hcopy.2.2
    refine Leaves.bind ?_ hend
    rw [htarget]
    apply saveInto_leaves <;> simp [copyTarget, hne]
  next => exact hend num

section Whole

variable (faults copyFaults : SaveFaults) (uid : Int) (copy : Bool) (th : TextHeader) (conf : Int)
  {w : SaveWorld}

/-- The first half decides about its own list. -/
theorem saveTextOps_target_iff (hnew : (saveTarget conf).conffile ∉ w.written) :
    LeavesNoTrace (saveTarget conf) w (saveTextOps faults copyFaults uid copy th conf w) ↔
      SavesCleanly faults (saveTarget conf) w := by
  have ht := saveTarget_apart conf
  set fbuf : Int → CString → CString := fun num inbuf => textBytes num th inbuf with hfbuf
  rw [← saveInto_leavesNoTrace_iff faults ht hnew fbuf, saveTextOps, ← hfbuf]
  rcases hfirst : saveInto faults (saveTarget conf) fbuf w with ⟨r, w'⟩
  cases r with
  | error e =>
    rw [bind_error hfirst]
  | ok num =>
    -- the list is written, and stays so
    have hwritten : (saveTarget conf).conffile ∈ w'.written := by
      rcases saveInto_cases faults ht w fbuf with ⟨-, hrun⟩ | ⟨-, w'', hrun⟩ |
        ⟨-, -, -, w'', hrun, -⟩ | ⟨-, num, w'', hrun, hwritten, -⟩
      · rw [hfirst] at hrun
        cases hrun
      · rw [hfirst] at hrun
        cases hrun
      · rw [hfirst] at hrun
        cases hrun
      · rw [hfirst] at hrun
        rw [(Prod.mk.inj hrun).2]
        exact hwritten
    have hrest := saveRest_leaves copyFaults uid copy th conf num w'
    rw [bind_ok hfirst]
    exact iff_of_true (fun _ h => absurd (hrest.written.mpr hwritten) h) (fun he => by cases he)

/-- The sender's list is touched only when the first half has saved its text. -/
theorem saveTextOps_copy_iff (hcopy : savesCopy uid copy conf)
    (hnew : (copyTarget uid).conffile ∉ w.written) :
    LeavesNoTrace (copyTarget uid) w (saveTextOps faults copyFaults uid copy th conf w) ↔
      (¬ ListCrashes faults (saveTarget conf) w → (copyTarget uid).conffile ∉ w.fds ∧
        (ListSaved faults (saveTarget conf) w → faults .closeConf = none →
          SavesCleanly copyFaults (copyTarget uid) w)) := by
  have ht := saveTarget_apart conf
  set fbuf : Int → CString → CString := fun num inbuf => textBytes num th inbuf with hfbuf
  have hapart := saveInto_copyApart hcopy faults fbuf w
  have hnot : ∀ w', CopyApart w w' uid → (LeavesNoTrace (α := Int) (copyTarget uid) w
      (.error .failed, w') ↔ (copyTarget uid).conffile ∉ w.fds) := by
    intro w' hsame
    constructor
    · intro h hmem
      exact (h rfl (mt hsame.conf.written.mp hnew)).unlocked (hsame.conf.fds.mpr hmem)
    · intro h _ _
      exact hsame.untouched_iff.mp ⟨rfl, mt hsame.conf.fds.mp h, fun _ _ _ _ _ hnone => hnone⟩
  rw [saveTextOps, ← hfbuf]
  rcases saveInto_cases faults ht w fbuf with ⟨hopen, hrun⟩ | ⟨hcrash, w', hrun⟩ |
    ⟨-, hcrash, hsaved, w', hrun, -⟩ | ⟨hsaved, num, w', hrun, -, hedit⟩
  · rw [bind_error hrun, hnot w ⟨.refl _ _, fun _ => .refl _ _⟩]
    exact ⟨fun h _ => ⟨h, fun hs => absurd hs.1 hopen⟩, fun h => (h fun hc => hopen hc.1).1⟩
  · rw [bind_error hrun]
    exact iff_of_true (fun he => by cases he) (fun h => absurd hcrash h)
  · rw [hrun] at hapart
    rw [bind_error hrun, hnot w' hapart]
    exact ⟨fun h _ => ⟨h, fun hs => absurd hs hsaved⟩, fun h => (h hcrash).1⟩
  · rw [hrun] at hapart
    have hcrash : ¬ ListCrashes faults (saveTarget conf) w := by
      rintro ⟨-, b, hb, -, hc⟩
      obtain ⟨-, b', ce, next, hb', -, hentry, -⟩ := hsaved
      rw [hb] at hb'
      cases hb'
      rw [hc] at hentry
      cases hentry
    by_cases hclose : faults .closeConf = none
    · rw [if_pos hclose] at hrun
      have hend : LeavesNoTrace (copyTarget uid) w (saveRest copyFaults uid copy th conf num w') ↔
          LeavesNoTrace (copyTarget uid) w (saveInto copyFaults (copyTarget uid)
            (fun num inbuf => copyBytes (-conf) num th inbuf) w') := by
        rw [saveRest, if_pos hcopy]
        exact leavesNoTrace_bind fun a w => ⟨_, _, rfl⟩
      rw [bind_ok hrun, hend]
      have hhalf := saveInto_leavesNoTrace_iff copyFaults (copyTarget_apart uid)
        (mt hapart.conf.written.mp hnew) (fun num inbuf => copyBytes (-conf) num th inbuf)
      rw [hapart.savesCleanly_iff hedit] at hhalf
      simp only [LeavesNoTrace, hapart.untouched_iff] at hhalf ⊢
      rw [hhalf]
      exact ⟨fun h _ => ⟨h.1, fun _ _ => h⟩, fun h => (h hcrash).2 hsaved hclose⟩
    · rw [if_neg hclose] at hrun
      rw [bind_error hrun, hnot w' hapart]
      exact ⟨fun h _ => ⟨h, fun _ hc => absurd hc hclose⟩, fun h => (h hcrash).1⟩

/-- With the failures of the operations as they may be, a post that returns -1 before it has
written a list leaves that list as it was, unlocked and without a new text, exactly when the open of
the list was what failed; every later failure, and a list without the entry, keep the lock. -/
theorem failed_post_leaves_no_trace_iff (files : SavePath → Option CString) (fds : List SavePath) :
    (∀ t ∈ saveTargets uid copy conf, LeavesNoTrace t (.start files fds)
        (saveTextOps faults copyFaults uid copy th conf (.start files fds))) ↔
      PostsCleanly faults copyFaults uid copy conf (.start files fds) := by
  have hnew : ∀ q, q ∉ (World.start files fds).written := fun q => List.not_mem_nil
  have htarget := saveTextOps_target_iff faults copyFaults uid copy th conf (hnew _)
  by_cases hcopy : savesCopy uid copy conf
  · have hsecond := saveTextOps_copy_iff faults copyFaults uid copy th conf hcopy (hnew _)
    have hts : saveTargets uid copy conf = [saveTarget conf, copyTarget uid] := if_pos hcopy
    rw [hts, List.forall_mem_cons, List.forall_mem_singleton, htarget, hsecond, PostsCleanly]
    exact ⟨fun h => ⟨h.1, fun _ => h.2⟩, fun h => ⟨h.1, h.2 hcopy⟩⟩
  · have hts : saveTargets uid copy conf = [saveTarget conf] := if_neg hcopy
    rw [hts, List.forall_mem_singleton, htarget, PostsCleanly]
    exact ⟨fun h => ⟨h, fun hc => absurd hc hcopy⟩, fun h => h.1⟩

end Whole

/-- The editor's file cannot be opened. -/
def editFault : SaveFaults := fun site => if site = .openEdit then some .call else none

/-- One conference with five texts, and a text in the editor. -/
def postWorld : SaveWorld :=
  .start (fun
    | .confFile => some "3:5:1:0:0:0:0:Test\n".toList
    | .editFile => some "a\n".toList
    | _ => none) []

/-- The list stays locked and an empty text 6 is left. -/
theorem failed_post_keeps_lock :
    ¬ ∀ t ∈ saveTargets 7 false 3, LeavesNoTrace t postWorld
      (saveTextOps editFault (fun _ => none) 7 false sampleHeader 3 postWorld) := by
  intro h
  have hlocked := (h (saveTarget 3) List.mem_cons_self rfl (by decide)).unlocked
  exact hlocked (by decide)

/-- Without failures the operations do to the list and the texts what `saveText` does. -/
theorem saveTextOps_saveText {conf : Int} (hconf : 0 ≤ conf) (copyFaults : SaveFaults) (uid : Int)
    (copy : Bool) (th : TextHeader) {w : SaveWorld} {oldbuf inbuf next : CString} {ce : ConfEntry}
    (hlist : w.files .confFile = some oldbuf) (hin : w.files .editFile = some inbuf)
    (hentry : confEntry conf oldbuf = .entry ce next) (hfds : w.fds = []) :
    ∃ board w', saveText th inbuf conf ⟨oldbuf, fun n => w.files (.text conf n)⟩ =
        some (ce.lastText + 1, board) ∧
      saveTextOps (fun _ => none) copyFaults uid copy th conf w = (.ok (ce.lastText + 1), w') ∧
      w'.files .confFile = some board.conffile ∧ (∀ n, w'.files (.text conf n) = board.texts n) ∧
      w'.files .editFile = none ∧ w'.fds = [] := by
  have htarget : saveTarget conf = ⟨.confFile, .text conf, conf⟩ :=
    if_neg (Int.not_lt.mpr hconf)
  have hcopy : ¬ savesCopy uid copy conf := fun h => absurd h.1 (Int.not_lt.mpr hconf)
  have hopens : ∀ {p : SavePath} {create : Bool}, (w.files p = none → create = true) →
      CanOpen none p create w := by
    intro p create hfound
    exact ⟨rfl, hfound, by rw [hfds]; exact List.not_mem_nil⟩
  have hwritten : ListWritten (fun _ => none) (saveTarget conf) w ce := by
    refine ⟨⟨hopens fun _ => rfl, hopens fun hnone => ?_, rfl, rfl, ?_, rfl⟩, ?_⟩
    · rw [hin] at hnone
      cases hnone
    · exact Option.some_ne_none _ ∘ Eq.symm
    · exact Option.some_ne_none _ ∘ Eq.symm
  rw [htarget] at hwritten
  have hopen : CanOpen none SavePath.confFile false w := by
    refine hopens fun hnone => ?_
    rw [hlist] at hnone
    cases hnone
  obtain ⟨nbuf, inbuf', hrep, hin', hrun⟩ := saveInto_written (t := ⟨.confFile, .text conf, conf⟩)
    (htarget ▸ saveTarget_apart conf) hopen hlist rfl hentry hwritten
    (fun num inbuf => textBytes num th inbuf)
  have hsame : inbuf' = inbuf := by
    rw [hin] at hin'
    exact (Option.some.inj hin').symm
  subst hsame
  rw [if_pos rfl] at hrun
  set num := ce.lastText + 1
  have hsave : saveText th inbuf' conf ⟨oldbuf, fun n => w.files (.text conf n)⟩ =
      some (num, ⟨nbuf, Function.update (fun n => w.files (.text conf n)) num
        (some (textBytes num th inbuf'))⟩) := by
    simp only [saveText, hentry, hrep, num]
  have hops : saveTextOps (fun _ => none) copyFaults uid copy th conf w = (.ok num,
      { files := Function.update (Function.update (Function.update w.files (.text conf num)
          (some (textBytes num th inbuf'))) .confFile (some nbuf)) .editFile none,
        fds := w.fds, written := .confFile :: .text conf num :: w.written }) := by
    rw [saveTextOps, htarget, bind_ok hrun, saveRest, if_neg hcopy]
    rfl
  refine ⟨_, _, hsave, hops, ?_, fun n => ?_, ?_, hfds⟩
  · dsimp only
    rw [Function.update_of_ne (by simp), Function.update_self]
  · dsimp only
    rw [Function.update_of_ne (by simp), Function.update_of_ne (by simp)]
    by_cases hn : n = num
    · rw [hn, Function.update_self, Function.update_self]
    · rw [Function.update_of_ne (by simp [hn]), Function.update_of_ne hn]
  · dsimp only
    rw [Function.update_self]

end SklaffKom
