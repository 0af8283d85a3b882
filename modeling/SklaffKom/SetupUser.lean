import SklaffKom.UserName
import SklaffKom.Lib.FaultyFiles

/-!
# The first login

`setup_new_user` makes the two directories of a user, copies the standard files into them, and adds a line
to the user file.  Every operation may fail, and the session ends then.
-/

open CString FaultyFiles

namespace SklaffKom

/-- The files with a standard version. -/
inductive Template where
  | confs
  | sklaffrc
  | mailbox
deriving DecidableEq, Repr

/-- The directories, the standard files, the copies of them, and the user file. -/
inductive SetupPath where
  | home
  | mbox
  | std (t : Template)
  | copy (t : Template)
  | userFile
deriving DecidableEq, Repr

/-- The operations of `copy_file`. -/
inductive CopySite where
  | openOld
  | readOld
  | openNew
  | writeNew
  | closeNew
  | closeOld
deriving DecidableEq, Repr

/-- The operations of `setup_new_user`. -/
inductive SetupSite where
  | makeHome
  | makeMbox
  | copy (t : Template) (s : CopySite)
  | openUser
  | readUser
  | writeUser
  | closeUser
deriving DecidableEq, Repr

/-- Which operations fail. -/
abbrev SetupFaults := SetupSite → Option Fault

abbrev SetupWorld := World SetupPath Char

abbrev SetupOp := Op SetupPath Char

/-- `copy_file` -/
def copyFileOps (faults : CopySite → Option Fault) (fil1 fil2 : SetupPath) : SetupOp Unit := do
  openFile (faults .openOld) fil1 false
  let buf ← readFile (faults .readOld) fil1
  openFile (faults .openNew) fil2 true
  writeFile (faults .writeNew) fil2 buf
  closeFile (faults .closeNew) fil2
  closeFile (faults .closeOld) fil1

/-- One of the standard files. -/
def copyStd (faults : SetupFaults) (t : Template) : SetupOp Unit :=
  copyFileOps (fun s => faults (.copy t s)) (.std t) (.copy t)

def addUserLine (faults : SetupFaults) (uid : Int) (gecos : CString) : SetupOp Unit := do
  openFile (faults .openUser) .userFile true
  let buf ← readFile (faults .readUser) .userFile
  writeFile (faults .writeUser) .userFile (appendNewUser uid gecos buf)
  closeFile (faults .closeUser) .userFile

/-- What follows the first directory. -/
def setupRest (faults : SetupFaults) (uid : Int) (gecos : CString) : SetupOp Unit := do
  makeDir (faults .makeMbox) .mbox
  copyStd faults .confs
  copyStd faults .sklaffrc
  copyStd faults .mailbox
  addUserLine faults uid gecos

def setupNewUser (faults : SetupFaults) (uid : Int) (gecos : CString) : SetupOp Unit :=
  if uid = 0 then stop .failed
  else do
    makeDir (faults .makeHome) .home
    setupRest faults uid gecos

/-- One operation fails. -/
def faultAt (site : SetupSite) (f : Fault) : SetupFaults := fun s => if s = site then some f else none

/-- Another session has the files; the descriptors and the locks of a session are gone with it. -/
def nextSession (w : SetupWorld) : SetupWorld := World.start w.files []

/-- A first login with one operation that fails. -/
def firstLogin (uid : UserUid) (gecos : Gecos) (site : SetupSite) (f : Fault) : SetupOp Unit :=
  setupNewUser (faultAt site f) uid.val gecos.val

theorem UserUid.ne_zero (uid : UserUid) : uid.val ≠ 0 := by
  have hpos := uid.property.1
  omega

/-- How many lines of the user file belong to the user. -/
def countOfUser (uid : Int) (userfile : CString) : Nat := (getlines userfile).countP (isLineOfUser uid)

/-- The user is new: no directories, and no line in the user file. -/
structure NewUser (uid : Int) (w : SetupWorld) : Prop where
  home : w.files .home = none
  mbox : w.files .mbox = none
  std : ∀ t, ∃ buf, w.files (.std t) = some buf
  wholeLines : WholeLines ((w.files .userFile).getD [])
  noLine : countOfUser uid ((w.files .userFile).getD []) = 0
  fds : w.fds = []

/-- The user has the directories, a copy of each standard file and one line; the lines of the others are the
same. -/
structure SetUp (uid : Int) (gecos : CString) (w w' : SetupWorld) : Prop where
  home : (w'.files .home).isSome = true
  mbox : (w'.files .mbox).isSome = true
  copies : ∀ t, w'.files (.copy t) = w.files (.std t)
  userFile : w'.files .userFile = some ((w.files .userFile).getD [] ++ newUserLine uid 0 (gecosName gecos))
  oneLine : countOfUser uid ((w'.files .userFile).getD []) = 1
  fds : w'.fds = []

variable {uid : Int} {gecos : CString} {w : SetupWorld}

/-! ## What stays -/

theorem copyFileOps_leaves {q fil1 fil2 : SetupPath} (h1 : q ≠ fil1) (h2 : q ≠ fil2)
    (faults : CopySite → Option Fault) : FaultyFiles.Leaves q (copyFileOps faults fil1 fil2) :=
  (openFile_leaves h1 _ _).bind fun _ => (readFile_leaves _ _ _).bind fun _ =>
    (openFile_leaves h2 _ _).bind fun _ => (writeFile_leaves h2 _ _).bind fun _ =>
      (closeFile_leaves h2 _).bind fun _ => closeFile_leaves h1 _

/-- Nothing removes the home directory. -/
theorem setupRest_leaves_home (faults : SetupFaults) (uid : Int) (gecos : CString) :
    FaultyFiles.Leaves .home (setupRest faults uid gecos) := by
  have hcopy (t : Template) : FaultyFiles.Leaves .home (copyStd faults t) :=
    copyFileOps_leaves (by simp) (by simp) _
  unfold setupRest
  refine (makeDir_leaves (by decide) _).bind fun _ => (hcopy _).bind fun _ => (hcopy _).bind fun _ =>
    (hcopy _).bind fun _ => ?_
  unfold addUserLine
  exact (openFile_leaves (by decide) _ _).bind fun _ => (readFile_leaves _ _ _).bind fun _ =>
    (writeFile_leaves (by decide) _ _).bind fun _ => closeFile_leaves (by decide) _

/-- Every call after the first directory has been made fails at once. -/
theorem setupNewUser_of_home (hhome : (w.files .home).isSome = true) (faults : SetupFaults) :
    setupNewUser faults uid gecos w = (.error .failed, w) := by
  unfold setupNewUser
  split
  · rfl
  · exact bind_error (makeDir_error (Or.inr hhome))

/-! ## A call that succeeds -/

/-- The step succeeds, gives one file its contents and has no descriptor open afterwards. -/
structure Puts (x : SetupOp Unit) (p : SetupPath) (buf : CString) (w w' : SetupWorld) : Prop where
  run : x w = (.ok (), w')
  files : w'.files = Function.update w.files p (some buf)
  fds : w'.fds = []

theorem makeDir_puts {p : SetupPath} (hp : w.files p = none) (hfds : w.fds = []) :
    ∃ w', Puts (makeDir none p) p [] w w' :=
  ⟨_, makeDir_ok hp, rfl, hfds⟩

theorem copyFileOps_puts {fil1 fil2 : SetupPath} (hne : fil1 ≠ fil2) {buf : CString}
    (hold : w.files fil1 = some buf) (hfds : w.fds = []) :
    ∃ w', Puts (copyFileOps (fun _ => none) fil1 fil2) fil2 buf w w' := by
  have hopen : openFile none fil1 false w = (.ok (), { w with fds := [fil1] }) := by
    have hfound : w.files fil1 = none → false = true := by
      intro h
      rw [hold] at h
      cases h
    rw [openFile_ok ⟨rfl, hfound, by simp [hfds]⟩, hold, Option.getD_some, ← hold, Function.update_eq_self,
      hfds]
  have hread : readFile none fil1 { w with fds := [fil1] } = (.ok buf, { w with fds := [fil1] }) :=
    readFile_ok rfl hold
  have hcreate : openFile none fil2 true { w with fds := [fil1] } =
      (.ok (), { w with
        files := Function.update w.files fil2 (some ((w.files fil2).getD [])), fds := [fil2, fil1] }) :=
    openFile_ok ⟨rfl, fun _ => rfl, by simpa using hne.symm⟩
  refine ⟨⟨Function.update w.files fil2 (some buf), [], fil2 :: w.written⟩, ?_, rfl, rfl⟩
  unfold copyFileOps
  beta_reduce
  rw [bind_ok hopen, bind_ok hread, bind_ok hcreate, bind_ok (writeFile_ok (fun h => by cases h) _ _ _),
    bind_ok (closeFile_ok rfl _ _), closeFile_ok rfl]
  simp [afterWrite]

theorem copyStd_puts {t : Template} {buf : CString} (hold : w.files (.std t) = some buf) (hfds : w.fds = []) :
    ∃ w', Puts (copyStd (fun _ => none) t) (.copy t) buf w w' :=
  copyFileOps_puts (fun h => by cases h) hold hfds

theorem addUserLine_puts (hfds : w.fds = []) :
    ∃ w', Puts (addUserLine (fun _ => none) uid gecos) .userFile
      (appendNewUser uid gecos ((w.files .userFile).getD [])) w w' := by
  have hopen : openFile none SetupPath.userFile true w = (.ok (), { w with
      files := Function.update w.files .userFile (some ((w.files .userFile).getD [])), fds := [.userFile] }) := by
    rw [openFile_ok ⟨rfl, fun _ => rfl, by simp [hfds]⟩, hfds]
  have hread : readFile none SetupPath.userFile { w with
      files := Function.update w.files .userFile (some ((w.files .userFile).getD [])), fds := [.userFile] } =
      (.ok ((w.files .userFile).getD []), _) :=
    readFile_ok rfl (Function.update_self SetupPath.userFile _ w.files)
  refine ⟨⟨Function.update w.files .userFile (some (appendNewUser uid gecos ((w.files .userFile).getD []))),
    [], .userFile :: w.written⟩, ?_, rfl, rfl⟩
  unfold addUserLine
  rw [bind_ok hopen, bind_ok hread, bind_ok (writeFile_ok (fun h => by cases h) _ _ _), closeFile_ok rfl]
  simp [afterWrite]

/-- The new line is the only one of the user. -/
theorem countOfUser_append {buf : CString} (hbuf : WholeLines buf) (uid : UserUid) (gecos : Gecos) :
    countOfUser uid.val (buf ++ newUserLine uid.val 0 (gecosName gecos.val)) = countOfUser uid.val buf + 1 := by
  set u : UserEntry := ⟨uid.val, 0, gecosName gecos.val⟩
  have hname : '\n' ∉ u.name := fun hin => gecos.property.1 ((List.takeWhile_prefix _).subset hin)
  have hsession : -(longMax : Int) ≤ 0 ∧ 0 < (longMax : Int) := by decide
  have hu : u.Fits :=
    ⟨uid.property, hsession, hname, Nat.lt_of_le_of_lt (List.takeWhile_prefix _).length_le gecos.property.2⟩
  have hline : getlines (stringifyUserStruct u) = [stringifyUserStruct u] :=
    getlines_line (notMem_userLine hname) []
  have hmine : isLineOfUser uid.val (stringifyUserStruct u) = true := by
    have h := @isLineOfUser_stringify uid.val u hu []
    rw [List.append_nil] at h
    exact h.trans (beq_self_eq_true uid.val)
  show (getlines (buf ++ stringifyUserStruct u)).countP _ = _
  rw [getlines_append hbuf, hline, List.countP_append, List.countP_singleton, if_pos hmine]
  rfl

/-- A new user is set up when nothing fails. -/
theorem setupNewUser_ok {uid : UserUid} (h : NewUser uid.val w) (gecos : Gecos) :
    ∃ w', setupNewUser (fun _ => none) uid.val gecos.val w = (.ok (), w') ∧ SetUp uid.val gecos.val w w' := by
  obtain ⟨confs, hconfs⟩ := h.std .confs
  obtain ⟨rc, hrc⟩ := h.std .sklaffrc
  obtain ⟨box, hbox⟩ := h.std .mailbox
  obtain ⟨w1, h1⟩ := makeDir_puts h.home h.fds
  obtain ⟨w2, h2⟩ := @makeDir_puts w1 .mbox (by simp [h1.files, h.mbox]) h1.fds
  obtain ⟨w3, h3⟩ := @copyStd_puts w2 .confs confs (by simp [h2.files, h1.files, hconfs]) h2.fds
  obtain ⟨w4, h4⟩ := @copyStd_puts w3 .sklaffrc rc (by simp [h3.files, h2.files, h1.files, hrc]) h3.fds
  obtain ⟨w5, h5⟩ :=
    @copyStd_puts w4 .mailbox box (by simp [h4.files, h3.files, h2.files, h1.files, hbox]) h4.fds
  obtain ⟨w6, h6⟩ := @addUserLine_puts uid.val gecos.val w5 h5.fds
  have hrun : setupNewUser (fun _ => none) uid.val gecos.val w = (.ok (), w6) := by
    unfold setupNewUser setupRest
    rw [if_neg uid.ne_zero, bind_ok h1.run, bind_ok h2.run, bind_ok h3.run, bind_ok h4.run,
      bind_ok h5.run, h6.run]
  have huser : w5.files .userFile = w.files .userFile := by
    simp [h5.files, h4.files, h3.files, h2.files, h1.files]
  rw [huser] at h6
  refine ⟨w6, hrun, ?_⟩
  constructor
  · simp [h6.files, h5.files, h4.files, h3.files, h2.files, h1.files]
  · simp [h6.files, h5.files, h4.files, h3.files, h2.files, h1.files]
  · intro t
    cases t <;> simp [h6.files, h5.files, h4.files, h3.files, h2.files, h1.files, hconfs, hrc, hbox]
  · rw [h6.files, Function.update_self]
    rfl
  · rw [h6.files, Function.update_self, Option.getD_some]
    exact (countOfUser_append h.wholeLines uid gecos).trans (by rw [h.noLine])
  · exact h6.fds

/-! ## A session that failed -/

/-- `setup_new_user` can be repeated after its first operation has failed.  After any other failure the home
directory stays, so each later call finds it and fails without touching a file. -/
theorem setup_repeated (uid : UserUid) (gecos : Gecos) (h : NewUser uid.val w) (site : SetupSite) (f : Fault) :
    (site = .makeHome →
      (firstLogin uid gecos site f w).1 = .error .failed ∧
      ∃ w', setupNewUser (fun _ => none) uid.val gecos.val (nextSession (firstLogin uid gecos site f w).2) =
          (.ok (), w') ∧ SetUp uid.val gecos.val w w') ∧
    (site ≠ .makeHome → ∀ faults,
      setupNewUser faults uid.val gecos.val (nextSession (firstLogin uid gecos site f w).2) =
        (.error .failed, nextSession (firstLogin uid gecos site f w).2)) := by
  constructor
  · intro hsite
    have hfail : firstLogin uid gecos site f w = (.error .failed, w) := by
      unfold firstLogin setupNewUser
      rw [if_neg uid.ne_zero]
      exact bind_error (makeDir_error (Or.inl (by simp [faultAt, hsite])))
    rw [hfail]
    refine ⟨rfl, ?_⟩
    have hnext : NewUser uid.val (nextSession w) := ⟨h.home, h.mbox, h.std, h.wholeLines, h.noLine, rfl⟩
    obtain ⟨w', hrun, hset⟩ := setupNewUser_ok hnext gecos
    exact ⟨w', hrun, hset.home, hset.mbox, hset.copies, hset.userFile, hset.oneLine, hset.fds⟩
  · intro hsite faults
    apply setupNewUser_of_home
    show ((firstLogin uid gecos site f w).2.files .home).isSome = true
    have hnone : faultAt site f .makeHome = none := if_neg fun heq => hsite heq.symm
    unfold firstLogin setupNewUser
    rw [if_neg uid.ne_zero, hnone, bind_ok (makeDir_ok h.home), (setupRest_leaves_home _ _ _ _).files]
    simp

def freshSite : SetupWorld := World.start (fun
  | .std .confs => some "1:1:\n".toList
  | .std .sklaffrc => some "[sig]\n".toList
  | .std .mailbox => some []
  | _ => none) []

theorem freshSite_new : NewUser 1000 freshSite where
  home := rfl
  mbox := rfl
  std t := by cases t <;> exact ⟨_, rfl⟩
  wholeLines := WholeLines.nil
  noLine := rfl
  fds := rfl

def bo : UserUid := ⟨1000, by decide⟩

def boGecos : Gecos := ⟨"Bo,1".toList, by decide⟩

/-- The first directory could not be made. -/
theorem setup_repeated_home :
    (firstLogin bo boGecos .makeHome .call freshSite).1 = .error .failed ∧
    ∃ w', setupNewUser (fun _ => none) bo.val boGecos.val
        (nextSession (firstLogin bo boGecos .makeHome .call freshSite).2) = (.ok (), w') ∧
      SetUp bo.val boGecos.val freshSite w' :=
  (setup_repeated bo boGecos freshSite_new .makeHome .call).1 rfl

/-- The copy of the first standard file could not be created: the user exists in the next session, and has no
line. -/
theorem setup_stuck :
    NewUser bo.val freshSite ∧
    (firstLogin bo boGecos (.copy .confs .openNew) .call freshSite).1 = .error .failed ∧
    ∃ w', setupNewUser (fun _ => none) bo.val boGecos.val
        (nextSession (firstLogin bo boGecos (.copy .confs .openNew) .call freshSite).2) = (.error .failed, w') ∧
      w'.files .userFile = none :=
  ⟨freshSite_new, rfl, _, rfl, rfl⟩

end SklaffKom
