import SklaffKom.FtnSpool
import SklaffKom.Lib.Processes
import SklaffKom.Lib.Runs

/-!
# The lock of `ftntoss`

The exports and imports run between the creation of a lock file and its removal; `--export-test` takes no lock,
although it writes a message too.  A process that finds the lock taken for too long mails a warning, and a marker
file keeps the others from mailing it again.  Processes may stop anywhere.
-/

open CString

namespace SklaffKom

/-! ## Processes -/

abbrev SpoolFile := CString × CString

/-- What a process of `ftntoss` does next; `locked` is `false` in an `--export-test`. -/
inductive FtntossStage
  | start
  | unlinkMarker
  | writePid
  | giveBack
  -- the function that `run_with_lock` calls, or `export_test_ftn`: it may write one message
  | work (locked : Bool)
  | chosen (locked : Bool) (file : SpoolFile)
  | writing (locked : Bool) (file : SpoolFile) (linked : Bool)
  | release
  | statLock
  | openMarker
  | sendMail
  | withdrawMarker
  | ended
  -- the lock file could not be removed
  | left
  | crashed
deriving DecidableEq

/-- It has created the lock file and not yet removed it. -/
def FtntossStage.Inside : FtntossStage → Bool
  | .unlinkMarker | .writePid | .giveBack | .release => true
  | .work locked | .chosen locked _ | .writing locked _ _ => locked
  | _ => false

/-- Behind the work. -/
def FtntossStage.worked (locked : Bool) : FtntossStage := if locked then .release else .ended

/-- The lock and the marker, the processes, and the spool directories; `acquired` and `mailed` count. -/
structure FtntossState where
  clock : Int
  -- the process that created the file, and `st_mtime`
  lock : Option (Nat × Int)
  marker : Bool
  procs : List FtntossStage
  files : List (SpoolFile × List Char)
  acquired : Nat
  mailed : Nat

/-- A system call of a process; `ok` is its outcome where nothing else decides it. -/
inductive FtntossCall
  | openLock (ok : Bool)
  | unlinkMarker (ok : Bool)
  | writePid (ok : Bool)
  | unlinkLock (ok : Bool)
  | choose (dir : CString)
  | skip
  | openFile (ok : Bool)
  | write (data : List Char)
  | close
  | statLock
  | openMarker (ok : Bool)
  | sendMail (ok : Bool)

inductive FtntossEvent
  | setClock (now : Int)
  | spawn
  -- `--export-test`
  | spawnTest
  | call (p : Nat) (c : FtntossCall)
  | crash (p : Nat)
  -- the sysop, when no process works under the lock
  | removeLock
  -- other programs
  | removeFile (file : SpoolFile)
  | putFile (file : SpoolFile) (data : List Char)

namespace FtntossState

variable (s : FtntossState)

def move (p : Nat) (stage : FtntossStage) : FtntossState := { s with procs := s.procs.set p stage }

def file (f : SpoolFile) : Option (List Char) := s.files.lookup f

def names (dir : CString) : List CString := (s.files.filter fun f => f.1.1 = dir).map fun f => f.1.2

def setFile (f : SpoolFile) (data : List Char) : FtntossState :=
  { s with files := (f, data) :: s.files.filter fun g => g.1 ≠ f }

def start (clock : Int) (marker : Bool) (files : List (SpoolFile × List Char)) : FtntossState :=
  ⟨clock, none, marker, [], files, 0, 0⟩

end FtntossState

def ftntossLockWarnAge : Int := 1800

/-- A process whose file is removed goes on with a file that has no name. -/
def FtntossStage.unlinked (f : SpoolFile) : FtntossStage → FtntossStage
  | .writing locked g linked => .writing locked g (linked && g ≠ f)
  | stage => stage

/-- One call of the process `p`: `run_with_lock`, and `ftntoss_maybe_notify_stale_lock` when it is refused; or
`export_test_ftn`. -/
def ftntossCall (s : FtntossState) (p : Nat) : FtntossStage → FtntossCall → Option FtntossState
  | .start, .openLock ok =>
    match s.lock with
    | some _ => some (s.move p .statLock)
    | none =>
      if ok then some { s.move p .unlinkMarker with lock := some (p, s.clock), acquired := s.acquired + 1 }
      else some (s.move p .ended)
  | .unlinkMarker, .unlinkMarker ok => some { s.move p .writePid with marker := s.marker && !ok }
  | .writePid, .writePid ok =>
    if ok then some { s.move p (.work true) with lock := s.lock.map fun l => (l.1, s.clock) }
    else some (s.move p .giveBack)
  | .giveBack, .unlinkLock ok =>
    if ok then some { s.move p .ended with lock := none } else some (s.move p .left)
  | .work locked, .choose dir =>
    match nextMsgPath dir (some (s.names dir)) with
    | some (_, n) => some (s.move p (.chosen locked (dir, msgFileName n)))
    | none => some (s.move p (.worked locked))
  | .work locked, .skip => some (s.move p (.worked locked))
  -- `fopen` with `"wb"`
  | .chosen locked f, .openFile ok =>
    if ok then some ((s.setFile f []).move p (.writing locked f true)) else some (s.move p (.worked locked))
  | .writing _ f linked, .write data =>
    match linked, s.file f with
    | true, some old => some (s.setFile f (old ++ data))
    | _, _ => some s
  | .writing locked _ _, .close => some (s.move p (.worked locked))
  | .release, .unlinkLock ok =>
    if ok then some { s.move p .ended with lock := none } else some (s.move p .left)
  | .statLock, .statLock =>
    match s.lock with
    | some (_, mtime) =>
      if s.clock < mtime ∨ s.clock - mtime < ftntossLockWarnAge then some (s.move p .ended)
      else some (s.move p .openMarker)
    | none => some (s.move p .ended)
  | .openMarker, .openMarker ok =>
    if s.marker || !ok then some (s.move p .ended) else some { s.move p .sendMail with marker := true }
  | .sendMail, .sendMail ok =>
    if ok then some { s.move p .ended with mailed := s.mailed + 1 } else some (s.move p .withdrawMarker)
  | .withdrawMarker, .unlinkMarker ok => some { s.move p .ended with marker := s.marker && !ok }
  | _, _ => none

def ftntossStep (s : FtntossState) : FtntossEvent → Option FtntossState
  | .setClock now => some { s with clock := now }
  | .spawn => some { s with procs := s.procs ++ [.start] }
  | .spawnTest => some { s with procs := s.procs ++ [.work false] }
  | .call p c => do ftntossCall s p (← s.procs[p]?) c
  | .crash p => if s.procs[p]?.isSome then some (s.move p .crashed) else none
  | .removeLock =>
    match s.lock with
    | some (p, _) => if s.procs[p]?.any FtntossStage.Inside then none else some { s with lock := none }
    | none => none
  | .removeFile f =>
    some { s with files := s.files.filter (fun g => g.1 ≠ f), procs := s.procs.map (FtntossStage.unlinked f) }
  | .putFile f data => some (s.setFile f data)

/-! ## What is kept -/

/-- No message has the name, and no process under the lock is about to use it. -/
def NewName (s : FtntossState) (f : SpoolFile) : Prop :=
  s.file f = none ∧ ∀ p : Nat, s.procs[p]? ≠ some (.chosen true f)

/-- Other programs put files under new names, and the name that an `--export-test` has chosen is still a new one
when it opens its file. -/
def NewNames (s : FtntossState) : FtntossEvent → Prop
  | .putFile f _ => NewName s f
  | .call p (.openFile true) => ∀ f, s.procs[p]? = some (.chosen false f) → NewName s f
  | _ => True

/-- What is in a file stays there, until the file is removed; its writer goes on at its end. -/
def KeepsFiles (s : FtntossState) (e : FtntossEvent) (s' : FtntossState) : Prop :=
  ∀ f data, s.file f = some data → s'.file f = some data ∨ e = .removeFile f ∨
    ∃ (p : Nat) (locked : Bool) (more : List Char), e = .call p (.write more) ∧
      s.procs[p]? = some (.writing locked f true) ∧ s'.file f = some (data ++ more)

/-- One process at most works under the lock. -/
def OneInside (s : FtntossState) : Prop :=
  ∀ (p q : Nat) (a b : FtntossStage), s.procs[p]? = some a → s.procs[q]? = some b →
    a.Inside → b.Inside → p = q

/-- Who created the lock file works under it, has stopped there, or could not remove it. -/
def Accounted (s : FtntossState) : Prop :=
  ∀ (p : Nat) (mtime : Int), s.lock = some (p, mtime) → ∃ stage, s.procs[p]? = some stage ∧
    (stage.Inside ∨ stage = .crashed ∨ stage = .left)

/-! ## Calls -/

/-- A mail that may still be sent, or a marker that may still be removed. -/
def FtntossStage.credit : FtntossStage → Nat
  | .unlinkMarker | .sendMail | .withdrawMarker => 1
  | _ => 0

/-- A stage without a file of its own. -/
def FtntossStage.NoFile : FtntossStage → Bool
  | .chosen _ _ | .writing _ _ _ => false
  | _ => true

/-- What a call of the process `p` at the stage `a` can do. -/
inductive FtntossMove (s : FtntossState) (p : Nat) : FtntossStage → FtntossCall → FtntossState → Prop
  | move {a b : FtntossStage} {c : FtntossCall} (hb : b.Inside → a.Inside)
    (ha : a.Inside → b.Inside ∨ b = .left)
      (hcredit : b.credit ≤ a.credit) (hfile : b.NoFile) : FtntossMove s p a c (s.move p b)
  | take {c : FtntossCall} (hfree : s.lock = none) : FtntossMove s p .start c
      { s.move p .unlinkMarker with lock := some (p, s.clock), acquired := s.acquired + 1 }
  | unmark {a b : FtntossStage} {c : FtntossCall} (marker : Bool) (hb : b.Inside = a.Inside)
      (hcredit : b.credit + 1 = a.credit) (hfile : b.NoFile) :
      FtntossMove s p a c { s.move p b with marker := marker }
  | stamp {c : FtntossCall} : FtntossMove s p .writePid c
      { s.move p (.work true) with lock := s.lock.map fun l => (l.1, s.clock) }
  | free {a : FtntossStage} {c : FtntossCall} (ha : a.Inside) :
    FtntossMove s p a c { s.move p .ended with lock := none }
  | choose {locked : Bool} {f : SpoolFile} {c : FtntossCall} (hnew : s.file f = none) :
    FtntossMove s p (.work locked) c (s.move p (.chosen locked f))
  | openFile {locked : Bool} {f : SpoolFile} :
      FtntossMove s p (.chosen locked f) (.openFile true) ((s.setFile f []).move p (.writing locked f true))
  | append {locked : Bool} {f : SpoolFile} {old data : List Char} (hold : s.file f = some old) :
      FtntossMove s p (.writing locked f true) (.write data) (s.setFile f (old ++ data))
  | lost {locked : Bool} {f : SpoolFile} {linked : Bool} {c : FtntossCall} :
      FtntossMove s p (.writing locked f linked) c s
  | mark {c : FtntossCall} (hmarker : s.marker = false) :
      FtntossMove s p .openMarker c { s.move p .sendMail with marker := true }
  | mailed {c : FtntossCall} : FtntossMove s p .sendMail c { s.move p .ended with mailed := s.mailed + 1 }

section Files

variable {s : FtntossState} {f g : SpoolFile} {data : List Char}

theorem file_none_iff : s.file f = none ↔ ∀ d, (f, d) ∉ s.files := by
  unfold FtntossState.file
  rw [List.lookup_eq_none_iff]
  constructor
  · intro h d hd
    simpa using h (f, d) hd
  · intro h q hq
    by_contra hne
    have hfq : f = q.1 := by simpa using hne
    exact h q.2 (by rw [hfq]; exact hq)

@[simp] theorem file_setFile_self : (s.setFile f data).file f = some data := by
  simp [FtntossState.file, FtntossState.setFile]

theorem lookup_filter_ne {files : List (SpoolFile × List Char)} (h : g ≠ f) :
    (files.filter fun q => q.1 ≠ f).lookup g = files.lookup g := by
  induction files with
  | nil => rfl
  | cons q files ih =>
    by_cases hq : q.1 = f
    · have hg : (g == q.1) = false := by simpa [hq] using h
      rw [List.filter_cons_of_neg (by simp [hq]), ih, List.lookup_cons, hg]
    · rw [List.filter_cons_of_pos (by simp [hq]), List.lookup_cons, List.lookup_cons, ih]

theorem file_setFile_ne (h : g ≠ f) : (s.setFile f data).file g = s.file g := by
  have hg : (g == f) = false := by simpa using h
  unfold FtntossState.file FtntossState.setFile
  dsimp only
  rw [List.lookup_cons, hg]
  exact lookup_filter_ne h

/-- The name that `next_msg_path` returns is not taken. -/
theorem file_choose {dir path : CString} {n : Int} (h : nextMsgPath dir (some (s.names dir)) = some (path, n)) :
    s.file (dir, msgFileName n) = none := by
  rw [file_none_iff]
  intro d hd
  apply (nextMsgPath_fresh h).2.1
  exact List.mem_map.mpr ⟨((dir, msgFileName n), d), List.mem_filter.mpr ⟨hd, by simp⟩, rfl⟩

end Files

/-- The work ends; a process without the lock has nothing to release. -/
theorem FtntossMove.work_ends {s : FtntossState} {p : Nat} {a : FtntossStage} {c : FtntossCall} {locked : Bool}
    (ha : a.Inside = locked) : FtntossMove s p a c (s.move p (.worked locked)) := by
  cases locked with
  | false => exact .move (fun h => by cases h) (fun h => by rw [ha] at h; cases h) (Nat.zero_le _) rfl
  | true => exact .move (fun _ => ha) (fun _ => Or.inl rfl) (Nat.zero_le _) rfl

theorem ftntossCall_move {s s' : FtntossState} {p : Nat} {a : FtntossStage} {c : FtntossCall}
    (h : ftntossCall s p a c = some s') :
    FtntossMove s p a c s' := by
  unfold ftntossCall at h
  split at h
  · split at h
    · cases h
      exact .move (by decide) (by decide) (by decide) rfl
    · rename_i hfree
      split at h
      · cases h
        exact .take hfree
      · cases h
        exact .move (by decide) (by decide) (by decide) rfl
  · cases h
    exact .unmark _ rfl rfl rfl
  · split at h
    · cases h
      exact .stamp
    · cases h
      exact .move (by decide) (by decide) (by decide) rfl
  · split at h
    · cases h
      exact .free rfl
    · cases h
      exact .move (by decide) (by decide) (by decide) rfl
  · split at h
    · rename_i hpath
      cases h
      exact .choose (file_choose hpath)
    · cases h
      exact .work_ends rfl
  · cases h
    exact .work_ends rfl
  · split at h
    · rename_i hok
      cases h
      rw [hok]
      exact .openFile
    · cases h
      exact .work_ends rfl
  · split at h
    · rename_i hold
      cases h
      exact .append hold
    · cases h
      exact .lost
  · cases h
    exact .work_ends rfl
  · split at h
    · cases h
      exact .free rfl
    · cases h
      exact .move (by decide) (by decide) (by decide) rfl
  · split at h
    · split at h
      · cases h
        exact .move (by decide) (by decide) (by decide) rfl
      · cases h
        exact .move (by decide) (by decide) (by decide) rfl
    · cases h
      exact .move (by decide) (by decide) (by decide) rfl
  · split at h
    · cases h
      exact .move (by decide) (by decide) (by decide) rfl
    · rename_i hmarker
      cases h
      rw [Bool.not_eq_true, Bool.or_eq_false_iff] at hmarker
      exact .mark hmarker.1
  · split at h
    · cases h
      exact .mailed
    · cases h
      exact .move (by decide) (by decide) (by decide) rfl
  · cases h
    exact .unmark _ rfl rfl rfl
  · cases h

/-! ## Invariants -/

/-- Who is inside, and that a name that was chosen under the lock is still free. -/
structure FtntossInv (s : FtntossState) : Prop where
  owner : Processes.OnlyOwner (fun a : FtntossStage => a.Inside = true) s.procs (s.lock.map Prod.fst)
  fresh : ∀ (p : Nat) (f : SpoolFile), s.procs[p]? = some (.chosen true f) → s.file f = none
  accounted : Accounted s

/-- Mails that were sent, and what may bring another one, are paid for by the locks that were taken. -/
def MailsPaid (s : FtntossState) : Prop :=
  s.mailed + Processes.weight FtntossStage.credit s.procs + (if s.marker then 0 else 1) ≤ s.acquired + 1

theorem getElem?_set_cases {procs : List FtntossStage} {p q : Nat} {a b : FtntossStage}
    (h : (procs.set p b)[q]? = some a) : p = q ∧ a = b ∨ p ≠ q ∧ procs[q]? = some a := by
  rw [List.getElem?_set] at h
  split at h
  · rename_i hpq
    split at h
    · cases h
      exact Or.inl ⟨hpq, rfl⟩
    · cases h
  · rename_i hpq
    exact Or.inr ⟨hpq, h⟩

section Step

variable {s s' : FtntossState} {p : Nat} {a : FtntossStage} {c : FtntossCall}

theorem getElem?_set_self_of {procs : List FtntossStage} (hp : procs[p]? = some a) (b : FtntossStage) :
    (procs.set p b)[p]? = some b := by
  obtain ⟨hlt, -⟩ := List.getElem?_eq_some_iff.mp hp
  rw [List.getElem?_set_self hlt]

/-- The creator of the lock file, when the process `p` goes on and the lock stays. -/
theorem Accounted.set (h : Accounted s) (hp : s.procs[p]? = some a) {b : FtntossStage}
    (hstay : a.Inside → b.Inside ∨ b = .left) (hdead : a ≠ .crashed ∧ a ≠ .left) (q : Nat) (mtime : Int)
    (hlock : s.lock = some (q, mtime)) :
    ∃ stage, (s.procs.set p b)[q]? = some stage ∧ (stage.Inside ∨ stage = .crashed ∨ stage = .left) := by
  obtain ⟨stage, hstage, hkind⟩ := h q mtime hlock
  by_cases hpq : p = q
  · subst hpq
    rw [hp] at hstage
    cases hstage
    refine ⟨b, getElem?_set_self_of hp b, ?_⟩
    rcases hkind with hin | hcrashed | hleft
    · rcases hstay hin with hb | hb
      · exact Or.inl hb
      · exact Or.inr (Or.inr hb)
    · exact absurd hcrashed hdead.1
    · exact absurd hleft hdead.2
  · exact ⟨stage, by rw [List.getElem?_set_ne hpq]; exact hstage, hkind⟩

/-- A process that makes a call is neither crashed nor at its end. -/
theorem alive_of_call (h : ftntossCall s p a c = some s') : a ≠ .crashed ∧ a ≠ .left := by
  constructor
  · rintro rfl
    cases c <;> cases h
  · rintro rfl
    cases c <;> cases h

theorem FtntossInv.call (hI : FtntossInv s) (hp : s.procs[p]? = some a) (hnames : NewNames s (.call p c))
    (h : ftntossCall s p a c = some s') : FtntossInv s' := by
  have halive := alive_of_call h
  -- a stage without a file: the names that the others have chosen are still free
  have hothers {b : FtntossStage} (hb : b.NoFile) (q : Nat) (f : SpoolFile)
      (hq : (s.procs.set p b)[q]? = some (.chosen true f)) : s.file f = none := by
    rcases getElem?_set_cases hq with ⟨-, rfl⟩ | ⟨-, hq⟩
    · cases hb
    · exact hI.fresh q f hq
  cases ftntossCall_move h with
  | move hb ha hcredit hfile =>
    exact ⟨hI.owner.set hp hb, hothers hfile, hI.accounted.set hp ha halive⟩
  | take hfree =>
    refine ⟨?_, hothers rfl, ?_⟩
    · have hnone := hI.owner
      rw [hfree] at hnone
      exact hnone.enter
    · intro q mtime hq
      cases hq
      exact ⟨_, getElem?_set_self_of hp _, Or.inl rfl⟩
  | unmark marker hb hcredit hfile =>
    refine ⟨hI.owner.set hp fun h => hb ▸ h, hothers hfile, hI.accounted.set hp ?_ halive⟩
    intro ha
    exact Or.inl (hb ▸ ha)
  | stamp =>
    refine ⟨?_, hothers rfl, ?_⟩
    · show Processes.OnlyOwner _ (s.procs.set p (.work true)) ((s.lock.map fun l => (l.1, s.clock)).map Prod.fst)
      rw [Option.map_map]
      exact hI.owner.set hp fun _ => rfl
    · intro q mtime hq
      obtain ⟨l, hl, heq⟩ := Option.map_eq_some_iff.mp hq
      cases heq
      exact hI.accounted.set hp (fun _ => Or.inl rfl) halive l.1 l.2 hl
  | free ha =>
    refine ⟨hI.owner.leave hp ha (by decide), hothers rfl, ?_⟩
    intro q mtime hq
    cases hq
  | choose hnew =>
    refine ⟨hI.owner.set hp fun h => h, ?_, hI.accounted.set hp Or.inl halive⟩
    intro q g hq
    rcases getElem?_set_cases hq with ⟨-, heq⟩ | ⟨-, hq⟩
    · cases heq
      exact hnew
    · exact hI.fresh q g hq
  | @openFile locked f =>
    refine ⟨hI.owner.set hp fun h => h, ?_, hI.accounted.set hp Or.inl halive⟩
    intro q g hq
    rcases getElem?_set_cases hq with ⟨-, heq⟩ | ⟨hpq, hchosen⟩
    · cases heq
    cases locked with
    | true => exact absurd (hI.owner.eq hp rfl hchosen rfl) hpq
    | false =>
      have hne : g ≠ f := fun heq => (hnames f hp).2 q (heq ▸ hchosen)
      exact (file_setFile_ne hne).trans (hI.fresh q g hchosen)
  | @append locked f old data hold =>
    refine ⟨hI.owner, ?_, hI.accounted⟩
    intro q g hq
    have hfree := hI.fresh q g hq
    have hne : g ≠ f := by
      rintro rfl
      rw [hold] at hfree
      cases hfree
    exact (file_setFile_ne hne).trans hfree
  | lost => exact hI
  | mark hmarker =>
    exact ⟨hI.owner.set hp fun h => h, hothers rfl, hI.accounted.set hp (fun h => by cases h) halive⟩
  | mailed =>
    exact ⟨hI.owner.set hp fun h => h, hothers rfl, hI.accounted.set hp (fun h => by cases h) halive⟩

theorem KeepsFiles.call (hI : FtntossInv s) (hp : s.procs[p]? = some a) (hnames : NewNames s (.call p c))
    (h : ftntossCall s p a c = some s') : KeepsFiles s (.call p c) s' := by
  intro g d hd
  have hmove := ftntossCall_move h
  cases hmove with
  | @openFile locked f =>
    have hfree : s.file f = none := by
      cases locked with
      | true => exact hI.fresh p f hp
      | false => exact (hnames f hp).1
    have hne : g ≠ f := by
      rintro rfl
      rw [hd] at hfree
      cases hfree
    exact Or.inl ((file_setFile_ne hne).trans hd)
  | @append locked f old data hold =>
    by_cases hgf : g = f
    · subst hgf
      rw [hold] at hd
      cases hd
      exact Or.inr (Or.inr ⟨p, locked, data, rfl, hp, file_setFile_self⟩)
    · exact Or.inl ((file_setFile_ne hgf).trans hd)
  | _ => exact Or.inl hd

theorem MailsPaid.call (hI : MailsPaid s) (hp : s.procs[p]? = some a) (h : ftntossCall s p a c = some s') :
    MailsPaid s' := by
  unfold MailsPaid at hI ⊢
  have hset (b : FtntossStage) := Processes.weight_set (w := FtntossStage.credit) hp b
  cases ftntossCall_move h with
  | @move a b c hb ha hcredit hfile =>
    have hw := hset b
    show s.mailed + Processes.weight _ (s.procs.set p b) + (if s.marker then 0 else 1) ≤ s.acquired + 1
    omega
  | take hfree =>
    have hw := hset .unlinkMarker
    show s.mailed + Processes.weight _ (s.procs.set p _) + (if s.marker then 0 else 1) ≤ s.acquired + 1 + 1
    simp only [FtntossStage.credit] at hw
    omega
  | @unmark a b c marker hb hcredit hfile =>
    have hw := hset b
    show s.mailed + Processes.weight _ (s.procs.set p b) + (if marker then 0 else 1) ≤ s.acquired + 1
    split at hI <;> split <;> omega
  | stamp =>
    have hw := hset (.work true)
    show s.mailed + Processes.weight _ (s.procs.set p _) + (if s.marker then 0 else 1) ≤ s.acquired + 1
    simp only [FtntossStage.credit] at hw
    omega
  | free ha =>
    have hw := hset .ended
    show s.mailed + Processes.weight _ (s.procs.set p _) + (if s.marker then 0 else 1) ≤ s.acquired + 1
    simp only [FtntossStage.credit] at hw
    omega
  | @choose locked f _ hnew =>
    have hw := hset (.chosen locked f)
    show s.mailed + Processes.weight _ (s.procs.set p _) + (if s.marker then 0 else 1) ≤ s.acquired + 1
    simp only [FtntossStage.credit] at hw
    omega
  | @openFile locked f =>
    have hw := hset (.writing locked f true)
    show s.mailed + Processes.weight _ (s.procs.set p _) + (if s.marker then 0 else 1) ≤ s.acquired + 1
    simp only [FtntossStage.credit] at hw
    omega
  | append hold => exact hI
  | lost => exact hI
  | mark hmarker =>
    have hw := hset .sendMail
    rw [hmarker] at hI
    show s.mailed + Processes.weight _ (s.procs.set p _) + 0 ≤ s.acquired + 1
    simp only [FtntossStage.credit] at hw
    simp only [Bool.false_eq_true, if_false] at hI
    omega
  | mailed =>
    have hw := hset .ended
    show s.mailed + 1 + Processes.weight _ (s.procs.set p _) + (if s.marker then 0 else 1) ≤ s.acquired + 1
    simp only [FtntossStage.credit] at hw
    omega

end Step

/-! ## Steps -/

theorem inside_unlinked (f : SpoolFile) (a : FtntossStage) : (a.unlinked f).Inside = a.Inside := by
  cases a <;> rfl

theorem credit_unlinked (f : SpoolFile) (a : FtntossStage) : (a.unlinked f).credit = a.credit := by
  cases a <;> rfl

theorem unlinked_eq_chosen {f g : SpoolFile} {a : FtntossStage} (h : a.unlinked f = .chosen true g) :
    a = .chosen true g := by
  cases a <;> first | exact h | cases h

section Step

variable {s s' : FtntossState} {e : FtntossEvent}

theorem FtntossInv.crash {p : Nat} {a : FtntossStage} (hI : FtntossInv s) (hp : s.procs[p]? = some a) :
    FtntossInv (s.move p .crashed) := by
  refine ⟨hI.owner.set hp (fun h => by cases h), ?_, ?_⟩
  · intro q f hq
    rcases getElem?_set_cases hq with ⟨-, heq⟩ | ⟨-, hq⟩
    · cases heq
    · exact hI.fresh q f hq
  · intro q mtime hlock
    obtain ⟨stage, hstage, hkind⟩ := hI.accounted q mtime hlock
    by_cases hpq : p = q
    · subst hpq
      exact ⟨_, getElem?_set_self_of hp _, Or.inr (Or.inl rfl)⟩
    · exact ⟨stage, by rw [FtntossState.move, List.getElem?_set_ne hpq]; exact hstage, hkind⟩

/-- A new process is neither inside nor about to write. -/
theorem FtntossInv.spawn (hI : FtntossInv s) {a : FtntossStage} (ha : a.Inside = false) (hfile : a.NoFile) :
    FtntossInv { s with procs := s.procs ++ [a] } := by
  refine ⟨hI.owner.spawn (by simp [ha]), ?_, ?_⟩
  · intro q f hq
    rw [List.getElem?_append] at hq
    split at hq
    · exact hI.fresh q f hq
    · have hmem := List.mem_of_getElem? hq
      rw [← List.mem_singleton.mp hmem] at hfile
      cases hfile
  · intro q mtime hlock
    obtain ⟨stage, hstage, hkind⟩ := hI.accounted q mtime hlock
    obtain ⟨hlt, -⟩ := List.getElem?_eq_some_iff.mp hstage
    exact ⟨stage, by rw [List.getElem?_append_left hlt]; exact hstage, hkind⟩

theorem FtntossInv.step (hI : FtntossInv s) (hnames : NewNames s e) (h : ftntossStep s e = some s') :
    FtntossInv s' := by
  cases e with
  | setClock now =>
    cases h
    exact ⟨hI.owner, hI.fresh, hI.accounted⟩
  | spawn =>
    cases h
    exact hI.spawn rfl rfl
  | spawnTest =>
    cases h
    exact hI.spawn rfl rfl
  | call p c =>
    obtain ⟨a, hp, hcall⟩ := Option.bind_eq_some_iff.mp h
    exact hI.call hp hnames hcall
  | crash p =>
    simp only [ftntossStep] at h
    split at h
    · rename_i hsome
      obtain ⟨a, hp⟩ := Option.isSome_iff_exists.mp hsome
      cases h
      exact FtntossInv.crash hI hp
    · cases h
  | removeLock =>
    simp only [ftntossStep] at h
    split at h
    · rename_i p mtime hlock
      split at h
      · cases h
      · rename_i hout
        cases h
        obtain ⟨stage, hstage, -⟩ := hI.accounted p mtime hlock
        have howner := hI.owner
        rw [hlock] at howner
        rw [hstage] at hout
        refine ⟨howner.vacate hstage hout, hI.fresh, ?_⟩
        intro q mtime hq
        cases hq
    · cases h
  | removeFile f =>
    cases h
    refine ⟨hI.owner.map fun a ha => ?_, ?_, ?_⟩
    · rwa [inside_unlinked] at ha
    · intro q g hq
      obtain ⟨a, ha, heq⟩ := Option.map_eq_some_iff.mp ((List.getElem?_map).symm.trans hq)
      have hnone := hI.fresh q g (unlinked_eq_chosen heq ▸ ha)
      rw [file_none_iff] at hnone ⊢
      exact fun d hd => hnone d (List.mem_filter.mp hd).1
    · intro q mtime hlock
      obtain ⟨stage, hstage, hkind⟩ := hI.accounted q mtime hlock
      refine ⟨stage.unlinked f, ?_, ?_⟩
      · show (s.procs.map _)[q]? = _
        rw [List.getElem?_map, hstage]
        rfl
      · rcases hkind with hin | rfl | rfl
        · exact Or.inl ((inside_unlinked f stage).trans hin)
        · exact Or.inr (Or.inl rfl)
        · exact Or.inr (Or.inr rfl)
  | putFile f data =>
    cases h
    refine ⟨hI.owner, ?_, hI.accounted⟩
    intro q g hq
    have hne : g ≠ f := fun heq => hnames.2 q (heq ▸ hq)
    exact (file_setFile_ne hne).trans (hI.fresh q g hq)

theorem KeepsFiles.step (hI : FtntossInv s) (hnames : NewNames s e) (h : ftntossStep s e = some s') :
    KeepsFiles s e s' := by
  cases e with
  | call p c =>
    obtain ⟨a, hp, hcall⟩ := Option.bind_eq_some_iff.mp h
    exact KeepsFiles.call hI hp hnames hcall
  | removeFile f =>
    cases h
    intro g d hd
    by_cases hgf : g = f
    · exact Or.inr (Or.inl (hgf ▸ rfl))
    · exact Or.inl ((lookup_filter_ne hgf).trans hd)
  | putFile f data =>
    cases h
    intro g d hd
    have hne : g ≠ f := by
      rintro rfl
      rw [hnames.1] at hd
      cases hd
    exact Or.inl ((file_setFile_ne hne).trans hd)
  | setClock now =>
    cases h
    exact fun g d hd => Or.inl hd
  | spawn =>
    cases h
    exact fun g d hd => Or.inl hd
  | spawnTest =>
    cases h
    exact fun g d hd => Or.inl hd
  | crash p =>
    simp only [ftntossStep] at h
    split at h
    · cases h
      exact fun g d hd => Or.inl hd
    · cases h
  | removeLock =>
    simp only [ftntossStep] at h
    split at h
    · split at h
      · cases h
      · cases h
        exact fun g d hd => Or.inl hd
    · cases h

theorem MailsPaid.spawn (hI : MailsPaid s) {a : FtntossStage} (ha : a.credit = 0) :
    MailsPaid { s with procs := s.procs ++ [a] } := by
  have hw := Processes.weight_spawn (w := FtntossStage.credit) s.procs a
  unfold MailsPaid at hI ⊢
  show s.mailed + Processes.weight _ (s.procs ++ [a]) + (if s.marker then 0 else 1) ≤ s.acquired + 1
  omega

theorem MailsPaid.step (hI : MailsPaid s) (h : ftntossStep s e = some s') : MailsPaid s' := by
  cases e with
  | call p c =>
    obtain ⟨a, hp, hcall⟩ := Option.bind_eq_some_iff.mp h
    exact hI.call hp hcall
  | spawn =>
    cases h
    exact hI.spawn rfl
  | spawnTest =>
    cases h
    exact hI.spawn rfl
  | crash p =>
    simp only [ftntossStep] at h
    split at h
    · rename_i hsome
      obtain ⟨a, hp⟩ := Option.isSome_iff_exists.mp hsome
      cases h
      have hw := Processes.weight_set (w := FtntossStage.credit) hp .crashed
      unfold MailsPaid at hI ⊢
      show s.mailed + Processes.weight _ (s.procs.set p _) + (if s.marker then 0 else 1) ≤ s.acquired + 1
      simp only [FtntossStage.credit] at hw
      omega
    · cases h
  | removeFile f =>
    cases h
    have hw := Processes.weight_map s.procs (credit_unlinked f)
    unfold MailsPaid at hI ⊢
    show s.mailed + Processes.weight _ (s.procs.map _) + (if s.marker then 0 else 1) ≤ s.acquired + 1
    rwa [hw]
  | setClock now =>
    cases h
    exact hI
  | putFile f data =>
    cases h
    exact hI
  | removeLock =>
    simp only [ftntossStep] at h
    split at h
    · split at h
      · cases h
      · cases h
        exact hI
    · cases h

end Step

/-! ## Runs -/

section Runs

variable (clock : Int) (marker : Bool) (files : List (SpoolFile × List Char))

theorem ftntossInv_start : FtntossInv (FtntossState.start clock marker files) where
  owner := Processes.onlyOwner_nil _
  fresh := fun p f hp => by cases hp
  accounted := fun p mtime hlock => by cases hlock

/-- Along every run one process at most works under the lock, and the lock is left behind only by a process that
stopped or could not remove it.  What a message file holds is not touched by the others, as long as the writers
without a lock, other programs and `--export-test`, use new names. -/
theorem ftntossRun_safe (es : List FtntossEvent)
    (h : Runs.AllSteps ftntossStep (fun s e _ => NewNames s e) (FtntossState.start clock marker files) es) :
    Runs.AllSteps ftntossStep (fun s e s' => OneInside s' ∧ KeepsFiles s e s' ∧ Accounted s')
      (FtntossState.start clock marker files) es := by
  refine Runs.AllSteps.imp (I := FtntossInv) (fun s e s' hI hs hnames => ?_)
    (ftntossInv_start clock marker files) h
  have hI' := hI.step hnames hs
  exact ⟨hI', fun p q a b hp hq ha hb => hI'.owner.eq hp ha hq hb, KeepsFiles.step hI hnames hs, hI'.accounted⟩

/-- The first process writes a message and stops.  A test message is written beside it, and another process finds
the lock and warns half an hour later. -/
def staleLockRun : List FtntossEvent :=
  [.spawn, .call 0 (.openLock true), .call 0 (.unlinkMarker true), .call 0 (.writePid true),
    .call 0 (.choose "/ftn/swe".toList), .call 0 (.openFile true), .call 0 (.write "hej".toList),
    .crash 0, .spawn, .spawnTest, .call 2 (.choose "/ftn/swe".toList), .call 2 (.openFile true),
    .call 2 (.write "test".toList), .setClock 1800, .call 1 (.openLock true), .call 1 .statLock,
    .call 1 (.openMarker true), .call 1 (.sendMail true), .removeLock]

/-- The state in which the test message gets its file. -/
def testChosen : FtntossState where
  clock := 0
  lock := some (0, 0)
  marker := false
  procs := [.crashed, .start, .chosen false ("/ftn/swe".toList, "3.msg".toList)]
  files := [(("/ftn/swe".toList, "2.msg".toList), "hej".toList)]
  acquired := 1
  mailed := 0

theorem newName_test (f : SpoolFile) (h : testChosen.procs[2]? = some (.chosen false f)) :
    NewName testChosen f := by
  cases h
  refine ⟨by decide +kernel, ?_⟩
  intro p hp
  match p with
  | 0 | 1 | 2 => cases hp
  | p + 3 => cases hp

theorem ftntossRun_safe_stale :
    Runs.AllSteps ftntossStep (fun s e s' => OneInside s' ∧ KeepsFiles s e s' ∧ Accounted s')
      (FtntossState.start 0 false []) staleLockRun :=
  ftntossRun_safe 0 false [] staleLockRun
    ⟨_, rfl, trivial, _, rfl, trivial, _, rfl, trivial, _, rfl, trivial, _, rfl, trivial,
      _, rfl, fun f hf => (by cases hf), _, rfl, trivial, _, rfl, trivial, _, rfl, trivial, _, rfl, trivial,
      _, rfl, trivial, _, rfl, newName_test, _, rfl, trivial, _, rfl, trivial, _, rfl, trivial,
      _, rfl, trivial, _, rfl, trivial, _, rfl, trivial, _, rfl, trivial, trivial⟩

/-- No more warnings are mailed than locks were taken, and one. -/
theorem ftntossRun_mailed {es : List FtntossEvent} {s : FtntossState}
    (h : Runs.run ftntossStep (FtntossState.start clock marker files) es = some s) :
    s.mailed ≤ s.acquired + 1 := by
  have hstart : MailsPaid (FtntossState.start clock marker files) := by
    unfold MailsPaid FtntossState.start
    rw [Processes.weight_nil]
    dsimp only
    split <;> omega
  have hpaid := Runs.run_invariant (I := MailsPaid) (fun s e s' hI hs => hI.step hs) hstart h
  unfold MailsPaid at hpaid
  omega

theorem ftntossRun_mailed_stale :
    ∃ s, Runs.run ftntossStep (FtntossState.start 0 false []) staleLockRun = some s ∧ s.mailed = 1 ∧
      s.mailed ≤ s.acquired + 1 :=
  ⟨_, rfl, rfl, @ftntossRun_mailed 0 false [] staleLockRun _ rfl⟩

end Runs

end SklaffKom
