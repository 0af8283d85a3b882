import SklaffKom.FtnQueue
import SklaffKom.Lib.Runs
import Mathlib.Logic.Function.Basic

/-!
# The directories of waiting jobs

A job is written to a file of its own and then renamed into the directory where the runner looks for
it.  Sessions do so side by side, each a file operation at a time; the names are made of numbers, of
the second and of the process.
-/

open CString Runs

namespace SklaffKom

/-! ## Names -/

inductive QueueDir
  | tmp | pending | netmailTmp | netmailPending
deriving DecidableEq, Repr

/-- A directory and a name in it. -/
abbrev QueuePath := QueueDir × CString

/-- A call with the numbers that its file names are made of. -/
inductive Slot
  | ftnExport (confnum textnum now : Int)
  | ftnNetmail (fromuid now pid : Int)
  | ibolOneliner (fromuid now pid seq : Int)
deriving DecidableEq, Repr

/-- The job file in the directory of the runner. -/
def Slot.pendingfile : Slot → QueuePath
  | .ftnExport confnum textnum now =>
    (.pending, decimal confnum ++ '.' :: (decimal textnum ++ '.' :: decimal now))
  | .ftnNetmail fromuid now pid =>
    (.netmailPending, "netmail.".toList ++ (decimal fromuid ++ '.' :: (decimal now ++ '.' :: decimal pid)))
  | .ibolOneliner fromuid now pid seq =>
    (.pending, "@ibol.".toList ++
      (decimal fromuid ++ '.' :: (decimal now ++ '.' :: (decimal pid ++ '.' :: decimal seq))))

/-- The file in which a job is written; that of an export has the process instead of the second. -/
def Slot.tmpfile (pid : Int) : Slot → QueuePath
  | .ftnExport confnum textnum _ =>
    (.tmp, decimal confnum ++ '.' :: (decimal textnum ++ '.' :: (decimal pid ++ ".tmp".toList)))
  | .ftnNetmail fromuid now pid =>
    (.netmailTmp, "netmail.".toList ++
      (decimal fromuid ++ '.' :: (decimal now ++ '.' :: (decimal pid ++ ".tmp".toList))))
  | .ibolOneliner fromuid now pid seq =>
    (.tmp, "@ibol.".toList ++ (decimal fromuid ++ '.' :: (decimal now ++ '.' ::
      (decimal pid ++ '.' :: (decimal seq ++ ".tmp".toList)))))

/-! ## Calls -/

/-- A call of one of the three functions. -/
inductive QueueCall
  | ftnExport (confnum textnum : Int)
  | ftnNetmail (c : NetmailCall)
  | ibolOneliner (c : IbolCall)
deriving DecidableEq

/-- What a call writes; `none` is a call that is refused. -/
def QueueCall.file (now : Int) : QueueCall → Option CString
  | .ftnExport confnum textnum =>
    if confnum ≤ 0 ∨ textnum ≤ 0 then none
    else some (decimal confnum ++ ':' :: (decimal textnum ++ ':' :: (decimal now ++ ['\n'])))
  | .ftnNetmail c => c.file now
  | .ibolOneliner c => c.file now

/-- The names of a call; `seq` is the `sequence` of the process after the call has begun. -/
def QueueCall.slot (now pid seq : Int) : QueueCall → Slot
  | .ftnExport confnum textnum => .ftnExport confnum textnum now
  | .ftnNetmail c => .ftnNetmail c.fromuid now pid
  | .ibolOneliner c => .ibolOneliner c.fromuid now pid seq

/-- `++sequence` of `queue_ibol_oneliner`. -/
def QueueCall.nextSequence (sequence : Int) : QueueCall → Int
  | .ibolOneliner _ => sequence + 1
  | _ => sequence

/-- A call that is not refused. -/
structure QueueJob where
  pid : Int
  call : QueueCall
  now : Int
  seq : Int
  contents : CString
deriving DecidableEq

def QueueJob.slot (j : QueueJob) : Slot := j.call.slot j.now j.pid j.seq

/-- How far a call has come. -/
inductive Phase
  | begun | opened | closed
deriving DecidableEq, Repr

/-- A session: its `static unsigned long sequence`, and the call that it is in. -/
structure QueueSession where
  sequence : Int
  job : Option (Phase × QueueJob)

/-- The clock, the files, the sessions and the calls that have returned 0. -/
structure QueueState where
  clock : Int
  fs : QueuePath → Option CString
  sessions : Int → QueueSession
  done : List QueueJob

/-- A file operation of a session, or the clock.  An operation that is not `ok` fails. -/
inductive QueueEvent
  | tick (now : Int)
  | call (pid : Int) (c : QueueCall)
  | fopen (pid : Int) (ok : Bool)
  | write (pid : Int) (n : Nat)
  | fclose (pid : Int) (ok : Bool)
  | rename (pid : Int) (ok : Bool)

/-- The session after a step. -/
def QueueState.setJob (s : QueueState) (pid : Int) (job : Option (Phase × QueueJob)) : QueueState :=
  { s with sessions := Function.update s.sessions pid { s.sessions pid with job := job } }

/-- The files after a step. -/
def QueueState.setFile (s : QueueState) (path : QueuePath) (file : Option CString) : QueueState :=
  { s with fs := Function.update s.fs path file }

/-- The file under its new name, and `return 0`. -/
def QueueState.publish (s : QueueState) (j : QueueJob) (file : Option CString) : QueueState :=
  { s.setFile j.slot.pendingfile file with done := s.done ++ [j] }

/-- A step; `none` when the session is not at that place. -/
def queueStep (s : QueueState) : QueueEvent → Option QueueState
  | .tick now => if now < s.clock then none else some { s with clock := now }
  | .call pid c =>
    match (s.sessions pid).job with
    | some _ => none
    | none =>
      match c.file s.clock with
      -- `return -1` before a file is touched
      | none => some s
      | some contents =>
        let seq := c.nextSequence (s.sessions pid).sequence
        some { s with
          sessions := Function.update s.sessions pid
            ⟨seq, some (.begun, ⟨pid, c, s.clock, seq, contents⟩)⟩ }
  | .fopen pid ok =>
    match (s.sessions pid).job with
    | some (.begun, j) =>
      if ok then some ((s.setFile (j.slot.tmpfile pid) (some [])).setJob pid (some (.opened, j)))
      else some (s.setJob pid none)
    | _ => none
  | .write pid n =>
    match (s.sessions pid).job with
    | some (.opened, j) =>
      some ((s.setFile (j.slot.tmpfile pid) (some (j.contents.take n))).setJob pid (some (.opened, j)))
    | _ => none
  | .fclose pid ok =>
    match (s.sessions pid).job with
    | some (.opened, j) =>
      if ok then
        some ((s.setFile (j.slot.tmpfile pid) (some j.contents)).setJob pid (some (.closed, j)))
      else some ((s.setFile (j.slot.tmpfile pid) none).setJob pid none)
    | _ => none
  | .rename pid ok =>
    match (s.sessions pid).job with
    | some (.closed, j) =>
      let gone := (s.setFile (j.slot.tmpfile pid) none).setJob pid none
      if ok then some (gone.publish j (s.fs (j.slot.tmpfile pid))) else some gone
    | _ => none

/-- The state before the first call of every session. -/
def QueueState.start (clock : Int) (fs : QueuePath → Option CString) : QueueState :=
  ⟨clock, fs, fun _ => ⟨0, none⟩, []⟩

/-! ## Different calls have different names -/

theorem dot_inj {a b : Int} {s t : CString} (h : decimal a ++ '.' :: s = decimal b ++ '.' :: t) :
    a = b ∧ s = t := by
  have hab := congrArg atol h
  rw [atol_decimal a (noDigit_cons.mpr rfl), atol_decimal b (noDigit_cons.mpr rfl)] at hab
  subst hab
  exact ⟨rfl, (List.cons.inj (List.append_cancel_left h)).2⟩

theorem decimal_inj {a b : Int} (h : decimal a = decimal b) : a = b := by
  rw [← atol_decimal_end a, h, atol_decimal_end]

/-- The name of an oneliner does not begin like a number. -/
theorem at_ne_decimal {n : Int} {s t : CString} : '@' :: s ≠ decimal n ++ t := by
  intro h
  obtain ⟨c, r, hc⟩ := List.exists_cons_of_ne_nil (decimal_ne_nil n)
  have hmem : c ∈ decimal n := hc ▸ List.mem_cons_self
  rw [hc] at h
  have hat := (List.cons.inj h).1
  exact notMem_decimal (by decide) (by decide) (hat ▸ hmem)

theorem pendingfile_inj {a b : Slot} (h : a.pendingfile = b.pendingfile) : a = b := by
  cases a with
  | ftnExport confnum textnum now =>
    cases b with
    | ftnExport confnum' textnum' now' =>
      obtain ⟨rfl, h2⟩ := dot_inj (Prod.mk.inj h).2
      obtain ⟨rfl, h3⟩ := dot_inj h2
      rw [decimal_inj h3]
    | ftnNetmail => cases (Prod.mk.inj h).1
    | ibolOneliner => exact absurd (Prod.mk.inj h).2.symm at_ne_decimal
  | ftnNetmail fromuid now pid =>
    cases b with
    | ftnNetmail fromuid' now' pid' =>
      obtain ⟨rfl, h2⟩ := dot_inj (List.append_cancel_left (Prod.mk.inj h).2)
      obtain ⟨rfl, h3⟩ := dot_inj h2
      rw [decimal_inj h3]
    | ftnExport => cases (Prod.mk.inj h).1
    | ibolOneliner => cases (Prod.mk.inj h).1
  | ibolOneliner fromuid now pid seq =>
    cases b with
    | ibolOneliner fromuid' now' pid' seq' =>
      obtain ⟨rfl, h2⟩ := dot_inj (List.append_cancel_left (Prod.mk.inj h).2)
      obtain ⟨rfl, h3⟩ := dot_inj h2
      obtain ⟨rfl, h4⟩ := dot_inj h3
      rw [decimal_inj h4]
    | ftnExport => exact absurd (Prod.mk.inj h).2 at_ne_decimal
    | ftnNetmail => cases (Prod.mk.inj h).1

/-- Sessions write into files of their own. -/
theorem tmpfile_ne {p q : Int} (a b : QueueCall) (t u x y : Int) (hpq : p ≠ q) :
    (a.slot t p x).tmpfile p ≠ (b.slot u q y).tmpfile q := by
  intro h
  apply hpq
  cases a with
  | ftnExport confnum textnum =>
    cases b with
    | ftnExport confnum' textnum' =>
      obtain ⟨-, h2⟩ := dot_inj (Prod.mk.inj h).2
      obtain ⟨-, h3⟩ := dot_inj h2
      exact decimal_inj (List.append_cancel_right h3)
    | ftnNetmail => cases (Prod.mk.inj h).1
    | ibolOneliner => exact absurd (Prod.mk.inj h).2.symm at_ne_decimal
  | ftnNetmail c =>
    cases b with
    | ftnNetmail c' =>
      obtain ⟨-, h2⟩ := dot_inj (List.append_cancel_left (Prod.mk.inj h).2)
      obtain ⟨-, h3⟩ := dot_inj h2
      exact decimal_inj (List.append_cancel_right h3)
    | ftnExport => cases (Prod.mk.inj h).1
    | ibolOneliner => cases (Prod.mk.inj h).1
  | ibolOneliner c =>
    cases b with
    | ibolOneliner c' =>
      obtain ⟨-, h2⟩ := dot_inj (List.append_cancel_left (Prod.mk.inj h).2)
      obtain ⟨-, h3⟩ := dot_inj h2
      exact (dot_inj h3).1
    | ftnExport => exact absurd (Prod.mk.inj h).2 at_ne_decimal
    | ftnNetmail => cases (Prod.mk.inj h).1

theorem ne_tmpfile (pid : Int) (a : Slot) {path : QueuePath}
    (hdir : path.1 = .pending ∨ path.1 = .netmailPending) : path ≠ a.tmpfile pid := by
  rintro rfl
  cases a <;> (rcases hdir with h | h <;> cases h)

/-! ## What every step keeps -/

def QueueJob.IsOneliner (j : QueueJob) : Prop := ∃ c, j.call = .ibolOneliner c

/-- A session in a call has numbers of its own, and the file that it has closed is complete.  Of the
calls that have returned 0 the last one of each name is in the directory, beside the files that were
there before. -/
structure QueueInv (before : QueuePath → Option CString) (s : QueueState) : Prop where
  job : ∀ pid phase j, (s.sessions pid).job = some (phase, j) → j.pid = pid ∧
    j.call.file j.now = some j.contents ∧ j.seq ≤ (s.sessions pid).sequence ∧
    (j.IsOneliner → ∀ r ∈ s.done, r.IsOneliner → r.pid = pid → r.seq < j.seq)
  closed : ∀ pid j, (s.sessions pid).job = some (.closed, j) →
    s.fs (j.slot.tmpfile pid) = some j.contents
  done : ∀ r ∈ s.done, r.call.file r.now = some r.contents ∧ r.seq ≤ (s.sessions r.pid).sequence
  once : ∀ r ∈ s.done, ∀ r' ∈ s.done, r.IsOneliner → r'.IsOneliner → r.pid = r'.pid →
    r.seq = r'.seq → r = r'
  last : ∀ r ∈ s.done, ∃ r' ∈ s.done, r'.slot = r.slot ∧ s.fs r.slot.pendingfile = some r'.contents
  only : ∀ path : QueuePath, path.1 = .pending ∨ path.1 = .netmailPending →
    s.fs path = before path ∨ ∃ r ∈ s.done, r.slot.pendingfile = path

variable {before : QueuePath → Option CString} {s s' : QueueState} {pid : Int} {phase : Phase} {j : QueueJob}

@[simp] theorem setJob_fs (job : Option (Phase × QueueJob)) : (s.setJob pid job).fs = s.fs := rfl

@[simp] theorem setJob_done (job : Option (Phase × QueueJob)) : (s.setJob pid job).done = s.done := rfl

@[simp] theorem setFile_sessions (path : QueuePath) (file : Option CString) :
    (s.setFile path file).sessions = s.sessions := rfl

@[simp] theorem setFile_done (path : QueuePath) (file : Option CString) :
    (s.setFile path file).done = s.done := rfl

theorem setJob_self (job : Option (Phase × QueueJob)) :
    (s.setJob pid job).sessions pid = ⟨(s.sessions pid).sequence, job⟩ := Function.update_self ..

theorem setJob_of_ne {p : Int} (hp : p ≠ pid) (job : Option (Phase × QueueJob)) :
    (s.setJob pid job).sessions p = s.sessions p := Function.update_of_ne hp ..

@[simp] theorem setJob_sequence (p : Int) (job : Option (Phase × QueueJob)) :
    ((s.setJob pid job).sessions p).sequence = (s.sessions p).sequence := by
  by_cases hp : p = pid
  · rw [hp, setJob_self]
  · rw [setJob_of_ne hp]

theorem pendingfile_dir (a : Slot) :
    a.pendingfile.1 = .pending ∨ a.pendingfile.1 = .netmailPending := by
  cases a with
  | ftnExport => exact Or.inl rfl
  | ftnNetmail => exact Or.inr rfl
  | ibolOneliner => exact Or.inl rfl

theorem setFile_tmp_pending (j : QueueJob) {path : QueuePath}
    (hdir : path.1 = .pending ∨ path.1 = .netmailPending) (file : Option CString) :
    (s.setFile (j.slot.tmpfile pid) file).fs path = s.fs path :=
  Function.update_of_ne (ne_tmpfile pid j.slot hdir) ..

/-- The files that other sessions have closed are left alone. -/
theorem QueueInv.other (h : QueueInv before s) (hj : (s.sessions pid).job = some (phase, j))
    (file : Option CString) {p : Int} {i : QueueJob} (hp : p ≠ pid)
    (hi : (s.sessions p).job = some (.closed, i)) :
    (s.setFile (j.slot.tmpfile pid) file).fs (i.slot.tmpfile p) = some i.contents := by
  have hjp := (h.job pid phase j hj).1
  have hip := (h.job p .closed i hi).1
  have hne : i.slot.tmpfile p ≠ j.slot.tmpfile pid := by
    have hnames := tmpfile_ne i.call j.call i.now j.now i.seq j.seq hp
    unfold QueueJob.slot
    rw [hip, hjp]
    exact hnames
  exact (Function.update_of_ne hne ..).trans (h.closed p i hi)

/-- A session writes to its file. -/
theorem QueueInv.goOn (h : QueueInv before s) (hj : (s.sessions pid).job = some (phase, j)) {phase' : Phase}
    {file : Option CString} (hfile : phase' = .closed → file = some j.contents) :
    QueueInv before ((s.setFile (j.slot.tmpfile pid) file).setJob pid (some (phase', j))) where
  job := by
    intro p ph i hi
    by_cases hp : p = pid
    · subst hp
      rw [setJob_self] at hi
      cases hi
      simpa using h.job p phase j hj
    · rw [setJob_of_ne hp] at hi
      simpa using h.job p ph i hi
  closed := by
    intro p i hi
    by_cases hp : p = pid
    · subst hp
      rw [setJob_self] at hi
      cases hi
      rw [setJob_fs, hfile rfl]
      exact Function.update_self ..
    · rw [setJob_of_ne hp] at hi
      exact h.other hj file hp hi
  done := by simpa using h.done
  once := h.once
  last := by
    intro r hr
    rw [setJob_fs, setFile_tmp_pending j (pendingfile_dir r.slot)]
    exact h.last r hr
  only := by
    intro path hdir
    rw [setJob_fs, setFile_tmp_pending j hdir]
    exact h.only path hdir

/-- A call returns. -/
theorem QueueInv.leave (h : QueueInv before s) (hj : (s.sessions pid).job = some (phase, j))
    (file : Option CString) :
    QueueInv before ((s.setFile (j.slot.tmpfile pid) file).setJob pid none) where
  job := by
    intro p ph i hi
    by_cases hp : p = pid
    · subst hp
      rw [setJob_self] at hi
      cases hi
    · rw [setJob_of_ne hp] at hi
      simpa using h.job p ph i hi
  closed := by
    intro p i hi
    by_cases hp : p = pid
    · subst hp
      rw [setJob_self] at hi
      cases hi
    · rw [setJob_of_ne hp] at hi
      exact h.other hj file hp hi
  done := by simpa using h.done
  once := h.once
  last := by
    intro r hr
    rw [setJob_fs, setFile_tmp_pending j (pendingfile_dir r.slot)]
    exact h.last r hr
  only := by
    intro path hdir
    rw [setJob_fs, setFile_tmp_pending j hdir]
    exact h.only path hdir

/-- A job reaches the directory. -/
theorem QueueInv.publish (h : QueueInv before s) (hjob : (s.sessions j.pid).job = none)
    (hmade : j.call.file j.now = some j.contents) (hseq : j.seq ≤ (s.sessions j.pid).sequence)
    (hfresh : j.IsOneliner → ∀ r ∈ s.done, r.IsOneliner → r.pid = j.pid → r.seq < j.seq) :
    QueueInv before (s.publish j (some j.contents)) where
  job := by
    intro p ph i hi
    replace hi : (s.sessions p).job = some (ph, i) := hi
    obtain ⟨hip, himade, hiseq, hifresh⟩ := h.job p ph i hi
    refine ⟨hip, himade, hiseq, fun hone r hr hrone hrp => ?_⟩
    replace hr : r ∈ s.done ++ [j] := hr
    rw [List.mem_append, List.mem_singleton] at hr
    rcases hr with hr | rfl
    · exact hifresh hone r hr hrone hrp
    · -- the session of the job is not in a call
      rw [← hrp, hjob] at hi
      cases hi
  closed := by
    intro p i hi
    replace hi : (s.sessions p).job = some (.closed, i) := hi
    have hne := (ne_tmpfile p i.slot (pendingfile_dir j.slot)).symm
    exact (Function.update_of_ne hne ..).trans (h.closed p i hi)
  done := by
    intro r hr
    replace hr : r ∈ s.done ++ [j] := hr
    rw [List.mem_append, List.mem_singleton] at hr
    rcases hr with hr | rfl
    · exact h.done r hr
    · exact ⟨hmade, hseq⟩
  once := by
    intro r hr r' hr' hone hone' hp hq
    replace hr : r ∈ s.done ++ [j] := hr
    replace hr' : r' ∈ s.done ++ [j] := hr'
    rw [List.mem_append, List.mem_singleton] at hr hr'
    rcases hr with hr | rfl <;> rcases hr' with hr' | rfl
    · exact h.once r hr r' hr' hone hone' hp hq
    · have hlt := hfresh hone' r hr hone hp
      omega
    · have hlt := hfresh hone r' hr' hone' hp.symm
      omega
    · rfl
  last := by
    intro r hr
    replace hr : r ∈ s.done ++ [j] := hr
    show ∃ r' ∈ s.done ++ [j], r'.slot = r.slot ∧
      Function.update s.fs j.slot.pendingfile (some j.contents) r.slot.pendingfile = some r'.contents
    by_cases hslot : r.slot = j.slot
    · refine ⟨j, by simp, hslot.symm, ?_⟩
      rw [hslot, Function.update_self]
    · rw [Function.update_of_ne fun he => hslot (pendingfile_inj he)]
      rw [List.mem_append, List.mem_singleton] at hr
      rcases hr with hr | rfl
      · obtain ⟨r', hr', hsame, hfile⟩ := h.last r hr
        exact ⟨r', List.mem_append_left _ hr', hsame, hfile⟩
      · exact absurd rfl hslot
  only := by
    intro path hdir
    show Function.update s.fs j.slot.pendingfile (some j.contents) path = before path ∨
      ∃ r ∈ s.done ++ [j], r.slot.pendingfile = path
    by_cases hpath : path = j.slot.pendingfile
    · exact Or.inr ⟨j, by simp, hpath.symm⟩
    · rw [Function.update_of_ne hpath]
      refine (h.only path hdir).imp_right ?_
      rintro ⟨r, hr, he⟩
      exact ⟨r, List.mem_append_left _ hr, he⟩

/-- A call begins. -/
theorem QueueInv.begin (h : QueueInv before s) {c : QueueCall} {contents : CString} {seq : Int}
    (hfile : c.file s.clock = some contents) (hseq : (s.sessions pid).sequence ≤ seq)
    (hone : ∀ o, c = .ibolOneliner o → (s.sessions pid).sequence < seq) :
    QueueInv before { s with
      sessions := Function.update s.sessions pid
        ⟨seq, some (.begun, ⟨pid, c, s.clock, seq, contents⟩)⟩ } where
  job := by
    intro p ph i hi
    replace hi : (Function.update s.sessions pid _ p).job = some (ph, i) := hi
    by_cases hp : p = pid
    · subst hp
      rw [Function.update_self] at hi
      cases hi
      refine ⟨rfl, hfile, ?_, ?_⟩
      · show seq ≤ (Function.update s.sessions p _ p).sequence
        exact Int.le_of_eq (by rw [Function.update_self])
      · rintro ⟨o, ho⟩ r hr - hrp
        have hle := (h.done r hr).2
        rw [hrp] at hle
        exact Int.lt_of_le_of_lt hle (hone o ho)
    · rw [Function.update_of_ne hp] at hi
      show _ ∧ _ ∧ _ ≤ (Function.update s.sessions pid _ p).sequence ∧ _
      rw [Function.update_of_ne hp]
      exact h.job p ph i hi
  closed := by
    intro p i hi
    replace hi : (Function.update s.sessions pid _ p).job = some (.closed, i) := hi
    by_cases hp : p = pid
    · subst hp
      rw [Function.update_self] at hi
      cases hi
    · rw [Function.update_of_ne hp] at hi
      exact h.closed p i hi
  done := by
    intro r hr
    obtain ⟨hmade, hle⟩ := h.done r hr
    refine ⟨hmade, ?_⟩
    show r.seq ≤ (Function.update s.sessions pid _ r.pid).sequence
    by_cases hp : r.pid = pid
    · rw [hp, Function.update_self]
      rw [hp] at hle
      exact Int.le_trans hle hseq
    · rw [Function.update_of_ne hp]
      exact hle
  once := h.once
  last := h.last
  only := h.only

theorem setFile_self (path : QueuePath) : s.setFile path (s.fs path) = s := by
  unfold QueueState.setFile
  rw [Function.update_eq_self]

theorem QueueInv.step (h : QueueInv before s) {e : QueueEvent} (hs : queueStep s e = some s') :
    QueueInv before s' := by
  cases e with
  | tick now =>
    rw [queueStep] at hs
    split at hs
    · cases hs
    · cases hs
      exact ⟨h.job, h.closed, h.done, h.once, h.last, h.only⟩
  | call pid c =>
    rw [queueStep] at hs
    split at hs
    · cases hs
    · split at hs
      · cases hs
        exact h
      · next contents hfile =>
        cases hs
        refine h.begin hfile ?_ ?_
        · unfold QueueCall.nextSequence
          split <;> omega
        · rintro o rfl
          exact Int.lt_succ _
  | fopen pid ok =>
    rw [queueStep] at hs
    split at hs
    · next j hj =>
      cases ok with
      | true =>
        cases hs
        exact h.goOn hj fun hc => by cases hc
      | false =>
        cases hs
        have hleave := h.leave hj (s.fs (j.slot.tmpfile pid))
        rwa [setFile_self] at hleave
    · cases hs
  | write pid n =>
    rw [queueStep] at hs
    split at hs
    · next j hj =>
      cases hs
      exact h.goOn hj fun hc => by cases hc
    · cases hs
  | fclose pid ok =>
    rw [queueStep] at hs
    split at hs
    · next j hj =>
      cases ok with
      | true =>
        cases hs
        exact h.goOn hj fun _ => rfl
      | false =>
        cases hs
        exact h.leave hj none
    · cases hs
  | rename pid ok =>
    rw [queueStep] at hs
    split at hs
    · next j hj =>
      have hleave := h.leave hj none
      cases ok with
      | true =>
        cases hs
        obtain ⟨hjp, hmade, hseq, hfresh⟩ := h.job pid .closed j hj
        rw [h.closed pid j hj]
        subst hjp
        refine hleave.publish ?_ hmade (by simpa using hseq) hfresh
        rw [setJob_self]
      | false =>
        cases hs
        exact hleave
    · cases hs

/-! ## Runs -/

/-- No session has queued two netmails of one user in the same second, unless they are alike. -/
def NetmailsApart (done : List QueueJob) : Prop :=
  ∀ r ∈ done, ∀ r' ∈ done, ∀ c c', r.call = .ftnNetmail c → r'.call = .ftnNetmail c' →
    c.fromuid = c'.fromuid → r.now = r'.now → r.pid = r'.pid → r.contents = r'.contents

/-- The runner finds what each call has queued that has returned 0. -/
def Delivered (s : QueueState) : Prop :=
  ∀ r ∈ s.done, ∃ path : QueuePath, (path.1 = .pending ∨ path.1 = .netmailPending) ∧
    s.fs path = some r.contents

theorem queueInv_start (clock : Int) (fs : QueuePath → Option CString) :
    QueueInv fs (.start clock fs) := by
  refine ⟨?_, ?_, ?_, ?_, ?_, fun _ _ => Or.inl rfl⟩
  · intro pid phase j hj
    cases hj
  · intro pid j hj
    cases hj
  all_goals
    intro r hr
    cases hr

/-- Calls of one name are alike, netmails apart. -/
theorem QueueInv.contents_eq (h : QueueInv before s) (hapart : NetmailsApart s.done) {r r' : QueueJob}
    (hr : r ∈ s.done) (hr' : r' ∈ s.done) (hslot : r.slot = r'.slot) : r.contents = r'.contents := by
  have hfile := (h.done r hr).1
  have hfile' := (h.done r' hr').1
  unfold QueueJob.slot at hslot
  cases hc : r.call with
  | ftnExport confnum textnum =>
    cases hc' : r'.call with
    | ftnExport confnum' textnum' =>
      rw [hc, hc'] at hslot
      obtain ⟨rfl, rfl, hnow⟩ := Slot.ftnExport.inj hslot
      rw [hc, hnow] at hfile
      rw [hc', hfile] at hfile'
      exact Option.some.inj hfile'
    | ftnNetmail | ibolOneliner =>
      rw [hc, hc'] at hslot
      cases hslot
  | ftnNetmail c =>
    cases hc' : r'.call with
    | ftnNetmail c' =>
      rw [hc, hc'] at hslot
      obtain ⟨huid, hnow, hpid⟩ := Slot.ftnNetmail.inj hslot
      exact hapart r hr r' hr' c c' hc hc' huid hnow hpid
    | ftnExport | ibolOneliner =>
      rw [hc, hc'] at hslot
      cases hslot
  | ibolOneliner c =>
    cases hc' : r'.call with
    | ibolOneliner c' =>
      rw [hc, hc'] at hslot
      obtain ⟨-, -, hpid, hseq⟩ := Slot.ibolOneliner.inj hslot
      rw [h.once r hr r' hr' ⟨c, hc⟩ ⟨c', hc'⟩ hpid hseq]
    | ftnExport | ftnNetmail =>
      rw [hc, hc'] at hslot
      cases hslot

/-- In whatever order sessions queue their jobs, step by step, every call that has returned 0 has its
job file in the directory of the runner exactly when the netmails were apart; then no job is lost. -/
theorem queue_delivers_iff (clock : Int) (fs : QueuePath → Option CString) (es : List QueueEvent)
    {s : QueueState} (hrun : run queueStep (.start clock fs) es = some s) :
    (NetmailsApart s.done ↔ ∀ r ∈ s.done, s.fs r.slot.pendingfile = some r.contents) ∧
      (NetmailsApart s.done → Delivered s) := by
  have h := run_invariant (fun _ _ _ h hs => QueueInv.step h hs) (queueInv_start clock fs) hrun
  have hown : NetmailsApart s.done → ∀ r ∈ s.done, s.fs r.slot.pendingfile = some r.contents := by
    intro hapart r hr
    obtain ⟨r', hr', hslot, hfile⟩ := h.last r hr
    rw [hfile, h.contents_eq hapart hr' hr hslot]
  refine ⟨⟨hown, ?_⟩, fun hapart r hr => ⟨_, pendingfile_dir r.slot, hown hapart r hr⟩⟩
  intro hkept r hr r' hr' c c' hc hc' huid hnow hpid
  have hslot : r.slot = r'.slot := by
    unfold QueueJob.slot
    rw [hc, hc', hnow, hpid, QueueCall.slot, QueueCall.slot, huid]
  have hfile := hkept r hr
  rw [hslot, hkept r' hr'] at hfile
  exact (Option.some.inj hfile).symm

/-- The operations of a call that succeeds. -/
def queueOne (pid : Int) (c : QueueCall) : List QueueEvent :=
  [.call pid c, .fopen pid true, .fclose pid true, .rename pid true]

def netmailHej : NetmailCall := ⟨7, "Anna".toList, "2:201/1".toList, none, "hej".toList, none⟩

def netmailNej : NetmailCall := ⟨7, "Anna".toList, "2:201/1".toList, none, "nej".toList, none⟩

/-- Two sessions whose operations alternate. -/
def queueBoth : List QueueEvent :=
  [.call 12 (.ftnNetmail netmailHej), .call 13 (.ftnNetmail netmailNej), .fopen 12 true, .fopen 13 true,
    .fclose 13 true, .fclose 12 true, .rename 13 true, .rename 12 true]

theorem queue_delivers_both : ∃ s, run queueStep (.start 99 fun _ => none) queueBoth = some s ∧
    s.done.length = 2 ∧ Delivered s := by
  obtain ⟨s, hs⟩ : ∃ s, run queueStep (.start 99 fun _ => none) queueBoth = some s := ⟨_, rfl⟩
  have hdone : s.done = [⟨13, .ftnNetmail netmailNej, 99, 0, (netmailNej.file 99).getD []⟩,
      ⟨12, .ftnNetmail netmailHej, 99, 0, (netmailHej.file 99).getD []⟩] := by
    cases hs
    rfl
  refine ⟨s, hs, by rw [hdone]; rfl, (queue_delivers_iff 99 (fun _ => none) queueBoth hs).2 ?_⟩
  intro r hr r' hr' c c' _ _ _ _ hpid
  rw [hdone, List.mem_cons, List.mem_singleton] at hr hr'
  rcases hr with rfl | rfl
  · rcases hr' with rfl | rfl
    · rfl
    · exact absurd hpid (by decide)
  · rcases hr' with rfl | rfl
    · exact absurd hpid (by decide)
    · rfl

/-- Two netmails in one second: the second one takes the place of the first. -/
theorem queue_netmail_lost : ∃ s, run queueStep (.start 99 fun _ => none)
    (queueOne 12 (.ftnNetmail netmailHej) ++ queueOne 12 (.ftnNetmail netmailNej)) = some s ∧
    ¬ Delivered s := by
  obtain ⟨s, hs⟩ : ∃ s, run queueStep (.start 99 fun _ => none)
    (queueOne 12 (.ftnNetmail netmailHej) ++ queueOne 12 (.ftnNetmail netmailNej)) = some s := ⟨_, rfl⟩
  refine ⟨s, hs, fun hdel => ?_⟩
  have h := run_invariant (fun _ _ _ h hs => QueueInv.step h hs)
    (queueInv_start 99 fun _ => none) hs
  have hdone : s.done = [⟨12, .ftnNetmail netmailHej, 99, 0, (netmailHej.file 99).getD []⟩,
      ⟨12, .ftnNetmail netmailNej, 99, 0, (netmailNej.file 99).getD []⟩] := by
    cases hs
    rfl
  have hkept : s.fs (Slot.ftnNetmail 7 99 12).pendingfile = netmailNej.file 99 := by
    cases hs
    rfl
  rw [Delivered, hdone] at hdel
  obtain ⟨path, hdir, hfile⟩ := hdel _ List.mem_cons_self
  rcases h.only path hdir with hnone | ⟨r, hr, hpath⟩
  · rw [hnone] at hfile
    cases hfile
  · -- both jobs have one name
    have hslot : r.slot = .ftnNetmail 7 99 12 := by
      rw [hdone] at hr
      rw [List.mem_cons, List.mem_singleton] at hr
      rcases hr with rfl | rfl <;> rfl
    rw [← hpath, hslot, hkept] at hfile
    revert hfile
    decide +kernel

end SklaffKom
