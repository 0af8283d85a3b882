import SklaffKom.UserFile

/-!
# The active users

`etc/active` holds a line for each session.  A session that begins reads the file once, takes the
entries of dead processes out one by one, looks for an entry of its own user, and appends its line.
`remove_active` takes out the first entry of a user, whichever process it belongs to.
-/

open CString Runs

namespace SklaffKom

structure ActiveEntry where
  user : Int
  pid : Int
  loginTime : Int
  avail : Int
  fromField : CString
  tty : CString
deriving DecidableEq, Repr

/-- What a call of `get_active_entry` does.  On `NULL` it leaves `ae->user` zero. -/
inductive ActiveScan where
  | crash
  | null
  | entry (ae : ActiveEntry) (next : CString)
deriving DecidableEq

/-- The fields of an entry and the position after its line. -/
def activeFields (user : Int) (buf : CString) : Option (ActiveEntry × CString) := do
  let p1 ← nextField buf
  let p2 ← nextField p1
  let p3 ← nextField p2
  let p4 ← nextField p3
  let (fromField, p5) ← cutAt ':' p4
  let (tty, _) ← cutAt ':' p5
  let nl ← strchr buf '\n'
  pure ({ user, pid := atol p1, loginTime := atol p2, avail := atol p3, fromField, tty }, nl.tail)

def getActiveEntry (buf : CString) : ActiveScan :=
  let r := strtol buf
  if r.2 = buf then .null
  else match activeFields r.1 buf with
    | none => .crash
    | some (ae, next) => .entry ae next

/-- `while ((buf = get_active_entry(buf, &ae))) { if (ae.user == uid) break; }` -/
def findActiveEntry (uid : Int) : Nat → CString → ActiveScan
  | 0, _ => .null
  | fuel + 1, buf =>
    match getActiveEntry buf with
    | .crash => .crash
    | .null => .null
    | .entry ae next => if ae.user = uid then .entry ae next else findActiveEntry uid fuel next

/-- The entries of the file, `none` where reading them crashes. -/
def activeEntries : Nat → CString → Option (List ActiveEntry)
  | 0, _ => some []
  | fuel + 1, buf =>
    match getActiveEntry buf with
    | .crash => none
    | .null => some []
    | .entry ae next => (activeEntries fuel next).map (ae :: ·)

/-- The line that `add_active` prints, without the line end; it is taken to fit its buffer. -/
def activeLine (ae : ActiveEntry) : CString :=
  field ae.user ++ field ae.pid ++ field ae.loginTime ++ field ae.avail ++ ae.fromField ++ [':'] ++
    ae.tty ++ ":dum:dum:dum".toList

/-- What `add_active` writes. -/
def appendActive (ae : ActiveEntry) (buf : CString) : CString := buf ++ activeLine ae ++ ['\n']

/-- What `remove_active` writes; without an entry only root matches. -/
def removeActive (uid : Int) (oldbuf : CString) : Option CString :=
  match findActiveEntry uid (oldbuf.length + 1) oldbuf with
  | .crash => none
  | .null => if uid = 0 then none else some oldbuf
  | .entry _ next =>
    some (oldbuf.take (lineStart oldbuf (oldbuf.length - next.length)) ++ next)

/-! ## Processes -/

/-- A host name or the name of a terminal. -/
abbrev ActiveName : Type := { s : CString // '\n' ∉ s }

inductive ActivePhase where
  /-- before the snapshot is read -/
  | start
  /-- the part of the snapshot that was not looked at yet -/
  | scan (rest : CString)
  /-- before the removal of the entry of a dead process -/
  | clean (user : Int) (rest : CString)
  /-- before the entry of the own user is looked for -/
  | check
  /-- the user is asked about the process with the entry -/
  | asked (pid : Int)
  /-- the process was told to end -/
  | told (pid : Int)
  /-- the process was killed -/
  | killed
  /-- before the entry is appended -/
  | append
  /-- `add_active` has returned -/
  | active
  /-- before the removal at logout -/
  | logout
  /-- after it -/
  | gone
deriving DecidableEq

structure ActiveProc where
  uid : UserUid
  fromField : ActiveName
  tty : ActiveName
  alive : Bool
  phase : ActivePhase

/-- The active file and the processes; a pid is not used again. -/
structure ActiveSystem where
  file : CString
  procs : Int → Option ActiveProc

def ActiveSystem.init : ActiveSystem := ⟨[], fun _ => none⟩

/-- `kill(pid, 0) != -1` -/
def isAlive (s : ActiveSystem) (pid : Int) : Bool := (s.procs pid).any (·.alive)

/-- The session has finished `add_active`, is alive and has not begun to log out. -/
def isLive (s : ActiveSystem) (pid : Int) : Bool :=
  (s.procs pid).any fun p => p.alive && p.phase = .active

inductive ActiveEvent where
  /-- a process begins `add_active` -/
  | start (pid : Int) (uid : UserUid) (fromField tty : ActiveName)
  /-- the next access of a process to the file, the next question to the kernel, or the answer of its
  user -/
  | access (pid : Int) (yes : Bool) (time : Int)
  /-- a session begins `exec_logout` -/
  | logout (pid : Int)
  /-- a process dies -/
  | die (pid : Int)

def ActiveSystem.setPhase (s : ActiveSystem) (pid : Int) (p : ActiveProc) (phase : ActivePhase) :
    ActiveSystem :=
  { s with procs := Function.update s.procs pid (some { p with phase := phase }) }

/-- The process is dead. -/
def ActiveSystem.kill (s : ActiveSystem) (pid : Int) : ActiveSystem :=
  { s with procs := Function.update s.procs pid ((s.procs pid).map fun p => { p with alive := false }) }

/-- `remove_active` by a process that goes on in another phase. -/
def ActiveSystem.remove (s : ActiveSystem) (uid pid : Int) (p : ActiveProc) (phase : ActivePhase) :
    Option ActiveSystem :=
  (removeActive uid s.file).map fun file => { s.setPhase pid p phase with file := file }

/-- The step of a process; `none` is a crash. -/
def accessStep (s : ActiveSystem) (pid : Int) (p : ActiveProc) (yes : Bool) (time : Int) :
    Option ActiveSystem :=
  match p.phase with
  | .start => some (s.setPhase pid p (.scan s.file))
  | .scan rest =>
    match getActiveEntry rest with
    | .crash => none
    | .null => some (s.setPhase pid p .check)
    | .entry ae next =>
      some (s.setPhase pid p (if isAlive s ae.pid then .scan next else .clean ae.user next))
  | .clean user rest => s.remove user pid p (.scan rest)
  | .check =>
    match findActiveEntry p.uid.val (s.file.length + 1) s.file with
    | .crash => none
    | .null => some (s.setPhase pid p .append)
    | .entry ae _ => some (s.setPhase pid p (.asked ae.pid))
  | .asked other => some (if yes then s.setPhase pid p (.told other) else (s.setPhase pid p .gone).kill pid)
  | .told other =>
    match findActiveEntry p.uid.val (s.file.length + 1) s.file with
    | .crash => none
    | .null => some (s.setPhase pid p .append)
    | .entry _ _ => some ((s.setPhase pid p .killed).kill other)
  | .killed => s.remove p.uid.val pid p .append
  | .append =>
    some { s.setPhase pid p .active with
      file := appendActive ⟨p.uid.val, pid, time, 0, p.fromField.val, p.tty.val⟩ s.file }
  | .active => some s
  | .logout => s.remove p.uid.val pid p .gone
  | .gone => some s

/-- A step of the system; what is not possible changes nothing. -/
def activeStep (s : ActiveSystem) : ActiveEvent → Option ActiveSystem
  | .start pid uid fromField tty =>
    if (s.procs pid).isSome then some s
    else some { s with procs := Function.update s.procs pid (some ⟨uid, fromField, tty, true, .start⟩) }
  | .access pid yes time =>
    match s.procs pid with
    | none => some s
    | some p => if p.alive then accessStep s pid p yes time else some s
  | .logout pid =>
    match s.procs pid with
    | none => some s
    | some p => some (if isLive s pid then s.setPhase pid p .logout else s)
  | .die pid => some (s.kill pid)

/-- Whose entry a process removes with its next access. -/
def ActivePhase.removes (uid : Int) : ActivePhase → Option Int
  | .clean user _ => some user
  | .killed => some uid
  | .logout => some uid
  | _ => none

/-! ## The lines of the file -/

/-- An entry that a session has written. -/
structure ActiveEntry.OneLine (ae : ActiveEntry) : Prop where
  user : 0 < ae.user
  fromField : '\n' ∉ ae.fromField
  tty : '\n' ∉ ae.tty

/-- An entry that is read as it was written. -/
structure ActiveEntry.Fits (ae : ActiveEntry) : Prop where
  user : 0 < ae.user
  fromField : ':' ∉ ae.fromField ∧ '\n' ∉ ae.fromField
  tty : ':' ∉ ae.tty ∧ '\n' ∉ ae.tty

theorem ActiveEntry.Fits.oneLine {ae : ActiveEntry} (h : ae.Fits) : ae.OneLine :=
  ⟨h.user, h.fromField.2, h.tty.2⟩

/-- The entry as it is read: its texts are what stands before the first two separators. -/
def ActiveEntry.seen (ae : ActiveEntry) : ActiveEntry :=
  let texts := ae.fromField ++ ':' :: (ae.tty ++ [':'])
  { ae with
    fromField := texts.takeWhile (· ≠ ':')
    tty := (texts.dropWhile (· ≠ ':')).tail.takeWhile (· ≠ ':') }

theorem takeWhile_split {c : Char} {s : CString} (h : c ∈ s) :
    s = s.takeWhile (· ≠ c) ++ c :: (s.dropWhile (· ≠ c)).tail := by
  induction s with
  | nil => cases h
  | cons d s ih =>
    by_cases hd : d = c
    · subst hd
      simp
    · have hs := (List.mem_cons.mp h).resolve_left (Ne.symm hd)
      rw [List.takeWhile_cons_of_pos (by simpa using hd), List.dropWhile_cons_of_pos (by simpa using hd),
        List.cons_append, ← ih hs]

theorem notMem_takeWhile (c : Char) (s : CString) : c ∉ s.takeWhile (· ≠ c) := by
  intro h
  have hne := List.mem_takeWhile_imp h
  simp at hne

theorem ActiveEntry.exists_seen (ae : ActiveEntry) :
    ∃ r, ae.fromField ++ ':' :: (ae.tty ++ [':']) =
      ae.seen.fromField ++ ':' :: (ae.seen.tty ++ ':' :: r) := by
  have hfirst := takeWhile_split (c := ':') (s := ae.fromField ++ ':' :: (ae.tty ++ [':'])) (by simp)
  -- there are two separators, and only one is gone
  have hsecond : ':' ∈ ((ae.fromField ++ ':' :: (ae.tty ++ [':'])).dropWhile (· ≠ ':')).tail := by
    have hcount := congrArg (List.count ':') hfirst
    rw [List.count_append, List.count_append, List.count_cons_self, List.count_cons_self,
      List.count_append, List.count_singleton_self,
      List.count_eq_zero_of_not_mem (notMem_takeWhile ':' _)] at hcount
    exact List.count_pos_iff.mp (by omega)
  have htail := takeWhile_split hsecond
  generalize (List.dropWhile _ (List.tail _)).tail = r at htail
  refine ⟨r, hfirst.trans ?_⟩
  exact congrArg (ae.seen.fromField ++ ':' :: ·) htail

theorem ActiveEntry.notMem_seen (ae : ActiveEntry) :
    ':' ∉ ae.seen.fromField ∧ ':' ∉ ae.seen.tty :=
  ⟨notMem_takeWhile ':' _, notMem_takeWhile ':' _⟩

theorem ActiveEntry.Fits.seen {ae : ActiveEntry} (h : ae.Fits) : ae.seen = ae := by
  obtain ⟨r, heq⟩ := ae.exists_seen
  have hfrom := congrArg (cutAt ':') heq
  rw [cutAt_append h.fromField.1, cutAt_append ae.notMem_seen.1, Option.some.injEq,
    Prod.mk.injEq] at hfrom
  have htty := congrArg (cutAt ':') hfrom.2
  rw [cutAt_append h.tty.1, cutAt_append ae.notMem_seen.2, Option.some.injEq,
    Prod.mk.injEq] at htty
  show ({ ae with fromField := ae.seen.fromField, tty := ae.seen.tty } : ActiveEntry) = ae
  rw [← hfrom.1, ← htty.1]

theorem notMem_activeLine {ae : ActiveEntry} (h : ae.OneLine) : '\n' ∉ activeLine ae := by
  unfold activeLine
  simp [notMem_field, h.fromField, h.tty]

theorem activeLine_ne_nil (ae : ActiveEntry) : activeLine ae ≠ [] := by
  unfold activeLine field
  simp

/-- `get_active_entry` finds the entry at the head of the buffer. -/
theorem getActiveEntry_line {ae : ActiveEntry} (h : ae.OneLine) (rest : CString) :
    getActiveEntry (activeLine ae ++ '\n' :: rest) = .entry ae.seen rest := by
  obtain ⟨r, heq⟩ := ae.exists_seen
  have hb : activeLine ae ++ '\n' :: rest = field ae.user ++ (field ae.pid ++ (field ae.loginTime ++
      (field ae.avail ++ (ae.seen.fromField ++ ':' :: (ae.seen.tty ++ ':' ::
        (r ++ "dum:dum:dum".toList ++ '\n' :: rest)))))) := by
    have htexts := congrArg (· ++ ("dum:dum:dum".toList ++ '\n' :: rest)) heq
    simp only [List.append_assoc, List.cons_append] at htexts
    simp only [activeLine, List.append_assoc]
    simpa using htexts
  have hnl : strchr (activeLine ae ++ '\n' :: rest) '\n' = some ('\n' :: rest) :=
    strchr_append (notMem_activeLine h)
  unfold getActiveEntry activeFields
  rw [hnl, hb, strtol_field]
  dsimp only
  rw [if_neg (field_moved _ _), nextField_field]
  dsimp only [Option.bind_eq_bind, Option.bind_some]
  rw [nextField_field]
  dsimp only [Option.bind_some]
  rw [nextField_field]
  dsimp only [Option.bind_some]
  rw [nextField_field]
  dsimp only [Option.bind_some]
  rw [cutAt_append ae.notMem_seen.1]
  dsimp only [Option.bind_some]
  rw [cutAt_append ae.notMem_seen.2]
  dsimp only [Option.bind_some, pure]
  rw [atol_field, atol_field, atol_field]
  rfl

def activeBytes (es : List ActiveEntry) : CString := unlines (es.map activeLine)

theorem activeBytes_cons (e : ActiveEntry) (es : List ActiveEntry) :
    activeBytes (e :: es) = activeLine e ++ '\n' :: activeBytes es := by
  rw [activeBytes, List.map_cons, unlines, List.flatMap_cons, List.append_assoc]
  rfl

theorem activeBytes_append (as bs : List ActiveEntry) :
    activeBytes (as ++ bs) = activeBytes as ++ activeBytes bs := by
  unfold activeBytes unlines
  rw [List.map_append, List.flatMap_append]

theorem appendActive_bytes (ae : ActiveEntry) (es : List ActiveEntry) :
    appendActive ae (activeBytes es) = activeBytes (es ++ [ae]) := by
  rw [activeBytes_append, activeBytes_cons, appendActive, List.append_assoc]
  rfl

theorem length_le_activeBytes (es : List ActiveEntry) : es.length ≤ (activeBytes es).length := by
  induction es with
  | nil => exact Nat.le_refl 0
  | cons e es ih =>
    rw [activeBytes_cons, List.length_append, List.length_cons, List.length_cons]
    omega

theorem endsLine_activeBytes (es : List ActiveEntry) : EndsLine (activeBytes es) := by
  induction es with
  | nil => exact Or.inl rfl
  | cons e es ih =>
    have hline : activeLine e ++ '\n' :: activeBytes es = (activeLine e ++ ['\n']) ++ activeBytes es := by
      simp
    rw [activeBytes_cons, hline]
    exact (EndsLine.line (activeLine_ne_nil e)).append ih

theorem getActiveEntry_bytes {es : List ActiveEntry} (hes : ∀ e ∈ es, e.OneLine) :
    getActiveEntry (activeBytes es) = .null ∧ es = [] ∨
      ∃ e ds, es = e :: ds ∧ getActiveEntry (activeBytes es) = .entry e.seen (activeBytes ds) := by
  cases es with
  | nil => exact Or.inl ⟨rfl, rfl⟩
  | cons e es =>
    refine Or.inr ⟨e, es, rfl, ?_⟩
    rw [activeBytes_cons, getActiveEntry_line (hes e List.mem_cons_self)]

theorem activeEntries_bytes {es : List ActiveEntry} (hes : ∀ e ∈ es, e.OneLine) (fuel : Nat)
    (hf : es.length < fuel) : activeEntries fuel (activeBytes es) = some (es.map (·.seen)) := by
  induction es generalizing fuel with
  | nil =>
    obtain ⟨fuel, rfl⟩ : ∃ k, fuel = k + 1 := ⟨fuel - 1, by simp at hf; omega⟩
    rfl
  | cons e es ih =>
    obtain ⟨fuel, rfl⟩ : ∃ k, fuel = k + 1 := ⟨fuel - 1, by simp at hf; omega⟩
    obtain ⟨he, hes⟩ := List.forall_mem_cons.mp hes
    rw [activeBytes_cons, activeEntries, getActiveEntry_line he]
    dsimp only
    rw [ih hes fuel (by simp at hf; omega)]
    rfl

/-- The first entry of a user, or none. -/
theorem findActiveEntry_bytes {es : List ActiveEntry} (hes : ∀ e ∈ es, e.OneLine) (uid : Int)
    (fuel : Nat) (hf : es.length < fuel) :
    findActiveEntry uid fuel (activeBytes es) = .null ∧ (∀ e ∈ es, e.user ≠ uid) ∨
      ∃ as e bs, es = as ++ e :: bs ∧ e.user = uid ∧ (∀ a ∈ as, a.user ≠ uid) ∧
        findActiveEntry uid fuel (activeBytes es) = .entry e.seen (activeBytes bs) := by
  induction es generalizing fuel with
  | nil =>
    obtain ⟨fuel, rfl⟩ : ∃ k, fuel = k + 1 := ⟨fuel - 1, by simp at hf; omega⟩
    exact Or.inl ⟨rfl, by simp⟩
  | cons d es ih =>
    obtain ⟨fuel, rfl⟩ : ∃ k, fuel = k + 1 := ⟨fuel - 1, by simp at hf; omega⟩
    obtain ⟨hd, hes⟩ := List.forall_mem_cons.mp hes
    rw [activeBytes_cons, findActiveEntry, getActiveEntry_line hd]
    dsimp only
    by_cases hu : d.user = uid
    · rw [if_pos (show d.seen.user = uid from hu)]
      exact Or.inr ⟨[], d, es, rfl, hu, by simp, rfl⟩
    · rw [if_neg (show d.seen.user ≠ uid from hu)]
      rcases ih hes fuel (by simp at hf; omega) with ⟨hnull, hne⟩ | ⟨as, e, bs, rfl, he, has, hfind⟩
      · exact Or.inl ⟨hnull, List.forall_mem_cons.mpr ⟨hu, hne⟩⟩
      · exact Or.inr ⟨d :: as, e, bs, rfl, he, List.forall_mem_cons.mpr ⟨hu, has⟩, hfind⟩

/-- `remove_active` takes out the first entry of the user. -/
theorem removeActive_bytes {as bs : List ActiveEntry} {e d : ActiveEntry} {uid : Int}
    (he : e.OneLine)
    (hfind : findActiveEntry uid ((activeBytes (as ++ e :: bs)).length + 1)
      (activeBytes (as ++ e :: bs)) = .entry d (activeBytes bs)) :
    removeActive uid (activeBytes (as ++ e :: bs)) = some (activeBytes (as ++ bs)) := by
  have hb : activeBytes (as ++ e :: bs) = activeBytes as ++ activeLine e ++ '\n' :: activeBytes bs := by
    rw [activeBytes_append, activeBytes_cons, List.append_assoc]
  have hstart : (activeBytes (as ++ e :: bs)).length - (activeBytes bs).length =
      (activeBytes as).length + (activeLine e).length + 1 := by
    rw [hb, List.length_append, List.length_append, List.length_cons]
    omega
  unfold removeActive
  rw [hfind]
  dsimp only
  rw [hstart, hb, lineStart_append (endsLine_activeBytes as) (activeLine_ne_nil e) (notMem_activeLine he),
    List.append_assoc, List.take_left' rfl, activeBytes_append]

/-! ## The invariant -/

/-- The process has appended its entry, or has given up. -/
def ActivePhase.Appended (φ : ActivePhase) : Prop := φ = .active ∨ φ = .logout ∨ φ = .gone

def ActivePhase.Ok : ActivePhase → Prop
  | .scan rest => ∃ es : List ActiveEntry, (∀ e ∈ es, e.OneLine) ∧ rest = activeBytes es
  | .clean user rest =>
    0 < user ∧ ∃ es : List ActiveEntry, (∀ e ∈ es, e.OneLine) ∧ rest = activeBytes es
  | _ => True

/-- Each entry is that of a process that has appended it, and each live session has one. -/
structure ActiveInv (s : ActiveSystem) (es : List ActiveEntry) : Prop where
  file : s.file = activeBytes es
  oneLine : ∀ e ∈ es, e.OneLine
  nodup : (es.map (·.pid)).Nodup
  owners : ∀ e ∈ es, ∃ p, s.procs e.pid = some p ∧ p.uid.val = e.user ∧ p.phase.Appended
  listed : ∀ pid, isLive s pid = true → pid ∈ es.map (·.pid)
  phases : ∀ pid p, s.procs pid = some p → p.phase.Ok

/-- Every live session has exactly one entry with its user and pid in the file, and every other entry
is that of a dead process or of one that logs out. -/
def SessionsListed (s : ActiveSystem) : Prop :=
  ∃ es, activeEntries (s.file.length + 1) s.file = some es ∧
    (∀ pid p, s.procs pid = some p → isLive s pid = true →
      es.countP (fun e => e.user = p.uid.val ∧ e.pid = pid) = 1) ∧
    ∀ e ∈ es, ∃ p, s.procs e.pid = some p ∧
      (isLive s e.pid = true ∧ p.uid.val = e.user ∨ p.alive = false ∨ p.phase = .logout ∨ p.phase = .gone)

theorem countP_pid {es : List ActiveEntry} (hnd : (es.map (·.pid)).Nodup) {e : ActiveEntry} (he : e ∈ es) :
    es.countP (fun d => d.user = e.user ∧ d.pid = e.pid) = 1 := by
  obtain ⟨as, bs, rfl⟩ := List.append_of_mem he
  rw [List.map_append, List.map_cons, List.nodup_append, List.nodup_cons] at hnd
  have has : as.countP (fun d => d.user = e.user ∧ d.pid = e.pid) = 0 := by
    rw [List.countP_eq_zero]
    intro a ha heq
    have hpid := (of_decide_eq_true heq).2
    exact hnd.2.2 _ (List.mem_map_of_mem ha) _ List.mem_cons_self hpid
  have hbs : bs.countP (fun d => d.user = e.user ∧ d.pid = e.pid) = 0 := by
    rw [List.countP_eq_zero]
    intro b hb heq
    have hpid := (of_decide_eq_true heq).2
    exact hnd.2.1.1 (hpid ▸ List.mem_map_of_mem hb)
  rw [List.countP_append, List.countP_cons, has, hbs]
  simp

variable {s : ActiveSystem} {es : List ActiveEntry} {pid : Int} {p : ActiveProc}

theorem isLive_iff : isLive s pid = true ↔
    ∃ p, s.procs pid = some p ∧ p.alive = true ∧ p.phase = .active := by
  unfold isLive
  rw [Option.any_eq_true]
  simp

/-- An entry is counted as it is read. -/
theorem countP_seen (es : List ActiveEntry) (uid pid : Int) :
    (es.map (·.seen)).countP (fun e => e.user = uid ∧ e.pid = pid) =
      es.countP fun e => e.user = uid ∧ e.pid = pid := by
  rw [List.countP_map]
  rfl

theorem ActiveInv.sessionsListed (h : ActiveInv s es) : SessionsListed s := by
  have hlen := length_le_activeBytes es
  refine ⟨es.map (·.seen), ?_, ?_, ?_⟩
  · rw [h.file]
    exact activeEntries_bytes h.oneLine _ (by omega)
  · intro pid p hp hlive
    obtain ⟨e, he, rfl⟩ := List.mem_map.mp (h.listed pid hlive)
    obtain ⟨q, hq, huid, -⟩ := h.owners e he
    rw [hp] at hq
    cases hq
    rw [huid, countP_seen]
    exact countP_pid h.nodup he
  · intro d hd
    obtain ⟨e, he, rfl⟩ := List.mem_map.mp hd
    obtain ⟨q, hq, huid, happ⟩ := h.owners e he
    refine ⟨q, hq, ?_⟩
    rcases happ with hactive | hleaving
    · cases halive : q.alive with
      | true => exact Or.inl ⟨isLive_iff.mpr ⟨q, hq, halive, hactive⟩, huid⟩
      | false => exact Or.inr (Or.inl rfl)
    · exact Or.inr (Or.inr hleaving)

/-! ## Changes of the processes -/

/-- Changes of the processes that make no session live keep the invariant. -/
theorem ActiveInv.procs (h : ActiveInv s es) {procs : Int → Option ActiveProc}
    (hphases : ∀ pid p, procs pid = some p → p.phase.Ok)
    (howners : ∀ pid p, s.procs pid = some p → p.phase.Appended →
      ∃ q, procs pid = some q ∧ q.uid = p.uid ∧ q.phase.Appended)
    (hlive : ∀ pid, isLive { s with procs := procs } pid = true → isLive s pid = true) :
    ActiveInv { s with procs := procs } es where
  file := h.file
  oneLine := h.oneLine
  nodup := h.nodup
  owners := by
    intro e he
    obtain ⟨p, hp, huid, happ⟩ := h.owners e he
    obtain ⟨q, hq, hquid, hqapp⟩ := howners e.pid p hp happ
    exact ⟨q, hq, by rw [hquid]; exact huid, hqapp⟩
  listed := fun pid hpid => h.listed pid (hlive pid hpid)
  phases := hphases

theorem isLive_setPhase {ψ : ActivePhase} (hne : ψ ≠ .active) (q : Int) :
    isLive (s.setPhase pid p ψ) q = if q = pid then false else isLive s q := by
  unfold isLive ActiveSystem.setPhase
  dsimp only
  rw [Function.update_apply]
  split
  · simp [hne]
  · rfl

theorem ActiveInv.setPhase (h : ActiveInv s es) (hp : s.procs pid = some p) {ψ : ActivePhase} (hok : ψ.Ok)
    (happ : p.phase.Appended → ψ.Appended) (hne : ψ ≠ .active) : ActiveInv (s.setPhase pid p ψ) es := by
  apply h.procs
  · intro q r hr
    rw [Function.update_apply] at hr
    split at hr
    · cases hr
      exact hok
    · exact h.phases q r hr
  · intro q r hr hrapp
    rw [Function.update_apply]
    split
    · next heq =>
      subst heq
      rw [hp] at hr
      cases hr
      exact ⟨_, rfl, rfl, happ hrapp⟩
    · exact ⟨r, hr, rfl, hrapp⟩
  · intro q hq
    have hlive := @isLive_setPhase s pid p ψ hne q
    unfold ActiveSystem.setPhase at hlive
    rw [hlive] at hq
    split at hq
    · cases hq
    · exact hq

theorem ActiveInv.kill (h : ActiveInv s es) (pid : Int) : ActiveInv (s.kill pid) es := by
  apply h.procs
  · intro q r hr
    rw [Function.update_apply] at hr
    split at hr
    · obtain ⟨p, hp, rfl⟩ := Option.map_eq_some_iff.mp hr
      exact h.phases pid p hp
    · exact h.phases q r hr
  · intro q r hr hrapp
    rw [Function.update_apply]
    split
    · next heq =>
      subst heq
      rw [hr]
      exact ⟨_, rfl, rfl, hrapp⟩
    · exact ⟨r, hr, rfl, hrapp⟩
  · intro q hq
    obtain ⟨r, hr, halive, hphase⟩ := isLive_iff.mp hq
    dsimp only at hr
    rw [Function.update_apply] at hr
    split at hr
    · obtain ⟨p, hp, rfl⟩ := Option.map_eq_some_iff.mp hr
      cases halive
    · exact isLive_iff.mpr ⟨r, hr, halive, hphase⟩

/-! ## Changes of the file -/

/-- The entry of a session that is not live is taken out. -/
theorem ActiveInv.takeOut {as bs : List ActiveEntry} {e : ActiveEntry} (h : ActiveInv s (as ++ e :: bs))
    (hdead : isLive s e.pid = false) : ActiveInv { s with file := activeBytes (as ++ bs) } (as ++ bs) := by
  have hsub : ∀ a ∈ as ++ bs, a ∈ as ++ e :: bs := by
    intro a ha
    rcases List.mem_append.mp ha with ha | ha
    · exact List.mem_append_left _ ha
    · exact List.mem_append_right _ (List.mem_cons_of_mem _ ha)
  refine ⟨rfl, fun a ha => h.oneLine a (hsub a ha), ?_, fun a ha => h.owners a (hsub a ha), ?_, h.phases⟩
  · exact h.nodup.sublist ((List.sublist_cons_self e bs).append_left as |>.map _)
  · intro pid hpid
    have hlisted := h.listed pid hpid
    rw [List.map_append, List.map_cons, List.mem_append, List.mem_cons] at hlisted
    rw [List.map_append, List.mem_append]
    rcases hlisted with has | rfl | hbs
    · exact Or.inl has
    · have hlive : isLive s e.pid = true := hpid
      rw [hdead] at hlive
      cases hlive
    · exact Or.inr hbs

/-- A session whose entry is taken out while it is live is not listed any more. -/
theorem not_sessionsListed_takeOut {as bs : List ActiveEntry} {e : ActiveEntry}
    (h : ActiveInv s (as ++ e :: bs)) (hlive : isLive s e.pid = true) :
    ¬ SessionsListed { s with file := activeBytes (as ++ bs) } := by
  intro ⟨es, hread, hcount, _⟩
  have hone : ∀ a ∈ as ++ bs, a.OneLine := by
    intro a ha
    apply h.oneLine
    rcases List.mem_append.mp ha with ha | ha
    · exact List.mem_append_left _ ha
    · exact List.mem_append_right _ (List.mem_cons_of_mem _ ha)
  have hlen := length_le_activeBytes (as ++ bs)
  dsimp only at hread
  rw [activeEntries_bytes hone _ (by omega)] at hread
  cases hread
  obtain ⟨p, hp, halive, hphase⟩ := isLive_iff.mp hlive
  have hlisted := hcount e.pid p hp hlive
  rw [countP_seen] at hlisted
  have hnone : (as ++ bs).countP (fun d => d.user = p.uid.val ∧ d.pid = e.pid) = 0 := by
    rw [List.countP_eq_zero]
    intro a ha heq
    have hpid := (of_decide_eq_true heq).2
    have hnd := h.nodup
    rw [List.map_append, List.map_cons, List.nodup_append, List.nodup_cons] at hnd
    rcases List.mem_append.mp ha with ha | ha
    · exact hnd.2.2 _ (List.mem_map_of_mem ha) _ List.mem_cons_self hpid
    · exact hnd.2.1.1 (hpid ▸ List.mem_map_of_mem ha)
  omega

/-- A session that has appended its entry is live. -/
theorem ActiveInv.append (h : ActiveInv s es) (hp : s.procs pid = some p) (hphase : p.phase = .append)
    (time : Int) :
    let ae : ActiveEntry := ⟨p.uid.val, pid, time, 0, p.fromField.val, p.tty.val⟩
    ActiveInv { s.setPhase pid p .active with file := appendActive ae s.file } (es ++ [ae]) := by
  intro ae
  have hnotin : pid ∉ es.map (·.pid) := by
    intro hin
    obtain ⟨e, he, rfl⟩ := List.mem_map.mp hin
    obtain ⟨q, hq, -, happ⟩ := h.owners e he
    rw [hp] at hq
    cases hq
    unfold ActivePhase.Appended at happ
    rw [hphase] at happ
    rcases happ with hc | hc | hc <;> cases hc
  have hprocs : ∀ q, (s.setPhase pid p .active).procs q =
      if q = pid then some { p with phase := .active } else s.procs q := fun q =>
    Function.update_apply _ _ _ _
  refine ⟨?_, ?_, ?_, ?_, ?_, ?_⟩
  · show appendActive ae s.file = _
    rw [h.file, appendActive_bytes]
  · intro e he
    rcases List.mem_append.mp he with he | he
    · exact h.oneLine e he
    · rw [List.mem_singleton] at he
      subst he
      exact ⟨p.uid.property.1, p.fromField.property, p.tty.property⟩
  · rw [List.map_append, List.nodup_append]
    refine ⟨h.nodup, by simp, ?_⟩
    intro a ha b hb heq
    rw [List.map_singleton, List.mem_singleton] at hb
    rw [heq, hb] at ha
    exact hnotin ha
  · intro e he
    rcases List.mem_append.mp he with he | he
    · obtain ⟨q, hq, huid, happ⟩ := h.owners e he
      have hne : e.pid ≠ pid := fun heq => hnotin (heq ▸ List.mem_map_of_mem he)
      refine ⟨q, ?_, huid, happ⟩
      show (s.setPhase pid p .active).procs e.pid = some q
      rw [hprocs, if_neg hne]
      exact hq
    · rw [List.mem_singleton] at he
      subst he
      refine ⟨{ p with phase := .active }, ?_, rfl, Or.inl rfl⟩
      show (s.setPhase pid p .active).procs pid = _
      rw [hprocs, if_pos rfl]
  · intro q hq
    rw [List.map_append, List.mem_append, List.map_singleton, List.mem_singleton]
    by_cases heq : q = pid
    · exact Or.inr heq
    · left
      apply h.listed
      obtain ⟨r, hr, halive, hactive⟩ := isLive_iff.mp hq
      have hr' : (s.setPhase pid p .active).procs q = some r := hr
      rw [hprocs, if_neg heq] at hr'
      exact isLive_iff.mpr ⟨r, hr', halive, hactive⟩
  · intro q r hr
    have hr' : (s.setPhase pid p .active).procs q = some r := hr
    rw [hprocs] at hr'
    split at hr'
    · cases hr'
      trivial
    · exact h.phases q r hr'

/-- The first entry of the user is not that of a live session. -/
def FirstNotLive (s : ActiveSystem) (uid : Int) : Prop :=
  ∀ ae next, findActiveEntry uid (s.file.length + 1) s.file = .entry ae next → isLive s ae.pid = false

/-- What a call of `remove_active` does. -/
theorem ActiveInv.remove (h : ActiveInv s es) (hp : s.procs pid = some p) (hphase : p.phase ≠ .active)
    {uid : Int} (huid : 0 < uid) {ψ : ActivePhase} (hok : ψ.Ok) (happ : p.phase.Appended → ψ.Appended)
    (hne : ψ ≠ .active) :
    ∃ s', s.remove uid pid p ψ = some s' ∧ (SessionsListed s' ↔ FirstNotLive s uid) ∧
      (FirstNotLive s uid → ∃ es', ActiveInv s' es') := by
  have hset := h.setPhase hp hok happ hne
  have hlive : ∀ q, isLive (s.setPhase pid p ψ) q = isLive s q := by
    intro q
    rw [isLive_setPhase hne]
    split
    · next heq =>
      subst heq
      unfold isLive
      rw [hp]
      simp [hphase]
    · rfl
  have hlen := length_le_activeBytes es
  have hfind := findActiveEntry_bytes h.oneLine uid ((activeBytes es).length + 1) (by omega)
  rcases hfind with ⟨hnull, -⟩ | ⟨as, e, bs, rfl, -, -, hfind⟩
  · have hfree : FirstNotLive s uid := by
      intro ae next hae
      rw [h.file, hnull] at hae
      cases hae
    refine ⟨{ s.setPhase pid p ψ with file := s.file }, ?_, ?_, fun _ => ⟨es, hset⟩⟩
    · unfold ActiveSystem.remove removeActive
      rw [h.file, hnull]
      dsimp only
      rw [if_neg (by omega)]
      rfl
    · exact ⟨fun _ => hfree, fun _ => hset.sessionsListed⟩
  · have hremove := removeActive_bytes (h.oneLine e (by simp)) hfind
    have hfree : FirstNotLive s uid ↔ isLive s e.pid = false := by
      constructor
      · intro hall
        apply hall e.seen (activeBytes bs)
        rw [h.file]
        exact hfind
      · intro hdead ae next hae
        rw [h.file, hfind] at hae
        cases hae
        exact hdead
    refine ⟨{ s.setPhase pid p ψ with file := activeBytes (as ++ bs) }, ?_, ?_, ?_⟩
    · unfold ActiveSystem.remove
      rw [h.file, hremove]
      rfl
    · rw [hfree]
      cases he : isLive s e.pid with
      | false =>
        have hout := hset.takeOut (by rw [hlive]; exact he)
        exact ⟨fun _ => rfl, fun _ => hout.sessionsListed⟩
      | true =>
        have hnot := not_sessionsListed_takeOut hset (by rw [hlive]; exact he)
        exact ⟨fun hl => absurd hl hnot, fun hc => by cases hc⟩
    · intro hall
      exact ⟨as ++ bs, hset.takeOut (by rw [hlive]; exact hfree.mp hall)⟩

/-! ## Steps and runs -/

/-- Where the event removes an entry, it is not that of a live session. -/
def RemovesNoLive (s : ActiveSystem) : ActiveEvent → Prop
  | .access pid _ _ => ∀ p ∈ s.procs pid, p.alive = true →
      ∀ uid ∈ p.phase.removes p.uid.val, FirstNotLive s uid
  | _ => True

/-- The step of a process. -/
theorem accessStep_inv (h : ActiveInv s es) (hp : s.procs pid = some p) (yes : Bool) (time : Int) :
    ∃ s', accessStep s pid p yes time = some s' ∧
      (SessionsListed s' ↔ ∀ uid ∈ p.phase.removes p.uid.val, FirstNotLive s uid) ∧
      ((∀ uid ∈ p.phase.removes p.uid.val, FirstNotLive s uid) → ∃ es', ActiveInv s' es') := by
  have hlen := length_le_activeBytes es
  have hfind : ∀ uid, findActiveEntry uid (s.file.length + 1) s.file = .null ∨
      ∃ ae next, findActiveEntry uid (s.file.length + 1) s.file = .entry ae next := by
    intro uid
    rw [h.file]
    rcases findActiveEntry_bytes h.oneLine uid ((activeBytes es).length + 1) (by omega) with
      ⟨hnull, -⟩ | ⟨as, e, bs, -, -, -, hentry⟩
    · exact Or.inl hnull
    · exact Or.inr ⟨_, _, hentry⟩
  have hkeep : ∀ {s' : ActiveSystem}, p.phase.removes p.uid.val = none → ActiveInv s' es →
      (SessionsListed s' ↔ ∀ uid ∈ p.phase.removes p.uid.val, FirstNotLive s uid) ∧
      ((∀ uid ∈ p.phase.removes p.uid.val, FirstNotLive s uid) → ∃ es', ActiveInv s' es') := by
    intro s' hnone h'
    rw [hnone]
    exact ⟨⟨fun _ _ hc => (by cases hc), fun _ => h'.sessionsListed⟩, fun _ => ⟨es, h'⟩⟩
  have hphaseOk := h.phases pid p hp
  unfold accessStep
  cases hphase : p.phase with
  | start =>
    rw [hphase] at hkeep
    exact ⟨_, rfl, hkeep rfl (h.setPhase hp ⟨es, h.oneLine, h.file⟩
      (by simp [hphase, ActivePhase.Appended]) (by simp))⟩
  | scan rest =>
    rw [hphase] at hkeep hphaseOk
    have happ : ∀ {ψ : ActivePhase}, p.phase.Appended → ψ.Appended := by
      simp [hphase, ActivePhase.Appended]
    obtain ⟨ds, hds, rfl⟩ := hphaseOk
    rcases getActiveEntry_bytes hds with ⟨hnull, -⟩ | ⟨e, ds', rfl, hentry⟩
    · dsimp only
      rw [hnull]
      exact ⟨_, rfl, hkeep rfl (h.setPhase hp trivial happ (by simp))⟩
    · obtain ⟨he, hds'⟩ := List.forall_mem_cons.mp hds
      dsimp only
      rw [hentry]
      dsimp only
      split
      · exact ⟨_, rfl, hkeep rfl (h.setPhase hp ⟨ds', hds', rfl⟩ happ (by simp))⟩
      · have huser : 0 < e.seen.user := he.user
        exact ⟨_, rfl, hkeep rfl (h.setPhase hp ⟨huser, ds', hds', rfl⟩ happ (by simp))⟩
  | clean user rest =>
    rw [hphase] at hphaseOk
    obtain ⟨hpos, ds, hds, hrest⟩ := hphaseOk
    obtain ⟨s', hs', hiff, hinv⟩ := @ActiveInv.remove s es pid p h hp (by simp [hphase]) user hpos
      (.scan rest) ⟨ds, hds, hrest⟩ (by simp [hphase, ActivePhase.Appended]) (by simp)
    refine ⟨s', hs', ?_, ?_⟩
    · simpa [ActivePhase.removes] using hiff
    · simpa [ActivePhase.removes] using hinv
  | check =>
    rw [hphase] at hkeep
    have happ : ∀ {ψ : ActivePhase}, p.phase.Appended → ψ.Appended := by
      simp [hphase, ActivePhase.Appended]
    dsimp only
    rcases hfind p.uid.val with hnull | ⟨ae, next, hentry⟩
    · rw [hnull]
      exact ⟨_, rfl, hkeep rfl (h.setPhase hp trivial happ (by simp))⟩
    · rw [hentry]
      exact ⟨_, rfl, hkeep rfl (@ActiveInv.setPhase _ _ _ _ h hp (.asked ae.pid) trivial happ (by simp))⟩
  | asked other =>
    rw [hphase] at hkeep
    have happ : ∀ {ψ : ActivePhase}, p.phase.Appended → ψ.Appended := by
      simp [hphase, ActivePhase.Appended]
    cases yes with
    | true =>
      exact ⟨_, rfl, hkeep rfl (@ActiveInv.setPhase _ _ _ _ h hp (.told other) trivial happ (by simp))⟩
    | false =>
      exact ⟨_, rfl, hkeep rfl ((@ActiveInv.setPhase _ _ _ _ h hp .gone trivial happ (by simp)).kill pid)⟩
  | told other =>
    rw [hphase] at hkeep
    have happ : ∀ {ψ : ActivePhase}, p.phase.Appended → ψ.Appended := by
      simp [hphase, ActivePhase.Appended]
    dsimp only
    rcases hfind p.uid.val with hnull | ⟨ae, next, hentry⟩
    · rw [hnull]
      exact ⟨_, rfl, hkeep rfl (h.setPhase hp trivial happ (by simp))⟩
    · rw [hentry]
      exact ⟨_, rfl, hkeep rfl ((@ActiveInv.setPhase _ _ _ _ h hp .killed trivial happ (by simp)).kill other)⟩
  | killed =>
    obtain ⟨s', hs', hiff, hinv⟩ := @ActiveInv.remove s es pid p h hp (by simp [hphase]) p.uid.val
      p.uid.property.1 .append trivial (by simp [hphase, ActivePhase.Appended]) (by simp)
    refine ⟨s', hs', ?_, ?_⟩
    · simpa [ActivePhase.removes] using hiff
    · simpa [ActivePhase.removes] using hinv
  | append =>
    have happend := h.append hp hphase time
    refine ⟨_, rfl, ⟨fun _ _ hc => (by cases hc), fun _ => happend.sessionsListed⟩, fun _ => ⟨_, happend⟩⟩
  | active =>
    rw [hphase] at hkeep
    exact ⟨s, rfl, hkeep rfl h⟩
  | logout =>
    obtain ⟨s', hs', hiff, hinv⟩ := @ActiveInv.remove s es pid p h hp (by simp [hphase]) p.uid.val
      p.uid.property.1 .gone trivial (fun _ => Or.inr (Or.inr rfl)) (by simp)
    refine ⟨s', hs', ?_, ?_⟩
    · simpa [ActivePhase.removes] using hiff
    · simpa [ActivePhase.removes] using hinv
  | gone =>
    rw [hphase] at hkeep
    exact ⟨s, rfl, hkeep rfl h⟩

theorem activeStep_inv (h : ActiveInv s es) (e : ActiveEvent) :
    ∃ s', activeStep s e = some s' ∧ (SessionsListed s' ↔ RemovesNoLive s e) ∧
      (RemovesNoLive s e → ∃ es', ActiveInv s' es') := by
  have hkeep : ∀ {s' : ActiveSystem}, ActiveInv s' es → RemovesNoLive s e →
      (SessionsListed s' ↔ RemovesNoLive s e) ∧ (RemovesNoLive s e → ∃ es', ActiveInv s' es') :=
    fun h' hq => ⟨⟨fun _ => hq, fun _ => h'.sessionsListed⟩, fun _ => ⟨es, h'⟩⟩
  cases e with
  | start pid uid fromField tty =>
    unfold activeStep
    dsimp only
    cases hp : s.procs pid with
    | some p => exact ⟨s, rfl, hkeep h trivial⟩
    | none =>
      rw [if_neg (by simp)]
      refine ⟨_, rfl, hkeep (h.procs ?_ ?_ ?_) trivial⟩
      · intro q r hr
        rw [Function.update_apply] at hr
        split at hr
        · cases hr
          trivial
        · exact h.phases q r hr
      · intro q r hr hrapp
        rw [Function.update_apply]
        split
        · next heq =>
          rw [heq, hp] at hr
          cases hr
        · exact ⟨r, hr, rfl, hrapp⟩
      · intro q hq
        obtain ⟨r, hr, halive, hactive⟩ := isLive_iff.mp hq
        dsimp only at hr
        rw [Function.update_apply] at hr
        split at hr
        · cases hr
          cases hactive
        · exact isLive_iff.mpr ⟨r, hr, halive, hactive⟩
  | access pid yes time =>
    unfold activeStep
    dsimp only
    cases hp : s.procs pid with
    | none =>
      refine ⟨s, rfl, hkeep h ?_⟩
      intro p hp'
      rw [hp] at hp'
      cases hp'
    | some p =>
      cases halive : p.alive with
      | false =>
        refine ⟨s, by simp [halive], hkeep h ?_⟩
        intro q hq hqalive
        rw [hp] at hq
        cases hq
        rw [halive] at hqalive
        cases hqalive
      | true =>
        have hq : RemovesNoLive s (.access pid yes time) ↔
            ∀ uid ∈ p.phase.removes p.uid.val, FirstNotLive s uid := by
          unfold RemovesNoLive
          dsimp only
          rw [hp]
          constructor
          · exact fun hall => hall p rfl halive
          · intro hall q hq _
            cases hq
            exact hall
        obtain ⟨s', hs', hiff, hinv⟩ := accessStep_inv h hp yes time
        refine ⟨s', ?_, hiff.trans hq.symm, fun hall => hinv (hq.mp hall)⟩
        dsimp only
        rw [if_pos halive]
        exact hs'
  | logout pid =>
    unfold activeStep
    dsimp only
    cases hp : s.procs pid with
    | none => exact ⟨s, rfl, hkeep h trivial⟩
    | some p =>
      cases hlive : isLive s pid with
      | false => exact ⟨s, rfl, hkeep h trivial⟩
      | true => exact ⟨_, rfl, hkeep (h.setPhase hp trivial (fun _ => Or.inr (Or.inl rfl)) (by simp)) trivial⟩
  | die pid => exact ⟨_, rfl, hkeep (h.kill pid) trivial⟩

theorem activeInv_init : ActiveInv ActiveSystem.init [] where
  file := rfl
  oneLine := by simp
  nodup := List.nodup_nil
  owners := by simp
  listed := by
    intro pid hpid
    cases hpid
  phases := by
    intro pid p hp
    cases hp

/-- The live sessions stay listed along a run exactly when `remove_active` never meets the entry of a
live session first. -/
theorem sessions_listed_iff (events : List ActiveEvent) :
    AllSteps activeStep (fun _ _ s' => SessionsListed s') ActiveSystem.init events ↔
      AllPre activeStep RemovesNoLive ActiveSystem.init events :=
  allSteps_iff_allPre (I := fun s => ∃ es, ActiveInv s es)
    (fun _ e h => h.elim fun _ h => activeStep_inv h e) ⟨[], activeInv_init⟩ events

def activeName (s : CString) (h : '\n' ∉ s) : ActiveName := ⟨s, h⟩

/-- Two sessions of one user look for an entry before either of them appends its own, and the second
one logs out. -/
def twoLogins : List ActiveEvent :=
  [.start 1 ⟨7, by decide⟩ (activeName "*host".toList (by decide))
      (activeName "/dev/tty1".toList (by decide)),
    .start 2 ⟨7, by decide⟩ (activeName "*host".toList (by decide))
      (activeName "/dev/tty2".toList (by decide)),
    .access 1 true 0, .access 1 true 0, .access 1 true 0, .access 2 true 0, .access 2 true 0,
    .access 2 true 0, .access 1 true 10, .access 2 true 20, .logout 2]

theorem logout_removes_other_session :
    ∃ events, ¬ AllSteps activeStep (fun _ _ s' => SessionsListed s') ActiveSystem.init events := by
  refine ⟨twoLogins ++ [.access 2 true 0], fun h => ?_⟩
  have hend : (run activeStep ActiveSystem.init (twoLogins ++ [.access 2 true 0])).map
      (fun s => (isLive s 1, activeEntries (s.file.length + 1) s.file)) =
      some (true, some [⟨7, 2, 20, 0, "*host".toList, "/dev/tty2".toList⟩]) := by decide +kernel
  obtain ⟨t, s', hrun, es, hread, hcount, -⟩ := h.last
  rw [hrun, Option.map_some, hread] at hend
  obtain ⟨hlive, hes⟩ := Prod.mk.inj (Option.some.inj hend)
  cases hes
  obtain ⟨p, hp, -⟩ := isLive_iff.mp hlive
  have hone := hcount 1 p hp hlive
  rw [List.countP_cons_of_neg (by simp), List.countP_nil] at hone
  cases hone

end SklaffKom
