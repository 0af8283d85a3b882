import Mathlib.Logic.Function.Basic
import Mathlib.Data.List.Basic

/-!
# Updates of a locked file

Each of a number of processes updates one file: it opens the file if it exists, else it creates it,
waits for the lock, reads the file unless it created it, writes the new contents and closes it.  A
property of the contents and of the processes that have written holds along every run in which the
contents are written from scratch by the first writer only.
-/

namespace LockedFile

/-- Where a process stands: it has the file open and waits for the lock (`opened`, `created`), the
file was missing, it has the lock after either way of opening, it has read the file, it has
written, it is done, or it gave up. -/
inductive Stage (β : Type*) where
  | start
  | opened
  | missing
  | created
  | holdsOld
  | holdsNew
  | loaded (b : β)
  | written
  | closed
  | failed
deriving DecidableEq

namespace Stage

variable {β : Type*}

/-- The process has the lock. -/
def Locked : Stage β → Prop
  | holdsOld => True
  | holdsNew => True
  | loaded _ => True
  | written => True
  | _ => False

/-- The process has written its update. -/
def Wrote : Stage β → Prop
  | written => True
  | closed => True
  | _ => False

/-- The process does nothing more with the file. -/
def Ended : Stage β → Bool
  | closed => true
  | failed => true
  | _ => false

end Stage

variable {π κ β : Type*} [DecidableEq π]

/-- The file, the holder of its lock, the processes, and the processes in the order in which they
wrote. -/
structure State (π β : Type*) where
  content : Option β
  holder : Option π
  stage : π → Stage β
  writers : List π

/-- What a process writes: from scratch after it created the file, or from what it read.  A write
may depend on an argument of its own. -/
structure Update (π κ β : Type*) where
  empty : β
  first : π → β
  next : π → κ → β → β

inductive Action (κ : Type*) where
  | openFile
  | lock
  | giveUp
  | read
  | write (k : κ)
  | close

/-- The process goes to another stage. -/
def State.move (s : State π β) (p : π) (st : Stage β) : State π β :=
  { s with stage := Function.update s.stage p st }

/-- One action of the process `p`, where it is possible.  A wait for the lock may be given up: an
open without creation then counts as a missing file.  How long it waits is left open, as the last
try may come when the lock is free. -/
def step (u : Update π κ β) (s : State π β) (p : π) : Action κ → Option (State π β)
  | .openFile =>
    match s.stage p with
    | .start => some (s.move p (if s.content.isSome then .opened else .missing))
    | .missing => some { s.move p .created with content := some (s.content.getD u.empty) }
    | _ => none
  | .lock =>
    match s.holder, s.stage p with
    | none, .opened => some { s.move p .holdsOld with holder := some p }
    | none, .created => some { s.move p .holdsNew with holder := some p }
    | _, _ => none
  | .giveUp =>
    match s.stage p with
    | .opened => some (s.move p .missing)
    | .created => some (s.move p .failed)
    | _ => none
  | .read =>
    match s.stage p with
    | .holdsOld => some (s.move p (.loaded (s.content.getD u.empty)))
    | _ => none
  | .write k =>
    match s.stage p with
    | .holdsNew =>
      some { s.move p .written with content := some (u.first p), writers := s.writers ++ [p] }
    | .loaded b =>
      some { s.move p .written with content := some (u.next p k b), writers := s.writers ++ [p] }
    | _ => none
  | .close =>
    match s.stage p with
    | .written => some { s.move p .closed with holder := none }
    | _ => none

/-- Only the first writer writes from scratch, and the wait of a process that created the file is
not given up. -/
def Safe (s : State π β) (p : π) : Action κ → Prop
  | .write _ => s.stage p = .holdsNew → s.writers = []
  | .giveUp => s.stage p ≠ .created
  | _ => True

instance [DecidableEq β] (s : State π β) (p : π) (a : Action κ) : Decidable (Safe s p a) := by
  cases a <;> unfold Safe <;> infer_instance

/-- The property holds of the empty file, and writes that are safe keep it. -/
structure Keeps (u : Update π κ β) (Holds : List π → β → Prop) : Prop where
  empty : Holds [] u.empty
  first : ∀ p, Holds [p] (u.first p)
  next : ∀ ws p k b, p ∉ ws → Holds ws b → Holds (ws ++ [p]) (u.next p k b)

/-- One process has the lock, what it has read is what the file holds, and exactly the processes
that have written are in the list. -/
structure Inv (u : Update π κ β) (Holds : List π → β → Prop) (s : State π β) : Prop where
  holds : Holds s.writers (s.content.getD u.empty)
  holder : ∀ p, (s.stage p).Locked → s.holder = some p
  loaded : ∀ p b, s.stage p = .loaded b → s.content.getD u.empty = b
  wrote : ∀ p, (s.stage p).Wrote ↔ p ∈ s.writers
  nodup : s.writers.Nodup
  noFail : ∀ p, s.stage p ≠ .failed

variable {u : Update π κ β} {Holds : List π → β → Prop} {s s' : State π β} {p : π}

theorem move_self (s : State π β) (p : π) (st : Stage β) : (s.move p st).stage p = st := by
  simp [State.move]

theorem move_ne (s : State π β) {p q : π} (st : Stage β) (h : q ≠ p) :
    (s.move p st).stage q = s.stage q := by
  simp [State.move, h]

/-- A move that writes nothing. -/
theorem Inv.moved (hI : Inv u Holds s) {st : Stage β} {content : Option β} {holder : Option π}
    (hcontent : content.getD u.empty = s.content.getD u.empty)
    (hlocked : st.Locked → holder = some p)
    (hothers : ∀ q, q ≠ p → (s.stage q).Locked → holder = some q)
    (hloaded : ∀ b, st = .loaded b → content.getD u.empty = b)
    (hwrote : st.Wrote ↔ (s.stage p).Wrote) (hfail : st ≠ .failed) :
    Inv u Holds { s.move p st with content := content, holder := holder } where
  holds := by
    show Holds s.writers (content.getD u.empty)
    rw [hcontent]
    exact hI.holds
  holder := by
    intro q (hq : ((s.move p st).stage q).Locked)
    by_cases h : q = p
    · subst h
      rw [move_self] at hq
      exact hlocked hq
    · rw [move_ne s st h] at hq
      exact hothers q h hq
  loaded := by
    intro q b (hq : (s.move p st).stage q = .loaded b)
    by_cases h : q = p
    · subst h
      rw [move_self] at hq
      exact hloaded b hq
    · rw [move_ne s st h] at hq
      exact hcontent.trans (hI.loaded q b hq)
  wrote := by
    intro q
    show ((s.move p st).stage q).Wrote ↔ q ∈ s.writers
    by_cases h : q = p
    · subst h
      rw [move_self, hwrote]
      exact hI.wrote q
    · rw [move_ne s st h]
      exact hI.wrote q
  nodup := hI.nodup
  noFail := by
    intro q
    show (s.move p st).stage q ≠ .failed
    by_cases h : q = p
    · subst h
      rw [move_self]
      exact hfail
    · rw [move_ne s st h]
      exact hI.noFail q

/-- A write by the holder of the lock. -/
theorem Inv.written (hI : Inv u Holds s) (hl : (s.stage p).Locked) (hw : ¬ (s.stage p).Wrote)
    {b : β} (hb : Holds (s.writers ++ [p]) b) :
    Inv u Holds { s.move p .written with content := some b, writers := s.writers ++ [p] } where
  holds := hb
  holder := by
    intro q (hq : ((s.move p .written).stage q).Locked)
    show s.holder = some q
    by_cases h : q = p
    · subst h
      exact hI.holder q hl
    · rw [move_ne s .written h] at hq
      exact hI.holder q hq
  loaded := by
    intro q b' (hq : (s.move p .written).stage q = .loaded b')
    exfalso
    by_cases h : q = p
    · subst h
      rw [move_self] at hq
      cases hq
    · -- no other process has the lock
      rw [move_ne s .written h] at hq
      have hq' := hI.holder q (by rw [hq]; trivial)
      rw [hI.holder p hl] at hq'
      exact h (Option.some.inj hq').symm
  wrote := by
    intro q
    show ((s.move p .written).stage q).Wrote ↔ q ∈ s.writers ++ [p]
    rw [List.mem_append, List.mem_singleton]
    by_cases h : q = p
    · subst h
      rw [move_self]
      exact iff_of_true trivial (Or.inr rfl)
    · rw [move_ne s .written h, or_iff_left h]
      exact hI.wrote q
  nodup := by
    rw [List.nodup_append]
    refine ⟨hI.nodup, by simp, ?_⟩
    intro q hq r hr he
    rw [List.mem_singleton.mp hr] at he
    exact hw ((hI.wrote p).mpr (he ▸ hq))
  noFail := by
    intro q
    show (s.move p .written).stage q ≠ .failed
    by_cases h : q = p
    · subst h
      rw [move_self]
      simp
    · rw [move_ne s .written h]
      exact hI.noFail q

theorem Inv.openFile (hI : Inv u Holds s) (hs : step u s p (.openFile : Action κ) = some s') :
    Inv u Holds s' := by
  unfold step at hs
  cases hst : s.stage p with
  | start =>
    rw [hst] at hs
    cases hs
    apply hI.moved rfl
    · split <;> exact False.elim
    · exact fun q _ => hI.holder q
    · split <;> intro b hb <;> cases hb
    · rw [hst]
      split <;> rfl
    · split <;> simp
  | missing =>
    rw [hst] at hs
    cases hs
    apply hI.moved (show (some (s.content.getD u.empty)).getD u.empty = _ from rfl)
    · exact False.elim
    · exact fun q _ => hI.holder q
    · intro b hb
      cases hb
    · rw [hst]
      rfl
    · simp
  | _ =>
    rw [hst] at hs
    cases hs

theorem Inv.lock (hI : Inv u Holds s) (hs : step u s p (.lock : Action κ) = some s') :
    Inv u Holds s' := by
  unfold step at hs
  cases hh : s.holder with
  | some q =>
    rw [hh] at hs
    cases hs
  | none =>
    have hfree : ∀ q, q ≠ p → (s.stage q).Locked → some p = some q := by
      intro q _ hq
      have := hI.holder q hq
      rw [hh] at this
      cases this
    cases hst : s.stage p with
    | opened =>
      rw [hh, hst] at hs
      cases hs
      apply hI.moved rfl (fun _ => rfl) hfree
      · intro b hb
        cases hb
      · rw [hst]
        rfl
      · simp
    | created =>
      rw [hh, hst] at hs
      cases hs
      apply hI.moved rfl (fun _ => rfl) hfree
      · intro b hb
        cases hb
      · rw [hst]
        rfl
      · simp
    | _ =>
      rw [hh, hst] at hs
      cases hs

theorem Inv.giveUp (hI : Inv u Holds s) (hs : step u s p (.giveUp : Action κ) = some s')
    (hsafe : Safe s p (.giveUp : Action κ)) : Inv u Holds s' := by
  unfold step at hs
  cases hst : s.stage p with
  | opened =>
    rw [hst] at hs
    cases hs
    apply hI.moved rfl
    · exact False.elim
    · exact fun q _ => hI.holder q
    · intro b hb
      cases hb
    · rw [hst]
      rfl
    · simp
  | created => exact absurd hst hsafe
  | _ =>
    rw [hst] at hs
    cases hs

theorem Inv.read (hI : Inv u Holds s) (hs : step u s p (.read : Action κ) = some s') :
    Inv u Holds s' := by
  unfold step at hs
  cases hst : s.stage p with
  | holdsOld =>
    rw [hst] at hs
    cases hs
    apply hI.moved rfl
    · intro _
      apply hI.holder p
      rw [hst]
      trivial
    · exact fun q _ => hI.holder q
    · intro b hb
      cases hb
      rfl
    · rw [hst]
      rfl
    · simp
  | _ =>
    rw [hst] at hs
    cases hs

theorem Inv.write (hu : Keeps u Holds) (hI : Inv u Holds s) (k : κ)
    (hs : step u s p (.write k) = some s') (hsafe : Safe s p (.write k)) : Inv u Holds s' := by
  unfold step at hs
  cases hst : s.stage p with
  | holdsNew =>
    rw [hst] at hs
    cases hs
    apply hI.written
    · rw [hst]
      trivial
    · rw [hst]
      exact id
    · rw [hsafe hst]
      exact hu.first p
  | loaded b =>
    rw [hst] at hs
    cases hs
    have hw : ¬ (s.stage p).Wrote := by
      rw [hst]
      exact id
    apply hI.written
    · rw [hst]
      trivial
    · exact hw
    · apply hu.next
      · rw [← hI.wrote p]
        exact hw
      · rw [← hI.loaded p b hst]
        exact hI.holds
  | _ =>
    rw [hst] at hs
    cases hs

theorem Inv.close (hI : Inv u Holds s) (hs : step u s p (.close : Action κ) = some s') :
    Inv u Holds s' := by
  unfold step at hs
  cases hst : s.stage p with
  | written =>
    rw [hst] at hs
    cases hs
    apply hI.moved rfl
    · exact False.elim
    · intro q hq hl
      have h1 := hI.holder q hl
      rw [hI.holder p (by rw [hst]; trivial)] at h1
      exact absurd (Option.some.inj h1).symm hq
    · intro b hb
      cases hb
    · rw [hst]
      rfl
    · simp
  | _ =>
    rw [hst] at hs
    cases hs

/-- The rule: safe actions keep the property. -/
theorem Inv.step (hu : Keeps u Holds) (hI : Inv u Holds s) {a : Action κ}
    (hs : LockedFile.step u s p a = some s') (hsafe : Safe s p a) : Inv u Holds s' := by
  cases a with
  | openFile => exact hI.openFile hs
  | lock => exact hI.lock hs
  | giveUp => exact hI.giveUp hs hsafe
  | read => exact hI.read hs
  | write k => exact hI.write hu k hs hsafe
  | close => exact hI.close hs

def State.start : State π β := ⟨none, none, fun _ => .start, []⟩

omit [DecidableEq π] in
theorem inv_start (hu : Keeps u Holds) : Inv u Holds .start where
  holds := hu.empty
  holder _ h := h.elim
  loaded _ _ h := by cases h
  wrote _ := iff_of_false id List.not_mem_nil
  nodup := List.nodup_nil
  noFail _ h := by cases h

/-- The contents are right for those who have written, each has written once, and those who are done
have written. -/
structure Kept (u : Update π κ β) (Holds : List π → β → Prop) (s : State π β) : Prop where
  holds : Holds s.writers (s.content.getD u.empty)
  nodup : s.writers.Nodup
  ended : ∀ p, (s.stage p).Ended → p ∈ s.writers

omit [DecidableEq π] in
theorem Inv.kept (hI : Inv u Holds s) : Kept u Holds s where
  holds := hI.holds
  nodup := hI.nodup
  ended := by
    intro q hq
    rw [← hI.wrote q]
    cases hst : s.stage q with
    | closed => trivial
    | failed => exact absurd hst (hI.noFail q)
    | _ =>
      rw [hst] at hq
      cases hq

/-- What is written from scratch is wrong when another process has written before. -/
def Loses (u : Update π κ β) (Holds : List π → β → Prop) : Prop :=
  ∀ ws p, ws ≠ [] → p ∉ ws → ¬ Holds (ws ++ [p]) (u.first p)

/-- An action that is not safe shows at once. -/
theorem Inv.safe_of_kept (hl : Loses u Holds) (hI : Inv u Holds s) {a : Action κ}
    (hs : LockedFile.step u s p a = some s') (hk : Kept u Holds s') : Safe s p a := by
  cases a with
  | write k =>
    intro (hst : s.stage p = .holdsNew)
    have hp : p ∉ s.writers := by
      rw [← hI.wrote p, hst]
      exact id
    unfold LockedFile.step at hs
    rw [hst] at hs
    cases hs
    by_contra hne
    exact hl s.writers p hne hp hk.holds
  | giveUp =>
    intro hst
    have hp : p ∉ s.writers := by
      rw [← hI.wrote p, hst]
      exact id
    unfold LockedFile.step at hs
    rw [hst] at hs
    cases hs
    apply hp
    apply hk.ended p
    rw [move_self]
    rfl
  | _ => trivial

/-- The contents are kept exactly by the safe actions. -/
theorem Inv.kept_iff_safe (hu : Keeps u Holds) (hl : Loses u Holds) (hI : Inv u Holds s)
    {a : Action κ} (hs : LockedFile.step u s p a = some s') : Kept u Holds s' ↔ Safe s p a := by
  constructor
  · exact hI.safe_of_kept hl hs
  · intro hsafe
    exact (hI.step hu hs hsafe).kept

end LockedFile
