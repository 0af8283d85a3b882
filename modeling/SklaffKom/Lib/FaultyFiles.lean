import Mathlib.Logic.Function.Basic
import Mathlib.Data.List.Basic

/-!
# File operations that can fail

The files, the open descriptors of one process, and programs over them that stop at the first
operation that fails.  A descriptor holds the exclusive lock of its file, so a file with an open
descriptor cannot be opened again.
-/

namespace FaultyFiles

variable {π : Type*} {γ α β : Type}

/-- How an operation fails: its first system call, or the one after it (the lock after an open,
the truncation after a write). -/
inductive Fault where
  | call
  | after
deriving DecidableEq, Repr

/-- A program ends early with an error return, or the process crashes. -/
inductive Stop where
  | failed
  | crash
deriving DecidableEq, Repr

/-- The contents of the files, the files with an open (and so locked) descriptor, and the files
that were written so far. -/
structure World (π : Type*) (γ : Type) where
  files : π → Option (List γ)
  fds : List π
  written : List π

def World.start (files : π → Option (List γ)) (fds : List π) : World π γ := ⟨files, fds, []⟩

/-- A program over the files. -/
def Op (π : Type*) (γ α : Type) := World π γ → Except Stop α × World π γ

instance : Monad (Op π γ) where
  pure a := fun w => (.ok a, w)
  bind x f := fun w =>
    match x w with
    | (.ok a, w') => f a w'
    | (.error e, w') => (.error e, w')

def stop (e : Stop) : Op π γ α := fun w => (.error e, w)

theorem bind_ok {x : Op π γ α} {f : α → Op π γ β} {w w' : World π γ} {a : α}
    (h : x w = (.ok a, w')) : (x >>= f) w = f a w' := by
  show (match x w with | (.ok a, w') => f a w' | (.error e, w') => (.error e, w')) = _
  rw [h]

theorem bind_error {x : Op π γ α} {f : α → Op π γ β} {w w' : World π γ} {e : Stop}
    (h : x w = (.error e, w')) : (x >>= f) w = (.error e, w') := by
  show (match x w with | (.ok a, w') => f a w' | (.error e, w') => (.error e, w')) = _
  rw [h]

@[simp] theorem pure_run (a : α) (w : World π γ) : (pure a : Op π γ α) w = (.ok a, w) := rfl

@[simp] theorem stop_run (e : Stop) (w : World π γ) : (stop e : Op π γ α) w = (.error e, w) := rfl

/-! ## What a program leaves as it is -/

/-- The file `q`, its descriptor and its history are the same. -/
structure SameAt (q : π) (w w' : World π γ) : Prop where
  files : w'.files q = w.files q
  fds : q ∈ w'.fds ↔ q ∈ w.fds
  written : q ∈ w'.written ↔ q ∈ w.written

theorem SameAt.refl (q : π) (w : World π γ) : SameAt q w w := ⟨rfl, Iff.rfl, Iff.rfl⟩

theorem SameAt.trans {q : π} {u v w : World π γ} (h : SameAt q u v) (h' : SameAt q v w) :
    SameAt q u w :=
  ⟨h'.files.trans h.files, h'.fds.trans h.fds, h'.written.trans h.written⟩

/-- The program does nothing with the file `q`. -/
def Leaves (q : π) (x : Op π γ α) : Prop := ∀ w, SameAt q w (x w).2

theorem Leaves.pure (q : π) (a : α) : Leaves q (Pure.pure a : Op π γ α) := fun w => .refl q w

theorem Leaves.stop (q : π) (e : Stop) : Leaves q (stop e : Op π γ α) := fun w => .refl q w

theorem Leaves.bind {q : π} {x : Op π γ α} {f : α → Op π γ β} (hx : Leaves q x)
    (hf : ∀ a, Leaves q (f a)) : Leaves q (x >>= f) := by
  intro w
  have hxw := hx w
  rcases h : x w with ⟨r, w'⟩
  rw [h] at hxw
  cases r with
  | error e =>
    rw [bind_error h]
    exact hxw
  | ok a =>
    rw [bind_ok h]
    exact hxw.trans (hf a w')

/-! ## The operations -/

/-- Reads a whole open file. -/
def readFile (fault : Option Fault) (p : π) : Op π γ (List γ) := fun w =>
  if fault = none then (.ok ((w.files p).getD []), w) else (.error .failed, w)

theorem readFile_leaves (q p : π) (fault : Option Fault) :
    Leaves q (readFile fault p : Op π γ (List γ)) := by
  intro w
  unfold readFile
  split <;> exact .refl q w

theorem readFile_ok {fault : Option Fault} {p : π} {b : List γ} {w : World π γ}
    (hf : fault = none) (hp : w.files p = some b) : readFile fault p w = (.ok b, w) := by
  simp only [readFile, if_pos hf, hp, Option.getD_some]

theorem readFile_error {fault : Option Fault} (hf : fault ≠ none) (p : π) (w : World π γ) :
    readFile fault p w = (.error .failed, w) := by
  simp only [readFile, if_neg hf]

structure CanOpen (fault : Option Fault) (p : π) (create : Bool) (w : World π γ) : Prop where
  fault : fault = none
  found : w.files p = none → create = true
  free : p ∉ w.fds

/-- Whether a file can be opened depends on that file alone. -/
theorem SameAt.canOpen_iff {p : π} {w w' : World π γ} (h : SameAt p w w') (fault : Option Fault)
    (create : Bool) : CanOpen fault p create w' ↔ CanOpen fault p create w := by
  constructor
  · intro ho
    exact ⟨ho.fault, fun hnone => ho.found (h.files.trans hnone), fun hp => ho.free (h.fds.mpr hp)⟩
  · intro ho
    exact ⟨ho.fault, fun hnone => ho.found (h.files.symm.trans hnone),
      fun hp => ho.free (h.fds.mp hp)⟩

variable [DecidableEq π]

/-- Opens and locks a file, which is created first when `create` is set. -/
def openFile (fault : Option Fault) (p : π) (create : Bool) : Op π γ Unit := fun w =>
  if fault = some .call ∨ (w.files p = none ∧ create = false) then (.error .failed, w)
  else
    let w' := { w with files := Function.update w.files p (some ((w.files p).getD [])) }
    if fault = some .after ∨ p ∈ w.fds then (.error .failed, w')
    else (.ok (), { w' with fds := p :: w.fds })

/-- The contents of a file after a write: a failed truncation leaves the end of a longer file. -/
def afterWrite (fault : Option Fault) (old buf : List γ) : List γ :=
  if fault = some .after then buf ++ old.drop buf.length else buf

/-- Writes a whole open file.  A failed truncation is not reported. -/
def writeFile (fault : Option Fault) (p : π) (buf : List γ) : Op π γ Unit := fun w =>
  if fault = some .call then (.error .failed, w)
  else
    let bytes := afterWrite fault ((w.files p).getD []) buf
    (.ok (), { w with files := Function.update w.files p (some bytes), written := p :: w.written })

/-- Unlocks and closes a file.  The descriptor is gone also when the close is reported as failed. -/
def closeFile (fault : Option Fault) (p : π) : Op π γ Unit := fun w =>
  (if fault = none then .ok () else .error .failed, { w with fds := w.fds.erase p })

/-- Makes a directory, an entry without contents of its own; nothing may have its name. -/
def makeDir (fault : Option Fault) (p : π) : Op π γ Unit := fun w =>
  if fault ≠ none ∨ (w.files p).isSome = true then (.error .failed, w)
  else (.ok (), { w with files := Function.update w.files p (some []) })

/-- Removes a file. -/
def unlink (p : π) : Op π γ Unit := fun w =>
  (.ok (), { w with files := Function.update w.files p none })

theorem makeDir_ok {p : π} {w : World π γ} (hp : w.files p = none) :
    makeDir none p w = (.ok (), { w with files := Function.update w.files p (some []) }) := by
  unfold makeDir
  rw [if_neg]
  rintro (hf | hsome)
  · exact hf rfl
  · rw [hp] at hsome
    cases hsome

theorem makeDir_error {fault : Option Fault} {p : π} {w : World π γ}
    (h : fault ≠ none ∨ (w.files p).isSome = true) : makeDir fault p w = (.error .failed, w) := if_pos h

theorem makeDir_leaves {p q : π} (hq : q ≠ p) (fault : Option Fault) :
    Leaves q (makeDir fault p : Op π γ Unit) := by
  intro w
  unfold makeDir
  split
  next => exact .refl q w
  next => exact ⟨Function.update_of_ne hq _ _, Iff.rfl, Iff.rfl⟩

theorem openFile_ok {fault : Option Fault} {p : π} {create : Bool} {w : World π γ}
    (h : CanOpen fault p create w) :
    openFile fault p create w =
      (.ok (), { w with files := Function.update w.files p (some ((w.files p).getD [])),
                        fds := p :: w.fds }) := by
  have hfound : ¬ (fault = some .call ∨ (w.files p = none ∧ create = false)) := by
    rw [h.fault]
    rintro (hf | ⟨hnone, hc⟩)
    · cases hf
    · rw [h.found hnone] at hc
      cases hc
  have hfree : ¬ (fault = some .after ∨ p ∈ w.fds) := by
    rw [h.fault]
    rintro (hf | hp)
    · cases hf
    · exact h.free hp
  simp only [openFile, if_neg hfound, if_neg hfree]

/-- A failed open takes no lock, and changes files only where it may create one. -/
theorem openFile_error {fault : Option Fault} {p : π} {create : Bool} {w : World π γ}
    (h : ¬ CanOpen fault p create w) :
    ∃ files', (create = false → files' = w.files) ∧
      openFile fault p create w = (.error .failed, { w with files := files' }) := by
  unfold openFile
  split
  next => exact ⟨_, fun _ => rfl, rfl⟩
  next hfound =>
    have hkept : create = false →
        Function.update w.files p (some ((w.files p).getD [])) = w.files := by
      intro hc
      cases hp : w.files p with
      | none => exact absurd (Or.inr ⟨hp, hc⟩) hfound
      | some b => rw [Option.getD_some, ← hp, Function.update_eq_self]
    split
    next => exact ⟨_, hkept, rfl⟩
    next hfree =>
      -- both system calls succeeded, so the file could be opened
      rw [not_or] at hfound hfree
      refine absurd ⟨?_, ?_, hfree.2⟩ h
      · cases fault with
        | none => rfl
        | some f => cases f <;> simp_all
      · intro hnone
        cases create with
        | true => rfl
        | false => exact absurd ⟨hnone, rfl⟩ hfound.2

theorem openFile_leaves {p q : π} (hq : q ≠ p) (fault : Option Fault) (create : Bool) :
    Leaves q (openFile fault p create : Op π γ Unit) := by
  intro w
  unfold openFile
  split
  next => exact .refl q w
  next =>
    split
    next => exact ⟨Function.update_of_ne hq _ _, Iff.rfl, Iff.rfl⟩
    next => exact ⟨Function.update_of_ne hq _ _, by simp [hq], Iff.rfl⟩

theorem writeFile_ok {fault : Option Fault} (hf : fault ≠ some .call) (p : π) (buf : List γ)
    (w : World π γ) :
    writeFile fault p buf w =
      (.ok (), { w with files := Function.update w.files p
                          (some (afterWrite fault ((w.files p).getD []) buf)),
                        written := p :: w.written }) := by
  simp only [writeFile, if_neg hf]

theorem closeFile_ok {fault : Option Fault} (hf : fault = none) (p : π) (w : World π γ) :
    closeFile fault p w = (.ok (), { w with fds := w.fds.erase p }) := by
  simp only [closeFile, if_pos hf]

theorem writeFile_error {fault : Option Fault} (hf : fault = some .call) (p : π) (buf : List γ)
    (w : World π γ) : writeFile fault p buf w = (.error .failed, w) := by
  simp only [writeFile, if_pos hf]

theorem closeFile_error {fault : Option Fault} (hf : fault ≠ none) (p : π) (w : World π γ) :
    closeFile fault p w = (.error .failed, { w with fds := w.fds.erase p }) := by
  simp only [closeFile, if_neg hf]

theorem writeFile_leaves {p q : π} (hq : q ≠ p) (fault : Option Fault) (buf : List γ) :
    Leaves q (writeFile fault p buf) := by
  intro w
  simp only [writeFile]
  split
  next => exact .refl q w
  next => exact ⟨Function.update_of_ne hq _ _, Iff.rfl, by simp [hq]⟩

theorem closeFile_leaves {p q : π} (hq : q ≠ p) (fault : Option Fault) :
    Leaves q (closeFile fault p : Op π γ Unit) :=
  fun _ => ⟨rfl, List.mem_erase_of_ne hq, Iff.rfl⟩

end FaultyFiles
