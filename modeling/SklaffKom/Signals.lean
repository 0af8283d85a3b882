import SklaffKom.Lib.Runs
import Mathlib.Data.Finset.SDiff
import Mathlib.Data.Finset.Insert

/-!
# The mask of blocked signals

`critical` blocks SIGHUP and SIGTERM and keeps the mask it found in the global `Oldmask`.
`non_critical`, `display_msg` and the handler `newmsg` end with `SIG_UNBLOCK` on the mask that was
kept.
-/

open Runs

namespace SklaffKom

inductive Signal where
  | hup
  | term
  /-- `SIGNAL_NEW_TEXT` -/
  | newText
  /-- `SIGNAL_NEW_MSG` -/
  | newMsg
  | other (num : Nat)
deriving DecidableEq, Repr

/-- The first argument of `sigprocmask`. -/
inductive How where
  | block
  | unblock

/-- `sigprocmask`: the mask afterwards. -/
def sigprocmask (how : How) (set mask : Finset Signal) : Finset Signal :=
  match how with
  | .block => mask ∪ set
  | .unblock => mask \ set

/-- The mask of the process and the globals `Oldmask` and `Change_msg`. -/
structure SigState where
  mask : Finset Signal
  oldmask : Finset Signal
  changeMsg : Bool
deriving DecidableEq

def quitSignals : Finset Signal := {.hup, .term}

def newsSignals : Finset Signal := {.newText, .newMsg}

def critical (s : SigState) : SigState :=
  { s with mask := sigprocmask .block quitSignals s.mask, oldmask := s.mask }

def nonCritical (s : SigState) : SigState :=
  { s with mask := sigprocmask .unblock s.oldmask s.mask }

def newmsg (s : SigState) : SigState :=
  let oldsigmask := s.mask
  { s with mask := sigprocmask .unblock oldsigmask (sigprocmask .block {.newMsg} s.mask),
           changeMsg := true }

/-- The kernel runs the handler of a signal that is not blocked, with the signal blocked, and puts
the mask back when the handler returns. -/
def deliver (sig : Signal) (handler : SigState → SigState) (s : SigState) : SigState :=
  if sig ∈ s.mask then s
  else { handler { s with mask := insert sig s.mask } with mask := s.mask }

/-- `display_msg` on its paths without an error, as far as signals are concerned. -/
def displayMsgSignals (s : SigState) : SigState :=
  if s.changeMsg then
    let oldsigmask := s.mask
    let s := { s with mask := sigprocmask .block newsSignals s.mask }
    -- the file is emptied in a critical region
    -- with the same slip as the outer pair
    let s := nonCritical (critical s)
    { s with mask := sigprocmask .unblock oldsigmask s.mask, changeMsg := false }
  else s

/-! ## What a region leaves blocked -/

/-- A critical region ends with its own signals blocked, and with the ones blocked before it
deliverable. -/
theorem nonCritical_critical_mask (s : SigState) :
    (nonCritical (critical s)).mask = quitSignals \ s.mask := by
  show (s.mask ∪ quitSignals) \ s.mask = quitSignals \ s.mask
  rw [Finset.union_sdiff_left]

/-- This is the mask from before the region under no circumstances. -/
theorem quitSignals_sdiff_ne (m : Finset Signal) : quitSignals \ m ≠ m := by
  intro h
  have hup : Signal.hup ∈ quitSignals \ m ↔ Signal.hup ∈ m := by rw [h]
  rw [Finset.mem_sdiff] at hup
  have hmem : Signal.hup ∈ quitSignals := by decide
  tauto

theorem deliver_mask (sig : Signal) (handler : SigState → SigState) (s : SigState) :
    (deliver sig handler s).mask = s.mask := by
  unfold deliver
  split <;> rfl

/-- `display_msg` leaves SIGHUP and SIGTERM blocked in the same way. -/
theorem displayMsgSignals_mask {s : SigState} (h : s.changeMsg = true) :
    (displayMsgSignals s).mask = quitSignals \ s.mask := by
  unfold displayMsgSignals
  rw [if_pos h]
  show (nonCritical (critical { s with mask := s.mask ∪ newsSignals })).mask \ s.mask = _
  rw [nonCritical_critical_mask]
  show (quitSignals \ (s.mask ∪ newsSignals)) \ s.mask = quitSignals \ s.mask
  ext sig
  -- the two pairs of signals have nothing in common
  have hnews : sig ∈ quitSignals → sig ∉ newsSignals := by
    revert sig
    decide
  simp only [Finset.mem_sdiff, Finset.mem_union]
  tauto

theorem displayMsgSignals_quiet {s : SigState} (h : s.changeMsg = false) :
    displayMsgSignals s = s := by
  unfold displayMsgSignals
  rw [h]
  rfl

/-! ## Sessions -/

/-- The signals, and for each critical region that is open the mask it found, the innermost
first. -/
structure MaskState where
  sig : SigState
  regions : List (Finset Signal)

inductive MaskEvent where
  | critical
  | nonCritical
  | newmsg
  | displayMsg
deriving DecidableEq

/-- One call, or one arrival of `SIGNAL_NEW_MSG`.  A region that is not open is not closed. -/
def maskStep (s : MaskState) : MaskEvent → Option MaskState
  | .critical => some ⟨critical s.sig, s.sig.mask :: s.regions⟩
  | .nonCritical =>
    match s.regions with
    | [] => none
    | _ :: regions => some ⟨nonCritical s.sig, regions⟩
  | .newmsg => some { s with sig := deliver .newMsg newmsg s.sig }
  | .displayMsg => some { s with sig := displayMsgSignals s.sig }

/-- The end of a region restores the mask that the region found; the other two calls leave the mask
as it is. -/
def MaskRestored (s : MaskState) (e : MaskEvent) (s' : MaskState) : Prop :=
  match e with
  | .critical => True
  | .nonCritical => s.regions.head? = some s'.sig.mask
  | .newmsg => s'.sig.mask = s.sig.mask
  | .displayMsg => s'.sig.mask = s.sig.mask

/-- No region is closed, and `display_msg` finds no message announced. -/
def NothingUnblocked (s : MaskState) (e : MaskEvent) : Prop :=
  match e with
  | .nonCritical => False
  | .displayMsg => s.sig.changeMsg = false
  | _ => True

/-- The mask and `Oldmask` are as the innermost region left them when it began. -/
def RegionOpen (s : MaskState) : Prop :=
  ∀ m ∈ s.regions.head?, s.sig.oldmask = m ∧ s.sig.mask = m ∪ quitSignals

theorem maskRestored_iff {s s' : MaskState} {e : MaskEvent} (hI : RegionOpen s)
    (hs : maskStep s e = some s') : MaskRestored s e s' ↔ NothingUnblocked s e := by
  -- the only ends of a region are `nonCritical` and those in `displayMsg`
  cases e with
  | critical => exact Iff.rfl
  | nonCritical =>
    cases hr : s.regions with
    | nil =>
      simp only [maskStep, hr, reduceCtorEq] at hs
    | cons m regions =>
      simp only [maskStep, hr, Option.some.injEq] at hs
      subst hs
      apply iff_of_false _ id
      obtain ⟨hold, hmask⟩ := hI m (by rw [hr]; rfl)
      show s.regions.head? ≠ some (s.sig.mask \ s.sig.oldmask)
      rw [hr, hold, hmask, Finset.union_sdiff_left]
      intro h
      exact quitSignals_sdiff_ne m (Option.some.inj h).symm
  | newmsg =>
    cases hs
    exact iff_of_true (deliver_mask _ _ _) trivial
  | displayMsg =>
    cases hs
    show (displayMsgSignals s.sig).mask = s.sig.mask ↔ s.sig.changeMsg = false
    cases h : s.sig.changeMsg with
    | false => simp [displayMsgSignals_quiet h]
    | true =>
      rw [displayMsgSignals_mask h]
      exact iff_of_false (quitSignals_sdiff_ne _) (by simp)

theorem regionOpen_step {s s' : MaskState} {e : MaskEvent} (hI : RegionOpen s)
    (hs : maskStep s e = some s') (hq : NothingUnblocked s e) : RegionOpen s' := by
  cases e with
  | critical =>
    cases hs
    intro m hm
    cases hm
    exact ⟨rfl, rfl⟩
  | nonCritical => exact hq.elim
  | newmsg =>
    cases hs
    intro m hm
    obtain ⟨hold, hmask⟩ := hI m hm
    constructor
    · show (deliver .newMsg newmsg s.sig).oldmask = m
      rw [← hold]
      unfold deliver
      split <;> rfl
    · exact (deliver_mask _ _ _).trans hmask
  | displayMsg =>
    cases hs
    show RegionOpen { s with sig := displayMsgSignals s.sig }
    rw [displayMsgSignals_quiet hq]
    exact hI

/-- A session keeps the mask of blocked signals exactly as long as no critical region ends and no
message is displayed. -/
theorem mask_restored_iff (sig : SigState) (events : List MaskEvent) :
    AllSteps maskStep MaskRestored ⟨sig, []⟩ events ↔
      AllSteps maskStep (fun s e _ => NothingUnblocked s e) ⟨sig, []⟩ events := by
  apply allSteps_iff (I := RegionOpen)
  · intro s e s' hI hs
    exact ⟨maskRestored_iff hI hs, regionOpen_step hI hs⟩
  · intro m hm
    cases hm

/-- After one region SIGHUP and SIGTERM stay blocked. -/
theorem region_keeps_signals_blocked :
    (run maskStep ⟨⟨∅, ∅, false⟩, []⟩ [.critical, .nonCritical]).map (fun s => s.sig.mask) =
      some {.hup, .term} := by
  decide

end SklaffKom
