import SklaffKom.TextFile
import SklaffKom.Lib.LockedFile
import SklaffKom.Lib.Runs
import Mathlib.Data.List.Perm.Basic

/-!
# Saving the answers to a survey

`save_survey_result` puts the answers of a respondent between those of the others, in an order that
`rand` chooses, and `mark_survey_as_taken` adds the respondent to the users file.  Both open their
file in the same way: without creation first, and with creation where that fails.
-/

open CString Runs LockedFile

namespace SklaffKom

/-- The answers of one respondent: a line for each of the `nQuest` questions. -/
abbrev Answers (nQuest : Nat) :=
  { ls : List CString // ls.length = nQuest ∧ ∀ l ∈ ls, '\n' ∉ l }

/-- `struct RESSHOW`: an entry of the file, `none` for the answers to be added. -/
structure ResShow where
  entry : Option CString
  val : Int
deriving DecidableEq, Repr

/-- `for (j = 0; j < n_quest; j++) t = strchr(t, '\n') + 1;` -/
def skipLines : Nat → CString → Option CString
  | 0, t => some t
  | j + 1, t => (strchr t '\n').bind fun nl => skipLines j nl.tail

/-- The loop that cuts the file into entries, from the number `i` on; `keys` are the values of
`rand`. -/
def cutEntries (nQuest : Nat) (keys : Nat → Int) : Nat → Nat → CString → Option (List ResShow)
  | 0, _, _ => some []
  | n + 1, i, t =>
    match skipLines nQuest t with
    | none => none
    | some t' =>
      -- `*(t - 1) = '\0'` ends the entry
      (cutEntries nQuest keys n (i + 1) t').map fun rest =>
        ⟨some (t.take (t.length - t'.length - 1)), keys i⟩ :: rest

/-- `resshowcompare`, the values of `rand` being too close for an overflow. -/
def resShowLe (r1 r2 : ResShow) : Bool := r1.val - r2.val ≤ 0

/-- The text of an entry in the new file. -/
def entryText (result : List CString) (r : ResShow) : CString :=
  match r.entry with
  | none => unlines result
  | some entry => entry ++ ['\n']

/-- The number of records with the new one.  `(n + 0.25) / n_quest + 1` is cut down to an
integer. -/
def recordCount (nQuest : Nat) (buf : CString) : Nat := buf.count '\n' / nQuest + 1

/-- What `save_survey_result` writes for a later answer, the file being `buf`. -/
def laterAnswer (nQuest : Nat) (result : List CString) (keys : Nat → Int) (buf : CString) :
    Option CString :=
  (cutEntries nQuest keys (recordCount nQuest buf - 1) 1 buf).map fun rest =>
    ((⟨none, keys 0⟩ :: rest).mergeSort resShowLe).flatMap (entryText result)

/-- The updates of the result file.  A file that cannot be cut into entries is left alone. -/
def resultUpdate (nQuest : Nat) (answers : Int → Answers nQuest) :
    Update Int (Nat → Int) CString where
  empty := []
  first uid := unlines (answers uid).val
  next uid keys buf := (laterAnswer nQuest (answers uid).val keys buf).getD buf

/-- `"[%d]"` -/
def userMark (uid : Int) : CString := '[' :: (decimal uid ++ [']'])

/-- The updates of the users file by `mark_survey_as_taken`, for user numbers of at most six digits,
which the buffer holds. -/
def usersUpdate : Update Int (Nat → Int) CString where
  empty := []
  first uid := userMark uid
  next uid _ buf := buf ++ '\n' :: userMark uid

/-! ## The records of a result file -/

variable {nQuest : Nat}

def recordsBytes (rs : List (Answers nQuest)) : CString := rs.flatMap fun r => unlines r.val

/-- An entry stands for a record. -/
def EntryShows (result : List CString) (e : ResShow) (r : Answers nQuest) : Prop :=
  entryText result e = unlines r.val

theorem skipLines_unlines {ls : List CString} (h : ∀ l ∈ ls, '\n' ∉ l) (rest : CString) :
    skipLines ls.length (unlines ls ++ rest) = some rest := by
  induction ls with
  | nil => rfl
  | cons l ls ih =>
    obtain ⟨hl, hls⟩ := List.forall_mem_cons.mp h
    rw [unlines_cons, List.append_assoc, List.cons_append, List.length_cons, skipLines,
      strchr_append hl]
    exact ih hls

theorem skipLines_record (r : Answers nQuest) (rest : CString) :
    skipLines nQuest (unlines r.val ++ rest) = some rest := by
  have h := skipLines_unlines r.property.2 rest
  rwa [r.property.1] at h

theorem unlines_eq_concat {ls : List CString} (h : ls ≠ []) :
    unlines ls = (unlines ls).dropLast ++ ['\n'] := by
  obtain ⟨init, l, rfl⟩ := List.eq_nil_or_concat' ls |>.resolve_left h
  unfold unlines
  rw [List.flatMap_append, List.flatMap_singleton, ← List.append_assoc, List.dropLast_concat]

theorem entry_cut (hq : 0 < nQuest) (r : Answers nQuest) (rest : CString) :
    (unlines r.val ++ rest).take ((unlines r.val ++ rest).length - rest.length - 1) ++ ['\n'] =
      unlines r.val := by
  have hne : r.val ≠ [] := by
    intro h
    have := r.property.1
    rw [h, List.length_nil] at this
    omega
  have hu := unlines_eq_concat hne
  -- the entry ends where its last newline was
  have hlen : (unlines r.val ++ rest).length - rest.length - 1 = (unlines r.val).dropLast.length := by
    rw [List.length_append, List.length_dropLast]
    omega
  rw [hlen]
  generalize (unlines r.val).dropLast = d at hu ⊢
  rw [hu, List.append_assoc, List.take_left]

/-- The file of some records is cut into one entry for each. -/
theorem cutEntries_recordsBytes (hq : 0 < nQuest) (result : List CString) (keys : Nat → Int)
    (rs : List (Answers nQuest)) (i : Nat) :
    ∃ es, cutEntries nQuest keys rs.length i (recordsBytes rs) = some es ∧
      List.Forall₂ (EntryShows result) es rs := by
  induction rs generalizing i with
  | nil => exact ⟨[], rfl, List.Forall₂.nil⟩
  | cons r rs ih =>
    obtain ⟨es, hes, hshow⟩ := ih (i + 1)
    have hr : recordsBytes (r :: rs) = unlines r.val ++ recordsBytes rs := rfl
    rw [hr, List.length_cons, cutEntries, skipLines_record]
    dsimp only
    rw [hes]
    refine ⟨_, rfl, List.Forall₂.cons ?_ hshow⟩
    exact entry_cut hq r (recordsBytes rs)

theorem count_recordsBytes (rs : List (Answers nQuest)) :
    (recordsBytes rs).count '\n' = nQuest * rs.length := by
  induction rs with
  | nil => rfl
  | cons r rs ih =>
    have hr : recordsBytes (r :: rs) = unlines r.val ++ recordsBytes rs := rfl
    rw [hr, List.count_append, ih, count_unlines r.property.2, r.property.1, List.length_cons,
      Nat.mul_succ, Nat.add_comm]

theorem flatMap_entryText {result : List CString} {es : List ResShow} {rs : List (Answers nQuest)}
    (h : List.Forall₂ (EntryShows result) es rs) : es.flatMap (entryText result) = recordsBytes rs := by
  induction h with
  | nil => rfl
  | cons hr _ ih =>
    rw [List.flatMap_cons, ih, hr]
    rfl

/-- A later answer puts the new record somewhere between the others, which may change places. -/
theorem laterAnswer_recordsBytes (hq : 0 < nQuest) (own : Answers nQuest) (keys : Nat → Int)
    (rs : List (Answers nQuest)) :
    ∃ ps, laterAnswer nQuest own.val keys (recordsBytes rs) = some (recordsBytes ps) ∧
      ps.Perm (own :: rs) := by
  obtain ⟨es, hes, hshow⟩ := cutEntries_recordsBytes hq own.val keys rs 1
  -- each record counts as many newlines as there are questions
  have hcount : recordCount nQuest (recordsBytes rs) - 1 = rs.length := by
    unfold recordCount
    rw [count_recordsBytes, Nat.mul_div_cancel_left _ hq, Nat.add_sub_cancel]
  -- the entries in their new order show the records in an order of their own
  have hall : List.Forall₂ (EntryShows own.val) (⟨none, keys 0⟩ :: es) (own :: rs) :=
    List.Forall₂.cons rfl hshow
  obtain ⟨ps, hps, hperm⟩ := List.perm_comp_forall₂ (List.mergeSort_perm _ resShowLe) hall
  refine ⟨ps, ?_, hperm⟩
  unfold laterAnswer
  rw [hcount, hes, Option.map_some, flatMap_entryText hps]

/-- The file holds the records of those who have answered. -/
def HoldsAnswers (answers : Int → Answers nQuest) (uids : List Int) (content : CString) : Prop :=
  ∃ rs, rs.Perm (uids.map answers) ∧ content = recordsBytes rs

theorem resultUpdate_keeps (hq : 0 < nQuest) (answers : Int → Answers nQuest) :
    LockedFile.Keeps (resultUpdate nQuest answers) (HoldsAnswers answers) where
  empty := ⟨[], List.Perm.nil, rfl⟩
  first uid := by
    refine ⟨[answers uid], List.Perm.refl _, ?_⟩
    show unlines _ = List.flatMap _ [answers uid]
    rw [List.flatMap_singleton]
  next := by
    intro uids uid keys content _ ⟨rs, hrs, hc⟩
    obtain ⟨ps, hps, hperm⟩ := laterAnswer_recordsBytes hq (answers uid) keys rs
    refine ⟨ps, ?_, ?_⟩
    · calc
        ps.Perm (answers uid :: rs) := hperm
        _ |>.Perm (answers uid :: uids.map answers) := hrs.cons _
        _ |>.Perm ((uids ++ [uid]).map answers) := by
          rw [List.map_append]
          exact (List.perm_append_singleton _ _).symm
    · show (laterAnswer nQuest (answers uid).val keys content).getD content = _
      rw [hc, hps, Option.getD_some]

theorem HoldsAnswers.count {answers : Int → Answers nQuest} {uids : List Int} {content : CString}
    (h : HoldsAnswers answers uids content) : content.count '\n' = nQuest * uids.length := by
  obtain ⟨rs, hrs, hc⟩ := h
  rw [hc, count_recordsBytes, hrs.length_eq, List.length_map]

theorem resultUpdate_loses (hq : 0 < nQuest) (answers : Int → Answers nQuest) :
    Loses (resultUpdate nQuest answers) (HoldsAnswers answers) := by
  intro uids uid hne _ h
  -- the file has the lines of one record only
  have hcount : (unlines (answers uid).val).count '\n' = _ := h.count
  rw [count_unlines (answers uid).property.2, (answers uid).property.1, List.length_append,
    List.length_singleton] at hcount
  have hone : 1 = uids.length + 1 := by
    apply Nat.eq_of_mul_eq_mul_left hq
    rw [Nat.mul_one]
    exact hcount
  have hpos := List.length_pos_iff.mpr hne
  omega

/-! ## The users file -/

/-- The file names those who have answered. -/
def HoldsMarks (uids : List Int) (content : CString) : Prop :=
  ∀ uid ∈ uids, userMark uid <:+: content

theorem usersUpdate_keeps : LockedFile.Keeps usersUpdate HoldsMarks where
  empty _ h := absurd h List.not_mem_nil
  first uid := by
    intro v hv
    rw [List.mem_singleton.mp hv]
    exact List.infix_rfl
  next := by
    intro uids uid _ content _ h v hv
    rcases List.mem_append.mp hv with hv | hv
    · exact (h v hv).trans (List.infix_append' [] content _)
    · rw [List.mem_singleton.mp hv]
      exact ⟨content ++ ['\n'], [], by simp [usersUpdate]⟩

/-- A mark is found in another mark only where they are the same. -/
theorem userMark_within {m n : Int} (h : userMark m <:+: userMark n) : m = n := by
  obtain ⟨s, t, hst⟩ := h
  cases s with
  | nil =>
    -- the marks begin at the same place, and so do their numbers
    have hd : decimal m ++ [']'] ++ t = decimal n ++ [']'] := List.tail_eq_of_cons_eq hst
    rw [List.append_assoc, List.singleton_append] at hd
    have hm := atol_decimal m (s := ']' :: t) (by simp)
    rw [hd, atol_decimal n (by simp)] at hm
    exact hm.symm
  | cons c s =>
    -- the second `'['` would be among the digits
    exfalso
    have htail : s ++ userMark m ++ t = decimal n ++ [']'] := List.tail_eq_of_cons_eq hst
    have hmem : '[' ∈ decimal n ++ [']'] := by
      rw [← htail]
      simp [userMark]
    rcases List.mem_append.mp hmem with hmem | hmem
    · exact notMem_decimal (by decide) (by decide) hmem
    · exact absurd (List.mem_singleton.mp hmem) (by decide)

theorem usersUpdate_loses : Loses usersUpdate HoldsMarks := by
  intro uids uid hne huid h
  -- the one before has no mark in the new file
  obtain ⟨v, hv⟩ := List.exists_mem_of_ne_nil uids hne
  have hmark := h v (List.mem_append_left _ hv)
  exact huid (userMark_within hmark ▸ hv)

/-! ## Respondents -/

/-- The file of the results and the file of those who have answered. -/
structure SurveyState where
  result : State Int CString
  users : State Int CString

inductive SurveyFile where
  | result
  | users
deriving DecidableEq

/-- The user `uid` does something with a file. -/
structure SurveyEvent where
  uid : Int
  file : SurveyFile
  action : Action (Nat → Int)

/-- One action: `mark_survey_as_taken` comes after `save_survey_result`, whether or not that has
saved anything. -/
def surveyStep (nQuest : Nat) (answers : Int → Answers nQuest) (s : SurveyState) (e : SurveyEvent) :
    Option SurveyState :=
  match e.file with
  | .result =>
    (step (resultUpdate nQuest answers) s.result e.uid e.action).map fun r => { s with result := r }
  | .users =>
    if (s.result.stage e.uid).Ended then
      (step usersUpdate s.users e.uid e.action).map fun f => { s with users := f }
    else
      none

def SurveyState.start : SurveyState := ⟨.start, .start⟩

/-- The result file holds the records of those who have written to it, each once, the users file
names those who have written to it, and whoever is done with a file has written to it. -/
structure SurveyKept (nQuest : Nat) (answers : Int → Answers nQuest) (s : SurveyState) : Prop where
  result : Kept (resultUpdate nQuest answers) (HoldsAnswers answers) s.result
  users : Kept usersUpdate HoldsMarks s.users

/-- Only the first to write to a file writes it from scratch, and no one who may create it gives
up. -/
def SurveySafe (s : SurveyState) (e : SurveyEvent) : Prop :=
  match e.file with
  | .result => Safe s.result e.uid e.action
  | .users => Safe s.users e.uid e.action

instance (s : SurveyState) (e : SurveyEvent) : Decidable (SurveySafe s e) := by
  unfold SurveySafe
  cases e.file <;> infer_instance

structure SurveyInv (nQuest : Nat) (answers : Int → Answers nQuest) (s : SurveyState) : Prop where
  result : Inv (resultUpdate nQuest answers) (HoldsAnswers answers) s.result
  users : Inv usersUpdate HoldsMarks s.users

variable {answers : Int → Answers nQuest}

theorem SurveyInv.step (hq : 0 < nQuest) {s s' : SurveyState} {e : SurveyEvent}
    (hI : SurveyInv nQuest answers s) (hs : surveyStep nQuest answers s e = some s') :
    (SurveyKept nQuest answers s' ↔ SurveySafe s e) ∧
      (SurveySafe s e → SurveyInv nQuest answers s') := by
  obtain ⟨uid, file, action⟩ := e
  unfold surveyStep at hs
  cases file with
  | result =>
    obtain ⟨r, hr, rfl⟩ := Option.map_eq_some_iff.mp hs
    have hiff := hI.result.kept_iff_safe (resultUpdate_keeps hq answers)
      (resultUpdate_loses hq answers) hr
    constructor
    · constructor
      · exact fun hk => hiff.mp hk.result
      · exact fun hsafe => ⟨hiff.mpr hsafe, hI.users.kept⟩
    · exact fun hsafe => ⟨hI.result.step (resultUpdate_keeps hq answers) hr hsafe, hI.users⟩
  | users =>
    dsimp only at hs
    split at hs
    · obtain ⟨f, hf, rfl⟩ := Option.map_eq_some_iff.mp hs
      have hiff := hI.users.kept_iff_safe usersUpdate_keeps usersUpdate_loses hf
      constructor
      · constructor
        · exact fun hk => hiff.mp hk.users
        · exact fun hsafe => ⟨hI.result.kept, hiff.mpr hsafe⟩
      · exact fun hsafe => ⟨hI.result, hI.users.step usersUpdate_keeps hf hsafe⟩
    · cases hs

theorem surveyInv_start (hq : 0 < nQuest) : SurveyInv nQuest answers .start where
  result := inv_start (resultUpdate_keeps hq answers)
  users := inv_start usersUpdate_keeps

/-- Whatever the respondents do in turn, and whatever `rand` gives them, no answer is lost as long
as every step is safe, and only as long as it is. -/
theorem survey_answers_over_runs (hq : 0 < nQuest) (answers : Int → Answers nQuest)
    (es : List SurveyEvent) :
    AllSteps (surveyStep nQuest answers) (fun _ _ s' => SurveyKept nQuest answers s') .start es ↔
      AllSteps (surveyStep nQuest answers) (fun s e _ => SurveySafe s e) .start es :=
  allSteps_iff (fun _ _ _ hI hs => hI.step hq hs) (surveyInv_start hq) es

/-- What `uid` does with both files when the file exists, or when it is the first to open it. -/
def visit (uid : Int) (acts : List (Action (Nat → Int))) : List SurveyEvent :=
  acts.map (fun a => ⟨uid, .result, a⟩) ++ acts.map fun a => ⟨uid, .users, a⟩

def firstVisit : List (Action (Nat → Int)) := [.openFile, .openFile, .lock, .write Int.ofNat, .close]

def laterVisit : List (Action (Nat → Int)) := [.openFile, .lock, .read, .write Int.ofNat, .close]

def sampleAnswers (uid : Int) : Answers 1 :=
  ⟨[if uid = 1 then "ja".toList else "nej".toList], rfl, by
    intro l hl
    rw [List.mem_singleton.mp hl]
    split <;> decide⟩

theorem survey_answers_over_runs_inTurn :
    0 < 1 ∧ AllSteps (surveyStep 1 sampleAnswers) (fun _ _ s' => SurveyKept 1 sampleAnswers s') .start
      (visit 1 firstVisit ++ visit 2 laterVisit ++ visit 3 laterVisit) := by
  constructor
  · decide
  · apply (survey_answers_over_runs (by decide) sampleAnswers _).mpr
    decide

/-- Both users find that there is no result file before either has created it. -/
def bothFirst : List SurveyEvent :=
  ⟨1, .result, .openFile⟩ :: ⟨2, .result, .openFile⟩ ::
    (firstVisit.tail.map fun a => ⟨1, .result, a⟩) ++ (firstVisit.tail.map fun a => ⟨2, .result, a⟩)
      ++ (firstVisit.map fun a => ⟨1, .users, a⟩) ++ (laterVisit.map fun a => ⟨2, .users, a⟩)

/-- Then the second to create it writes over the answers of the first, who has been named in the
users file all the same. -/
theorem second_creation_loses_answers :
    ∃ s, run (surveyStep 1 sampleAnswers) .start bothFirst = some s ∧
      (∀ uid ∈ [1, 2], (s.result.stage uid).Ended ∧ (s.users.stage uid).Ended) ∧
      s.result.content = some "nej\n".toList ∧ s.users.content = some "[1]\n[2]".toList ∧
      ¬ HoldsAnswers sampleAnswers [1, 2] (s.result.content.getD []) := by
  refine ⟨_, rfl, ?_⟩
  refine ⟨by decide, rfl, rfl, ?_⟩
  show ¬ HoldsAnswers sampleAnswers [1, 2] "nej\n".toList
  intro h
  exact absurd h.count (by decide)

end SklaffKom
