import SklaffKom.Posting

/-!
# Rights in a conference

`confrc` holds one uid for each line: the users kept out of an open conference, or the users let
into a closed or secret one.
-/

open CString Runs

namespace SklaffKom

/-- `OPEN_CONF`, `CLOSED_CONF`, `SECRET_CONF` -/
def openConf : Int := 0
def closedConf : Int := 1
def secretConf : Int := 2

def confAccessType (type : Int) : Int :=
  if type = 0 ∨ type = 3 ∨ type = 4 then openConf
  else if type = 1 ∨ type = 5 ∨ type = 7 then closedConf
  else if type = 2 ∨ type = 6 ∨ type = 8 then secretConf
  else -1

/-- `conf_right`: all (0), look (1), none (2) or error (-1) -/
def confRight (ul : List Int) (uid type crNum : Int) : Int :=
  let access := confAccessType type
  if access < 0 then -1
  else if crNum = uid then 0
  else if uid ∈ ul then
    -- a deny list for open conferences, an allow list for the others
    if access = openConf then 1 else 0
  else access

/-- The loop of `get_confrc_users`, which runs at most once for each line. -/
def confrcUsers : Nat → CString → List Int
  | 0, _ => []
  | fuel + 1, buf =>
    match strchr buf '\n' with
    | none => []
    -- a line is read up to its first character that is no digit
    | some ptr => atol buf :: confrcUsers fuel ptr.tail

def getConfrcUsers (buf : CString) : List Int := confrcUsers (buf.length + 1) buf

/-- `get_confrc_struct` on the `confrc` of the conference `num`. -/
def getConfrcStruct (num : Int) (confrc : CString) : List Int :=
  if num ≤ 0 then [] else getConfrcUsers confrc

/-- `"%d\n"` -/
def newuid (unum : Int) : CString := decimal unum ++ ['\n']

/-- The list without one user, a line each. -/
def usersWithout (ul : List Int) (unum : Int) : CString := (ul.filter (· ≠ unum)).flatMap newuid

/-- What `cmd_add_rights` and `cmd_sub_rights` tell the user. -/
inductive RightsReply where
  | noAddMail
  | addRightOk
  | alreadyRig
  | rightCreate
  | noSubMail
  | subRightOk
  | noRig
  | noSubSelf
  | subCreate
deriving DecidableEq, Repr

/-- `cmd_add_rights` for the user `unum`: the reply, and `confrc` afterwards. -/
def cmdAddRights (uid currentConf : Int) (conffile : CString) (unum : Int) (confrc : CString) :
    Option (RightsReply × CString) :=
  if currentConf = 0 then some (.noAddMail, confrc)
  else match getConfStruct currentConf conffile with
    | none => none
    | some none => none
    | some (some ce) =>
      if ce.creator = uid then
        let ul := getConfrcStruct currentConf confrc
        if confRight ul unum ce.type ce.creator > 0 then
          -- onto the allow list, or off the deny list
          if confAccessType ce.type ≠ openConf then some (.addRightOk, confrc ++ newuid unum)
          else some (.addRightOk, usersWithout ul unum)
        else some (.alreadyRig, confrc)
      else some (.rightCreate, confrc)

/-- `cmd_sub_rights` for the user `unum`: the reply, and `confrc` afterwards. -/
def cmdSubRights (uid currentConf : Int) (conffile : CString) (unum : Int) (confrc : CString) :
    Option (RightsReply × CString) :=
  if currentConf = 0 then some (.noSubMail, confrc)
  else match getConfStruct currentConf conffile with
    | none => none
    | some none => none
    | some (some ce) =>
      if ce.creator = uid then
        if ce.creator ≠ unum then
          let ul := getConfrcStruct currentConf confrc
          if confRight ul unum ce.type ce.creator = 0 then
            -- off the allow list, or onto the deny list
            if confAccessType ce.type ≠ openConf then some (.subRightOk, usersWithout ul unum)
            else some (.subRightOk, confrc ++ newuid unum)
          else some (.noRig, confrc)
        else some (.noSubSelf, confrc)
      else some (.subCreate, confrc)

/-! ## Files of one uid for each line -/

def confrcBytes (us : List Int) : CString := us.flatMap newuid

theorem confrcBytes_cons (u : Int) (us : List Int) :
    confrcBytes (u :: us) = decimal u ++ '\n' :: confrcBytes us := by
  simp [confrcBytes, newuid]

theorem confrcBytes_append_newuid (us : List Int) (u : Int) :
    confrcBytes us ++ newuid u = confrcBytes (us ++ [u]) := by
  simp [confrcBytes]

theorem length_le_confrcBytes (us : List Int) : us.length ≤ (confrcBytes us).length := by
  induction us with
  | nil => exact Nat.le_refl 0
  | cons u us ih =>
    rw [confrcBytes_cons, List.length_append, List.length_cons, List.length_cons]
    omega

theorem confrcUsers_bytes (us : List Int) (fuel : Nat) (hf : us.length < fuel) :
    confrcUsers fuel (confrcBytes us) = us := by
  induction us generalizing fuel with
  | nil => cases fuel <;> rfl
  | cons u us ih =>
    cases fuel with
    | zero => omega
    | succ fuel =>
      rw [confrcBytes_cons, confrcUsers, strchr_append (notMem_decimal rfl (by decide))]
      show atol _ :: confrcUsers fuel (confrcBytes us) = u :: us
      rw [atol_decimal u (noDigit_cons.mpr rfl), ih fuel (by simp at hf; omega)]

/-- `get_confrc_users` reads the users back. -/
theorem getConfrcUsers_bytes (us : List Int) : getConfrcUsers (confrcBytes us) = us := by
  apply confrcUsers_bytes
  have := length_le_confrcBytes us
  omega

/-- `get_confrc_struct` reads them too, except for the mailbox. -/
theorem getConfrcStruct_bytes {num : Int} (hn : 0 < num) (us : List Int) :
    getConfrcStruct num (confrcBytes us) = us := by
  unfold getConfrcStruct
  rw [if_neg (by omega), getConfrcUsers_bytes]

/-! ## What a change of the list does to a right -/

section Right

variable {ul ul' : List Int} {u type crNum : Int}

theorem confRight_creator (ht : 0 ≤ confAccessType type) :
    confRight ul crNum type crNum = 0 := by
  unfold confRight
  rw [if_neg (by omega), if_pos rfl]

/-- Of the list, only whether it has the user matters. -/
theorem confRight_congr (h : u ∈ ul' ↔ u ∈ ul) :
    confRight ul' u type crNum = confRight ul u type crNum := by
  simp only [confRight, h]

/-- In an open conference the list keeps users out. -/
theorem confRight_open (ht : confAccessType type = openConf) (hu : crNum ≠ u) :
    confRight ul u type crNum = if u ∈ ul then 1 else 0 := by
  simp only [confRight, ht, if_neg hu, if_true]
  rfl

/-- In the other conferences it lets them in. -/
theorem confRight_closed (ht : 0 ≤ confAccessType type) (ho : confAccessType type ≠ openConf)
    (hu : crNum ≠ u) :
    confRight ul u type crNum = if u ∈ ul then 0 else confAccessType type := by
  unfold confRight
  rw [if_neg (by omega), if_neg hu, if_neg ho]

theorem confAccessType_pos (ht : 0 ≤ confAccessType type) (ho : confAccessType type ≠ openConf) :
    0 < confAccessType type := by
  have : confAccessType type ≠ 0 := ho
  omega

/-- The right is 0 exactly for the creator, for users whom the deny list leaves out and for users
on the allow list. -/
theorem confRight_eq_zero (ht : 0 ≤ confAccessType type) :
    confRight ul u type crNum = 0 ↔
      crNum = u ∨ (confAccessType type = openConf ↔ u ∉ ul) := by
  by_cases hu : crNum = u
  · subst hu
    rw [confRight_creator ht]
    simp
  · by_cases ho : confAccessType type = openConf
    · rw [confRight_open ho hu]
      simp [hu, ho]
    · have := confAccessType_pos ht ho
      rw [confRight_closed ht ho hu]
      simp only [hu, ho, false_or, false_iff, not_not]
      split
      · simpa
      · simp only [iff_false, *]
        omega

theorem confRight_nonneg (ht : 0 ≤ confAccessType type) : 0 ≤ confRight ul u type crNum := by
  unfold confRight
  rw [if_neg (by omega)]
  repeat' split
  all_goals omega

theorem confRight_pos (ht : 0 ≤ confAccessType type) :
    0 < confRight ul u type crNum ↔ confRight ul u type crNum ≠ 0 := by
  have : 0 ≤ confRight ul u type crNum := confRight_nonneg ht
  omega

end Right

/-- The list after a user was let in. -/
def grant (type : Int) (us : List Int) (u : Int) : List Int :=
  if confAccessType type ≠ openConf then us ++ [u] else us.filter (· ≠ u)

/-- The list after a user was shut out. -/
def revoke (type : Int) (us : List Int) (u : Int) : List Int :=
  if confAccessType type ≠ openConf then us.filter (· ≠ u) else us ++ [u]

theorem mem_grant {type u v : Int} {us : List Int} :
    v ∈ grant type us u ↔ if v = u then confAccessType type ≠ openConf else v ∈ us := by
  unfold grant
  split <;> split <;> simp_all

theorem mem_revoke {type u v : Int} {us : List Int} :
    v ∈ revoke type us u ↔ if v = u then confAccessType type = openConf else v ∈ us := by
  unfold revoke
  split <;> split <;> simp_all

theorem confRight_grant {type crNum u : Int} {us : List Int} (ht : 0 ≤ confAccessType type) :
    confRight (grant type us u) u type crNum = 0 := by
  rw [confRight_eq_zero ht, mem_grant, if_pos rfl]
  tauto

theorem confRight_revoke {type crNum u : Int} {us : List Int} (ht : 0 ≤ confAccessType type)
    (hu : crNum ≠ u) : 0 < confRight (revoke type us u) u type crNum := by
  rw [confRight_pos ht, ne_eq, confRight_eq_zero ht, mem_revoke, if_pos rfl]
  tauto

theorem confRight_grant_other {type crNum u v : Int} {us : List Int} (hv : v ≠ u) :
    confRight (grant type us u) v type crNum = confRight us v type crNum := by
  apply confRight_congr
  rw [mem_grant, if_neg hv]

theorem confRight_revoke_other {type crNum u v : Int} {us : List Int} (hv : v ≠ u) :
    confRight (revoke type us u) v type crNum = confRight us v type crNum := by
  apply confRight_congr
  rw [mem_revoke, if_neg hv]

/-! ## Runs of the creator's commands -/

/-- The file, and the reply to the last command. -/
structure RightsState where
  confrc : CString
  reply : Option RightsReply

inductive RightsEvent where
  | add (unum : Int)
  | sub (unum : Int)

def RightsEvent.user : RightsEvent → Int
  | add unum => unum
  | sub unum => unum

/-- One command of the user `uid` in the conference `currentConf`. -/
def rightsStep (uid currentConf : Int) (conffile : CString) (s : RightsState) :
    RightsEvent → Option RightsState
  | .add unum =>
    (cmdAddRights uid currentConf conffile unum s.confrc).map fun r => ⟨r.2, some r.1⟩
  | .sub unum =>
    (cmdSubRights uid currentConf conffile unum s.confrc).map fun r => ⟨r.2, some r.1⟩

/-- `conf_right` of a user, by the file as it is stored. -/
def RightsState.right (s : RightsState) (ce : ConfEntry) (u : Int) : Int :=
  confRight (getConfrcStruct ce.num s.confrc) u ce.type ce.creator

structure RightsKept (ce : ConfEntry) (s : RightsState) (e : RightsEvent) (s' : RightsState) :
    Prop where
  added : ∀ u, e = .add u →
    (s'.reply = some .addRightOk ↔ 0 < s.right ce u) ∧ s'.right ce u = 0
  subbed : ∀ u, e = .sub u → u ≠ ce.creator →
    (s'.reply = some .subRightOk ↔ s.right ce u = 0) ∧ 0 < s'.right ce u
  others : ∀ v, v ≠ e.user → s'.right ce v = s.right ce v
  creator : s.right ce ce.creator = 0 ∧ s'.right ce ce.creator = 0

/-- The file is a list of users. -/
def RightsState.IsList (s : RightsState) : Prop := ∃ us, s.confrc = confrcBytes us

section Creator

variable {l : ConfFile} {conf : Int} {ce : ConfEntry}

theorem cmdAddRights_bytes (hc : 0 < conf) (he : l.entry conf = some ce) (u : Int)
    (us : List Int) :
    cmdAddRights ce.creator conf l.bytes u (confrcBytes us) =
      some (if confRight us u ce.type ce.creator > 0
        then (.addRightOk, confrcBytes (grant ce.type us u))
        else (.alreadyRig, confrcBytes us)) := by
  unfold cmdAddRights
  rw [if_neg (by omega), getConfStruct_bytes he]
  simp only [if_true, getConfrcStruct_bytes hc, confrcBytes_append_newuid, grant]
  split
  · split <;> rfl
  · rfl

theorem cmdSubRights_bytes (hc : 0 < conf) (he : l.entry conf = some ce) (u : Int)
    (us : List Int) :
    cmdSubRights ce.creator conf l.bytes u (confrcBytes us) =
      some (if ce.creator ≠ u then
        if confRight us u ce.type ce.creator = 0
          then (.subRightOk, confrcBytes (revoke ce.type us u))
          else (.noRig, confrcBytes us)
        else (.noSubSelf, confrcBytes us)) := by
  unfold cmdSubRights
  rw [if_neg (by omega), getConfStruct_bytes he]
  simp only [if_true, getConfrcStruct_bytes hc, confrcBytes_append_newuid, revoke]
  split
  · split
    · split <;> rfl
    · rfl
  · rfl

theorem right_bytes (hc : 0 < ce.num) (us : List Int) (r : Option RightsReply) (u : Int) :
    (RightsState.mk (confrcBytes us) r).right ce u = confRight us u ce.type ce.creator := by
  unfold RightsState.right
  rw [getConfrcStruct_bytes hc]

/-- What a command has to do, by the list before and after it. -/
theorem rightsKept_of_lists (hc : 0 < ce.num) (ht : 0 ≤ confAccessType ce.type)
    {us us' : List Int} {r r' : Option RightsReply} {e : RightsEvent}
    (hadd : ∀ u, e = .add u → (r' = some .addRightOk ↔ 0 < confRight us u ce.type ce.creator) ∧
      confRight us' u ce.type ce.creator = 0)
    (hsub : ∀ u, e = .sub u → ce.creator ≠ u →
      (r' = some .subRightOk ↔ confRight us u ce.type ce.creator = 0) ∧
        0 < confRight us' u ce.type ce.creator)
    (hother : ∀ v, v ≠ e.user →
      confRight us' v ce.type ce.creator = confRight us v ce.type ce.creator) :
    RightsKept ce ⟨confrcBytes us, r⟩ e ⟨confrcBytes us', r'⟩ := by
  constructor
  · intro u hu
    rw [right_bytes hc, right_bytes hc]
    exact hadd u hu
  · intro u hu hne
    rw [right_bytes hc, right_bytes hc]
    exact hsub u hu (Ne.symm hne)
  · intro v hv
    rw [right_bytes hc, right_bytes hc]
    exact hother v hv
  · rw [right_bytes hc, right_bytes hc]
    exact ⟨confRight_creator ht, confRight_creator ht⟩

theorem rightsStep_add (hc : 0 < ce.num) (he : l.entry ce.num = some ce)
    (ht : 0 ≤ confAccessType ce.type) (u : Int) {s : RightsState} (hs : s.IsList) :
    ∃ s', rightsStep ce.creator ce.num l.bytes s (.add u) = some s' ∧ s'.IsList ∧
      RightsKept ce s (.add u) s' := by
  obtain ⟨us, hus⟩ := hs
  obtain ⟨confrc, reply⟩ := s
  subst hus
  simp only [rightsStep, cmdAddRights_bytes hc he, Option.map_some]
  by_cases hr : confRight us u ce.type ce.creator > 0
  · -- the user had no right, and gets it
    rw [if_pos hr]
    refine ⟨_, rfl, ⟨_, rfl⟩, rightsKept_of_lists hc ht ?_ ?_ ?_⟩
    · intro v hv
      obtain rfl := RightsEvent.add.inj hv
      exact ⟨iff_of_true rfl hr, confRight_grant ht⟩
    · intro v hv
      cases hv
    · intro v hv
      exact confRight_grant_other hv
  · -- the file stays as it is
    rw [if_neg hr]
    refine ⟨_, rfl, ⟨_, rfl⟩, rightsKept_of_lists hc ht ?_ ?_ fun _ _ => rfl⟩
    · intro v hv
      obtain rfl := RightsEvent.add.inj hv
      have : 0 ≤ confRight us u ce.type ce.creator := confRight_nonneg ht
      exact ⟨iff_of_false (by simp) hr, by omega⟩
    · intro v hv
      cases hv

theorem rightsStep_sub (hc : 0 < ce.num) (he : l.entry ce.num = some ce)
    (ht : 0 ≤ confAccessType ce.type) (u : Int) {s : RightsState} (hs : s.IsList) :
    ∃ s', rightsStep ce.creator ce.num l.bytes s (.sub u) = some s' ∧ s'.IsList ∧
      RightsKept ce s (.sub u) s' := by
  obtain ⟨us, hus⟩ := hs
  obtain ⟨confrc, reply⟩ := s
  subst hus
  have hno : ∀ v, RightsEvent.sub u = .add v → False := by
    intro v hv
    cases hv
  simp only [rightsStep, cmdSubRights_bytes hc he, Option.map_some]
  by_cases hu : ce.creator = u
  · -- the creator is refused
    rw [if_neg (not_not.mpr hu)]
    refine ⟨_, rfl, ⟨_, rfl⟩,
      rightsKept_of_lists hc ht (fun v hv => (hno v hv).elim) ?_ fun _ _ => rfl⟩
    intro v hv hne
    obtain rfl := RightsEvent.sub.inj hv
    exact absurd hu hne
  · rw [if_pos hu]
    by_cases hr : confRight us u ce.type ce.creator = 0
    · rw [if_pos hr]
      refine ⟨_, rfl, ⟨_, rfl⟩,
        rightsKept_of_lists hc ht (fun v hv => (hno v hv).elim) ?_ ?_⟩
      · intro v hv _
        obtain rfl := RightsEvent.sub.inj hv
        exact ⟨iff_of_true rfl hr, confRight_revoke ht hu⟩
      · intro v hv
        exact confRight_revoke_other hv
    · rw [if_neg hr]
      refine ⟨_, rfl, ⟨_, rfl⟩,
        rightsKept_of_lists hc ht (fun v hv => (hno v hv).elim) ?_ fun _ _ => rfl⟩
      intro v hv _
      obtain rfl := RightsEvent.sub.inj hv
      exact ⟨iff_of_false (by simp) hr, (confRight_pos ht).mpr hr⟩

/-- Whatever the creator of a conference grants and takes away, a grant leaves the user with the
right 0, a withdrawal leaves it above 0, and nobody else's right changes. -/
theorem rights_over_runs (he : l.entry conf = some ce)
    (ht : confAccessType ce.type = openConf ∨ confAccessType ce.type = closedConf ∨
      confAccessType ce.type = secretConf)
    (us : List Int) (events : List RightsEvent) :
    AllSteps (rightsStep ce.creator conf l.bytes) (RightsKept ce) ⟨confrcBytes us, none⟩
      events := by
  obtain ⟨rfl, as, bs, hs, -⟩ := l.exists_split he
  have hc : 0 < ce.num := l.positive ce (by rw [hs]; simp)
  have hpos : 0 ≤ confAccessType ce.type := by
    rcases ht with ht | ht | ht <;> rw [ht] <;> decide
  apply allSteps_of_invariant (I := RightsState.IsList) (E := fun _ => True)
  · intro s e hI _
    cases e with
    | add u => exact rightsStep_add hc he hpos u hI
    | sub u => exact rightsStep_sub hc he hpos u hI
  · exact ⟨us, rfl⟩
  · intro _ _
    trivial

end Creator

/-- User 7 is on the deny list twice; users 7 and 9 and the creator come and go. -/
theorem rights_over_runs_deniedTwice :
    AllSteps (rightsStep 2 1 emptyConference.bytes)
      (RightsKept ⟨1, 0, 2, 0, 0, 0, 0, "Talk".toList⟩)
      ⟨"7\n9\n7\n".toList, none⟩ [.add 7, .sub 2, .sub 9, .add 9, .sub 7] :=
  rights_over_runs (show emptyConference.entry 1 = some ⟨1, 0, 2, 0, 0, 0, 0, _⟩ from rfl)
    (Or.inl rfl) [7, 9, 7] _

end SklaffKom
