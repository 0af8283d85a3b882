import SklaffKom.ConfExtra
import SklaffKom.JumpTree
import SklaffKom.UnreadSubject

/-!
# Skipping by subject or author

`cmd_jumpsub` and `cmd_jumpuser` take all unread texts of the current conference from `next_text`,
mark each as read, and remember those that do not match.  These become unread again at the end.
-/

open CString

namespace SklaffKom

/-- What a turn of the loop does with the text `num`: it is counted, or remembered to become unread
again; `none` where its file cannot be decoded. -/
def jumpText (t : TextBase) (conf : Int) (hit : TextEntry → Bool) (num count : Int)
    (start : List Int) : Option (Int × List Int) :=
  match t.openText conf num with
  | none => some (count, start)
  | some file => (readEntry file).map fun te =>
    if hit te then (count + 1, start) else (count, start ++ [num])

/-- The first loop of the two commands: `count`, the list `start` and the conference file. -/
def jumpUnread (t : TextBase) (fuel : Nat) (conf : Int) (hit : TextEntry → Bool) :
    Nat → Int → List Int → CString → Option (Int × List Int × CString)
  | 0, _, _, _ => none
  | turns + 1, count, start, buf => do
    let (num, buf) ← nextText t.disk fuel conf buf
    if num = 0 then pure (count, start, buf)
    else
      let (count, start) ← jumpText t conf hit num count start
      let (_, buf) ← markAsRead none num conf buf
      jumpUnread t fuel conf hit turns count start buf

/-- The second loop: the remembered texts become unread. -/
def unreadTexts (conf : Int) : List Int → CString → Option CString
  | [], buf => some buf
  | num :: rest, buf => do
    let (_, buf) ← markAsUnread none num conf buf
    unreadTexts conf rest buf

inductive JumpReply where
  | noSubj
  | jumpUserLocal
  | noName
  | noUname
  | jumped (count : Int)
deriving DecidableEq, Repr

def jumpTexts (t : TextBase) (fuel turns : Nat) (conf : Int) (hit : TextEntry → Bool)
    (buf : CString) : Option (JumpReply × CString) := do
  let (count, start, buf) ← jumpUnread t fuel conf hit turns 0 [] buf
  let buf ← unreadTexts conf start buf
  pure (.jumped count, buf)

/-- `cmd_jumpsub`; `lastSub` is the subject of the text read last. -/
def cmdJumpsub (t : TextBase) (fuel turns : Nat) (conf : Int) (lastSub args buf : CString) :
    Option (JumpReply × CString) :=
  let sub := if args ≠ [] then args else lastSub
  if sub = [] then some (.noSubj, buf)
  else jumpTexts t fuel turns conf
    (fun te => decide (downString sub <:+: downString te.th.subject)) buf

/-- The conference that `cmd_jumpuser` looks at; the mailbox is none. -/
def jumpUserConf (t : TextBase) (conf : Int) : Option (Option ConfEntry) :=
  if conf > 0 then getConfStruct conf t.conffile else pure none

/-- `cmd_jumpuser`; `userOf` is what `expand_name` and `user_uid` make of the argument, and
`currentAuthor` the author of the text read last. -/
def cmdJumpuser (t : TextBase) (fuel turns : Nat) (conf : Int) (userOf : CString → Option Int)
    (currentAuthor : Int) (args buf : CString) : Option (JumpReply × CString) := do
  let ce ← jumpUserConf t conf
  if ce.any fun ce => confIsExternal ce.type then pure (.jumpUserLocal, buf)
  else if args ≠ [] then
    match userOf args with
    | none => pure (.noName, buf)
    | some jumpuid => jumpTexts t fuel turns conf (fun te => te.th.author == jumpuid) buf
  else if currentAuthor ≠ -1 then
    jumpTexts t fuel turns conf (fun te => te.th.author == currentAuthor) buf
  else pure (.noUname, buf)

/-- The user who is meant. -/
def jumpUser (userOf : CString → Option Int) (currentAuthor : Int) (args : CString) : Option Int :=
  if args ≠ [] then userOf args else if currentAuthor ≠ -1 then some currentAuthor else none

def Matching (t : TextBase) (conf : Int) (hit : TextEntry → Bool) : Set Int :=
  {n | ∃ file te, t.openText conf n = some file ∧ readEntry file = some te ∧ hit te = true}

def ByAuthor (t : TextBase) (conf author : Int) : Set Int :=
  {n | ∃ file te, t.openText conf n = some file ∧ readEntry file = some te ∧
    te.th.author = author}

/-- The command ends; of the existing texts those in `M` are read afterwards, and the others keep
their marks. -/
def Skips (t : TextBase) (conf : Int) (f : ConfsFile) (M : Set Int)
    (run : Nat → Nat → Option (JumpReply × CString)) : Prop :=
  ∃ enough, ∀ fuel turns, enough ≤ fuel → enough ≤ turns → ∃ count, ∃ g : ConfsFile,
    run fuel turns = some (.jumped count, g.bytes) ∧ SameBut conf f g ∧
      ∀ n, t.disk.texts conf n → (n ∈ g.read conf ↔ n ∈ f.read conf ∨ n ∈ M)

def ExternalConf (l : ConfFile) (conf : Int) : Prop :=
  ∃ e, l.entry conf = some e ∧ confIsExternal e.type = true

/-! ## One turn -/

section Turns

variable {t : TextBase} {mbox : ConfEntry} {l : ConfFile} {f f₁ : ConfsFile} {conf num count : Int}
  {hit : TextEntry → Bool} {start : List Int} {buf : CString}

theorem jumpText_spec (hit : TextEntry → Bool) (hparse : ∀ n file, t.openText conf n = some file →
    ∃ te, readEntry file = some te) (num count : Int) (start : List Int) :
    ∃ count' new, jumpText t conf hit num count start = some (count', start ++ new) ∧
      ∀ n, n ∈ new ↔ n = num ∧ (t.openText conf num).isSome ∧ num ∉ Matching t conf hit := by
  rw [jumpText]
  cases hfile : t.openText conf num with
  | none =>
    refine ⟨count, [], by rw [List.append_nil], fun n => ?_⟩
    simp
  | some file =>
    obtain ⟨te, hte⟩ := hparse num file hfile
    have hmatch : num ∈ Matching t conf hit ↔ hit te = true := by
      constructor
      · rintro ⟨file', te', hfile', hte', h⟩
        rw [hfile, Option.some.injEq] at hfile'
        rw [← hfile', hte, Option.some.injEq] at hte'
        rw [hte']
        exact h
      · exact fun h => ⟨file, te, hfile, hte, h⟩
    dsimp only
    rw [hte, Option.map_some, hmatch]
    by_cases hh : hit te = true
    · refine ⟨count + 1, [], by rw [if_pos hh, List.append_nil], fun n => ?_⟩
      simp [hh]
    · refine ⟨count, [num], by rw [if_neg hh], fun n => ?_⟩
      simp [hh]

/-- The scan for the next text makes no existing text read. -/
theorem scan_missing {r : Option Int} (hscan : NextScan t mbox l conf f f₁ r)
    (hfirst : conf ≠ 0 → ∀ n, t.disk.texts conf n → t.disk.first conf ≤ n) {n : Int}
    (hn : n ∈ f₁.read conf) (htext : t.disk.texts conf n) : n ∈ f.read conf := by
  by_contra hout
  by_cases h0 : conf = 0
  · rw [hscan.mailbox h0] at hn
    exact hout hn
  · exact hscan.safe.mpr (fun _ n _ htext => hfirst h0 n htext) n hn hout htext

theorem jumpUnread_succ (fuel turns : Nat) (buf : CString) :
    jumpUnread t fuel conf hit (turns + 1) count start buf =
      (nextText t.disk fuel conf buf).bind fun r =>
        if r.1 = 0 then some (count, start, r.2)
        else (jumpText t conf hit r.1 count start).bind fun s =>
          (markAsRead none r.1 conf r.2).bind fun m =>
            jumpUnread t fuel conf hit turns s.1 s.2 m.2 := rfl

/-- The first loop: all existing texts become read, and those are remembered that were unread and do
not match. -/
theorem jumpUnread_run (hit : TextEntry → Bool) (hsub : conf ∈ f.nums)
    (hu : UserFiles t mbox l f.nums)
    (hpos : ∀ c, ∀ n ∈ f.read c, 1 ≤ n)
    (hfirst : conf ≠ 0 → ∀ n, t.disk.texts conf n → t.disk.first conf ≤ n)
    (hparse : ∀ n file, t.openText conf n = some file → ∃ te, readEntry file = some te)
    {fuel : Nat} (hfuel : ∀ e ∈ l.entries, e.lastText.toNat < fuel) (turns : Nat)
    (hturns : (unreadNumbers mbox l f).ncard < turns) (count : Int) (start : List Int) :
    ∃ count' new, ∃ g : ConfsFile,
      jumpUnread t fuel conf hit turns count start f.bytes = some (count', start ++ new, g.bytes) ∧
      SameBut conf f g ∧ (∀ n, t.disk.texts conf n → n ∈ g.read conf) ∧
      (∀ n ∈ new, t.disk.texts conf n) ∧
      ∀ n, t.disk.texts conf n → (n ∈ new ↔ n ∉ f.read conf ∧ n ∉ Matching t conf hit) := by
  have hconf := hu.nonneg hsub
  -- a turn makes one more number read
  induction turns generalizing f count start with
  | zero => omega
  | succ turns ih =>
    obtain ⟨r, f₁, hnext, hscan⟩ := nextText_scan hu hsub (hpos conf) hfuel
    rw [jumpUnread_succ, hnext, Option.bind_some]
    cases r with
    | none =>
      obtain ⟨hall, -, -⟩ := hscan.none rfl
      have hread : ∀ n, t.disk.texts conf n → n ∈ f₁.read conf := by
        intro n htext
        have hin := hu.files conf hsub n htext
        exact hall n hin.1 hin.2
      refine ⟨count, [], f₁, by simp, hscan.same, hread, by simp, fun n htext => ?_⟩
      refine iff_of_false List.not_mem_nil fun h => h.1 ?_
      exact scan_missing hscan hfirst (hread n htext) htext
    | some num =>
      obtain ⟨h1, hle, hunread, -⟩ := hscan.found num rfl
      obtain ⟨count₁, new₁, htext, hnew₁⟩ := jumpText_spec hit hparse num count start
      have hsub₁ : conf ∈ f₁.nums := hscan.same.nums ▸ hsub
      obtain ⟨k, f₂, hmark, hsame₂, hread₂, -⟩ := marksText_read f₁ conf num (by omega) hsub₁
      have hsame : SameBut conf f f₂ := hscan.same.trans hsame₂
      have hgrow : ∀ c, f.read c ⊆ f₂.read c := by
        intro c n hn
        by_cases hc : c = conf
        · subst hc
          rw [hread₂]
          by_cases hnum : n = num
          · exact Or.inl ⟨hnum, trivial⟩
          · exact Or.inr ⟨hnum, hscan.grows hn⟩
        · rw [hsame.read hc]
          exact hn
      have hpos₂ : ∀ c, ∀ n ∈ f₂.read c, 1 ≤ n := by
        intro c n hn
        by_cases hc : c = conf
        · subst hc
          rcases (hread₂ n).mp hn with ⟨rfl, -⟩ | ⟨-, hn⟩
          · exact h1
          · exact hscan.pos n hn
        · rw [hsame.read hc] at hn
          exact hpos c n hn
      have hless := ncard_unreadNumbers_lt mbox l hsame.nums hgrow hsub h1 hle
        (fun hn => hunread (hscan.grows hn)) ((hread₂ num).mpr (Or.inl ⟨rfl, trivial⟩))
      obtain ⟨count', new, g, hrun, hsame', hall, hexist, hnew⟩ := ih (f := f₂)
        (hsame.nums ▸ hsub) (hsame.nums ▸ hu) hpos₂ (by omega) count₁ (start ++ new₁)
      have hdisk : ∀ n, t.disk.texts conf n ↔ (t.openText conf n).isSome := by
        intro n
        rw [openText_eq hconf]
        rfl
      refine ⟨count', new₁ ++ new, g, ?_, hsame.trans hsame', hall, ?_, ?_⟩
      · dsimp only [Option.getD_some]
        rw [if_neg (by omega), htext, Option.bind_some]
        dsimp only
        rw [hmark, Option.bind_some, hrun, List.append_assoc]
      · intro n hn
        rcases List.mem_append.mp hn with hn | hn
        · obtain ⟨rfl, hsome, -⟩ := (hnew₁ n).mp hn
          exact (hdisk n).mpr hsome
        · exact hexist n hn
      · intro n hn
        rw [List.mem_append, hnew₁, hnew n hn, hread₂]
        by_cases hnum : n = num
        · subst hnum
          have hout : n ∉ f.read conf := fun h => hunread (hscan.grows h)
          simp [(hdisk n).mp hn, hout]
        · have hsame₁ : n ∈ f₁.read conf ↔ n ∈ f.read conf :=
            ⟨fun h => scan_missing hscan hfirst h hn, fun h => hscan.grows h⟩
          simp [hnum, hsame₁]

/-- The second loop. -/
theorem unreadTexts_run (hsub : conf ∈ f.nums) (ns : List Int) (hns : ∀ n ∈ ns, 0 ≤ n) :
    ∃ g : ConfsFile, unreadTexts conf ns f.bytes = some g.bytes ∧ SameBut conf f g ∧
      ∀ n, n ∈ g.read conf ↔ n ∈ f.read conf ∧ n ∉ ns := by
  induction ns generalizing f with
  | nil => exact ⟨f, rfl, .refl _ _, fun n => by simp⟩
  | cons num ns ih =>
    rw [List.forall_mem_cons] at hns
    obtain ⟨r, f₁, hmark, hsame, hread, -⟩ := marksText_unread f conf num hns.1 hsub
    obtain ⟨g, hrun, hsame', hread'⟩ := ih (f := f₁) (hsame.nums ▸ hsub) hns.2
    refine ⟨g, ?_, hsame.trans hsame', fun n => ?_⟩
    · rw [unreadTexts, hmark]
      exact hrun
    · rw [hread', hread, List.mem_cons]
      by_cases hn : n = num
      · simp [hn]
      · simp [hn]

/-- The second loop takes back what the first one has done to the texts that do not match. -/
theorem jumpTexts_skips (hsub : conf ∈ f.nums) (hu : UserFiles t mbox l f.nums)
    (hpos : ∀ c, ∀ n ∈ f.read c, 1 ≤ n)
    (hfirst : conf ≠ 0 → ∀ n, t.disk.texts conf n → t.disk.first conf ≤ n)
    (hparse : ∀ n file, t.openText conf n = some file → ∃ te, readEntry file = some te)
    (hit : TextEntry → Bool) :
    Skips t conf f (Matching t conf hit) fun fuel turns =>
      jumpTexts t fuel turns conf hit f.bytes := by
  obtain ⟨top, htop⟩ : ∃ top : Nat, ∀ e ∈ l.entries, e.lastText.toNat ≤ top := by
    refine ⟨(l.entries.map fun e => e.lastText.toNat).sum, fun e he => ?_⟩
    exact List.le_sum_of_mem (List.mem_map_of_mem he)
  refine ⟨top + (unreadNumbers mbox l f).ncard + 1, fun fuel turns hfuel hturns => ?_⟩
  have hbig : ∀ e ∈ l.entries, e.lastText.toNat < fuel := by
    intro e he
    have := htop e he
    omega
  obtain ⟨count, new, f₁, hrun, hsame, hall, hexist, hnew⟩ := jumpUnread_run hit hsub hu hpos hfirst
    hparse hbig turns (by omega) 0 []
  obtain ⟨g, hback, hsame', hread⟩ := unreadTexts_run (hsame.nums ▸ hsub) new fun n hn => by
    have := (hu.files conf hsub n (hexist n hn)).1
    omega
  refine ⟨count, g, ?_, hsame.trans hsame', fun n hn => ?_⟩
  · rw [List.nil_append] at hrun
    simp only [jumpTexts, hrun, Option.bind_eq_bind, Option.bind_some, hback, Option.pure_def]
  · rw [hread, hnew n hn, and_iff_right (hall n hn)]
    by_cases h : n ∈ f.read conf
    · simp [h]
    · simp [h]

/-- Without long gaps no text lies below `first_text`. -/
theorem first_le (hu : UserFiles t mbox l f.nums) (hsub : conf ∈ f.nums) (h0 : conf ≠ 0)
    (hgap : ∀ m, IsLeast {n | t.disk.texts conf n} m →
      NoLongGap (t.disk.fileExists conf) m (lastOf mbox l conf)) {n : Int}
    (hn : t.disk.texts conf n) : t.disk.first conf ≤ n := by
  obtain ⟨m, hm, hle⟩ := Int.exists_least_of_bdd (P := fun n => t.disk.texts conf n)
    ⟨1, fun k hk => (hu.files conf hsub k hk).1⟩ ⟨n, hn⟩
  have hlast := hu.lastText_eq conf
  obtain ⟨r, hr, -, -, -, hleast⟩ := firstText_least (d := t.disk) hlast (hu.files conf hsub)
  have hlisted : (l.entry conf).isSome := by
    rcases hu.eq_zero_or_listed hsub with h | ⟨-, -, h⟩
    · exact absurd h h0
    · exact h
  rw [hu.listed.firstText hlisted, Option.some.injEq] at hr
  have hm' : IsLeast {n | t.disk.texts conf n} m := ⟨hm, hle⟩
  rw [hr, hleast m hm' (hgap m hm')]
  exact hle n hn

/-- The test of `cmd_jumpuser` on the conference. -/
theorem external_iff (hu : UserFiles t mbox l f.nums) (hsub : conf ∈ f.nums) :
    ∃ ce, jumpUserConf t conf = some ce ∧
      (ce.any (fun ce => confIsExternal ce.type) = true ↔ ExternalConf l conf) := by
  rcases hu.eq_zero_or_listed hsub with rfl | ⟨-, hpos, hlisted⟩
  · refine ⟨none, rfl, iff_of_false Bool.false_ne_true ?_⟩
    rintro ⟨e, he, -⟩
    have := l.positive e (l.mem_of_entry he)
    rw [(l.exists_split he).1] at this
    omega
  · obtain ⟨e, he⟩ := Option.isSome_iff_exists.mp hlisted
    have hconf : t.conffile = l.bytes := hu.listed.conffile
    refine ⟨some e, ?_, ?_⟩
    · rw [jumpUserConf, if_pos hpos, hconf, getConfStruct_bytes he]
    · rw [Option.any_some]
      constructor
      · exact fun h => ⟨e, he, h⟩
      · rintro ⟨e', he', h⟩
        rw [he, Option.some.injEq] at he'
        rw [he']
        exact h

/-- `cmd_jumpsub` skips the texts with the string, and `cmd_jumpuser` those of the user; in news and
FTN conferences the latter refuses. -/
theorem cmdJump_skips (hsub : conf ∈ f.nums) (hu : UserFiles t mbox l f.nums)
    (hpos : ∀ c, ∀ n ∈ f.read c, 1 ≤ n)
    (hgap : ∀ m, IsLeast {n | t.disk.texts conf n} m →
      NoLongGap (t.disk.fileExists conf) m (lastOf mbox l conf))
    (hparse : ∀ n file, t.openText conf n = some file → ∃ te, readEntry file = some te)
    (args : CString) :
    (∀ lastSub, (if args ≠ [] then args else lastSub) ≠ [] →
      Skips t conf f (WithSubject t conf (downString (if args ≠ [] then args else lastSub)))
        fun fuel turns => cmdJumpsub t fuel turns conf lastSub args f.bytes) ∧
    ∀ userOf currentAuthor uid, jumpUser userOf currentAuthor args = some uid →
      (¬ ExternalConf l conf → Skips t conf f (ByAuthor t conf uid) fun fuel turns =>
        cmdJumpuser t fuel turns conf userOf currentAuthor args f.bytes) ∧
      (ExternalConf l conf → ∀ fuel turns,
        cmdJumpuser t fuel turns conf userOf currentAuthor args f.bytes =
          some (.jumpUserLocal, f.bytes)) := by
  have hfirst : conf ≠ 0 → ∀ n, t.disk.texts conf n → t.disk.first conf ≤ n :=
    fun h0 n hn => first_le hu hsub h0 hgap hn
  constructor
  · intro lastSub hne
    have hskips := jumpTexts_skips hsub hu hpos hfirst hparse fun te =>
      decide (downString (if args ≠ [] then args else lastSub) <:+: downString te.th.subject)
    have hmatch : Matching t conf (fun te =>
        decide (downString (if args ≠ [] then args else lastSub) <:+: downString te.th.subject)) =
        WithSubject t conf (downString (if args ≠ [] then args else lastSub)) := by
      ext n
      simp only [Matching, WithSubject, Set.mem_ofPred_eq, decide_eq_true_iff]
    rw [hmatch] at hskips
    simp only [cmdJumpsub, if_neg hne]
    exact hskips
  · intro userOf currentAuthor uid huid
    obtain ⟨ce, hce, hext⟩ := external_iff hu hsub
    constructor
    · intro hno
      have hskips := jumpTexts_skips hsub hu hpos hfirst hparse fun te => te.th.author == uid
      have hmatch : Matching t conf (fun te => te.th.author == uid) = ByAuthor t conf uid := by
        ext n
        simp only [Matching, ByAuthor, Set.mem_ofPred_eq, beq_iff_eq]
      rw [hmatch] at hskips
      have hrun : ∀ fuel turns,
          cmdJumpuser t fuel turns conf userOf currentAuthor args f.bytes =
            jumpTexts t fuel turns conf (fun te => te.th.author == uid) f.bytes := by
        intro fuel turns
        rw [cmdJumpuser]
        simp only [hce, Option.bind_eq_bind, Option.bind_some]
        rw [if_neg fun h => hno (hext.mp h)]
        rw [jumpUser] at huid
        by_cases hargs : args ≠ []
        · rw [if_pos hargs] at huid ⊢
          simp only [huid]
        · rw [if_neg hargs] at huid ⊢
          split at huid
          · rename_i hauthor
            rw [if_pos hauthor, Option.some.inj huid]
          · cases huid
      simp only [hrun]
      exact hskips
    · intro hyes fuel turns
      rw [cmdJumpuser]
      simp only [hce, Option.bind_eq_bind, Option.bind_some]
      rw [if_pos (hext.mpr hyes)]
      rfl

end Turns

/-- A news conference with one text, of the user 2. -/
def newsBase : TextBase :=
  { freshBase with conffile := confBytes [⟨1, 1, 2, 0, 3, 0, 0, "Test".toList⟩] }

theorem cmdJumpuser_newsBase (fuel turns : Nat) :
    cmdJumpuser newsBase fuel turns 1 (fun _ => none) 2 [] newConfs.bytes =
      some (.jumpUserLocal, newConfs.bytes) := by
  have hexternal : (jumpUserConf newsBase 1).map
      (fun ce => ce.any fun ce => confIsExternal ce.type) = some true := by decide +kernel
  obtain ⟨ce, hce, hext⟩ := Option.map_eq_some_iff.mp hexternal
  rw [cmdJumpuser, hce, Option.bind_eq_bind, Option.bind_some, if_pos hext]
  rfl

/-- The text stays unread in the news conference. -/
theorem cmdJumpuser_refused :
    (¬ Skips newsBase 1 newConfs (ByAuthor newsBase 1 2) fun fuel turns =>
      cmdJumpuser newsBase fuel turns 1 (fun _ => none) 2 [] newConfs.bytes) ∧
    newsBase.disk.texts 1 1 ∧ 1 ∈ ByAuthor newsBase 1 2 ∧ 1 ∉ newConfs.read 1 ∧
    ∀ fuel turns, cmdJumpuser newsBase fuel turns 1 (fun _ => none) 2 [] newConfs.bytes =
      some (.jumpUserLocal, newConfs.bytes) := by
  refine ⟨?_, rfl, ?_, ?_, cmdJumpuser_newsBase⟩
  · rintro ⟨enough, h⟩
    obtain ⟨count, g, hrun, -, -⟩ := h enough enough le_rfl le_rfl
    dsimp only at hrun
    rw [cmdJumpuser_newsBase] at hrun
    cases hrun
  · have hauthor : (readEntry freshText).map (fun te => te.th.author) = some 2 := by decide +kernel
    obtain ⟨te, hte, htwo⟩ := Option.map_eq_some_iff.mp hauthor
    exact ⟨freshText, te, rfl, hte, htwo⟩
  · rintro ⟨il, hl, hc⟩
    cases hl
    exact absurd hc (by decide)

theorem threadBase_entries (n : Int) (file : CString) (h : threadBase.openText 1 n = some file) :
    ∃ te, readEntry file = some te := by
  rw [TextBase.openText, if_pos (by decide)] at h
  obtain ⟨-, ⟨-, rfl⟩ | ⟨-, rfl⟩⟩ := threadBase_texts h
  · exact Option.isSome_iff_exists.mp (by decide +kernel)
  · exact Option.isSome_iff_exists.mp (by decide +kernel)

theorem cmdJump_skips_threadBase :
    Skips threadBase 1 newConfs (WithSubject threadBase 1 (downString rubrik)) (fun fuel turns =>
      cmdJumpsub threadBase fuel turns 1 [] rubrik newConfs.bytes) ∧
    Skips threadBase 1 newConfs (ByAuthor threadBase 1 5) fun fuel turns =>
      cmdJumpuser threadBase fuel turns 1 (fun _ => some 5) (-1) rubrik newConfs.bytes := by
  have hrubrik : rubrik ≠ [] := by decide +kernel
  have hgap : ∀ m, IsLeast {n | threadBase.disk.texts 1 n} m →
      NoLongGap (threadBase.disk.fileExists 1) m (lastOf emptyMailbox threadList 1) := by
    intro m hm k hk hlast
    have htop : lastOf emptyMailbox threadList 1 = 3 := by decide +kernel
    have hin := (userFiles_threadBase.files 1 (by decide) m hm.1).1
    omega
  have hlocal : ¬ ExternalConf threadList 1 := by
    rintro ⟨e, he, hext⟩
    have hno : (threadList.entry 1).all (fun e => !confIsExternal e.type) = true := by decide +kernel
    rw [he, Option.all_some, hext] at hno
    cases hno
  have hconf : (1 : Int) ∈ newConfs.nums := by decide
  obtain ⟨hsub, huser⟩ := cmdJump_skips hconf userFiles_threadBase newConfs_pos hgap
    threadBase_entries rubrik
  constructor
  · have h := hsub []
    rw [if_pos hrubrik] at h
    exact h hrubrik
  · exact (huser (fun _ => some 5) (-1) 5 (by rw [jumpUser, if_pos hrubrik])).1 hlocal

end SklaffKom
