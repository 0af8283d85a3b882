import SklaffKom.Posting
import SklaffKom.ReadAll
import SklaffKom.StackText

/-!
# The reading commands

The main loop shows the prompt, which may call `next_text` and `more_conf`, and runs a command.  The
commands share the variables `Current_conf`, `Last_conf`, `Current_text` and `Last_text`.
-/

open CString

namespace SklaffKom

/-- What the commands use besides the user's conference file. -/
structure Host where
  base : TextBase
  uid : Int
  /-- `sklaff_storage_ok_for_prompt`, which checks once. -/
  storageOk : Bool
  /-- `conf_right` of the user in a conference. -/
  confRight : ConfEntry → Int
  /-- `MSG_LASTREAD` -/
  msgLastread : CString
  /-- `MSG_REPLIED` -/
  msgReplied : CString

/-- The variables that the commands share, the comment stack and the conference file. -/
structure Session where
  currentConf : Int
  lastConf : Int
  currentText : Int
  lastText : Int
  nexttext : Int
  nextconf : Int
  changePrompt : Bool
  /-- `Rookie_tip_pending` -/
  rookieTip : Bool
  stack : List Int
  confs : CString
deriving DecidableEq

/-- The form of `parse_text` for the text that `Last_text` is a comment on. -/
def parseReplied (h : Host) (s : Session) : Option (Int × Session) :=
  if s.lastText = 0 then some (0, s)
  else
    match h.base.textFile s.lastConf s.lastText with
    | none => some (0, s)
    | some file => do
      let te ← filledEntry file
      if te.th.commentConf ≠ 0 then
        match getConfStruct te.th.commentConf h.base.conffile with
        | some (some ce) =>
          if h.confRight ce = 0 then
            some (te.th.commentNum, { s with lastConf := te.th.commentConf })
          else some (0, s)
        -- the entry is used without a check for `NULL`
        | _ => none
      else if te.th.commentNum ≠ 0 ∧ s.lastConf < 1 then
        some (te.th.commentNum,
          { s with lastConf := if te.th.author ≠ h.uid then -te.th.author else 0 })
      else some (te.th.commentNum, s)

def parseText (h : Host) (args : CString) (s : Session) : Option (Int × Session) :=
  if args = [] then some (0, s)
  else if (downString args).isPrefixOf h.msgLastread then
    some (s.currentText, { s with lastConf := s.currentConf })
  else if (downString args).isPrefixOf h.msgReplied then parseReplied h s
  else some (atol (downString args), { s with lastConf := s.currentConf })

/-- `display_text` and `mark_as_read` in the current conference. -/
def readNext (h : Host) (quit : Option Nat) (textnum : Int) (s : Session) : Option Session := do
  let r ← displayText h.base quit s.currentConf s.currentConf textnum true s.confs
  let m ← markAsRead none textnum s.currentConf r.2.1
  pure { s with stack := r.2.2 ++ s.stack, confs := m.2, currentText := textnum,
                lastText := textnum }

/-- A call of `next_text`, which sets `Nexttext` unless the user has no line for the conference. -/
def callNextText (h : Host) (fuel : Nat) (s : Session) : Option (Int × Session) :=
  (nextText h.base.disk fuel s.currentConf s.confs).map fun r =>
    (r.1, { s with confs := r.2, nexttext := if r.1 = -1 then s.nexttext else r.1 })

def cmdNextText (h : Host) (fuel : Nat) (quit : Option Nat) (s : Session) : Option Session := do
  let s := { s with lastConf := s.currentConf, stack := [] }
  let r ← if s.nexttext ≠ -1 then some (s.nexttext, s) else callNextText h fuel s
  let s := { r.2 with nexttext := -1 }
  if r.1 = 0 then some s else readNext h quit r.1 s

def cmdNextComment (h : Host) (quit : Option Nat) (s : Session) : Option Session :=
  let r := popComment s.stack
  let s := { s with lastConf := s.currentConf, stack := r.2 }
  if r.1 = -1 then some s else readNext h quit r.1 s

def cmdReadText (h : Host) (args : CString) (quit : Option Nat) (s : Session) :
    Option Session := do
  let (textnum, s) ← parseText h args s
  if textnum = 0 then some s
  else
    let r ← displayText h.base quit s.currentConf s.lastConf textnum false s.confs
    some { s with confs := r.2.1, lastText := if r.1 = 0 then textnum else s.lastText }

def cmdNextConf (h : Host) (fuel : Nat) (s : Session) : Option Session := do
  let r ← if s.nextconf ≠ -1 then some (s.nextconf, s.confs)
    else moreConf h.base.disk fuel s.currentConf s.confs
  let s := { s with nextconf := -1, confs := r.2 }
  if r.1 = -1 then some s
  else
    let text ← lastText h.base.mailbox h.base.conffile r.1
    some { s with currentConf := r.1, lastConf := r.1, stack := [], currentText := text,
                  lastText := text }

def cmdJumpOver (h : Host) (fuel : Nat) (s : Session) : Option Session :=
  (jumpLoop h.base s.currentConf fuel s.lastText [] s.confs).map fun r =>
    { s with stack := r.1, confs := r.2 }

def cmdJumpTree (h : Host) (fuel : Nat) (s : Session) : Option Session :=
  if s.currentConf = 0 ∨ s.lastText = 0 then some s
  else do
    let top ← treeTop h.base s.currentConf fuel s.lastText
    (jumpLoop h.base s.currentConf fuel top [] s.confs).map fun r =>
      { s with stack := r.1, confs := r.2 }

/-- `display_prompt` up to the tip. -/
def displayPrompt (h : Host) (fuel : Nat) (s : Session) : Option Session :=
  if s.changePrompt then
    let s := { s with nextconf := -1, nexttext := -1 }
    if h.storageOk = false then some { s with changePrompt := false }
    else if s.stack ≠ [] then some s
    else do
      let r ← callNextText h fuel s
      if r.1 ≠ 0 then some r.2
      else
        let c ← moreConf h.base.disk fuel r.2.currentConf r.2.confs
        some { r.2 with confs := c.2, changePrompt := decide (c.1 ≠ -1) }
  else some s

def numUnread (conf last : Int) (buf : CString) : Option Int :=
  match confsEntry conf buf with
  | .crash => none
  | .null => some 0
  | .entry cse _ => some (cse.il.foldl (fun unread i => unread - (i.hi - i.lo + 1)) last)

/-- `display_rookie_tip`, which `display_prompt` calls once.  The texts depend on what it finds. -/
def displayRookieTip (h : Host) (fuel : Nat) (s : Session) : Option Session :=
  if s.rookieTip then do
    let last ← lastText h.base.mailbox h.base.conffile s.currentConf
    let left ← numUnread s.currentConf last s.confs
    let s := { s with rookieTip := false }
    if 0 < left then some s
    else
      let c ← moreConf h.base.disk fuel s.currentConf s.confs
      some { s with confs := c.2 }
  else some s

/-- A command of the reader, with the line after which the output of a text is stopped. -/
inductive Command where
  | nextText (quit : Option Nat)
  | nextComment (quit : Option Nat)
  | readText (args : CString) (quit : Option Nat)
  | nextConf
  | jumpOver
  | jumpTree

def runCommand (h : Host) (fuel : Nat) (s : Session) : Command → Option Session
  | .nextText quit => cmdNextText h fuel quit s
  | .nextComment quit => cmdNextComment h quit s
  | .readText args quit => cmdReadText h args quit s
  | .nextConf => cmdNextConf h fuel s
  | .jumpOver => cmdJumpOver h fuel s
  | .jumpTree => cmdJumpTree h fuel s

/-- One turn of the main loop. -/
def turn (h : Host) (fuel : Nat) (s : Session) (c : Command) : Option Session :=
  (displayPrompt h fuel s).bind fun s =>
    (displayRookieTip h fuel s).bind fun s => runCommand h fuel s c

/-! ## Marks inside the conferences -/

/-- Every number marked as read lies in `1..last_text` of its conference. -/
def MarksInside (mbox : ConfEntry) (l : ConfFile) (f : ConfsFile) : Prop :=
  ∀ c ∈ f.nums, ∀ n ∈ f.read c, 1 ≤ n ∧ n ≤ lastOf mbox l c

/-- The conference file has its marks inside the conferences, and `num_unread` counts the numbers
up to `last_text` that are not read. -/
def CountsUnread (mbox : ConfEntry) (l : ConfFile) (buf : CString) : Prop :=
  ∃ f : ConfsFile, buf = f.bytes ∧ MarksInside mbox l f ∧ ∀ c ∈ f.nums,
    numUnread c (lastOf mbox l c) buf =
      some (({n | 1 ≤ n ∧ n ≤ lastOf mbox l c ∧ n ∉ f.read c}.ncard : Nat) : Int)

/-- The files of a user: texts can be parsed, and comments have numbers of their conference. -/
structure ReaderFiles (t : TextBase) (mbox : ConfEntry) (l : ConfFile) (nums : List Int) : Prop
    extends UserFiles t mbox l nums where
  nonneg_last : ∀ c ∈ nums, 0 ≤ lastOf mbox l c
  readable : ∀ c, Readable t c
  links : ∀ c ∈ nums, 0 < c → ∀ n, ∀ m ∈ t.links c n, 1 ≤ m ∧ m ≤ lastOf mbox l c
  stackLinks : ∀ c ∈ nums, ∀ n, ∀ m ∈ t.stackLinks c n, 1 ≤ m ∧ m ≤ lastOf mbox l c

section Marks

variable {t : TextBase} {mbox : ConfEntry} {l : ConfFile} {f f' : ConfsFile} {nums : List Int}
  {conf num last : Int}

theorem foldl_sub_total (il : List IntRange) (last : Int) :
    il.foldl (fun unread i => unread - (i.hi - i.lo + 1)) last = last - IntervalList.total il := by
  induction il generalizing last with
  | nil => simp [IntervalList.total]
  | cons i il ih =>
    rw [List.foldl_cons, ih]
    simp only [IntervalList.total, List.map_cons, List.sum_cons]
    omega

/-- With the marks inside, `num_unread` counts what is not read. -/
theorem numUnread_bytes (hc : conf ∈ f.nums) (hlast : 0 ≤ last)
    (hin : ∀ n ∈ f.read conf, 1 ≤ n ∧ n ≤ last) :
    numUnread conf last f.bytes =
      some (({n | 1 ≤ n ∧ n ≤ last ∧ n ∉ f.read conf}.ncard : Nat) : Int) := by
  obtain ⟨il, hl⟩ := Option.isSome_iff_exists.mp (f.lookup_isSome.mpr hc)
  obtain ⟨as, bs, -, -, -, hfind⟩ := f.confsEntry_bytes hl
  have hset : {n | 1 ≤ n ∧ n ≤ last ∧ n ∉ f.read conf} =
      Set.Icc 1 last \ IntervalList.cover il := by
    ext n
    rw [f.read_eq_cover hl]
    exact and_assoc.symm
  rw [f.read_eq_cover hl] at hin
  simp only [numUnread, hfind, foldl_sub_total]
  rw [hset, (f.readMarks_of_lookup hl).1.ncard_sdiff hlast hin]

theorem countsUnread_iff (hlast : ∀ c ∈ f.nums, 0 ≤ lastOf mbox l c) :
    CountsUnread mbox l f.bytes ↔ MarksInside mbox l f := by
  constructor
  · rintro ⟨g, hg, hin, -⟩
    rw [ConfsFile.bytes_injective hg]
    exact hin
  · intro hin
    exact ⟨f, rfl, hin, fun c hc => numUnread_bytes hc (hlast c hc) (hin c hc)⟩

theorem MarksInside.pos (hin : MarksInside mbox l f) : ∀ c, ∀ n ∈ f.read c, 1 ≤ n := by
  intro c n hn
  by_cases hc : c ∈ f.nums
  · exact (hin c hc n hn).1
  · exact absurd hn (f.not_mem_read_of_not_mem hc n)

/-- A change of the line of one conference. -/
theorem MarksInside.sameBut (hin : MarksInside mbox l f) (hsame : SameBut conf f f')
    (hnew : conf ∈ f.nums → ∀ n ∈ f'.read conf, n ∉ f.read conf → 1 ≤ n ∧ n ≤ lastOf mbox l conf) :
    MarksInside mbox l f' := by
  intro c hc n hn
  rw [hsame.nums] at hc
  by_cases hcc : c = conf
  · subst hcc
    by_cases hold : n ∈ f.read c
    · exact hin c hc n hold
    · exact hnew hc n hn hold
  · rw [hsame.read hcc] at hn
    exact hin c hc n hn

theorem MarksInside.shown (hin : MarksInside mbox l f) (hb : ReaderFiles t mbox l f.nums)
    {ns : List Int} (h : Shown t conf (t.links conf num) f f' ns) : MarksInside mbox l f' := by
  refine hin.sameBut h.same fun hc n hn hold => ?_
  obtain ⟨hpos, hmem, -⟩ := h.missing n hn hold
  exact hb.links conf hc hpos num n hmem

theorem MarksInside.markAsRead (hin : MarksInside mbox l f) (h1 : 1 ≤ num)
    (h2 : num ≤ lastOf mbox l conf) :
    ∃ r, ∃ f' : ConfsFile, markAsRead none num conf f.bytes = some (r, f'.bytes) ∧ f'.nums = f.nums ∧
      MarksInside mbox l f' := by
  obtain ⟨r, g, hg, hsame, hread⟩ := f.markAsRead_bytes conf (show 0 ≤ num by omega)
  refine ⟨r, g, hg, hsame.nums, hin.sameBut hsame fun _ n hn hold => ?_⟩
  rcases (hread n).mp hn with hn | ⟨rfl, -⟩
  · exact absurd hn hold
  · exact ⟨h1, h2⟩

/-- A jump leaves the marks inside exactly when its first text is. -/
theorem marksInside_jump (hin : MarksInside mbox l f) (hc : conf ∈ f.nums)
    (h0 : 0 ≤ lastOf mbox l conf) (h : Jumped conf num (lastOf mbox l conf) f f') :
    MarksInside mbox l f' ↔ num ≤ lastOf mbox l conf := by
  constructor
  · intro hin'
    by_cases hpos : 0 < num
    · exact (hin' conf (h.same.nums ▸ hc) num (h.marked hpos hc)).2
    · omega
  · intro hle
    refine hin.sameBut h.same fun _ n hn hold => ?_
    obtain ⟨h1, h2⟩ := (h.new n hn).resolve_left hold
    exact ⟨h1, by omega⟩

end Marks

/-! ## The commands -/

/-- The variables between two turns: the comment stack holds numbers of the current conference, and
`Nexttext` and `Nextconf` are not used unless the next prompt sets them. -/
structure Quiet (mbox : ConfEntry) (l : ConfFile) (nums : List Int) (s : Session) : Prop where
  current : s.currentConf ∈ nums
  stacked : ∀ m ∈ s.stack, 1 ≤ m ∧ m ≤ lastOf mbox l s.currentConf
  quiet : s.changePrompt = false → s.nextconf = -1 ∧ (s.nexttext = -1 ∨ s.nexttext = 0)

/-- The variables after the prompt: `Nexttext` is a number of the current conference. -/
structure Prompted (mbox : ConfEntry) (l : ConfFile) (nums : List Int) (s : Session) : Prop
    extends Quiet mbox l nums s where
  nextconf : s.nextconf = -1
  nexttext : s.nexttext = -1 ∨ s.nexttext = 0 ∨
    1 ≤ s.nexttext ∧ s.nexttext ≤ lastOf mbox l s.currentConf

/-- The conference file with its marks inside. -/
def HasMarks (mbox : ConfEntry) (l : ConfFile) (nums : List Int) (s : Session) : Prop :=
  ∃ f : ConfsFile, s.confs = f.bytes ∧ f.nums = nums ∧ MarksInside mbox l f

/-- A scan by `more_conf` from the conference `cur` marks nothing above a `last_text`: there is
unread mail, or the scan is bounded. -/
def ScanInside (t : TextBase) (mbox : ConfEntry) (l : ConfFile) (f : ConfsFile) (cur : Int) : Prop :=
  MailUnread f mbox.lastText ∨ Bounded t.disk l f (scanEstimate t.disk l f cur) (scanOrder f cur)

/-- Before the prompt: if it comes to `more_conf`, the scan stays inside. -/
def SafePrompt (h : Host) (mbox : ConfEntry) (l : ConfFile) (s : Session) : Prop :=
  ∀ f : ConfsFile, s.confs = f.bytes → s.changePrompt = true → h.storageOk = true → s.stack = [] →
    ¬ TextLeft h.base mbox l f s.currentConf → ScanInside h.base mbox l f s.currentConf

/-- Before the tip: if all of the conference is read, the scan stays inside. -/
def SafeTip (h : Host) (mbox : ConfEntry) (l : ConfFile) (s : Session) : Prop :=
  ∀ f : ConfsFile, s.confs = f.bytes → s.rookieTip = true →
    (∀ n, 1 ≤ n → n ≤ lastOf mbox l s.currentConf → n ∈ f.read s.currentConf) →
      ScanInside h.base mbox l f s.currentConf

/-- Before a command: a jump begins at a number of the current conference, and a scan for the next
conference stays inside. -/
def SafeCommand (h : Host) (mbox : ConfEntry) (l : ConfFile) (s : Session) : Command → Prop
  | .nextConf => ∀ f : ConfsFile, s.confs = f.bytes → ScanInside h.base mbox l f s.currentConf
  | .jumpOver => s.lastText ≤ lastOf mbox l s.currentConf
  | .jumpTree => s.currentConf ≠ 0 → s.lastText ≤ lastOf mbox l s.currentConf
  | _ => True

section Commands

variable {h : Host} {mbox : ConfEntry} {l : ConfFile} {f : ConfsFile} {s s' : Session} {fuel : Nat}

/-- A text of the current conference is shown and marked. -/
theorem readNext_spec (hb : ReaderFiles h.base mbox l f.nums) (hin : MarksInside mbox l f)
    (hconfs : s.confs = f.bytes) (hq : Quiet mbox l f.nums s) (quit : Option Nat) {num : Int}
    (h1 : 1 ≤ num) (h2 : num ≤ lastOf mbox l s.currentConf) (hrun : readNext h quit num s = some s') :
    HasMarks mbox l f.nums s' ∧ Quiet mbox l f.nums s' := by
  have hcur := hb.nonneg hq.current
  obtain ⟨r, f₁, ns, hshow, hshown, hns⟩ := displayText_bytes (f := f) (hb.readable s.currentConf)
    quit s.currentConf num true (Or.inl ⟨rfl, hcur⟩)
  have hin₁ := hin.shown hb hshown
  obtain ⟨m, f₂, hmark, hnums, hin₂⟩ := hin₁.markAsRead h1 h2
  unfold readNext at hrun
  rw [hconfs, hshow] at hrun
  simp only [Option.bind_eq_bind, Option.bind_some, hmark, Option.pure_def,
    Option.some.injEq] at hrun
  subst hrun
  refine ⟨⟨f₂, rfl, hnums.trans hshown.same.nums, hin₂⟩, hq.current, ?_, hq.quiet⟩
  intro k hk
  rcases List.mem_append.mp hk with hk | hk
  · exact hb.links _ hq.current (hns k hk).1 num k (hshown.sublist.subset hk)
  · exact hq.stacked k hk

theorem callNextText_spec (hb : ReaderFiles h.base mbox l f.nums) (hin : MarksInside mbox l f)
    (hconfs : s.confs = f.bytes) (hc : s.currentConf ∈ f.nums)
    (hfuel : ∀ e ∈ l.entries, e.lastText.toNat < fuel) :
    ∃ r, ∃ f₁ : ConfsFile, callNextText h fuel s =
        some (r.getD 0, { s with confs := f₁.bytes, nexttext := r.getD 0 }) ∧
      NextScan h.base mbox l s.currentConf f f₁ r ∧ MarksInside mbox l f₁ := by
  obtain ⟨r, f₁, hnext, hscan⟩ := nextText_scan hb.toUserFiles hc (hin.pos _) hfuel
  refine ⟨r, f₁, ?_, hscan, ?_⟩
  · have hne : r.getD 0 ≠ -1 := by
      cases r with
      | none => decide
      | some m =>
        have := (hscan.found m rfl).1
        rw [Option.getD_some]
        omega
    simp only [callNextText, hconfs, hnext, Option.map_some, if_neg hne]
  · refine hin.sameBut hscan.same fun hcf n hn _ => ⟨hscan.pos n hn, ?_⟩
    exact hscan.below (fun m hm => (hin _ hcf m hm).2) n hn

theorem cmdNextText_spec (hb : ReaderFiles h.base mbox l f.nums) (hin : MarksInside mbox l f)
    (hconfs : s.confs = f.bytes) (hp : Prompted mbox l f.nums s)
    (hfuel : ∀ e ∈ l.entries, e.lastText.toNat < fuel) (quit : Option Nat)
    (hrun : cmdNextText h fuel quit s = some s') :
    HasMarks mbox l f.nums s' ∧ Quiet mbox l f.nums s' := by
  unfold cmdNextText at hrun
  dsimp only at hrun
  by_cases hnext : s.nexttext = -1
  · rw [if_neg (not_not.mpr hnext)] at hrun
    obtain ⟨r, f₁, hcall, hscan, hin₁⟩ := callNextText_spec
      (s := { s with lastConf := s.currentConf, stack := [] }) hb hin hconfs hp.current hfuel
    rw [hcall] at hrun
    simp only [Option.bind_eq_bind, Option.bind_some] at hrun
    have hnums := hscan.same.nums
    cases r with
    | none =>
      rw [Option.getD_none, if_pos rfl] at hrun
      cases hrun
      exact ⟨⟨f₁, rfl, hnums, hin₁⟩, hp.current, by simp,
        fun hc => ⟨(hp.quiet hc).1, Or.inl rfl⟩⟩
    | some m =>
      obtain ⟨h1, h2, -⟩ := hscan.found m rfl
      rw [Option.getD_some, if_neg (by omega)] at hrun
      set s₁ : Session :=
        { s with lastConf := s.currentConf, stack := [], confs := f₁.bytes, nexttext := -1 }
      have hq : Quiet mbox l f₁.nums s₁ :=
        ⟨hnums ▸ hp.current, by simp [s₁], fun hc => ⟨(hp.quiet hc).1, Or.inl rfl⟩⟩
      rw [← hnums]
      exact readNext_spec (s := s₁) (hnums ▸ hb) hin₁ rfl hq quit h1 h2 hrun
  · rw [if_pos hnext] at hrun
    simp only [Option.bind_eq_bind, Option.bind_some] at hrun
    set s₁ : Session := { s with lastConf := s.currentConf, stack := [], nexttext := -1 }
    have hq : Quiet mbox l f.nums s₁ :=
      ⟨hp.current, by simp [s₁], fun hc => ⟨(hp.quiet hc).1, Or.inl rfl⟩⟩
    by_cases h0 : s.nexttext = 0
    · rw [if_pos h0] at hrun
      rw [← Option.some.inj hrun]
      exact ⟨⟨f, hconfs, rfl, hin⟩, hq⟩
    · rw [if_neg h0] at hrun
      obtain ⟨h1, h2⟩ := (hp.nexttext.resolve_left hnext).resolve_left h0
      exact readNext_spec (s := s₁) hb hin hconfs hq quit h1 h2 hrun

theorem cmdNextComment_spec (hb : ReaderFiles h.base mbox l f.nums) (hin : MarksInside mbox l f)
    (hconfs : s.confs = f.bytes) (hq : Quiet mbox l f.nums s) (quit : Option Nat)
    (hrun : cmdNextComment h quit s = some s') :
    HasMarks mbox l f.nums s' ∧ Quiet mbox l f.nums s' := by
  unfold cmdNextComment at hrun
  cases hs : s.stack with
  | nil =>
    rw [hs] at hrun
    simp only [popComment, if_true, Option.some.injEq] at hrun
    subst hrun
    exact ⟨⟨f, hconfs, rfl, hin⟩, hq.current, by simp, hq.quiet⟩
  | cons num stack =>
    obtain ⟨h1, h2⟩ := hq.stacked num (by rw [hs]; exact List.mem_cons_self)
    have hne : num ≠ -1 := by omega
    have hpop : (popComment (num :: stack)).1 ≠ -1 := hne
    rw [hs, if_neg hpop] at hrun
    refine readNext_spec (s := { s with lastConf := s.currentConf, stack := stack }) hb hin hconfs ?_
      quit h1 h2 hrun
    exact ⟨hq.current, fun m hm => hq.stacked m (by rw [hs]; exact List.mem_cons_of_mem _ hm),
      hq.quiet⟩

/-- `parse_text` sets nothing but `Last_conf`. -/
theorem parseText_eq {args : CString} {r : Int × Session} (hrun : parseText h args s = some r) :
    r.2 = { s with lastConf := r.2.lastConf } := by
  unfold parseText at hrun
  split at hrun
  · cases hrun
    rfl
  split at hrun
  · cases hrun
    rfl
  split at hrun
  · unfold parseReplied at hrun
    split at hrun
    · cases hrun
      rfl
    split at hrun
    · cases hrun
      rfl
    · obtain ⟨te, -, hrun⟩ := Option.bind_eq_some_iff.mp hrun
      split at hrun
      · split at hrun
        · split at hrun
          · cases hrun
            rfl
          · cases hrun
            rfl
        · cases hrun
      · split at hrun
        · cases hrun
          rfl
        · cases hrun
          rfl
  · cases hrun
    rfl

/-- `cmd_read_text` marks comments of the conference `Last_conf` only. -/
theorem cmdReadText_spec (hb : ReaderFiles h.base mbox l f.nums) (hin : MarksInside mbox l f)
    (hconfs : s.confs = f.bytes) (hq : Quiet mbox l f.nums s) (args : CString) (quit : Option Nat)
    (hrun : cmdReadText h args quit s = some s') :
    HasMarks mbox l f.nums s' ∧ Quiet mbox l f.nums s' := by
  unfold cmdReadText at hrun
  obtain ⟨⟨num, s₁⟩, hparse, hrun⟩ := Option.bind_eq_some_iff.mp hrun
  have hs₁ : s₁ = { s with lastConf := s₁.lastConf } := parseText_eq hparse
  have hq₁ : Quiet mbox l f.nums s₁ := by
    rw [hs₁]
    exact ⟨hq.current, hq.stacked, hq.quiet⟩
  have hconfs₁ : s₁.confs = f.bytes := by
    rw [hs₁]
    exact hconfs
  dsimp only at hrun
  by_cases h0 : num = 0
  · rw [if_pos h0] at hrun
    cases hrun
    exact ⟨⟨f, hconfs₁, rfl, hin⟩, hq₁⟩
  · rw [if_neg h0] at hrun
    obtain ⟨r, f₁, ns, hshow, hshown, -⟩ := displayText_bytes (f := f) (hb.readable s₁.lastConf) quit
      s₁.currentConf num false (Or.inr rfl)
    rw [hconfs₁, hshow] at hrun
    simp only [Option.bind_eq_bind, Option.bind_some, Option.some.injEq] at hrun
    subst hrun
    exact ⟨⟨f₁, rfl, hshown.same.nums, hin.shown hb hshown⟩, hq₁.current, hq₁.stacked, hq₁.quiet⟩

theorem moreConf_inside (hb : ReaderFiles h.base mbox l f.nums) (hin : MarksInside mbox l f)
    (hfuel : ∀ e ∈ l.entries, e.lastText.toNat < fuel) (cur : Int) :
    ∃ r, ∃ f₁ : ConfsFile, moreConf h.base.disk fuel cur f.bytes = some (r.getD (-1), f₁.bytes) ∧
      f₁.nums = f.nums ∧ (MarksInside mbox l f₁ ↔ ScanInside h.base mbox l f cur) ∧
      ∀ c, r = some c → c ∈ f.nums := by
  obtain ⟨r, f₁, hrun, hscan⟩ := moreConf_scan hb.toUserFiles hin.pos hfuel cur
  refine ⟨r, f₁, hrun, hscan.nums, ?_, fun c hc => (hscan.found c hc).1⟩
  rw [ScanInside, ← hscan.below fun c hc n hn => (hin c hc n hn).2, MarksInside, hscan.nums]
  exact ⟨fun hall c hc n hn => (hall c hc n hn).2,
    fun hall c hc n hn => ⟨hscan.pos c n hn, hall c hc n hn⟩⟩

/-- What holds of every file with these bytes holds of the one there is. -/
theorem forall_bytes_iff {b : CString} (hb : b = f.bytes) {P : ConfsFile → Prop} :
    (∀ g : ConfsFile, b = g.bytes → P g) ↔ P f := by
  refine ⟨fun hall => hall f hb, fun hone g hg => ?_⟩
  rw [ConfsFile.bytes_injective (hg.symm.trans hb)]
  exact hone

/-- What a step leaves: the marks are inside exactly when `Q` holds, and the variables are as `V`
says. -/
def Leaves (mbox : ConfEntry) (l : ConfFile) (nums : List Int) (Q : Prop) (V : Session → Prop)
    (s : Session) : Prop :=
  ∃ f : ConfsFile, s.confs = f.bytes ∧ f.nums = nums ∧ (MarksInside mbox l f ↔ Q) ∧ V s

theorem leaves_of_hasMarks {nums : List Int} {V : Session → Prop} (hm : HasMarks mbox l nums s)
    (hV : V s) : Leaves mbox l nums True V s := by
  obtain ⟨f, hconfs, hnums, hin⟩ := hm
  exact ⟨f, hconfs, hnums, iff_of_true hin trivial, hV⟩

theorem cmdNextConf_spec (hb : ReaderFiles h.base mbox l f.nums) (hin : MarksInside mbox l f)
    (hconfs : s.confs = f.bytes) (hp : Prompted mbox l f.nums s)
    (hfuel : ∀ e ∈ l.entries, e.lastText.toNat < fuel) (hrun : cmdNextConf h fuel s = some s') :
    Leaves mbox l f.nums (ScanInside h.base mbox l f s.currentConf) (Quiet mbox l f.nums) s' := by
  obtain ⟨r, f₁, hmore, hnums, hiff, hfound⟩ := moreConf_inside hb hin hfuel s.currentConf
  unfold cmdNextConf at hrun
  rw [if_neg (not_not.mpr hp.nextconf), hconfs, hmore] at hrun
  simp only [Option.bind_eq_bind, Option.bind_some] at hrun
  cases r with
  | none =>
    rw [Option.getD_none, if_pos rfl] at hrun
    cases hrun
    exact ⟨f₁, rfl, hnums, hiff, hp.current, hp.stacked, fun hc => ⟨rfl, (hp.quiet hc).2⟩⟩
  | some c =>
    have hc := hfound c rfl
    have hne : c ≠ -1 := by
      have := hb.nonneg hc
      omega
    rw [Option.getD_some, if_neg hne] at hrun
    obtain ⟨text, -, hrun⟩ := Option.bind_eq_some_iff.mp hrun
    cases hrun
    exact ⟨f₁, rfl, hnums, hiff, hc, by simp, fun hc => ⟨rfl, (hp.quiet hc).2⟩⟩

/-- Both jump commands: the loop starts at `num`. -/
theorem jump_spec (hb : ReaderFiles h.base mbox l f.nums) (hin : MarksInside mbox l f)
    (hconfs : s.confs = f.bytes) (hq : Quiet mbox l f.nums s) {num : Int}
    {r : List Int × CString} (hrun : jumpLoop h.base s.currentConf fuel num [] s.confs = some r) :
    Leaves mbox l f.nums (num ≤ lastOf mbox l s.currentConf) (Quiet mbox l f.nums)
      { s with stack := r.1, confs := r.2 } := by
  rw [hconfs] at hrun
  obtain ⟨f', hf', hj, hstack⟩ := jumpLoop_bytes (hb.stackLinks _ hq.current) fuel (by simp) hrun
  refine ⟨f', hf', hj.same.nums, ?_, hq.current, hstack, hq.quiet⟩
  exact marksInside_jump hin hq.current (hb.nonneg_last _ hq.current) hj

theorem cmdJumpTree_spec (hb : ReaderFiles h.base mbox l f.nums) (hin : MarksInside mbox l f)
    (hconfs : s.confs = f.bytes) (hq : Quiet mbox l f.nums s)
    (hrun : cmdJumpTree h fuel s = some s') :
    Leaves mbox l f.nums (s.currentConf ≠ 0 → s.lastText ≤ lastOf mbox l s.currentConf)
      (Quiet mbox l f.nums) s' := by
  unfold cmdJumpTree at hrun
  by_cases h0 : s.currentConf = 0 ∨ s.lastText = 0
  · rw [if_pos h0] at hrun
    cases hrun
    refine ⟨f, hconfs, rfl, iff_of_true hin fun hne => ?_, hq⟩
    rw [h0.resolve_left hne]
    exact hb.nonneg_last _ hq.current
  · rw [if_neg h0] at hrun
    rw [not_or] at h0
    obtain ⟨top, htop, hrun⟩ := Option.bind_eq_some_iff.mp hrun
    obtain ⟨r, hr, rfl⟩ := Option.map_eq_some_iff.mp hrun
    have hfiles : ∀ n, (h.base.dbFile s.currentConf n).isSome → n ≤ lastOf mbox l s.currentConf := by
      intro n hn
      unfold TextBase.dbFile at hn
      split at hn
      · exact (hb.files _ hq.current n hn).2
      · cases hn
    obtain ⟨f', hf', hnums, hiff, hV⟩ := jump_spec hb hin hconfs hq hr
    refine ⟨f', hf', hnums, ?_, hV⟩
    rw [hiff, treeTop_le_iff hfiles h0.2 htop]
    exact ⟨fun hle _ => hle, fun hle => hle h0.1⟩

theorem runCommand_spec (hb : ReaderFiles h.base mbox l f.nums) (hin : MarksInside mbox l f)
    (hconfs : s.confs = f.bytes) (hp : Prompted mbox l f.nums s)
    (hfuel : ∀ e ∈ l.entries, e.lastText.toNat < fuel) (c : Command)
    (hrun : runCommand h fuel s c = some s') :
    Leaves mbox l f.nums (SafeCommand h mbox l s c) (Quiet mbox l f.nums) s' := by
  have hq := hp.toQuiet
  cases c with
  | nextText quit =>
    obtain ⟨hm, hq'⟩ := cmdNextText_spec hb hin hconfs hp hfuel quit hrun
    exact leaves_of_hasMarks hm hq'
  | nextComment quit =>
    obtain ⟨hm, hq'⟩ := cmdNextComment_spec hb hin hconfs hq quit hrun
    exact leaves_of_hasMarks hm hq'
  | readText args quit =>
    obtain ⟨hm, hq'⟩ := cmdReadText_spec hb hin hconfs hq args quit hrun
    exact leaves_of_hasMarks hm hq'
  | nextConf =>
    obtain ⟨f', hf', hnums, hiff, hq'⟩ := cmdNextConf_spec hb hin hconfs hp hfuel hrun
    have hsafe : SafeCommand h mbox l s .nextConf ↔ ScanInside h.base mbox l f s.currentConf :=
      forall_bytes_iff hconfs
    exact ⟨f', hf', hnums, hiff.trans hsafe.symm, hq'⟩
  | jumpOver =>
    obtain ⟨r, hr, rfl⟩ := Option.map_eq_some_iff.mp hrun
    exact jump_spec hb hin hconfs hq hr
  | jumpTree => exact cmdJumpTree_spec hb hin hconfs hq hrun

/-- The prompt looks for a text and, without one, for a conference. -/
theorem displayPrompt_spec (hb : ReaderFiles h.base mbox l f.nums) (hin : MarksInside mbox l f)
    (hconfs : s.confs = f.bytes) (hq : Quiet mbox l f.nums s)
    (hfuel : ∀ e ∈ l.entries, e.lastText.toNat < fuel) (hrun : displayPrompt h fuel s = some s') :
    Leaves mbox l f.nums (SafePrompt h mbox l s) (Prompted mbox l f.nums) s' := by
  -- the prompt does not come to `more_conf`
  have hkeep : ∀ {P : Prop}, P → (MarksInside mbox l f ↔ P) := fun hP => iff_of_true hin hP
  unfold displayPrompt at hrun
  by_cases hch : s.changePrompt = true
  swap
  · rw [if_neg hch] at hrun
    cases hrun
    obtain ⟨h1, h2⟩ := hq.quiet (by simpa using hch)
    exact ⟨f, hconfs, rfl, hkeep fun _ _ hc => absurd hc hch, hq, h1, h2.imp id Or.inl⟩
  rw [if_pos hch] at hrun
  dsimp only at hrun
  by_cases hok : h.storageOk = false
  · rw [if_pos hok] at hrun
    cases hrun
    refine ⟨f, hconfs, rfl, hkeep fun _ _ _ hs => ?_, ⟨hq.current, hq.stacked, ?_⟩, rfl, Or.inl rfl⟩
    · rw [hok] at hs
      cases hs
    · exact fun _ => ⟨rfl, Or.inl rfl⟩
  rw [if_neg hok] at hrun
  by_cases hs : s.stack = []
  swap
  · rw [if_pos hs] at hrun
    cases hrun
    exact ⟨f, hconfs, rfl, hkeep fun _ _ _ _ he => absurd he hs,
      ⟨hq.current, hq.stacked, fun _ => ⟨rfl, Or.inl rfl⟩⟩, rfl, Or.inl rfl⟩
  rw [if_neg (not_not.mpr hs)] at hrun
  obtain ⟨r, f₁, hcall, hscan, hin₁⟩ := callNextText_spec
    (s := { s with nextconf := -1, nexttext := -1 }) hb hin hconfs hq.current hfuel
  have hsafe : SafePrompt h mbox l s ↔
      (¬ TextLeft h.base mbox l f s.currentConf → ScanInside h.base mbox l f s.currentConf) := by
    refine (forall_bytes_iff hconfs).trans ⟨fun hall => hall hch ?_ hs, fun hone _ _ _ => hone⟩
    simpa using hok
  rw [hcall] at hrun
  simp only [Option.bind_eq_bind, Option.bind_some] at hrun
  cases r with
  | some m =>
    obtain ⟨h1, h2, -⟩ := hscan.found m rfl
    have hleft := hscan.left.mp rfl
    rw [Option.getD_some, if_pos (by omega)] at hrun
    cases hrun
    refine ⟨f₁, rfl, hscan.same.nums, iff_of_true hin₁ (hsafe.mpr fun hno => absurd hleft hno),
      ⟨hq.current, hq.stacked, fun hc => ?_⟩, rfl, Or.inr (Or.inr ⟨h1, h2⟩)⟩
    rw [show s.changePrompt = false from hc] at hch
    cases hch
  | none =>
    have hleft : ¬ TextLeft h.base mbox l f s.currentConf := by
      rw [← hscan.left]
      simp
    have hnums := hscan.same.nums
    obtain ⟨r, f₂, hmore, hnums₂, hiff, -⟩ :=
      moreConf_inside (hnums ▸ hb) hin₁ hfuel s.currentConf
    rw [Option.getD_none, if_neg (not_not.mpr rfl), hmore] at hrun
    cases hrun
    refine ⟨f₂, rfl, hnums₂.trans hnums, ?_, ⟨hq.current, hq.stacked, ?_⟩, rfl, Or.inr (Or.inl rfl)⟩
    · obtain ⟨hmail, horder, hest, hlookup⟩ :=
        scan_congr hb.toUserFiles hscan.same hscan.mailbox
      rw [hiff, hsafe, ScanInside, ScanInside, hmail, horder, hest, bounded_congr hlookup]
      exact ⟨fun hb _ => hb, fun hb => hb hleft⟩
    · exact fun _ => ⟨rfl, Or.inr rfl⟩

theorem unread_ncard_pos_iff {conf last : Int} :
    0 < (({n | 1 ≤ n ∧ n ≤ last ∧ n ∉ f.read conf}.ncard : Nat) : Int) ↔
      ¬ ∀ n, 1 ≤ n → n ≤ last → n ∈ f.read conf := by
  have hfin : {n | 1 ≤ n ∧ n ≤ last ∧ n ∉ f.read conf}.Finite :=
    (Set.finite_Icc 1 last).subset fun n hn => ⟨hn.1, hn.2.1⟩
  rw [Int.natCast_pos, Set.ncard_pos hfin]
  constructor
  · rintro ⟨n, h1, h2, hn⟩ hall
    exact hn (hall n h1 h2)
  · intro hall
    push Not at hall
    exact hall

/-- The tip looks for another conference when nothing is unread in this one. -/
theorem displayRookieTip_spec (hb : ReaderFiles h.base mbox l f.nums) (hin : MarksInside mbox l f)
    (hconfs : s.confs = f.bytes) (hp : Prompted mbox l f.nums s)
    (hfuel : ∀ e ∈ l.entries, e.lastText.toNat < fuel)
    (hrun : displayRookieTip h fuel s = some s') :
    Leaves mbox l f.nums (SafeTip h mbox l s) (Prompted mbox l f.nums) s' := by
  have hsafe : SafeTip h mbox l s ↔ (s.rookieTip = true →
      (∀ n, 1 ≤ n → n ≤ lastOf mbox l s.currentConf → n ∈ f.read s.currentConf) →
        ScanInside h.base mbox l f s.currentConf) := forall_bytes_iff hconfs
  rw [hsafe]
  unfold displayRookieTip at hrun
  by_cases htip : s.rookieTip = true
  swap
  · rw [if_neg htip] at hrun
    cases hrun
    exact ⟨f, hconfs, rfl, iff_of_true hin fun ht => absurd ht htip, hp⟩
  have hlast : lastText h.base.mailbox h.base.conffile s.currentConf =
      some (lastOf mbox l s.currentConf) := hb.lastText_eq _
  have hnum := numUnread_bytes hp.current (hb.nonneg_last _ hp.current) (hin _ hp.current)
  rw [if_pos htip] at hrun
  simp only [Option.bind_eq_bind, Option.bind_some, hlast, hconfs, hnum] at hrun
  by_cases hleft : ∀ n, 1 ≤ n → n ≤ lastOf mbox l s.currentConf → n ∈ f.read s.currentConf
  · obtain ⟨r, f₁, hmore, hnums, hiff, -⟩ := moreConf_inside hb hin hfuel s.currentConf
    rw [if_neg fun hpos => unread_ncard_pos_iff.mp hpos hleft, hmore] at hrun
    cases hrun
    refine ⟨f₁, rfl, hnums, hiff.trans ⟨fun hscan _ _ => hscan, fun hall => hall htip hleft⟩, ?_⟩
    exact ⟨⟨hp.current, hp.stacked, hp.quiet⟩, hp.nextconf, hp.nexttext⟩
  · rw [if_pos (unread_ncard_pos_iff.mpr hleft)] at hrun
    cases hrun
    refine ⟨f, rfl, rfl, iff_of_true hin fun _ hall => absurd hall hleft, ?_⟩
    exact ⟨⟨hp.current, hp.stacked, hp.quiet⟩, hp.nextconf, hp.nexttext⟩

/-! ## Runs -/

/-- In a turn of the main loop the prompt is safe, and after it the tip and then the command. -/
def SafeReading (h : Host) (mbox : ConfEntry) (l : ConfFile) (fuel : Nat) (s : Session)
    (c : Command) : Prop :=
  SafePrompt h mbox l s ∧ ∀ s₁, displayPrompt h fuel s = some s₁ →
    SafeTip h mbox l s₁ ∧ ∀ s₂, displayRookieTip h fuel s₁ = some s₂ → SafeCommand h mbox l s₂ c

/-- After the prompt, after the tip and after the command the marks are inside and `num_unread`
counts the unread numbers. -/
def CountsInTurn (h : Host) (mbox : ConfEntry) (l : ConfFile) (fuel : Nat) (s s' : Session) : Prop :=
  (∀ s₁, displayPrompt h fuel s = some s₁ → CountsUnread mbox l s₁.confs ∧
    ∀ s₂, displayRookieTip h fuel s₁ = some s₂ → CountsUnread mbox l s₂.confs) ∧
    CountsUnread mbox l s'.confs

theorem turn_spec (hb : ReaderFiles h.base mbox l f.nums) (hin : MarksInside mbox l f)
    (hconfs : s.confs = f.bytes) (hq : Quiet mbox l f.nums s)
    (hfuel : ∀ e ∈ l.entries, e.lastText.toNat < fuel) {c : Command}
    (hrun : turn h fuel s c = some s') :
    (CountsInTurn h mbox l fuel s s' ↔ SafeReading h mbox l fuel s c) ∧
      (SafeReading h mbox l fuel s c → HasMarks mbox l f.nums s' ∧ Quiet mbox l f.nums s') := by
  obtain ⟨s₁, hprompt, hrun⟩ := Option.bind_eq_some_iff.mp hrun
  obtain ⟨s₂, htip, hcmd⟩ := Option.bind_eq_some_iff.mp hrun
  have hlast : ∀ {g : ConfsFile}, g.nums = f.nums → ∀ c ∈ g.nums, 0 ≤ lastOf mbox l c :=
    fun hg c hc => hb.nonneg_last c (hg ▸ hc)
  have hone : ∀ {o : Option Session} {s₀ : Session} {P : Session → Prop}, o = some s₀ →
      ((∀ s₁, o = some s₁ → P s₁) ↔ P s₀) := by
    intro o s₀ P ho
    rw [ho]
    simp
  unfold CountsInTurn SafeReading
  rw [hone hprompt, hone hprompt, hone htip, hone htip]
  obtain ⟨f₁, hf₁, hnums₁, hiff₁, hp₁⟩ := displayPrompt_spec hb hin hconfs hq hfuel hprompt
  rw [hf₁, countsUnread_iff (hlast hnums₁), hiff₁]
  by_cases hsafe₁ : SafePrompt h mbox l s
  swap
  · exact ⟨iff_of_false (fun hc => hsafe₁ hc.1.1) fun hc => hsafe₁ hc.1,
      fun hc => absurd hc.1 hsafe₁⟩
  obtain ⟨f₂, hf₂, hnums₂, hiff₂, hp₂⟩ := displayRookieTip_spec (hnums₁ ▸ hb)
    (hiff₁.mpr hsafe₁) hf₁ (hnums₁ ▸ hp₁) hfuel htip
  have hnums₂' := hnums₂.trans hnums₁
  rw [hf₂, countsUnread_iff (hlast hnums₂'), hiff₂]
  by_cases hsafe₂ : SafeTip h mbox l s₁
  swap
  · exact ⟨iff_of_false (fun hc => hsafe₂ hc.1.2) fun hc => hsafe₂ hc.2.1,
      fun hc => absurd hc.2.1 hsafe₂⟩
  obtain ⟨f₃, hf₃, hnums₃, hiff₃, hq'⟩ := runCommand_spec (hnums₂' ▸ hb)
    (hiff₂.mpr hsafe₂) hf₂ (hnums₂ ▸ hp₂) hfuel c hcmd
  have hnums := hnums₃.trans hnums₂'
  rw [hf₃, countsUnread_iff (hlast hnums), hiff₃]
  refine ⟨⟨fun hc => ⟨hc.1.1, hc.1.2, hc.2⟩, fun hc => ⟨⟨hc.1, hc.2.1⟩, hc.2.2⟩⟩, fun hc => ?_⟩
  exact ⟨⟨f₃, hf₃, hnums, hiff₃.mpr hc.2.2⟩, hnums₂' ▸ hq'⟩

/-- From the start of the main loop, along a run of the reading commands, the read marks stay inside
the conferences and `num_unread` counts the unread numbers, exactly when no jump begins at a number
above `last_text` of the current conference, and no scan by `more_conf` takes an estimate more than
one above `last_text` into a conference where it jumps. -/
theorem reading_counts_unread_iff (hb : ReaderFiles h.base mbox l f.nums)
    (hin : MarksInside mbox l f) (hfuel : ∀ e ∈ l.entries, e.lastText.toNat < fuel)
    (hconfs : s.confs = f.bytes) (hcur : s.currentConf ∈ f.nums) (hstack : s.stack = [])
    (hprompt : s.changePrompt = true) (cs : List Command) :
    Runs.AllSteps (turn h fuel) (fun s _ s' => CountsInTurn h mbox l fuel s s') s cs ↔
      Runs.AllSteps (turn h fuel) (fun s c _ => SafeReading h mbox l fuel s c) s cs := by
  refine Runs.allSteps_iff (I := fun s => HasMarks mbox l f.nums s ∧ Quiet mbox l f.nums s)
    ?_ ?_ cs
  · rintro s c s' ⟨⟨g, hg, hnums, hin⟩, hq⟩ hrun
    have hspec := turn_spec (hnums ▸ hb) hin hg (hnums ▸ hq) hfuel hrun
    rw [hnums] at hspec
    exact hspec
  · refine ⟨⟨f, hconfs, rfl, hin⟩, hcur, ?_, fun hc => ?_⟩
    · rw [hstack]
      simp
    · rw [hprompt] at hc
      cases hc

end Commands

/-- A conference with one text, which is a comment on text 5 of another conference. -/
def replyBase : TextBase where
  mailbox := stringifyConfStruct emptyMailbox
  conffile := confBytes [⟨1, 1, 2, 0, 1, 0, 0, "Here".toList⟩, ⟨2, 5, 2, 0, 1, 0, 0, "There".toList⟩]
  textFile conf n :=
    if conf = 1 ∧ n = 1 then
      some (textBytes 1 { sampleHeader with commentNum := 5, commentConf := 2, commentAuthor := 5 }
        (unlines ["Hello".toList]))
    else if conf = 2 ∧ n = 5 then some (sampleFile 5 [])
    else none
  blocked _ := false

def replyHost : Host where
  base := replyBase
  uid := 7
  storageOk := true
  confRight _ := 0
  msgLastread := "last".toList
  msgReplied := "followed-up".toList

/-- A user of both conferences who has read the second one. -/
def replyConfs : ConfsFile where
  entries := [⟨0, []⟩, ⟨1, []⟩, ⟨2, [⟨1, 5⟩]⟩]
  marks := by decide
  distinct := by decide

/-- The session after the login, in the first conference. -/
def replyStart : Session where
  currentConf := 1
  lastConf := 1
  currentText := 1
  lastText := 1
  nexttext := 1
  nextconf := 0
  changePrompt := true
  rookieTip := true
  stack := []
  confs := replyConfs.bytes

/-- Reading the text, then the one it is a comment on, then jumping over. -/
def replyRun : List Command :=
  [.nextText none, .readText "followed".toList none, .jumpOver]

def replyList : ConfFile where
  entries := [⟨1, 1, 2, 0, 1, 0, 0, "Here".toList⟩, ⟨2, 5, 2, 0, 1, 0, 0, "There".toList⟩]
  oneLine := by decide
  numbered := by decide
  positive := by decide

theorem replyBase_texts {conf n : Int} {file : CString}
    (h : replyBase.textFile conf n = some file) :
    (conf = 1 ∧ n = 1 ∨ conf = 2 ∧ n = 5) ∧
      (displayEntry file ≠ .crash ∧ TextBase.localLinks file = true ∧
        (filledEntry file).map (·.cl) = some []) ∧
      replyBase.links conf n = [] := by
  simp only [replyBase] at h
  split at h
  · next hc =>
    obtain ⟨rfl, rfl⟩ := hc
    rw [← Option.some.inj h]
    exact ⟨Or.inl ⟨rfl, rfl⟩, by decide +kernel, by decide +kernel⟩
  · split at h
    · next hc =>
      obtain ⟨rfl, rfl⟩ := hc
      rw [← Option.some.inj h]
      exact ⟨Or.inr ⟨rfl, rfl⟩, by decide +kernel, by decide +kernel⟩
    · cases h

theorem replyBase_links (conf n : Int) : replyBase.links conf n = [] := by
  cases hfile : replyBase.textFile conf n with
  | none => exact replyBase.links_of_missing hfile
  | some file => exact (replyBase_texts hfile).2.2

theorem replyBase_stackLinks (conf n : Int) : replyBase.stackLinks conf n = [] := by
  unfold TextBase.stackLinks TextBase.dbFile
  split
  · rfl
  · next te hte =>
    obtain ⟨file, hfile, hentry⟩ := Option.bind_eq_some_iff.mp hte
    split at hfile
    · have hcl := (replyBase_texts hfile).2.1.2.2
      rw [hentry, Option.map_some, Option.some.injEq] at hcl
      rw [hcl]
      rfl
    · cases hfile

theorem readerFiles_replyBase : ReaderFiles replyBase emptyMailbox replyList replyConfs.nums where
  listed := ⟨rfl, by decide, rfl⟩
  mailboxFirst := rfl
  subscribed := by decide
  files := by
    intro c _ n hn
    obtain ⟨file, hfile⟩ := Option.isSome_iff_exists.mp hn
    obtain ⟨⟨rfl, rfl⟩ | ⟨rfl, rfl⟩, -⟩ := replyBase_texts hfile
    · decide
    · decide
  parses c _ n file hfile := (replyBase_texts hfile).2.1.1
  senders c _ _ := replyBase.sendersFound_of_local fun n file hfile => (replyBase_texts hfile).2.1.2.1
  nonneg_last := by decide
  readable c :=
    ⟨fun n file hfile => (replyBase_texts hfile).2.1.1,
      fun _ => replyBase.sendersFound_of_local fun n file hfile => (replyBase_texts hfile).2.1.2.1,
      fun _ n m hm => by
        rw [replyBase_links] at hm
        cases hm⟩
  links c _ _ n m hm := by
    rw [replyBase_links] at hm
    cases hm
  stackLinks c _ n m hm := by
    rw [replyBase_stackLinks] at hm
    cases hm

theorem marksInside_replyConfs : MarksInside emptyMailbox replyList replyConfs := by
  intro c hc n hn
  obtain ⟨il, hl, i, hi, h1, h2⟩ := hn
  have hconfs : c = 0 ∨ c = 1 ∨ c = 2 := by simpa [replyConfs, ConfsFile.nums] using hc
  rcases hconfs with rfl | rfl | rfl
  · cases hl
    cases hi
  · cases hl
    cases hi
  · cases hl
    obtain rfl := List.mem_singleton.mp hi
    exact ⟨h1, h2⟩

theorem reading_counts_unread_iff_replyRun :
    Runs.AllSteps (turn replyHost 8)
        (fun s _ s' => CountsInTurn replyHost emptyMailbox replyList 8 s s') replyStart replyRun ↔
      Runs.AllSteps (turn replyHost 8)
        (fun s c _ => SafeReading replyHost emptyMailbox replyList 8 s c) replyStart replyRun :=
  reading_counts_unread_iff (h := replyHost) readerFiles_replyBase marksInside_replyConfs
    (by decide) rfl (by decide) rfl rfl replyRun

/-- The number 5 of the other conference is marked as read in a conference of one text, and
`num_unread` is negative. -/
theorem jump_marks_foreign_number :
    MarksInside emptyMailbox replyList replyConfs ∧
      ∃ s, Runs.run (turn replyHost 8) replyStart replyRun = some s ∧
        numUnread 1 1 s.confs = some (-1) ∧ ¬ CountsUnread emptyMailbox replyList s.confs := by
  have hrun : Runs.run (turn replyHost 8) replyStart replyRun =
      some ⟨1, 2, 1, 5, 0, -1, false, false, [], "0:\n1:1-1,5-5\n2:1-5\n".toList⟩ := by
    decide +kernel
  have hunread : numUnread 1 1 "0:\n1:1-1,5-5\n2:1-5\n".toList = some (-1) := by
    decide +kernel
  refine ⟨?_, _, hrun, hunread, ?_⟩
  · exact marksInside_replyConfs
  · rintro ⟨f, hf, -, hcount⟩
    have hnums : f =
        ⟨[⟨0, []⟩, ⟨1, [⟨1, 1⟩, ⟨5, 5⟩]⟩, ⟨2, [⟨1, 5⟩]⟩], by decide, by decide⟩ :=
      ConfsFile.bytes_injective (hf.symm.trans (by decide +kernel))
    have h1 := hcount 1 (by rw [hnums]; decide)
    rw [show lastOf emptyMailbox replyList 1 = 1 by decide, hunread, Option.some.injEq] at h1
    omega

end SklaffKom
