import SklaffKom.ShowText
import SklaffKom.MoreConf
import SklaffKom.Lib.Loops
import Mathlib.Data.Set.Card
import Mathlib.Data.Set.Finite.Lattice
import Mathlib.Data.Int.Interval

/-!
# Reading everything

`cmd_readall` takes the next text from the comment stack, else from `next_text`, else goes to the
conference that `more_conf` finds, until nothing is left.
-/

open CString

namespace SklaffKom

/-- `Current_conf`, the variable `conf`, the comment stack, the conference file, and the calls of
`display_text` so far. -/
structure ReadState where
  currentConf : Int
  conf : Int
  stack : List Int
  confs : CString
  shown : List (Int × Int)
deriving DecidableEq

/-- `textnum`: from the comment stack, else from `next_text`. -/
def popText (t : TextBase) (fuel : Nat) (s : ReadState) : Option (Int × ReadState) :=
  let r := popComment s.stack
  if r.1 = -1 then
    (nextText t.disk fuel s.currentConf s.confs).map fun x =>
      (x.1, { s with stack := r.2, confs := x.2 })
  else some (r.1, { s with stack := r.2 })

/-- `if (!textnum) conf = more_conf();` -/
def lookOn (t : TextBase) (fuel : Nat) (textnum : Int) (s : ReadState) : Option ReadState :=
  if textnum = 0 then
    (moreConf t.disk fuel s.currentConf s.confs).map fun x => { s with conf := x.1, confs := x.2 }
  else some s

/-- `display_text` and `mark_as_read`.  `Numlines` is 0, so the user cannot stop the output. -/
def showText (t : TextBase) (textnum : Int) (s : ReadState) : Option ReadState := do
  let r ← displayText t none s.currentConf s.currentConf textnum true s.confs
  let m ← markAsRead none textnum s.currentConf r.2.1
  pure { s with stack := r.2.2 ++ s.stack, confs := m.2,
                shown := s.shown ++ [(s.currentConf, textnum)] }

def readTurn (t : TextBase) (fuel : Nat) (s : ReadState) : Option (Loops.Turn ReadState) := do
  let r ← popText t fuel s
  let s ← lookOn t fuel r.1 r.2
  if s.conf = -1 ∧ r.1 ≤ 0 then pure (.stop s)
  else if r.1 > 0 then (showText t r.1 s).map .goOn
  else if s.conf ≠ -1 then pure (.goOn { s with currentConf := s.conf })
  else pure (.goOn s)

/-- `cmd_readall` begins with `conf` at 0. -/
def ReadState.start (currentConf : Int) (stack : List Int) (confs : CString) : ReadState where
  currentConf := currentConf
  conf := 0
  stack := stack
  confs := confs
  shown := []

/-- `cmd_readall` with an empty comment stack. -/
def cmdReadall (t : TextBase) (fuel turns : Nat) (currentConf : Int) (confs : CString) :
    Option ReadState :=
  Loops.loop (readTurn t fuel) turns (.start currentConf [] confs)

/-- `last_text` of the mailbox or of a conference. -/
def lastOf (mbox : ConfEntry) (l : ConfFile) (conf : Int) : Int :=
  if conf = 0 then mbox.lastText else l.last conf

/-- Every text of a conference is linked by at most one existing text, with a smaller number, and
at most once. -/
structure CommentForest (t : TextBase) (conf : Int) : Prop where
  above : ∀ p, ∀ n ∈ t.links conf p, p < n
  once : ∀ p, (t.links conf p).Nodup
  parent : ∀ p q n, n ∈ t.links conf p → n ∈ t.links conf q → p = q

/-- The files of a user with the conferences `nums`. -/
structure UserFiles (t : TextBase) (mbox : ConfEntry) (l : ConfFile) (nums : List Int) : Prop where
  listed : Listed t.disk mbox l
  mailboxFirst : nums.head? = some 0
  subscribed : ∀ c ∈ nums.tail, (l.entry c).isSome
  files : ∀ c ∈ nums, ∀ n, t.disk.texts c n → 1 ≤ n ∧ n ≤ lastOf mbox l c
  parses : ∀ c ∈ nums, ∀ n file, t.textFile c n = some file → displayEntry file ≠ .crash
  senders : ∀ c ∈ nums, 0 < c → t.SendersFound c

namespace UserFiles

variable {t : TextBase} {mbox : ConfEntry} {l : ConfFile} {nums : List Int} {c : Int}

theorem eq_zero_or_listed (h : UserFiles t mbox l nums) (hc : c ∈ nums) :
    c = 0 ∨ c ≠ 0 ∧ 0 < c ∧ (l.entry c).isSome := by
  have hfirst := h.mailboxFirst
  cases nums with
  | nil => cases hc
  | cons a as =>
    cases hfirst
    rcases List.mem_cons.mp hc with h0 | hc
    · exact Or.inl h0
    · have hs := h.subscribed c hc
      obtain ⟨e, he⟩ := Option.isSome_iff_exists.mp hs
      have := l.positive e (l.mem_of_entry he)
      rw [(l.exists_split he).1] at this
      exact Or.inr ⟨by omega, this, hs⟩

theorem nonneg (h : UserFiles t mbox l nums) (hc : c ∈ nums) : 0 ≤ c := by
  rcases h.eq_zero_or_listed hc with rfl | ⟨-, hpos, -⟩
  · exact Int.le_refl 0
  · omega

theorem readable (h : UserFiles t mbox l nums) (hf : 0 < c → CommentForest t c) (hc : c ∈ nums) :
    Readable t c := by
  refine ⟨h.parses c hc, h.senders c hc, fun hpos n m hm => ?_⟩
  have habove := (hf hpos).above n m hm
  cases hfile : t.textFile c n with
  | none =>
    rw [t.links_of_missing hfile] at hm
    cases hm
  | some file =>
    have := h.files c hc n (by simp [Disk.texts, TextBase.disk, hfile])
    omega

theorem lastText_eq (h : UserFiles t mbox l nums) (c : Int) :
    lastText t.mailbox t.conffile c =
      some (if c = 0 then mbox.lastText else l.last c) := by
  have hmbox : getConfEntry t.mailbox = .entry mbox [] := by
    have := h.listed.mailbox
    rw [show t.mailbox = _ from this]
    simpa using getConfEntry_stringify h.listed.oneLine []
  have hlist : t.conffile = l.bytes := h.listed.conffile
  unfold lastText
  by_cases h0 : c = 0
  · rw [if_pos h0, if_pos h0]
    simp only [hmbox]
  · rw [if_neg h0, if_neg h0, hlist, ConfFile.last]
    cases he : l.entry c with
    | none =>
      rw [l.confEntry_bytes_none he]
      rfl
    | some e =>
      obtain ⟨as, bs, -, -, hfind⟩ := l.confEntry_bytes he
      rw [hfind]
      rfl

end UserFiles

/-! ## What a turn does to the read marks -/

/-- The state of the loop between two turns.  `f₀` is the conference file at the start. -/
structure ReadInv (t : TextBase) (f₀ : ConfsFile) (s : ReadState) (f : ConfsFile) : Prop where
  confs : s.confs = f.bytes
  nums : f.nums = f₀.nums
  pos : ∀ c, ∀ n ∈ f.read c, 1 ≤ n
  grows : ∀ c, f₀.read c ⊆ f.read c
  /-- What lies on the stack is unread, and was put there with a text that is read. -/
  stacked : ∀ n ∈ s.stack, 0 < s.currentConf ∧ s.currentConf ∈ f₀.nums ∧
    t.disk.texts s.currentConf n ∧ n ∉ f.read s.currentConf ∧
    ∃ p ∈ f.read s.currentConf, n ∈ t.links s.currentConf p
  stackOnce : s.stack.Nodup
  shown : ∀ q ∈ s.shown, q.2 ∈ f.read q.1 ∧ q.2 ∉ f₀.read q.1
  shownOnce : s.shown.Nodup

/-- Every text that was marked as read since the start was shown. -/
def NoneLost (t : TextBase) (f₀ f : ConfsFile) (shown : List (Int × Int)) : Prop :=
  ∀ c ∈ f₀.nums, ∀ n, t.disk.texts c n → n ∈ f.read c → n ∉ f₀.read c → (c, n) ∈ shown

/-- The numbers up to `last_text` that are unread. -/
def unreadNumbers (mbox : ConfEntry) (l : ConfFile) (f : ConfsFile) : Set (Int × Int) :=
  {q | q.1 ∈ f.nums ∧ 1 ≤ q.2 ∧ q.2 ≤ lastOf mbox l q.1 ∧ q.2 ∉ f.read q.1}

section Turns

variable {t : TextBase} {mbox : ConfEntry} {l : ConfFile} {f₀ f f₁ : ConfsFile} {s : ReadState}
  {n : Int}

theorem finite_unreadNumbers (mbox : ConfEntry) (l : ConfFile) (f : ConfsFile) :
    (unreadNumbers mbox l f).Finite := by
  have hfin : (⋃ c ∈ {c | c ∈ f.nums}, Prod.mk c '' Set.Icc 1 (lastOf mbox l c)).Finite :=
    Set.Finite.biUnion (List.finite_toSet f.nums) fun c _ => (Set.finite_Icc _ _).image _
  refine hfin.subset ?_
  rintro ⟨c, n⟩ ⟨hc, h1, h2, -⟩
  exact Set.mem_biUnion hc ⟨n, ⟨h1, h2⟩, rfl⟩

theorem unreadNumbers_anti (hnums : f₁.nums = f.nums) (hgrow : ∀ c, f.read c ⊆ f₁.read c) :
    unreadNumbers mbox l f₁ ⊆ unreadNumbers mbox l f := by
  rintro ⟨c, n⟩ ⟨hc, h1, h2, hn⟩
  exact ⟨hnums ▸ hc, h1, h2, fun h => hn (hgrow c h)⟩

/-- A text that is read leaves fewer unread numbers. -/
theorem ncard_unreadNumbers_lt (mbox : ConfEntry) (l : ConfFile) {c : Int} (hnums : f₁.nums = f.nums)
    (hgrow : ∀ c, f.read c ⊆ f₁.read c) (hc : c ∈ f.nums) (h1 : 1 ≤ n) (h2 : n ≤ lastOf mbox l c)
    (hout : n ∉ f.read c) (hin : n ∈ f₁.read c) :
    (unreadNumbers mbox l f₁).ncard < (unreadNumbers mbox l f).ncard := by
  refine Set.ncard_lt_ncard ?_ (finite_unreadNumbers mbox l f)
  refine (Set.ssubset_iff_of_subset (unreadNumbers_anti hnums hgrow)).mpr ⟨(c, n), ?_, ?_⟩
  · exact ⟨hc, h1, h2, hout⟩
  · rintro ⟨-, -, -, hn⟩
    exact hn hin

/-- Marks of a scan lose nothing exactly when the scan adds no text. -/
theorem noneLost_scan {shown : List (Int × Int)} (hgrow₀ : ∀ c, f₀.read c ⊆ f.read c)
    (hgrow : ∀ c, f.read c ⊆ f₁.read c) (hshown : ∀ q ∈ shown, q.2 ∈ f.read q.1) :
    NoneLost t f₀ f₁ shown ↔ NoneLost t f₀ f shown ∧
      ∀ c ∈ f₀.nums, ∀ m ∈ f₁.read c, m ∉ f.read c → ¬ t.disk.texts c m := by
  constructor
  · intro h
    refine ⟨fun c hc m ht hm hout => h c hc m ht (hgrow c hm) hout, ?_⟩
    intro c hc m hm hout ht
    exact hout (hshown _ (h c hc m ht hm fun h0 => hout (hgrow₀ c h0)))
  · rintro ⟨h, hadd⟩ c hc m ht hm hout
    by_cases hmf : m ∈ f.read c
    · exact h c hc m ht hmf hout
    · exact absurd ht (hadd c hc m hm hmf)

/-- What showing the text `n` of the conference `c` does to the marks, and the comments `ns` that it
puts on the stack. -/
structure ShowMarks (t : TextBase) (c n : Int) (f f' : ConfsFile) (ns : List Int) : Prop where
  nums : f'.nums = f.nums
  grows : ∀ b, f.read b ⊆ f'.read b
  marked : n ∈ f'.read c
  new : ∀ b, ∀ m ∈ f'.read b, m ∉ f.read b →
    b = c ∧ (m = n ∨ 0 < c ∧ m ∈ t.links c n ∧ ¬ t.disk.texts c m)
  stacked : ∀ m ∈ ns, 0 < c ∧ t.disk.texts c m ∧ m ∈ t.links c n ∧ m ≠ n ∧ m ∉ f'.read c
  links : ns.Sublist (t.links c n)

theorem ShowMarks.unread {ns : List Int} {c : Int} (h : ShowMarks t c n f f' ns) {m : Int}
    (ht : t.disk.texts c m) (hne : m ≠ n) (hno : m ∉ f.read c) : m ∉ f'.read c := by
  intro hm
  cases (h.new c m hm hno).2 with
  | inl he => exact hne he
  | inr hmiss => exact hmiss.2.2 ht

theorem showText_marks (hI : ReadInv t f₀ s f) (hu : UserFiles t mbox l f₀.nums)
    (hforest : 0 < s.currentConf → CommentForest t s.currentConf)
    (hc : s.currentConf ∈ f₀.nums) (h1 : 1 ≤ n) (hout : n ∉ f.read s.currentConf) :
    ∃ f' ns, showText t n s = some { s with stack := ns ++ s.stack, confs := f'.bytes,
                                            shown := s.shown ++ [(s.currentConf, n)] } ∧
      ShowMarks t s.currentConf n f f' ns := by
  set c := s.currentConf with hcdef
  obtain ⟨r, f₁, ns, hrun, hshown, hex⟩ := displayText_bytes (f := f) (hu.readable hforest hc) none c n
    true (Or.inl ⟨rfl, hu.nonneg hc⟩)
  -- a missing text has no comments, so the loop over them does not mark `n`
  have hout₁ : n ∉ f₁.read c := by
    intro hin
    obtain ⟨-, hmem, hno⟩ := hshown.missing n hin hout
    cases hfile : t.textFile c n with
    | none =>
      rw [t.links_of_missing hfile] at hmem
      cases hmem
    | some file => exact hno (by simp [Disk.texts, TextBase.disk, hfile])
  have hsub : c ∈ f₁.nums := by
    rw [hshown.same.nums, hI.nums]
    exact hc
  obtain ⟨f₂, hmark, hsame, hread⟩ := f₁.markAsRead_bytes_new (by omega) hsub hout₁
  have hnew : ∀ b, ∀ m ∈ f₂.read b, m ∉ f.read b → b = c ∧ (m = n ∨
      0 < c ∧ m ∈ t.links c n ∧ ¬ t.disk.texts c m) := by
    intro b m hm hno
    by_cases hb : b = c
    · subst hb
      rw [hread] at hm
      rcases hm with rfl | hm
      · exact ⟨rfl, Or.inl rfl⟩
      · exact ⟨rfl, Or.inr (hshown.missing m hm hno)⟩
    · rw [hsame.read hb, hshown.same.read hb] at hm
      exact absurd hm hno
  refine ⟨f₂, ns, ?_, hsame.nums.trans hshown.same.nums, ?_, ?_, hnew, ?_, hshown.sublist⟩
  · unfold showText
    rw [hI.confs, ← hcdef, hrun]
    simp only [Option.bind_eq_bind, Option.bind_some, hmark]
    rfl
  · intro b m hm
    by_cases hb : b = c
    · subst hb
      rw [hread]
      exact Or.inr (hshown.grows hm)
    · rw [hsame.read hb, hshown.same.read hb]
      exact hm
  · rw [hread]
    exact Or.inl rfl
  · intro m hm
    obtain ⟨hpos, ht⟩ := hex m hm
    have hmem := hshown.sublist.subset hm
    have hne : m ≠ n := by
      intro he
      have := (hforest hpos).above n m hmem
      omega
    refine ⟨hpos, ht rfl, hmem, hne, ?_⟩
    intro hin
    rcases (hnew c m hin fun h => hshown.unread m hm (hshown.grows h)).2 with he | ⟨-, -, hmiss⟩
    · exact hne he
    · exact hmiss (ht rfl)

/-- A text that is not on the stack, nor a text with a comment on it, is shown and marked. -/
theorem showText_inv (hI : ReadInv t f₀ s f) (hu : UserFiles t mbox l f₀.nums)
    (hforest : 0 < s.currentConf → CommentForest t s.currentConf)
    (hc : s.currentConf ∈ f₀.nums) (h1 : 1 ≤ n) (hout : n ∉ f.read s.currentConf)
    (hstack : ∀ m ∈ s.stack, m ≠ n ∧ m ∉ t.links s.currentConf n) :
    ∃ s' f', showText t n s = some s' ∧ ReadInv t f₀ s' f' ∧ s'.currentConf = s.currentConf ∧
      s'.conf = s.conf ∧
      (∀ c, f.read c ⊆ f'.read c) ∧ n ∈ f'.read s.currentConf ∧
      (NoneLost t f₀ f' s'.shown ↔ NoneLost t f₀ f s.shown) := by
  obtain ⟨f₂, ns, hrun, hmarks⟩ := showText_marks hI hu hforest hc h1 hout
  set c := s.currentConf with hcdef
  refine ⟨_, f₂, hrun, ⟨rfl, hmarks.nums.trans hI.nums, ?_,
      fun b => (hI.grows b).trans (hmarks.grows b), ?_, ?_, ?_, ?_⟩, rfl, rfl, hmarks.grows,
      hmarks.marked, ?_⟩
  · intro b m hm
    by_cases hmf : m ∈ f.read b
    · exact hI.pos b m hmf
    · obtain ⟨rfl, rfl | ⟨hpos, hmem, -⟩⟩ := hmarks.new b m hm hmf
      · exact h1
      · exact (hu.readable hforest hc).pos hpos n m hmem
  · intro m hm
    rcases List.mem_append.mp hm with hm | hm
    · obtain ⟨hpos, ht, hmem, -, hno⟩ := hmarks.stacked m hm
      exact ⟨hpos, hc, ht, hno, n, hmarks.marked, hmem⟩
    · obtain ⟨hpos, -, ht, hno, p, hp, hmem⟩ := hI.stacked m hm
      exact ⟨hpos, hc, ht, hmarks.unread ht (hstack m hm).1 hno, p, hmarks.grows c hp, hmem⟩
  · refine List.nodup_append.mpr ⟨?_, hI.stackOnce, ?_⟩
    · cases hns : ns with
      | nil => exact List.nodup_nil
      | cons m ms =>
        rw [← hns]
        have hpos := (hmarks.stacked m (by rw [hns]; exact List.mem_cons_self)).1
        exact ((hforest hpos).once n).sublist hmarks.links
    · rintro m hm b hb rfl
      exact (hstack m hb).2 (hmarks.stacked m hm).2.2.1
  · intro q hq
    rcases List.mem_append.mp hq with hq | hq
    · exact ⟨hmarks.grows _ (hI.shown q hq).1, (hI.shown q hq).2⟩
    · obtain rfl := List.mem_singleton.mp hq
      exact ⟨hmarks.marked, fun h => hout (hI.grows c h)⟩
  · refine List.nodup_append.mpr ⟨hI.shownOnce, by simp, ?_⟩
    rintro q hq b hb rfl
    obtain rfl := List.mem_singleton.mp hb
    exact hout (hI.shown _ hq).1
  · constructor
    · intro h b hb m ht hm hno
      rcases List.mem_append.mp (h b hb m ht (hmarks.grows b hm) hno) with h | h
      · exact h
      · cases List.mem_singleton.mp h
        exact absurd hm hout
    · intro h b hb m ht hm hno
      rw [List.mem_append]
      by_cases hmf : m ∈ f.read b
      · exact Or.inl (h b hb m ht hmf hno)
      · obtain ⟨rfl, rfl | ⟨-, -, hmiss⟩⟩ := hmarks.new b m hm hmf
        · exact Or.inr (List.mem_singleton.mpr rfl)
        · exact absurd ht hmiss

/-! ## What `next_text` and `more_conf` do to the read marks -/

/-- The least unread number of the conference is one to read next. -/
def Ready (t : TextBase) (mbox : ConfEntry) (l : ConfFile) (f : ConfsFile) (c : Int) : Prop :=
  ∃ m, GapScan.Least (f.read c) m ∧ m ≤ lastOf mbox l c ∧ (c = 0 ∨ t.disk.texts c m)

/-- `next_text` finds a number in the conference. -/
def TextLeft (t : TextBase) (mbox : ConfEntry) (l : ConfFile) (f : ConfsFile) (c : Int) : Prop :=
  if c = 0 then MailUnread f mbox.lastText else Shows t.disk l f (t.disk.first c) c

/-- `next_text` on a subscribed conference: the file afterwards and the number found. -/
structure NextScan (t : TextBase) (mbox : ConfEntry) (l : ConfFile) (c : Int) (f f₁ : ConfsFile)
    (r : Option Int) : Prop where
  same : SameBut c f f₁
  mailbox : c = 0 → f₁ = f
  grows : f.read c ⊆ f₁.read c
  pos : ∀ n ∈ f₁.read c, 1 ≤ n
  below : (∀ n ∈ f.read c, n ≤ lastOf mbox l c) → ∀ n ∈ f₁.read c, n ≤ lastOf mbox l c
  left : r.isSome ↔ TextLeft t mbox l f c
  safe : (∀ n ∈ f₁.read c, n ∉ f.read c → ¬ t.disk.texts c n) ↔
    NoTextJumped t.disk f c (l.last c) (t.disk.first c)
  found : ∀ m, r = some m → 1 ≤ m ∧ m ≤ lastOf mbox l c ∧ m ∉ f₁.read c ∧
    (NothingUnread t.disk l f c → MailUnread f mbox.lastText)
  none : r = none → (∀ n, 1 ≤ n → n ≤ lastOf mbox l c → n ∈ f₁.read c) ∧
    (NoTextJumped t.disk f c (l.last c) (t.disk.first c) → NothingUnread t.disk l f c) ∧
    ¬ Ready t mbox l f c

/-- In the mailbox nothing is marked, and files are not looked at. -/
theorem nextText_scan_mailbox (hu : UserFiles t mbox l f.nums) (hc : (0 : Int) ∈ f.nums)
    (hpos : ∀ n ∈ f.read 0, 1 ≤ n) (fuel : Nat) :
    ∃ r f₁, nextText t.disk fuel 0 f.bytes = some (r.getD 0, f₁.bytes) ∧
      NextScan t mbox l 0 f f₁ r := by
  have hnn := (f.top_highest hpos).nonneg
  have hnone : l.entry 0 = none := by
    cases he : l.entry 0 with
    | none => rfl
    | some e =>
      have := l.positive e (l.mem_of_entry he)
      rw [(l.exists_split he).1] at this
      omega
  have hlast : l.last 0 = -1 := by
    rw [ConfFile.last, hnone]
    rfl
  have hnj : NoTextJumped t.disk f 0 (l.last 0) (t.disk.first 0) := by
    intro hj
    have := hj.2.1
    rw [hlast] at this
    omega
  have hnothing : NothingUnread t.disk l f 0 := by
    intro n h1 h2
    rw [hlast] at h2
    omega
  obtain ⟨u, hleast, hrun⟩ := nextText_mailbox (d := t.disk) (hu.lastText_eq 0) hc hpos
  have hsafe : (∀ n ∈ f.read 0, n ∉ f.read 0 → ¬ t.disk.texts 0 n) ↔
      NoTextJumped t.disk f 0 (l.last 0) (t.disk.first 0) :=
    iff_of_true (fun n hn hout => absurd hn hout) hnj
  rw [if_pos rfl] at hrun
  by_cases hlt : u > mbox.lastText
  · refine ⟨none, f, ?_, .refl _ _, fun _ => rfl, fun _ => id, hpos, id, ?_, hsafe, ?_,
      fun _ => ⟨?_, ?_, ?_⟩⟩
    · rw [hrun fuel, if_pos hlt]
      rfl
    · rw [TextLeft, if_pos rfl, ← mailUnread_iff hu.mailboxFirst]
      refine iff_of_false Bool.false_ne_true ?_
      rintro ⟨n, h1, h2, hn⟩
      exact hn (hleast.below n h1 (by omega))
    · intro m hm
      cases hm
    · intro n h1 h2
      rw [lastOf, if_pos rfl] at h2
      exact hleast.below n h1 (by omega)
    · exact fun _ => hnothing
    · rintro ⟨m, hm, hle, -⟩
      rw [lastOf, if_pos rfl] at hle
      have := hm.unique hleast
      omega
  · have hmu : MailUnread f mbox.lastText :=
      (mailUnread_iff hu.mailboxFirst _).mp ⟨u, hleast.pos, by omega, hleast.notMem⟩
    refine ⟨some u, f, ?_, .refl _ _, fun _ => rfl, fun _ => id, hpos, id, ?_, hsafe, ?_, ?_⟩
    · rw [hrun fuel, if_neg hlt]
      rfl
    · rw [TextLeft, if_pos rfl]
      exact iff_of_true rfl hmu
    · intro m hm
      cases hm
      exact ⟨hleast.pos, by rw [lastOf, if_pos rfl]; omega, hleast.notMem, fun _ => hmu⟩
    · intro hr
      cases hr

theorem nextText_scan_conf (hu : UserFiles t mbox l f.nums) {c : Int} (hc : c ∈ f.nums)
    (hne : c ≠ 0) (hlist : (l.entry c).isSome) (hpos : ∀ n ∈ f.read c, 1 ≤ n) {fuel : Nat}
    (hfuel : ∀ e ∈ l.entries, e.lastText.toNat < fuel) :
    ∃ r f₁, nextText t.disk fuel c f.bytes = some (r.getD 0, f₁.bytes) ∧
      NextScan t mbox l c f f₁ r := by
  have ht := f.top_highest hpos
  have hnn := ht.nonneg
  have hlast : lastOf mbox l c = l.last c := if_neg hne
  obtain ⟨e, he⟩ := Option.isSome_iff_exists.mp hlist
  have hl : l.last c = e.lastText := by
    rw [ConfFile.last, he]
    rfl
  obtain ⟨r, f₁, hrun, hsame, hs⟩ := nextText_bytes (hu.listed.lastText hlist)
    (hu.listed.firstText hlist) hne hc hpos
  have hsafe : (∀ n ∈ f₁.read c, n ∉ f.read c → ¬ t.disk.texts c n) ↔
      NoTextJumped t.disk f c (l.last c) (t.disk.first c) := adds_missing_iff hpos hs
  have hone : 1 ≤ f.scanStart t.disk c (l.last c) (t.disk.first c) := GapScan.one_le_start ht
  have hpos₁ : ∀ n ∈ f₁.read c, 1 ≤ n := by
    intro n hn
    cases r with
    | some m =>
      rw [hs.2] at hn
      exact hn.elim (hpos n) And.left
    | none =>
      rw [hs.2] at hn
      exact hn.elim (hpos n) And.left
  refine ⟨r, f₁, hrun fuel (hl ▸ hfuel e (l.mem_of_entry he)), hsame, fun h => absurd h hne,
    hs.subset, hpos₁, ?_, ?_, hsafe, ?_, ?_⟩
  · rw [hlast]
    intro hle
    refine (hs.le_last_iff ht hle).mpr fun hj => ?_
    have hjl := hj.2.1
    have := (firstText_bounds (hu.listed.lastText hlist) (fun n hn => (hu.files c hc n hn).1)
      (hu.listed.firstText hlist) (by omega)).2
    omega
  · rw [TextLeft, if_neg hne]
    exact shows_iff hpos hs
  · intro m hm
    subst hm
    have hge := hs.1.ge
    refine ⟨by omega, hlast ▸ hs.1.le, (hs.least hone).notMem, fun hnothing => ?_⟩
    exact absurd (hnothing m (by omega) hs.1.le hs.1.item) hs.1.notMem
  · intro hr
    subst hr
    refine ⟨?_, ?_, ?_⟩
    · intro n h1 h2
      rw [hs.2]
      exact Or.inr ⟨h1, by omega⟩
    · intro hnj n h1 h2 hn
      by_contra hout
      exact hs.1 n ((GapScan.start_le_iff ht).mpr hnj n h1 hout hn) h2 hout hn
    · rintro ⟨m, hm, hle, h0 | htext⟩
      · exact hne h0
      · have hstart : f.scanStart t.disk c (l.last c) (t.disk.first c) = 1 :=
          GapScan.start_of_not_jumps (hm.not_jumps_of_ex ht htext)
        rw [hstart] at hs
        exact hs.1 m hm.pos (hlast ▸ hle) hm.notMem htext

theorem nextText_scan (hu : UserFiles t mbox l f.nums) {c : Int} (hc : c ∈ f.nums)
    (hpos : ∀ n ∈ f.read c, 1 ≤ n) {fuel : Nat}
    (hfuel : ∀ e ∈ l.entries, e.lastText.toNat < fuel) :
    ∃ r f₁, nextText t.disk fuel c f.bytes = some (r.getD 0, f₁.bytes) ∧
      NextScan t mbox l c f f₁ r := by
  rcases hu.eq_zero_or_listed hc with rfl | ⟨hne, -, hlist⟩
  · exact nextText_scan_mailbox hu hc hpos fuel
  · exact nextText_scan_conf hu hc hne hlist hpos hfuel

/-- `more_conf` from the conference `cur`: the file afterwards and the conference found. -/
structure ConfScanned (t : TextBase) (mbox : ConfEntry) (l : ConfFile) (cur : Int)
    (f f₁ : ConfsFile) (r : Option Int) : Prop where
  nums : f₁.nums = f.nums
  grows : ∀ c, f.read c ⊆ f₁.read c
  pos : ∀ c, ∀ n ∈ f₁.read c, 1 ≤ n
  below : (∀ c ∈ f.nums, ∀ n ∈ f.read c, n ≤ lastOf mbox l c) →
    ((∀ c ∈ f.nums, ∀ n ∈ f₁.read c, n ≤ lastOf mbox l c) ↔
      MailUnread f mbox.lastText ∨
        Bounded t.disk l f (scanEstimate t.disk l f cur) (scanOrder f cur))
  safe : (∀ c, ∀ n ∈ f₁.read c, n ∉ f.read c → ¬ t.disk.texts c n) ↔
    MailUnread f mbox.lastText ∨
      Lossless t.disk l f (scanEstimate t.disk l f cur) (scanOrder f cur)
  found : ∀ c, r = some c → c ∈ f.nums ∧ Ready t mbox l f₁ c
  none : r = none → ∀ c ∈ f.nums, c ≠ cur → ∀ n, 1 ≤ n → n ≤ lastOf mbox l c → n ∈ f₁.read c

theorem moreConf_scan (hu : UserFiles t mbox l f.nums) (hpos : ∀ c, ∀ n ∈ f.read c, 1 ≤ n)
    {fuel : Nat} (hfuel : ∀ e ∈ l.entries, e.lastText.toNat < fuel) (cur : Int) :
    ∃ r f₁, moreConf t.disk fuel cur f.bytes = some (r.getD (-1), f₁.bytes) ∧
      ConfScanned t mbox l cur f f₁ r := by
  have hfirst := hu.mailboxFirst
  have h0 : 0 ∈ f.nums := List.mem_of_head? hfirst
  obtain ⟨text, hmail, htext⟩ := nextMail_bytes mbox hpos
  by_cases hm : text > 0
  · refine ⟨some 0, f, moreConf_mail hu.listed hmail hm fuel cur, rfl, fun _ _ => id, hpos,
      fun hle => iff_of_true hle (Or.inl (htext.mp hm)), ?_, ?_, ?_⟩
    · exact iff_of_true (fun c n hn hout => absurd hn hout) (Or.inl (htext.mp hm))
    · intro c hc
      cases hc
      obtain ⟨il, hl⟩ := Option.isSome_iff_exists.mp (f.lookup_isSome.mpr h0)
      have hleast := f.least_firstUnread hl (hpos 0)
      obtain ⟨n, h1, h2, hn⟩ := (mailUnread_iff hfirst _).mpr (htext.mp hm)
      refine ⟨h0, _, hleast, ?_, Or.inl rfl⟩
      rw [lastOf, if_pos rfl]
      by_contra hlt
      exact hn (hleast.below n h1 (by omega))
    · intro hr
      cases hr
  · have hmu : ¬ MailUnread f mbox.lastText := fun h => hm (htext.mpr h)
    obtain ⟨r, f₁, hrun, hnums, hkeep, hscans⟩ :=
      moreConf_bytes hu.listed hu.subscribed hpos cur hmail hm
    have hgrow : ∀ c, f.read c ⊆ f₁.read c := by
      intro c
      by_cases hc : c ∈ scanOrder f cur
      · exact hscans.grows c hc
      · rw [hkeep c hc]
    have hreal : ∀ c ∈ scanOrder f cur, c ≠ 0 := by
      intro c hc
      obtain ⟨e, he⟩ := Option.isSome_iff_exists.mp
        (hu.subscribed c (mem_tail_of_mem_scanOrder hc))
      have := l.positive e (l.mem_of_entry he)
      rw [(l.exists_split he).1] at this
      omega
    refine ⟨r, f₁, hrun fuel hfuel, hnums, hgrow, ?_, ?_, ?_, ?_, ?_⟩
    · intro c n hn
      by_cases hc : c ∈ scanOrder f cur
      · exact hscans.pos (fun b _ => hpos b) c hc n hn
      · rw [hkeep c hc] at hn
        exact hpos c n hn
    · intro hle
      have hlast : ∀ c ∈ scanOrder f cur, lastOf mbox l c = l.last c :=
        fun c hc => if_neg (hreal c hc)
      have hmem : ∀ c ∈ scanOrder f cur, c ∈ f.nums :=
        fun c hc => List.mem_of_mem_tail (mem_tail_of_mem_scanOrder hc)
      rw [or_iff_right hmu, ← hscans.le_last_iff hpos fun c hc => hlast c hc ▸ hle c (hmem c hc)]
      constructor
      · intro hall c hc
        rw [← hlast c hc]
        exact hall c (hmem c hc)
      · intro hall c hc
        by_cases hcs : c ∈ scanOrder f cur
        · rw [hlast c hcs]
          exact hall c hcs
        · rw [hkeep c hcs]
          exact hle c hc
    · rw [or_iff_right hmu]
      exact hscans.adds_missing_everywhere hpos hkeep
    · intro c hc
      have hmem := hscans.mem hc
      obtain ⟨m, hleast, hle, hex⟩ := hscans.stops (fun b _ => hpos b) hc
      refine ⟨List.mem_of_mem_tail (mem_tail_of_mem_scanOrder hmem), m, hleast, ?_, Or.inr hex⟩
      rw [lastOf, if_neg (hreal c hmem)]
      exact hle
    · intro hr c hc hne n h1 h2
      by_cases hc0 : c = 0
      · subst hc0
        rw [lastOf, if_pos rfl] at h2
        by_contra hout
        exact hmu ((mailUnread_iff hfirst _).mp ⟨n, h1, h2, fun h => hout (hgrow 0 h)⟩)
      · rw [lastOf, if_neg hc0] at h2
        exact hscans.covers hr c (mem_scanOrder hfirst hc hc0 hne) n h1 h2

end Turns

/-! ## The turns -/

/-- Before the turn: if the stack is empty, `next_text` jumps over no unread text of the current
conference, and if nothing is unread there, `more_conf` finds unread mail or jumps over no unread
text. -/
def SafeTurn (t : TextBase) (mbox : ConfEntry) (l : ConfFile) (s : ReadState) : Prop :=
  ∀ f : ConfsFile, s.confs = f.bytes → s.stack = [] → s.currentConf ∈ f.nums →
    NoTextJumped t.disk f s.currentConf (l.last s.currentConf) (t.disk.first s.currentConf) ∧
      (NothingUnread t.disk l f s.currentConf → MailUnread f mbox.lastText ∨
        Lossless t.disk l f (scanEstimate t.disk l f s.currentConf) (scanOrder f s.currentConf))

/-- `NoneLost` for the file of the state. -/
def KeptUnread (t : TextBase) (f₀ : ConfsFile) (s : ReadState) : Prop :=
  ∀ f : ConfsFile, s.confs = f.bytes → NoneLost t f₀ f s.shown

/-- How far a turn is from the next text: 0 if it shows one, 1 if it may look for another
conference, 2 if it may leave one without a subscription. -/
def Distance (t : TextBase) (mbox : ConfEntry) (l : ConfFile) (s : ReadState) (f : ConfsFile) :
    Nat → Prop
  | 0 => s.currentConf ∈ f.nums ∧ (s.stack = [] → Ready t mbox l f s.currentConf)
  | 1 => s.currentConf ∈ f.nums
  | _ => True

def TurnInv (t : TextBase) (mbox : ConfEntry) (l : ConfFile) (f₀ : ConfsFile) (m : Nat)
    (s : ReadState) : Prop :=
  ∃ f k, ReadInv t f₀ s f ∧ s.conf ∈ f₀.nums ∧ k ≤ 2 ∧ Distance t mbox l s f k ∧
    m = 3 * (unreadNumbers mbox l f).ncard + k

/-- What the loop leaves when it breaks. -/
def AllRead (t : TextBase) (mbox : ConfEntry) (l : ConfFile) (f₀ : ConfsFile) (s : ReadState) :
    Prop :=
  ∃ f, ReadInv t f₀ s f ∧ ∀ c ∈ f₀.nums, ∀ n, 1 ≤ n → n ≤ lastOf mbox l c → n ∈ f.read c

/-- What a turn does: `Q` holds before it exactly when nothing is lost by it. -/
def GoodTurn (t : TextBase) (mbox : ConfEntry) (l : ConfFile) (f₀ : ConfsFile) (m : Nat)
    (s : ReadState) (x : Loops.Turn ReadState) : Prop :=
  (KeptUnread t f₀ x.state ↔ KeptUnread t f₀ s ∧ SafeTurn t mbox l s) ∧
    (∀ s', x = .goOn s' → ∃ m' < m, TurnInv t mbox l f₀ m' s') ∧
    ∀ s', x = .stop s' → AllRead t mbox l f₀ s'

section Turns

variable {t : TextBase} {mbox : ConfEntry} {l : ConfFile} {f₀ f f₁ : ConfsFile} {s : ReadState}
  {fuel n m : Nat}

theorem keptUnread_iff (h : s.confs = f.bytes) :
    KeptUnread t f₀ s ↔ NoneLost t f₀ f s.shown := by
  refine ⟨fun hk => hk f h, fun hk g hg => ?_⟩
  rw [ConfsFile.bytes_injective (hg.symm.trans h)]
  exact hk

theorem safeTurn_iff (h : s.confs = f.bytes) (hs : s.stack = []) (hc : s.currentConf ∈ f.nums) :
    SafeTurn t mbox l s ↔
      NoTextJumped t.disk f s.currentConf (l.last s.currentConf) (t.disk.first s.currentConf) ∧
        (NothingUnread t.disk l f s.currentConf → MailUnread f mbox.lastText ∨
          Lossless t.disk l f (scanEstimate t.disk l f s.currentConf)
            (scanOrder f s.currentConf)) := by
  refine ⟨fun hk => hk f h hs hc, fun hk g hg _ _ => ?_⟩
  rw [ConfsFile.bytes_injective (hg.symm.trans h)]
  exact hk

theorem readTurn_show {num : Int} {s₁ s' : ReadState} (hpop : popText t fuel s = some (num, s₁))
    (hnum : 0 < num) (hshow : showText t num s₁ = some s') :
    readTurn t fuel s = some (.goOn s') := by
  have hne : num ≠ 0 := by omega
  have hle : ¬ num ≤ 0 := by omega
  unfold readTurn
  rw [hpop]
  simp only [Option.bind_eq_bind, Option.bind_some, lookOn, if_neg hne, hle, and_false, if_false,
    if_pos hnum, hshow, Option.map_some, gt_iff_lt]

theorem readTurn_conf {s₁ : ReadState} {conf : Int} {confs : CString}
    (hpop : popText t fuel s = some (0, s₁))
    (hmore : moreConf t.disk fuel s₁.currentConf s₁.confs = some (conf, confs)) :
    readTurn t fuel s = some (if conf = -1 then .stop { s₁ with conf := conf, confs := confs }
      else .goOn { s₁ with conf := conf, confs := confs, currentConf := conf }) := by
  unfold readTurn
  rw [hpop]
  simp only [Option.bind_eq_bind, Option.bind_some, lookOn, if_true, hmore, Option.map_some]
  by_cases hc : conf = -1
  · simp [hc]
  · simp [hc]

theorem readTurn_unsubscribed {s₁ : ReadState} (hpop : popText t fuel s = some (-1, s₁))
    (hconf : s₁.conf ≠ -1) :
    readTurn t fuel s = some (.goOn { s₁ with currentConf := s₁.conf }) := by
  unfold readTurn
  rw [hpop]
  simp [lookOn, hconf]

theorem popText_empty (hs : s.stack = []) {num : Int} {confs : CString}
    (hnext : nextText t.disk fuel s.currentConf s.confs = some (num, confs)) :
    popText t fuel s = some (num, { s with confs := confs }) := by
  simp only [popText, hs, popComment, if_true, hnext, Option.map_some]

/-- The number comes from the stack. -/
theorem goodTurn_pop (hu : UserFiles t mbox l f₀.nums)
    (hforest : ∀ c ∈ f₀.nums, 0 < c → CommentForest t c) (hI : ReadInv t f₀ s f)
    (hconf : s.conf ∈ f₀.nums) {k : Nat}
    {num : Int} {stack : List Int} (hs : s.stack = num :: stack) :
    ∃ x, readTurn t fuel s = some x ∧
      GoodTurn t mbox l f₀ (3 * (unreadNumbers mbox l f).ncard + k) s x := by
  obtain ⟨hcpos, hc, htext, hout, p, hp, hlink⟩ := hI.stacked num (by rw [hs]; exact List.mem_cons_self)
  obtain ⟨h1, h2⟩ := hu.files _ hc num htext
  have hnd := hI.stackOnce
  rw [hs, List.nodup_cons] at hnd
  set s₁ : ReadState := { s with stack := stack } with hs₁
  have hpop : popText t fuel s = some (num, s₁) := by
    have hne : num ≠ -1 := by omega
    simp only [popText, hs, popComment, if_neg hne]
    rfl
  have hI₁ : ReadInv t f₀ s₁ f := ⟨hI.confs, hI.nums, hI.pos, hI.grows,
    fun a ha => hI.stacked a (by rw [hs]; exact List.mem_cons_of_mem _ ha), hnd.2, hI.shown,
    hI.shownOnce⟩
  have hstack : ∀ a ∈ s₁.stack, a ≠ num ∧ a ∉ t.links s₁.currentConf num := by
    intro a ha
    refine ⟨fun he => hnd.1 (he ▸ ha), fun hmem => ?_⟩
    obtain ⟨-, -, -, -, q, hq, hlinkq⟩ := hI₁.stacked a ha
    rw [(hforest _ hc hcpos).parent q num a hlinkq hmem] at hq
    exact hout hq
  obtain ⟨s', f', hshow, hI', hcur, hconf', hgrow, hin, hlost⟩ :=
    showText_inv hI₁ hu (hforest _ hc) hc h1 hout hstack
  refine ⟨.goOn s', readTurn_show hpop (by omega) hshow, ?_, ?_, fun _ h => nomatch h⟩
  · show KeptUnread t f₀ s' ↔ _
    rw [keptUnread_iff hI'.confs, hlost, keptUnread_iff hI.confs]
    refine (and_iff_left ?_).symm
    intro g _ hempty
    rw [hs] at hempty
    cases hempty
  · intro s'' h
    cases h
    have hlt := ncard_unreadNumbers_lt mbox l (hI'.nums.trans hI.nums.symm) hgrow
      (hI.nums ▸ hc) h1 h2 hout hin
    refine ⟨3 * (unreadNumbers mbox l f').ncard + 1, by omega, f', 1, hI', ?_, by omega, ?_, rfl⟩
    · rw [hconf']
      exact hconf
    · show s'.currentConf ∈ f'.nums
      rw [hcur, hI'.nums]
      exact hc

/-- The current conference is not one of the user's. -/
theorem goodTurn_unsubscribed (hu : UserFiles t mbox l f₀.nums) (hI : ReadInv t f₀ s f)
    (hconf : s.conf ∈ f₀.nums) (hs : s.stack = []) (hc : s.currentConf ∉ f₀.nums) :
    ∃ x, readTurn t fuel s = some x ∧
      GoodTurn t mbox l f₀ (3 * (unreadNumbers mbox l f).ncard + 2) s x := by
  have hlookup : f.lookup s.currentConf = none := by
    rw [← Option.not_isSome_iff_eq_none, f.lookup_isSome, hI.nums]
    exact hc
  have hnext : nextText t.disk fuel s.currentConf s.confs = some (-1, f.bytes) := by
    rw [hI.confs]
    simp only [nextText]
    rw [show lastText t.disk.mailbox t.disk.conffile s.currentConf = _ from hu.lastText_eq _]
    simp only [Option.bind_eq_bind, Option.bind_some, f.confsEntry_bytes_none hlookup]
  have hne : s.conf ≠ -1 := by
    have := hu.nonneg hconf
    omega
  refine ⟨_, readTurn_unsubscribed (popText_empty hs hnext) hne, ?_, ?_, ?_⟩
  · show KeptUnread t f₀ { s with confs := f.bytes, currentConf := s.conf } ↔ _
    rw [keptUnread_iff (f := f) rfl, keptUnread_iff hI.confs]
    refine (and_iff_left ?_).symm
    intro g hg _ hcur
    rw [ConfsFile.bytes_injective (hg.symm.trans hI.confs), hI.nums] at hcur
    exact absurd hcur hc
  · intro s' h
    cases h
    refine ⟨3 * (unreadNumbers mbox l f).ncard + 1, by omega, f, 1,
      ⟨rfl, hI.nums, hI.pos, hI.grows, ?_, hI.stackOnce, hI.shown, hI.shownOnce⟩,
      hconf, by omega, ?_, rfl⟩
    · intro a ha
      rw [show s.stack = [] from hs] at ha
      cases ha
    · show s.conf ∈ f.nums
      rw [hI.nums]
      exact hconf
  · intro s' h
    cases h

/-- The marks that the scans of a turn set keep the invariant. -/
theorem ReadInv.scanned (hI : ReadInv t f₀ s f) (hs : s.stack = []) (conf cur : Int)
    (hnums : f₁.nums = f.nums) (hgrow : ∀ c, f.read c ⊆ f₁.read c)
    (hpos : ∀ c, ∀ n ∈ f₁.read c, 1 ≤ n) :
    ReadInv t f₀ { s with conf := conf, confs := f₁.bytes, currentConf := cur } f₁ where
  confs := rfl
  nums := hnums.trans hI.nums
  pos := hpos
  grows c := (hI.grows c).trans (hgrow c)
  stacked n hn := by
    rw [show s.stack = [] from hs] at hn
    cases hn
  stackOnce := hI.stackOnce
  shown q hq := ⟨hgrow _ (hI.shown q hq).1, (hI.shown q hq).2⟩
  shownOnce := hI.shownOnce

theorem NextScan.pos_all {c : Int} {r : Option Int} (hscan : NextScan t mbox l c f f₁ r)
    (hpos : ∀ b, ∀ n ∈ f.read b, 1 ≤ n) : ∀ b, ∀ n ∈ f₁.read b, 1 ≤ n := by
  intro b n hn
  by_cases hb : b = c
  · exact hscan.pos n (hb ▸ hn)
  · rw [hscan.same.read hb] at hn
    exact hpos b n hn

/-- A scan of the current conference alone. -/
theorem noneLost_next (hI : ReadInv t f₀ s f) {c : Int} {r : Option Int} (hc : c ∈ f₀.nums)
    (hscan : NextScan t mbox l c f f₁ r) :
    (∀ b, f.read b ⊆ f₁.read b) ∧ (NoneLost t f₀ f₁ s.shown ↔ NoneLost t f₀ f s.shown ∧
      NoTextJumped t.disk f c (l.last c) (t.disk.first c)) := by
  have hgrow : ∀ b, f.read b ⊆ f₁.read b := by
    intro b
    by_cases hb : b = c
    · rw [hb]
      exact hscan.grows
    · rw [hscan.same.read hb]
  refine ⟨hgrow, ?_⟩
  rw [noneLost_scan hI.grows hgrow fun q hq => (hI.shown q hq).1, ← hscan.safe]
  refine and_congr_right fun _ => ⟨fun h => h c hc, fun h b _ m hm hout => ?_⟩
  by_cases hb : b = c
  · subst hb
    exact h m hm hout
  · rw [hscan.same.read hb] at hm
    exact absurd hm hout

/-- `next_text` finds a text in the current conference. -/
theorem goodTurn_found (hu : UserFiles t mbox l f₀.nums)
    (hforest : ∀ c ∈ f₀.nums, 0 < c → CommentForest t c) (hI : ReadInv t f₀ s f)
    (hconf : s.conf ∈ f₀.nums) {k : Nat}
    (hs : s.stack = []) (hc : s.currentConf ∈ f₀.nums) {num : Int}
    (hnext : nextText t.disk fuel s.currentConf s.confs = some (num, f₁.bytes))
    (hscan : NextScan t mbox l s.currentConf f f₁ (some num)) :
    ∃ x, readTurn t fuel s = some x ∧
      GoodTurn t mbox l f₀ (3 * (unreadNumbers mbox l f).ncard + k) s x := by
  obtain ⟨h1, h2, hout, hmail⟩ := hscan.found num rfl
  obtain ⟨hgrow, hlost₁⟩ := noneLost_next hI hc hscan
  have hnums₁ : f₁.nums = f.nums := hscan.same.nums
  have hI₁ := hI.scanned hs s.conf s.currentConf hnums₁ hgrow (hscan.pos_all hI.pos)
  obtain ⟨s', f', hshow, hI', hcur, hconf', hgrow', hin, hlost⟩ :=
    showText_inv hI₁ hu (hforest _ hc) hc h1 hout fun m hm => by
      rw [show s.stack = [] from hs] at hm
      cases hm
  have hcf : s.currentConf ∈ f.nums := hI.nums ▸ hc
  refine ⟨.goOn s', readTurn_show (popText_empty hs hnext) (by omega) hshow, ?_, ?_,
    fun _ h => nomatch h⟩
  · show KeptUnread t f₀ s' ↔ _
    rw [keptUnread_iff hI'.confs, hlost, hlost₁, keptUnread_iff hI.confs,
      safeTurn_iff hI.confs hs hcf]
    refine and_congr_right fun _ => ?_
    exact (and_iff_left fun hnothing => Or.inl (hmail hnothing)).symm
  · intro s'' h
    cases h
    have hle : (unreadNumbers mbox l f₁).ncard ≤ (unreadNumbers mbox l f).ncard :=
      Set.ncard_le_ncard (unreadNumbers_anti hnums₁ hgrow) (finite_unreadNumbers mbox l f)
    have hlt := ncard_unreadNumbers_lt mbox l (hI'.nums.trans hI₁.nums.symm) hgrow'
      (hI₁.nums ▸ hc) h1 h2 hout hin
    refine ⟨3 * (unreadNumbers mbox l f').ncard + 1, by omega, f', 1, hI', ?_, by omega, ?_, rfl⟩
    · rw [hconf']
      exact hconf
    · show s'.currentConf ∈ f'.nums
      rw [hcur, hI'.nums]
      exact hc

/-- A scan does not look at the line of the current conference. -/
theorem scan_congr (hu : UserFiles t mbox l f.nums) {c : Int} (hsame : SameBut c f f₁)
    (hread : c = 0 → f₁ = f) :
    (MailUnread f₁ mbox.lastText ↔ MailUnread f mbox.lastText) ∧
      scanOrder f₁ c = scanOrder f c ∧
      scanEstimate t.disk l f₁ c = scanEstimate t.disk l f c ∧
      ∀ b ∈ scanOrder f c, f₁.lookup b = f.lookup b := by
  by_cases hc : c = 0
  · rw [hread hc]
    exact ⟨Iff.rfl, rfl, rfl, fun _ _ => rfl⟩
  · have horder : scanOrder f₁ c = scanOrder f c := by
      unfold scanOrder
      rw [hsame.nums]
    have hlookup : ∀ b ∈ scanOrder f c, f₁.lookup b = f.lookup b :=
      fun b hb => hsame.lookup b fun he => notMem_scanOrder f c (he ▸ hb)
    refine ⟨?_, horder, ?_, hlookup⟩
    · rw [← mailUnread_iff (hsame.nums ▸ hu.mailboxFirst), ← mailUnread_iff hu.mailboxFirst,
        hsame.read (Ne.symm hc)]
    · rw [scanEstimate, scanEstimate, horder, GapState.estimate_congr hlookup]

theorem safe_congr (hu : UserFiles t mbox l f.nums) {c : Int} (hsame : SameBut c f f₁)
    (hread : c = 0 → f₁ = f) :
    (MailUnread f₁ mbox.lastText ∨
        Lossless t.disk l f₁ (scanEstimate t.disk l f₁ c) (scanOrder f₁ c)) ↔
      (MailUnread f mbox.lastText ∨
        Lossless t.disk l f (scanEstimate t.disk l f c) (scanOrder f c)) := by
  obtain ⟨hmail, horder, hest, hlookup⟩ := scan_congr hu hsame hread
  rw [hmail, horder, hest, lossless_congr hlookup]

/-- Nothing is left in the current conference, and `more_conf` looks for another one. -/
theorem goodTurn_more (hu : UserFiles t mbox l f₀.nums) (hI : ReadInv t f₀ s f) {k : Nat}
    (hk : k ≤ 2) (hdist : Distance t mbox l s f k) (hs : s.stack = []) (hc : s.currentConf ∈ f₀.nums)
    (hfuel : ∀ e ∈ l.entries, e.lastText.toNat < fuel)
    (hnext : nextText t.disk fuel s.currentConf s.confs = some (0, f₁.bytes))
    (hscan : NextScan t mbox l s.currentConf f f₁ none) :
    ∃ x, readTurn t fuel s = some x ∧
      GoodTurn t mbox l f₀ (3 * (unreadNumbers mbox l f).ncard + k) s x := by
  obtain ⟨hall, hnothing, hready⟩ := hscan.none rfl
  obtain ⟨hgrow₁, hlost₁⟩ := noneLost_next hI hc hscan
  have hnums₁ : f₁.nums = f₀.nums := hscan.same.nums.trans hI.nums
  have hu₁ : UserFiles t mbox l f₁.nums := hnums₁ ▸ hu
  obtain ⟨r, f₂, hmore, hconfs⟩ := moreConf_scan hu₁ (hscan.pos_all hI.pos) hfuel s.currentConf
  have hgrow : ∀ c, f.read c ⊆ f₂.read c := fun c => (hgrow₁ c).trans (hconfs.grows c)
  have hnums₂ : f₂.nums = f.nums := hconfs.nums.trans hscan.same.nums
  have hcf : s.currentConf ∈ f.nums := hI.nums ▸ hc
  have hshown₁ : ∀ q ∈ s.shown, q.2 ∈ f₁.read q.1 := fun q hq => hgrow₁ _ (hI.shown q hq).1
  have hadd : (∀ c ∈ f₀.nums, ∀ n ∈ f₂.read c, n ∉ f₁.read c → ¬ t.disk.texts c n) ↔
      ∀ c, ∀ n ∈ f₂.read c, n ∉ f₁.read c → ¬ t.disk.texts c n := by
    refine ⟨fun h c n hn hout => ?_, fun h c _ => h c⟩
    by_cases hcn : c ∈ f₀.nums
    · exact h c hcn n hn hout
    · exact absurd hn (f₂.not_mem_read_of_not_mem (by rw [hnums₂, hI.nums]; exact hcn) n)
  have hrun := readTurn_conf (popText_empty hs hnext) hmore
  -- nothing is lost by the two scans together exactly when the turn is safe
  have hkept : NoneLost t f₀ f₂ s.shown ↔ KeptUnread t f₀ s ∧ SafeTurn t mbox l s := by
    rw [noneLost_scan (fun c => (hI.grows c).trans (hgrow₁ c)) hconfs.grows hshown₁, hlost₁, hadd,
      hconfs.safe, safe_congr (hI.nums ▸ hu) hscan.same hscan.mailbox, keptUnread_iff hI.confs,
      safeTurn_iff hI.confs hs hcf, and_assoc]
    refine and_congr_right fun _ => and_congr_right fun hnj => ?_
    exact ⟨fun h _ => h, fun h => h (hnothing hnj)⟩
  have hle : (unreadNumbers mbox l f₂).ncard ≤ (unreadNumbers mbox l f).ncard :=
    Set.ncard_le_ncard (unreadNumbers_anti hnums₂ hgrow) (finite_unreadNumbers mbox l f)
  cases r with
  | none =>
    refine ⟨_, hrun, ?_, ?_, ?_⟩
    · show KeptUnread t f₀ { s with conf := -1, confs := f₂.bytes } ↔ _
      rw [keptUnread_iff (f := f₂) rfl]
      exact hkept
    · intro s' h
      cases h
    · intro s' h
      cases h
      refine ⟨f₂, hI.scanned hs (-1) s.currentConf hnums₂ hgrow hconfs.pos, ?_⟩
      intro c hcn n h1 h2
      by_cases hcur : c = s.currentConf
      · rw [hcur] at h2 ⊢
        exact hconfs.grows _ (hall n h1 h2)
      · exact hconfs.none rfl c (hnums₁ ▸ hcn) hcur n h1 h2
  | some conf =>
    obtain ⟨hconf, hready₂⟩ := hconfs.found conf rfl
    rw [hnums₁] at hconf
    have hne : conf ≠ -1 := by
      have := hu.nonneg hconf
      omega
    rw [Option.getD_some, if_neg hne] at hrun
    have hI₂ := hI.scanned hs conf conf hnums₂ hgrow hconfs.pos
    have hpos : k ≠ 0 := by
      rintro rfl
      exact hready (hdist.2 hs)
    refine ⟨_, hrun, ?_, ?_, fun _ h => nomatch h⟩
    · show KeptUnread t f₀ { s with conf := conf, confs := f₂.bytes, currentConf := conf } ↔ _
      rw [keptUnread_iff (f := f₂) rfl]
      exact hkept
    · intro s' h
      cases h
      refine ⟨3 * (unreadNumbers mbox l f₂).ncard + 0, by omega, f₂, 0, hI₂, hconf, by omega, ?_, rfl⟩
      refine ⟨?_, fun _ => hready₂⟩
      show conf ∈ f₂.nums
      rw [hnums₂, hI.nums]
      exact hconf

theorem exists_goodTurn (hu : UserFiles t mbox l f₀.nums)
    (hforest : ∀ c ∈ f₀.nums, 0 < c → CommentForest t c)
    (hfuel : ∀ e ∈ l.entries, e.lastText.toNat < fuel) (hI : TurnInv t mbox l f₀ m s) :
    ∃ x, readTurn t fuel s = some x ∧ GoodTurn t mbox l f₀ m s x := by
  obtain ⟨f, k, hI, hconf, hk, hdist, rfl⟩ := hI
  cases hs : s.stack with
  | cons num stack => exact goodTurn_pop hu hforest hI hconf hs
  | nil =>
    by_cases hc : s.currentConf ∈ f₀.nums
    · obtain ⟨r, f₁, hnext, hscan⟩ := nextText_scan (hI.nums ▸ hu) (hI.nums ▸ hc) (hI.pos _) hfuel
      rw [← hI.confs] at hnext
      cases r with
      | some num => exact goodTurn_found hu hforest hI hconf hs hc hnext hscan
      | none => exact goodTurn_more hu hI hk hdist hs hc hfuel hnext hscan
    · have hk2 : k = 2 := by
        match k, hdist with
        | 0, hd => exact absurd (hI.nums ▸ hd.1) hc
        | 1, hd => exact absurd (hI.nums ▸ hd) hc
        | k + 2, _ => omega
      subst hk2
      exact goodTurn_unsubscribed hu hI hconf hs hc

/-! ## `cmd_readall` -/

/-- Every unread text of the user's conferences was shown exactly once, and `next_text` finds
nothing in any of them. -/
def ReadsOnce (t : TextBase) (f : ConfsFile) (fuel : Nat) (s : ReadState) : Prop :=
  (∀ c ∈ f.nums, ∀ n, t.disk.texts c n → n ∉ f.read c → s.shown.count (c, n) = 1) ∧
    ∀ c ∈ f.nums, (nextText t.disk fuel c s.confs).map Prod.fst = some 0

theorem readsOnce_iff (hu : UserFiles t mbox l f₀.nums)
    (hfuel : ∀ e ∈ l.entries, e.lastText.toNat < fuel) (hall : AllRead t mbox l f₀ s) :
    ReadsOnce t f₀ fuel s ↔ KeptUnread t f₀ s := by
  obtain ⟨f, hI, hcov⟩ := hall
  rw [keptUnread_iff hI.confs]
  constructor
  · intro h c hc n ht _ hout
    have := h.1 c hc n ht hout
    exact List.count_pos_iff.mp (by omega)
  · intro h
    refine ⟨fun c hc n ht hout => ?_, fun c hc => ?_⟩
    · obtain ⟨h1, h2⟩ := hu.files c hc n ht
      exact List.count_eq_one_of_mem hI.shownOnce (h c hc n ht (hcov c hc n h1 h2) hout)
    · obtain ⟨r, f₁, hnext, hscan⟩ :=
        nextText_scan (hI.nums ▸ hu) (hI.nums ▸ hc) (hI.pos c) hfuel
      cases r with
      | some m =>
        obtain ⟨h1, h2, hout, -⟩ := hscan.found m rfl
        exact absurd (hscan.grows (hcov c hc m h1 h2)) hout
      | none =>
        rw [hI.confs, hnext]
        rfl

/-- With an empty comment stack and comments that form a forest, `cmd_readall` ends.  It shows every
unread text exactly once and leaves none for `next_text`, exactly when every turn is safe: no
estimate of `first_text` lies beyond an unread text where `next_text` or `more_conf` jumps to it. -/
theorem readall_reads_once_iff {f : ConfsFile} (hu : UserFiles t mbox l f.nums)
    (hforest : ∀ c ∈ f.nums, 0 < c → CommentForest t c) (hpos : ∀ c, ∀ n ∈ f.read c, 1 ≤ n)
    (hfuel : ∀ e ∈ l.entries, e.lastText.toNat < fuel) (currentConf : Int) :
    ∃ s, (∃ N, ∀ turns, N ≤ turns → cmdReadall t fuel turns currentConf f.bytes = some s) ∧
      (ReadsOnce t f fuel s ↔
        ∀ u, Loops.Passes (readTurn t fuel) (.start currentConf [] f.bytes) u →
          SafeTurn t mbox l u) := by
  have hstart : TurnInv t mbox l f (3 * (unreadNumbers mbox l f).ncard + 2)
      (.start currentConf [] f.bytes) := by
    refine ⟨f, 2, ⟨rfl, rfl, hpos, fun _ _ => id, ?_, List.nodup_nil, ?_, List.nodup_nil⟩,
      List.mem_of_head? hu.mailboxFirst, Nat.le_refl 2, trivial, rfl⟩
    · intro n hn
      cases hn
    · intro q hq
      cases hq
  obtain ⟨s, hrun, hall, hkept⟩ :=
    Loops.exists_loop (fun m s hI => exists_goodTurn hu hforest hfuel hI) hstart
  refine ⟨s, hrun, ?_⟩
  rw [readsOnce_iff hu hfuel hall, hkept]
  refine and_iff_right ?_
  rw [keptUnread_iff (f := f) rfl]
  intro c _ n _ hin hout
  exact absurd hin hout

end Turns

def sampleFile (num : Int) (cl : List CommentLink) : CString :=
  textBytes num sampleHeader (unlines ["Hello".toList]) ++ linkLines cl

/-- A conference of three texts, the first with two comments of which the second is gone. -/
def threadBase : TextBase where
  mailbox := stringifyConfStruct emptyMailbox
  conffile := confBytes [⟨1, 3, 2, 0, 1, 0, 0, "Test".toList⟩]
  textFile conf n :=
    if conf = 1 ∧ n = 1 then some (sampleFile 1 [⟨2, 5⟩, ⟨3, 5⟩])
    else if conf = 1 ∧ n = 2 then some (sampleFile 2 [])
    else none
  blocked _ := false

def threadList : ConfFile where
  entries := [⟨1, 3, 2, 0, 1, 0, 0, "Test".toList⟩]
  oneLine := by decide
  numbered := by decide
  positive := by decide

theorem threadBase_texts {conf n : Int} {file : CString}
    (h : threadBase.textFile conf n = some file) :
    conf = 1 ∧ (n = 1 ∧ file = sampleFile 1 [⟨2, 5⟩, ⟨3, 5⟩] ∨ n = 2 ∧ file = sampleFile 2 []) := by
  simp only [threadBase] at h
  split at h
  · next hc => exact ⟨hc.1, Or.inl ⟨hc.2, (Option.some.inj h).symm⟩⟩
  · split at h
    · next hc => exact ⟨hc.1, Or.inr ⟨hc.2, (Option.some.inj h).symm⟩⟩
    · cases h

theorem userFiles_threadBase : UserFiles threadBase emptyMailbox threadList newConfs.nums where
  listed := ⟨rfl, by decide, rfl⟩
  mailboxFirst := rfl
  subscribed := by decide
  files := by
    intro c _ n hn
    obtain ⟨file, hfile⟩ := Option.isSome_iff_exists.mp hn
    obtain ⟨rfl, ⟨rfl, -⟩ | ⟨rfl, -⟩⟩ := threadBase_texts hfile
    · decide
    · decide
  parses := by
    intro c _ n file hfile
    obtain ⟨-, ⟨-, rfl⟩ | ⟨-, rfl⟩⟩ := threadBase_texts hfile
    · decide +kernel
    · decide +kernel
  senders c _ _ := threadBase.sendersFound_of_local fun n file hfile => by
    obtain ⟨-, ⟨-, rfl⟩ | ⟨-, rfl⟩⟩ := threadBase_texts hfile
    · decide +kernel
    · decide +kernel

theorem threadBase_links (p : Int) : threadBase.links 1 p = if p = 1 then [2, 3] else [] := by
  cases hfile : threadBase.textFile 1 p with
  | none =>
    have hne : p ≠ 1 := by
      rintro rfl
      cases hfile
    rw [threadBase.links_of_missing hfile, if_neg hne]
  | some file =>
    obtain ⟨-, ⟨rfl, -⟩ | ⟨rfl, -⟩⟩ := threadBase_texts hfile
    · decide +kernel
    · decide +kernel

theorem commentForest_threadBase : CommentForest threadBase 1 where
  above p n hn := by
    rw [threadBase_links] at hn
    split at hn
    · have : n = 2 ∨ n = 3 := by simpa using hn
      omega
    · cases hn
  once p := by
    rw [threadBase_links]
    split <;> decide
  parent p q n hp hq := by
    rw [threadBase_links] at hp hq
    split at hp
    · split at hq
      · omega
      · cases hq
    · cases hp

theorem newConfs_pos : ∀ c, ∀ n ∈ newConfs.read c, 1 ≤ n := newConfs.read_pos (by decide)

theorem readall_reads_once_iff_threadBase :
    ∃ s, (∃ N, ∀ turns, N ≤ turns → cmdReadall threadBase 4 turns 0 newConfs.bytes = some s) ∧
      (ReadsOnce threadBase newConfs 4 s ↔
        ∀ u, Loops.Passes (readTurn threadBase 4) (.start 0 [] newConfs.bytes) u →
          SafeTurn threadBase emptyMailbox threadList u) := by
  refine readall_reads_once_iff userFiles_threadBase ?_ newConfs_pos (by decide) 0
  intro c hc hpos
  have h01 : c = 0 ∨ c = 1 := by simpa [newConfs, ConfsFile.nums] using hc
  obtain rfl : c = 1 := by omega
  exact commentForest_threadBase

/-- A conference of twelve texts of which the second and the last are left. -/
def sparseBase : TextBase where
  mailbox := stringifyConfStruct emptyMailbox
  conffile := confBytes [⟨1, 12, 2, 0, 1, 0, 0, "Test".toList⟩]
  textFile conf n := if conf = 1 ∧ (n = 2 ∨ n = 12) then some (sampleFile n []) else none
  blocked _ := false

/-- Text 2 is unread, and only text 12 is shown. -/
theorem readall_misses_text :
    ∃ s, cmdReadall sparseBase 13 5 1 newConfs.bytes = some s ∧ s.shown = [(1, 12)] ∧
      sparseBase.disk.texts 1 2 ∧ 2 ∉ newConfs.read 1 ∧ ¬ ReadsOnce sparseBase newConfs 13 s := by
  have hrun : cmdReadall sparseBase 13 5 1 newConfs.bytes =
      some ⟨1, -1, [], "0:\n1:1-12\n".toList, [(1, 12)]⟩ := by
    decide +kernel
  have hout : (2 : Int) ∉ newConfs.read 1 := by
    rintro ⟨il, hl, hc⟩
    cases hl
    exact IntervalList.covers_nil 2 hc
  refine ⟨_, hrun, rfl, rfl, hout, fun h => ?_⟩
  have hcount := h.1 1 (by decide) 2 rfl hout
  revert hcount
  decide

end SklaffKom
