import SklaffKom.Lib.Runs
import SklaffKom.FirstText
import Mathlib.Data.List.Nodup

/-!
# Which news articles are new

`newstoss` stores the articles of a group's spool as texts of a conference.  What is new is decided
by time alone: an article is stored unless its file is older than that of the last text, which
comments change too.  Articles arrive and comments are written also while a run is in progress, so
the handling of each article is a step of its own.
-/

open Runs

namespace SklaffKom

/-- A file of the spool: its number and its modification time. -/
structure SpoolArticle where
  num : Int
  mtime : Int
deriving DecidableEq, Repr

/-- A text of the conference: the modification time of its file, and the article that it was
imported from. -/
structure NewsText where
  mtime : Int
  article : Option Int
deriving DecidableEq, Repr

/-- The variables of `main`: `ce.last_text`, the last article of the active file, the article that
is tried next, and `mtime` once `flag` is set. -/
structure NewsRun where
  lastText : Nat
  last : Int
  first : Int
  mtime : Option Int
deriving DecidableEq, Repr

/-- The spool, the last number in the active file, the texts of the conference in the order of their
numbers, and the run in progress. -/
structure NewsState where
  spool : List SpoolArticle
  active : Int
  texts : List NewsText
  run : Option NewsRun
deriving DecidableEq, Repr

inductive NewsEvent where
  | arrive (a : SpoolArticle)
  | comment (now : Int) (num : Nat)
  | begin
  | next (now : Int) (com : Nat)
  | finish
deriving DecidableEq, Repr

/-- `file_exists` on the article `num`. -/
def articleExists (spool : List SpoolArticle) (num : Int) : Bool := spool.any (·.num = num)

def firstNewsLoop (file : Int → Bool) : Nat → Int → Int → Int → Int
  | 0, _, _, ptr => ptr
  | fuel + 1, first, last, ptr =>
    if last > first then
      let ptr := (first + last) / 2
      if file ptr then firstNewsLoop file fuel first ptr ptr
      else if file (ptr - 1) then firstNewsLoop file fuel first (ptr - 1) (ptr - 1)
      else if file (ptr - 2) then firstNewsLoop file fuel first (ptr - 2) (ptr - 2)
      else if file (ptr - 3) then firstNewsLoop file fuel first (ptr - 3) (ptr - 3)
      else firstNewsLoop file fuel (ptr + 1) last (ptr + 1)
    else ptr

/-- `first_news`: the interval gets shorter each time. -/
def firstNews (file : Int → Bool) (last : Int) : Int := firstNewsLoop file last.toNat 1 last 1

/-- The modification time of the text `num`, 0 without one. -/
def fileTime (texts : List NewsText) (num : Nat) : Int :=
  if num = 0 then 0 else ((texts[num - 1]?).map NewsText.mtime).getD 0

/-- A line is added to the text `num`, where there is one. -/
def touchText (now : Int) (num : Nat) (texts : List NewsText) : List NewsText :=
  if num = 0 then texts else texts.modify (num - 1) fun t => { t with mtime := now }

/-- The step of the loop of `main` at an article that can be opened; `com` is the text that it
refers to. -/
def importArticle (now : Int) (com : Nat) (r : NewsRun) (a : SpoolArticle) (s : NewsState) :
    NewsState :=
  -- the time of the last text is taken at the first article that is opened
  let mtime := r.mtime.getD (fileTime s.texts r.lastText)
  { s with
    texts := if a.mtime < mtime then s.texts
      else touchText now com (s.texts ++ [⟨now, some a.num⟩])
    run := some { r with first := r.first + 1, mtime := some mtime } }

/-- One step: an article arrives after all others, a user comments a text, or a part of a run. -/
def newsStep (s : NewsState) : NewsEvent → Option NewsState
  | .arrive a =>
    if s.active < a.num ∧ s.spool.all (·.mtime ≤ a.mtime) then
      some { s with spool := s.spool ++ [a], active := a.num }
    else none
  | .comment now num =>
    if 0 < num ∧ num ≤ s.texts.length then
      some { s with texts := touchText now num (s.texts ++ [⟨now, none⟩]) }
    else none
  | .begin =>
    if s.run = none then
      some { s with run := some ⟨s.texts.length, s.active,
               firstNews (articleExists s.spool) s.active, none⟩ }
    else none
  | .next now com =>
    match s.run with
    | none => none
    | some r =>
      if r.first ≤ r.last ∧ r.first ≠ 0 then
        match s.spool.find? (·.num = r.first) with
        | none => some { s with run := some { r with first := r.first + 1 } }
        | some a => some (importArticle now com r a s)
      else none
  | .finish =>
    match s.run with
    | none => none
    | some r => if r.first ≤ r.last ∧ r.first ≠ 0 then none else some { s with run := none }

/-- The number of texts that were imported from the article `num`. -/
def NewsState.copies (s : NewsState) (num : Int) : Nat :=
  s.texts.countP (·.article = some num)

/-- No article is stored twice, and at the end of a run each of those that were there at its
beginning is stored. -/
def ImportedOnce (s : NewsState) (e : NewsEvent) (s' : NewsState) : Prop :=
  (∀ a ∈ s'.spool, s'.copies a.num ≤ 1) ∧
    (e = .finish → ∀ r, s.run = some r → ∀ a ∈ s'.spool, a.num ≤ r.last → s'.copies a.num = 1)

/-- A run begins where no article that is not stored comes before the first one that `first_news`
finds, and when it looks at the last text, exactly the articles that are stored are older. -/
def TimesSeparate (s : NewsState) : NewsEvent → Prop
  | .begin => ∀ a ∈ s.spool, s.copies a.num = 0 → firstNews (articleExists s.spool) s.active ≤ a.num
  | .next _ _ => ∀ r ∈ s.run, r.mtime = none → articleExists s.spool r.first = true →
      ∀ a ∈ s.spool, a.num ≤ r.last →
        (a.mtime < fileTime s.texts r.lastText ↔ s.copies a.num ≠ 0)
  | _ => True

instance (s : NewsState) : (e : NewsEvent) → Decidable (TimesSeparate s e)
  | .begin => inferInstanceAs (Decidable (∀ a ∈ s.spool, s.copies a.num = 0 →
      firstNews (articleExists s.spool) s.active ≤ a.num))
  | .next _ _ => inferInstanceAs (Decidable (∀ r ∈ s.run, r.mtime = none →
      articleExists s.spool r.first = true → ∀ a ∈ s.spool, a.num ≤ r.last →
        (a.mtime < fileTime s.texts r.lastText ↔ s.copies a.num ≠ 0)))
  | .arrive _ => inferInstanceAs (Decidable True)
  | .comment _ _ => inferInstanceAs (Decidable True)
  | .finish => inferInstanceAs (Decidable True)

def NewsState.start : NewsState := ⟨[], 0, [], none⟩

/-! ## What is stored -/

/-- A touched text is imported from the same article. -/
theorem map_article_touchText (now : Int) (num : Nat) (texts : List NewsText) :
    (touchText now num texts).map NewsText.article = texts.map NewsText.article := by
  have hmodify : ∀ (k : Nat) (ts : List NewsText),
      (ts.modify k fun t => { t with mtime := now }).map NewsText.article =
        ts.map NewsText.article := by
    intro k ts
    induction ts generalizing k with
    | nil => rw [List.modify_nil]
    | cons t ts ih =>
      cases k with
      | zero => rw [List.modify_zero_cons, List.map_cons, List.map_cons]
      | succ k => rw [List.modify_succ_cons, List.map_cons, List.map_cons, ih]
  unfold touchText
  split
  · rfl
  · exact hmodify _ _

/-- The texts of an article are counted by what the texts were imported from. -/
theorem copies_eq (s : NewsState) (num : Int) :
    s.copies num = (s.texts.map NewsText.article).count (some num) := by
  rw [NewsState.copies, List.count, List.countP_map]
  refine List.countP_congr fun t _ => ?_
  simp

/-- A text is added and another touched. -/
theorem copies_touch_append (s : NewsState) (now : Int) (com : Nat) (t : NewsText) (num : Int) :
    NewsState.copies { s with texts := touchText now com (s.texts ++ [t]) } num =
      s.copies num + if t.article = some num then 1 else 0 := by
  rw [copies_eq, copies_eq]
  dsimp only
  rw [map_article_touchText, List.map_append, List.count_append, List.map_singleton,
    List.count_singleton]
  simp only [beq_iff_eq]

/-! ## The first article -/

theorem articleExists_iff {spool : List SpoolArticle} {num : Int} :
    articleExists spool num = true ↔ ∃ a ∈ spool, a.num = num := by
  simp [articleExists]

/-- The loop is that of `first_text`. -/
theorem firstNewsLoop_eq (file : Int → Bool) (fuel : Nat) (first last ptr : Int) :
    firstNewsLoop file fuel first last ptr = firstTextLoop file fuel first last ptr := by
  induction fuel generalizing first last ptr with
  | zero => rw [firstNewsLoop, firstTextLoop]
  | succ fuel ih =>
    rw [firstNewsLoop, firstTextLoop]
    simp only [ih]

theorem firstNews_run (file : Int → Bool) (last : Int) :
    FirstTextRun file 1 last 1 (firstNews file last) := by
  rw [firstNews, firstNewsLoop_eq]
  exact firstTextLoop_run _ (by omega)

/-- A positive number is found where all articles have one. -/
theorem firstNews_pos {file : Int → Bool} (hfile : ∀ n, file n = true → 1 ≤ n) (last : Int) :
    1 ≤ firstNews file last :=
  ((firstNews_run file last).bounds hfile le_rfl (le_max_right 1 last)
    ⟨le_rfl, le_max_left 1 last⟩).1

/-- `first_news` finds the first article where no four consecutive numbers after it are missing. -/
theorem firstNews_least {file : Int → Bool} {m last : Int} (hm : IsLeast {n | file n = true} m)
    (hpos : 1 ≤ m) (hle : m ≤ last) (hgap : NoLongGap file m last) : firstNews file last = m := by
  have hrun := firstNews_run file last
  apply le_antisymm
  · exact hrun.le hm.1 hgap hpos le_rfl (Or.inl rfl)
  · exact hrun.ge (fun n hn => hm.2 hn) hle (by omega)

/-! ## Every step -/

/-- What is known of the run in progress: the articles before `first` are stored, and of the others
those that are older than the last text was when it was looked at. -/
structure NewsRun.Right (s : NewsState) (r : NewsRun) : Prop where
  last : r.last ≤ s.active
  first : 1 ≤ r.first
  before : ∀ a ∈ s.spool, a.num ≤ r.last → a.num < r.first → s.copies a.num = 1
  rest : ∀ m, r.mtime = some m → ∀ a ∈ s.spool, a.num ≤ r.last → r.first ≤ a.num →
    s.copies a.num = if a.mtime < m then 1 else 0

/-- The articles have distinct numbers up to that of the active file, no text comes from another
article, and none is stored twice. -/
structure NewsInv (s : NewsState) : Prop where
  active : 0 ≤ s.active
  numbered : ∀ a ∈ s.spool, 1 ≤ a.num ∧ a.num ≤ s.active
  distinct : (s.spool.map SpoolArticle.num).Nodup
  sources : ∀ num, s.active < num → s.copies num = 0
  once : ∀ a ∈ s.spool, s.copies a.num ≤ 1
  running : ∀ r, s.run = some r → r.Right s

theorem newsInv_start : NewsInv .start where
  active := Int.le_refl 0
  numbered := by simp [NewsState.start]
  distinct := List.nodup_nil
  sources := fun num _ => rfl
  once := by simp [NewsState.start]
  running := by simp [NewsState.start]

/-- Nothing but the times of texts and texts of other origin is new. -/
theorem NewsInv.texts {s : NewsState} (h : NewsInv s) {texts : List NewsText}
    (hcopies : ∀ num, NewsState.copies { s with texts := texts } num = s.copies num) :
    NewsInv { s with texts := texts } where
  active := h.active
  numbered := h.numbered
  distinct := h.distinct
  sources := fun num hnum => (hcopies num).trans (h.sources num hnum)
  once := fun a ha => (hcopies a.num).symm ▸ h.once a ha
  running := by
    intro r hr
    have hright := h.running r hr
    refine ⟨hright.last, hright.first, fun a ha hl hf => ?_, fun m hm a ha hl hf => ?_⟩
    · exact (hcopies _).trans (hright.before a ha hl hf)
    · exact (hcopies _).trans (hright.rest m hm a ha hl hf)

theorem newsInv_arrive {s : NewsState} (h : NewsInv s) {a : SpoolArticle} (ha : s.active < a.num) :
    NewsInv { s with spool := s.spool ++ [a], active := a.num } := by
  have hactive := h.active
  have hmem : ∀ {b : SpoolArticle}, b ∈ s.spool ++ [a] → b ∈ s.spool ∨ b = a := by
    intro b hb
    simpa using hb
  -- no text comes from the new article yet
  have hnew : s.copies a.num = 0 := h.sources a.num ha
  refine ⟨by show 0 ≤ a.num; omega, fun b hb => ?_, ?_, fun num hnum => ?_, fun b hb => ?_,
    fun r hr => ?_⟩
  · show 1 ≤ b.num ∧ b.num ≤ a.num
    rcases hmem hb with hb | rfl
    · have := h.numbered b hb
      omega
    · omega
  · rw [List.map_append, List.nodup_append]
    refine ⟨h.distinct, List.nodup_singleton _, fun n hn m hm => ?_⟩
    obtain ⟨b, hb, rfl⟩ := List.mem_map.mp hn
    have hle := (h.numbered b hb).2
    have hm' : m = a.num := by simpa using hm
    omega
  · exact h.sources num (by have : a.num < num := hnum; omega)
  · rcases hmem hb with hb | rfl
    · exact h.once b hb
    · show s.copies b.num ≤ 1
      omega
  · have hright := h.running r hr
    have hlast := hright.last
    refine ⟨by show r.last ≤ a.num; omega, hright.first, fun b hb hl hf => ?_,
      fun m hm b hb hl hf => ?_⟩
    -- the run in progress does not look at it
    · rcases hmem hb with hb | rfl
      · exact hright.before b hb hl hf
      · omega
    · rcases hmem hb with hb | rfl
      · exact hright.rest m hm b hb hl hf
      · omega

theorem newsInv_begin {s : NewsState} (h : NewsInv s) (hfound : TimesSeparate s .begin) :
    NewsInv { s with run := some ⟨s.texts.length, s.active,
      firstNews (articleExists s.spool) s.active, none⟩ } := by
  refine { h with running := fun r hr => ?_ }
  cases hr
  refine ⟨Int.le_refl _, firstNews_pos (fun n hn => ?_) _, fun a ha _ hf => ?_, fun m hm => ?_⟩
  · obtain ⟨a, ha, rfl⟩ := articleExists_iff.mp hn
    exact (h.numbered a ha).1
  · have honce := h.once a ha
    have hlt : a.num < firstNews (articleExists s.spool) s.active := hf
    have hstored : s.copies a.num ≠ 0 := by
      intro hzero
      have hle := hfound a ha hzero
      omega
    show s.copies a.num = 1
    omega
  · cases hm

/-- A number without an article is passed over. -/
theorem newsInv_missing {s : NewsState} (h : NewsInv s) {r : NewsRun} (hr : s.run = some r)
    (hnone : s.spool.find? (·.num = r.first) = none) :
    NewsInv { s with run := some { r with first := r.first + 1 } } := by
  have hright := h.running r hr
  have hfirst := hright.first
  have hmissing : ∀ a ∈ s.spool, a.num ≠ r.first := by
    intro a ha
    have hne := List.find?_eq_none.mp hnone a ha
    simpa using hne
  refine { h with running := fun r' hr' => ?_ }
  cases hr'
  refine ⟨hright.last, by show 1 ≤ r.first + 1; omega, fun a ha hl hf => ?_, fun m hm a ha hl hf => ?_⟩
  · have hne := hmissing a ha
    have hlt : a.num < r.first + 1 := hf
    exact hright.before a ha hl (by omega)
  · have hle : r.first + 1 ≤ a.num := hf
    exact hright.rest m hm a ha hl (by omega)

/-- An article is stored or passed over by its time. -/
theorem newsInv_import {s : NewsState} (h : NewsInv s) {r : NewsRun} (hr : s.run = some r)
    {a : SpoolArticle} (ha : a ∈ s.spool) (hnum : a.num = r.first) (hlast : r.first ≤ r.last)
    {now : Int} {com : Nat} (hsep : TimesSeparate s (.next now com)) :
    NewsInv (importArticle now com r a s) := by
  have hright := h.running r hr
  have hfirst := hright.first
  -- the articles that are not older than the last text are those that are not stored
  have hrest : ∀ b ∈ s.spool, b.num ≤ r.last → r.first ≤ b.num →
      s.copies b.num = if b.mtime < r.mtime.getD (fileTime s.texts r.lastText) then 1 else 0 := by
    intro b hb hl hf
    cases hm : r.mtime with
    | some m => exact hright.rest m hm b hb hl hf
    | none =>
      have hiff := hsep r hr hm (articleExists_iff.mpr ⟨a, ha, hnum⟩) b hb hl
      have honce := h.once b hb
      rw [Option.getD_none]
      split
      next hlt =>
        have := hiff.mp hlt
        omega
      next hge =>
        by_contra hne
        exact hge (hiff.mpr hne)
  -- numbers are distinct, so this article alone gets a text
  have hsame : ∀ b ∈ s.spool, b.num = r.first → b = a := by
    intro b hb hbn
    exact List.inj_on_of_nodup_map h.distinct hb ha (hbn.trans hnum.symm)
  have hthis := hrest a ha (by omega) (by omega)
  unfold importArticle
  dsimp only
  generalize r.mtime.getD (fileTime s.texts r.lastText) = m at hrest hthis ⊢
  split
  next hold =>
    rw [if_pos hold] at hthis
    refine { h with running := fun r' hr' => ?_ }
    cases hr'
    refine ⟨hright.last, by show 1 ≤ r.first + 1; omega, fun b hb hl hf => ?_,
      fun m' hm' b hb hl hf => ?_⟩
    · have hlt : b.num < r.first + 1 := hf
      by_cases hb' : b.num = r.first
      · rw [hsame b hb hb']
        exact hthis
      · exact hright.before b hb hl (by omega)
    · cases hm'
      have hle : r.first + 1 ≤ b.num := hf
      exact hrest b hb hl (by omega)
  next hnew =>
    rw [if_neg hnew] at hthis
    have hcopies : ∀ run num, NewsState.copies { s with
        texts := touchText now com (s.texts ++ [⟨now, some a.num⟩]), run := run } num =
        s.copies num + if a.num = num then 1 else 0 := by
      intro run num
      have hc := copies_touch_append s now com ⟨now, some a.num⟩ num
      simp only [Option.some.injEq] at hc
      exact hc
    have hactive := h.numbered a ha
    refine ⟨h.active, h.numbered, h.distinct, fun num hn => ?_, fun b hb => ?_, fun r' hr' => ?_⟩
    · have hlt : s.active < num := hn
      rw [hcopies, h.sources num hlt, if_neg (by omega)]
    · rw [hcopies]
      split
      next hb' =>
        rw [← hb']
        omega
      next => exact h.once b hb
    · cases hr'
      refine ⟨hright.last, by show 1 ≤ r.first + 1; omega, fun b hb hl hf => ?_,
        fun m' hm' b hb hl hf => ?_⟩
      · have hlt : b.num < r.first + 1 := hf
        rw [hcopies]
        by_cases hb' : a.num = b.num
        · rw [if_pos hb', ← hb', hthis]
        · rw [if_neg hb']
          exact hright.before b hb hl (by omega)
      · cases hm'
        have hle : r.first + 1 ≤ b.num := hf
        rw [hcopies, if_neg (by omega)]
        exact hrest b hb hl (by omega)

theorem newsStep_inv {s s' : NewsState} {e : NewsEvent} (h : NewsInv s)
    (hs : newsStep s e = some s') (hsep : TimesSeparate s e) : NewsInv s' ∧ ImportedOnce s e s' := by
  cases e with
  | arrive a =>
    rw [newsStep] at hs
    split at hs
    next hcond =>
      cases hs
      have hI := newsInv_arrive h hcond.1
      exact ⟨hI, hI.once, fun he => by cases he⟩
    next => cases hs
  | comment now num =>
    rw [newsStep] at hs
    split at hs
    next =>
      cases hs
      have hI := h.texts fun n => (copies_touch_append s now num ⟨now, none⟩ n).trans (by simp)
      exact ⟨hI, hI.once, fun he => by cases he⟩
    next => cases hs
  | begin =>
    rw [newsStep] at hs
    split at hs
    next =>
      cases hs
      have hI := newsInv_begin h hsep
      exact ⟨hI, hI.once, fun he => by cases he⟩
    next => cases hs
  | next now com =>
    rw [newsStep] at hs
    split at hs
    next => cases hs
    next r hr =>
      split at hs
      next hloop =>
        split at hs
        next hnone =>
          cases hs
          have hI := newsInv_missing h hr hnone
          exact ⟨hI, hI.once, fun he => by cases he⟩
        next a ha =>
          cases hs
          have hnum : a.num = r.first := by simpa using List.find?_some ha
          have hI := newsInv_import h hr (List.mem_of_find?_eq_some ha) hnum hloop.1 hsep
          exact ⟨hI, hI.once, fun he => by cases he⟩
      next => cases hs
  | finish =>
    rw [newsStep] at hs
    split at hs
    next => cases hs
    next r hr =>
      split at hs
      next => cases hs
      next hdone =>
        cases hs
        have hright := h.running r hr
        have hfirst := hright.first
        refine ⟨{ h with running := fun r' hr' => by cases hr' }, h.once, fun _ r' hr' a ha hl => ?_⟩
        rw [hr] at hr'
        cases hr'
        -- the loop has gone past the last article
        exact hright.before a ha hl (by omega)

/-- Along every sequence of arrivals, comments and runs, in any order and at any times, every article
is stored at most once, and exactly once at the end of a run that began after it had arrived, if each
run finds the first article that is not stored and the time of the last text separates the articles
that are stored from those that are not. -/
theorem news_imported_once (es : List NewsEvent)
    (h : AllSteps newsStep (fun s e _ => TimesSeparate s e) .start es) :
    AllSteps newsStep ImportedOnce .start es :=
  AllSteps.imp (I := NewsInv) (P := ImportedOnce) (fun _ _ _ hI hs hsep => newsStep_inv hI hs hsep)
    newsInv_start h

/-- Two articles in consecutive seconds, and a run in the second after each. -/
def newsExample : List NewsEvent :=
  [.arrive ⟨1, 100⟩, .begin, .next 101 0, .finish, .comment 101 1, .arrive ⟨2, 101⟩, .begin,
    .next 102 0, .next 102 2, .finish]

theorem news_imported_once_example : AllSteps newsStep ImportedOnce .start newsExample :=
  news_imported_once newsExample (by decide +kernel)

/-- A run in the second in which the article has arrived, and another run. -/
def newsTwice : List NewsEvent :=
  [.arrive ⟨1, 100⟩, .begin, .next 100 0, .finish, .begin, .next 200 0, .finish]

/-- A comment after the second article has arrived. -/
def newsSkipped : List NewsEvent :=
  [.arrive ⟨1, 100⟩, .begin, .next 110 0, .finish, .arrive ⟨2, 120⟩, .comment 130 1, .begin,
    .next 140 0, .next 140 0, .finish]

/-- The first article is stored twice, the other one not at all. -/
theorem news_not_imported_once :
    (run newsStep .start newsTwice).map (fun s => (s.run, s.spool, s.copies 1)) =
        some (none, [⟨1, 100⟩], 2) ∧
      (run newsStep .start newsSkipped).map (fun s => (s.run, s.spool, s.copies 2)) =
        some (none, [⟨1, 100⟩, ⟨2, 120⟩], 0) := by
  constructor <;> decide +kernel

end SklaffKom
