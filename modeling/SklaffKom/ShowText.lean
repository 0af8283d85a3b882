import SklaffKom.FootNote
import SklaffKom.NextText

/-!
# Showing a text

`display_text` shows a text with the comments on it.  A comment whose file is missing is marked as
read; the other ones that are unread go to the comment stack, the first one on top.
-/

open CString

namespace SklaffKom

/-- The files beside the user's own conference file, and the user's blocklist. -/
structure TextBase where
  mailbox : CString
  conffile : CString
  /-- `SKLAFF_DB/conf/text`, the user's mail for conference 0, and mail of others below 0. -/
  textFile : Int → Int → Option CString
  /-- `sender_is_blocked` for the author of a text. -/
  blocked : TextEntry → Bool

namespace TextBase

variable (t : TextBase)

def disk : Disk where
  mailbox := t.mailbox
  conffile := t.conffile
  fileExists conf n := (t.textFile conf n).isSome

/-- The numbers of the comments on a text, as `display_text` parses its file. -/
def links (conf n : Int) : List Int :=
  match t.textFile conf n with
  | none => []
  | some file =>
    match displayEntry file with
    | .entry te _ => te.cl.map (·.commentNum)
    | _ => []

theorem links_of_missing {conf n : Int} (h : t.textFile conf n = none) : t.links conf n = [] := by
  simp only [links, h]

/-- The file of a text holds a line with `MSG_EMFROM`, `MSG_EMFROM2` or `MSG_EMFROM3`. -/
def hasSender (conf n : Int) : Bool :=
  match (t.textFile conf n).map getTextEntry with
  | some (.entry te _) => te.body.any fun line =>
    ["From: ", "from: ", "FROM: "].any fun mark => (strstr line mark.toList).isSome
  | _ => false

/-- The transferred comments on the texts of a conference have a sender. -/
def SendersFound (conf : Int) : Prop :=
  ∀ n file te next, t.textFile conf n = some file → displayEntry file = .entry te next →
    ∀ c ∈ te.cl, c.commentAuthor = 0 → t.textFile conf c.commentNum ≠ none →
      t.hasSender conf c.commentNum = true

/-- No comment is transferred. -/
def localLinks (file : CString) : Bool :=
  match displayEntry file with
  | .entry te _ => te.cl.all (·.commentAuthor ≠ 0)
  | _ => true

theorem sendersFound_of_local {conf : Int} (h : ∀ n file, t.textFile conf n = some file → localLinks file = true) :
    t.SendersFound conf := by
  intro n file te next hfile hentry c hc hauthor
  have hlocal := h n file hfile
  unfold localLinks at hlocal
  rw [hentry] at hlocal
  exact absurd hauthor (of_decide_eq_true (List.all_eq_true.mp hlocal c hc))

end TextBase

/-- The loop of `display_text` that lists the comments: the links with the number of a missing text
zeroed, `none` when `display_text` returns -1 there, and the conference file; `none` is a crash.  The user
stops the output after `quit` more lines. -/
def listLinks (t : TextBase) (conf : Int) :
    Option Nat → List CommentLink → CString → Option (Option (List CommentLink) × CString)
  | _, [], buf => some (some [], buf)
  | quit, c :: cl, buf =>
    if conf > 0 ∧ t.textFile conf c.commentNum = none then do
      let r ← markAsRead none c.commentNum conf buf
      let s ← listLinks t conf quit cl r.2
      pure (s.1.map ({ c with commentNum := 0 } :: ·), s.2)
    else if c.commentNum = 0 then do
      let s ← listLinks t conf quit cl buf
      pure (s.1.map (c :: ·), s.2)
    -- the author of a transferred comment is looked up in its file under `SKLAFF_DB`
    else if c.commentAuthor = 0 ∧ conf ≤ 0 then some (none, buf)
    -- without a sender `strlen(MSG_EMFROM)` is added to `NULL`
    else if c.commentAuthor = 0 ∧ t.hasSender conf c.commentNum = false then none
    else if quit = some 0 then some (some (c :: cl), buf)
    else do
      let s ← listLinks t conf (quit.map (· - 1)) cl buf
      pure (s.1.map (c :: ·), s.2)

/-- The numbers of the links that are unread in `conf`. -/
def unreadLinks (conf : Int) (buf : CString) : List CommentLink → Option (List Int)
  | [] => some []
  | c :: cl => do
    let ns ← unreadLinks conf buf cl
    if c.commentNum = 0 then pure ns
    else
      let r ← checkIfRead c.commentNum conf buf
      pure (if r = 0 then c.commentNum :: ns else ns)

def popComment : List Int → Int × List Int
  | [] => (-1, [])
  | n :: stack => (n, stack)

/-- `display_text`: what it returns, the conference file afterwards, and what it puts on the comment
stack. -/
def displayText (t : TextBase) (quit : Option Nat) (currentConf conf num : Int) (stack : Bool)
    (buf : CString) : Option (Int × CString × List Int) :=
  if num = 0 then some (-1, buf, [])
  else
    match t.textFile conf num with
    | none => some (-1, buf, [])
    | some file =>
      match displayEntry file with
      | .crash => none
      | .null => some (-1, buf, [])
      | .entry te _ =>
        if t.blocked te then some (0, buf, [])
        else
          match listLinks t conf quit te.cl buf with
          | none => none
          | some (none, buf) => some (-1, buf, [])
          | some (some cl, buf) =>
            if stack ∧ currentConf ≠ 0 then
              (unreadLinks currentConf buf cl).map fun ns => (0, buf, ns)
            else some (0, buf, [])

/-! ## What is marked and what is stacked -/

/-- What showing a text with the comments `ns` does in its conference: numbers of missing texts
among `ns` are marked as read, and `stacked` are unread numbers of `ns` in their order. -/
structure Shown (t : TextBase) (conf : Int) (ns : List Int) (f f' : ConfsFile)
    (stacked : List Int) : Prop where
  same : SameBut conf f f'
  grows : f.read conf ⊆ f'.read conf
  missing : ∀ m ∈ f'.read conf, m ∉ f.read conf → 0 < conf ∧ m ∈ ns ∧ ¬ t.disk.texts conf m
  sublist : stacked.Sublist ns
  unread : ∀ m ∈ stacked, m ∉ f'.read conf

namespace ConfsFile

variable (f : ConfsFile) {conf text : Int}

/-- `mark_as_read` on any text. -/
theorem markAsRead_bytes (conf : Int) (ht : 0 ≤ text) :
    ∃ r, ∃ g : ConfsFile, markAsRead none text conf f.bytes = some (r, g.bytes) ∧ SameBut conf f g ∧
      ∀ n, n ∈ g.read conf ↔ n ∈ f.read conf ∨ n = text ∧ conf ∈ f.nums := by
  by_cases h : text ∈ f.read conf ∨ conf ∉ f.nums
  · refine ⟨0, f, f.markAsRead_bytes_same h, .refl _ _, fun n => ?_⟩
    rcases h with h | h
    · exact ⟨Or.inl, fun hn => hn.elim id fun hn => hn.1 ▸ h⟩
    · exact ⟨Or.inl, fun hn => hn.elim id fun hn => absurd hn.2 h⟩
  · rw [not_or, not_not] at h
    obtain ⟨g, hg, hsame, hread⟩ := f.markAsRead_bytes_new ht h.2 h.1
    refine ⟨1, g, hg, hsame, fun n => ?_⟩
    rw [hread, Set.mem_insert_iff]
    constructor
    · rintro (rfl | hn)
      · exact Or.inr ⟨rfl, h.2⟩
      · exact Or.inl hn
    · rintro (hn | ⟨rfl, -⟩)
      · exact Or.inr hn
      · exact Or.inl rfl

end ConfsFile

section Shown

variable {t : TextBase} {conf : Int} {f : ConfsFile}

/-- The list of the comments in a conference. -/
theorem listLinks_bytes (hconf : 0 < conf) (quit : Option Nat) {cl : List CommentLink}
    (hcl : ∀ c ∈ cl, 0 ≤ c.commentNum)
    (hsender : ∀ c ∈ cl, c.commentAuthor = 0 → t.textFile conf c.commentNum ≠ none →
      t.hasSender conf c.commentNum = true) :
    ∃ cl' f', listLinks t conf quit cl f.bytes = some (some cl', f'.bytes) ∧
      Shown t conf (cl.map (·.commentNum)) f f' [] ∧
      ((cl'.map (·.commentNum)).filter (· ≠ 0)).Sublist (cl.map (·.commentNum)) ∧
      (quit = none → ∀ c ∈ cl', c.commentNum ≠ 0 → t.disk.texts conf c.commentNum) := by
  induction cl generalizing f quit with
  | nil =>
    refine ⟨[], f, by simp [listLinks], ⟨.refl _ _, fun _ => id, ?_, .slnil, by simp⟩, .slnil, by simp⟩
    intro m hm hout
    exact absurd hm hout
  | cons c cl ih =>
    have hcl' : ∀ a ∈ cl, 0 ≤ a.commentNum := fun a ha => hcl a (List.mem_cons_of_mem _ ha)
    have hsender' := fun a ha => hsender a (List.mem_cons_of_mem c ha)
    rw [listLinks]
    by_cases hmiss : t.textFile conf c.commentNum = none
    · obtain ⟨r, g, hg, hsame, hread⟩ := f.markAsRead_bytes conf (hcl c List.mem_cons_self)
      obtain ⟨cl', f', hrun, hshown, hsub, hex⟩ := ih (f := g) quit hcl' hsender'
      refine ⟨{ c with commentNum := 0 } :: cl', f', ?_, ?_, ?_, ?_⟩
      · rw [if_pos ⟨hconf, hmiss⟩, hg]
        simp [hrun]
      · refine ⟨hsame.trans hshown.same, fun m hm => hshown.grows ((hread m).mpr (Or.inl hm)), ?_,
          List.nil_sublist _, by simp⟩
        intro m hm hout
        by_cases hmg : m ∈ g.read conf
        · obtain ⟨rfl, -⟩ := ((hread m).mp hmg).resolve_left hout
          refine ⟨hconf, by simp, ?_⟩
          simp [Disk.texts, TextBase.disk, hmiss]
        · obtain ⟨-, hmem, hnot⟩ := hshown.missing m hm hmg
          exact ⟨hconf, List.mem_cons_of_mem _ hmem, hnot⟩
      · rw [List.map_cons, List.filter_cons_of_neg (by simp)]
        exact hsub.trans (List.sublist_cons_self _ _)
      · intro hq a ha hne
        rcases List.mem_cons.mp ha with rfl | ha
        · exact absurd rfl hne
        · exact hex hq a ha hne
    · rw [if_neg fun h => hmiss h.2]
      have htext : t.disk.texts conf c.commentNum :=
        Option.isSome_iff_ne_none.mpr hmiss
      -- the link stays as it is
      have hkeep : ∀ quit', (quit = none → quit' = none) →
          ∃ cl' f', listLinks t conf quit' cl f.bytes = some (some cl', f'.bytes) ∧
            Shown t conf ((c :: cl).map (·.commentNum)) f f' [] ∧
            (((c :: cl').map (·.commentNum)).filter (· ≠ 0)).Sublist
              ((c :: cl).map (·.commentNum)) ∧
            (quit = none → ∀ a ∈ c :: cl', a.commentNum ≠ 0 → t.disk.texts conf a.commentNum) := by
        intro quit' hquit
        obtain ⟨cl', f', hrun, hshown, hsub, hex⟩ := ih (f := f) quit' hcl' hsender'
        refine ⟨cl', f', hrun, ⟨hshown.same, hshown.grows, ?_, List.nil_sublist _, by simp⟩, ?_, ?_⟩
        · intro m hm hout
          obtain ⟨-, hmem, hnot⟩ := hshown.missing m hm hout
          exact ⟨hconf, List.mem_cons_of_mem _ hmem, hnot⟩
        · rw [List.map_cons, List.map_cons, List.filter_cons]
          split
          · exact hsub.cons_cons _
          · exact hsub.cons _
        · intro hq a ha _
          rcases List.mem_cons.mp ha with rfl | ha
          · exact htext
          · exact hex (hquit hq) a ha ‹_›
      by_cases hz : c.commentNum = 0
      · obtain ⟨cl', f', hrun, hrest⟩ := hkeep quit id
        exact ⟨c :: cl', f', by rw [if_pos hz]; simp [hrun], hrest⟩
      · have hfound : ¬ (c.commentAuthor = 0 ∧ t.hasSender conf c.commentNum = false) := by
          rintro ⟨hauthor, hno⟩
          rw [hsender c List.mem_cons_self hauthor hmiss] at hno
          cases hno
        rw [if_neg hz, if_neg fun h => by omega, if_neg hfound]
        by_cases hq : quit = some 0
        · refine ⟨c :: cl, f, by rw [if_pos hq], ⟨.refl _ _, fun _ => id, ?_, List.nil_sublist _,
            by simp⟩, List.filter_sublist, fun h => ?_⟩
          · intro m hm hout
            exact absurd hm hout
          · rw [hq] at h
            cases h
        · obtain ⟨cl', f', hrun, hrest⟩ := hkeep (quit.map (· - 1)) (by rintro rfl; rfl)
          exact ⟨c :: cl', f', by rw [if_neg hq]; simp [hrun], hrest⟩

theorem unreadLinks_bytes (f : ConfsFile) (conf : Int) (cl : List CommentLink) :
    ∃ ns, unreadLinks conf f.bytes cl = some ns ∧
      ns.Sublist ((cl.map (·.commentNum)).filter (· ≠ 0)) ∧ ∀ m ∈ ns, m ∉ f.read conf := by
  induction cl with
  | nil => exact ⟨[], rfl, .slnil, by simp⟩
  | cons c cl ih =>
    obtain ⟨ns, hns, hsub, hun⟩ := ih
    rw [unreadLinks, hns]
    by_cases hz : c.commentNum = 0
    · refine ⟨ns, by simp [hz], ?_, hun⟩
      rw [List.map_cons, List.filter_cons_of_neg (by simp [hz])]
      exact hsub
    · obtain ⟨r, hr, -, hread⟩ := f.checkIfRead_bytes c.commentNum conf
      rw [List.map_cons, List.filter_cons_of_pos (by simp [hz])]
      by_cases h0 : r = 0
      · refine ⟨c.commentNum :: ns, by simp [hz, hr, h0], hsub.cons_cons _, ?_⟩
        intro m hm
        rcases List.mem_cons.mp hm with rfl | hm
        · exact hread.mp h0
        · exact hun m hm
      · exact ⟨ns, by simp [hz, hr, h0], hsub.cons _, hun⟩

/-- In a mailbox the list of the comments changes nothing. -/
theorem listLinks_mailbox (hconf : conf ≤ 0) (quit : Option Nat) (cl : List CommentLink)
    (buf : CString) : ∃ r, listLinks t conf quit cl buf = some (r, buf) := by
  induction cl generalizing quit with
  | nil => exact ⟨some [], by simp [listLinks]⟩
  | cons c cl ih =>
    rw [listLinks, if_neg fun h => by omega]
    by_cases hz : c.commentNum = 0
    · obtain ⟨r, hr⟩ := ih quit
      exact ⟨_, by rw [if_pos hz, hr]; rfl⟩
    · rw [if_neg hz]
      by_cases ha : c.commentAuthor = 0 ∧ conf ≤ 0
      · exact ⟨none, if_pos ha⟩
      · rw [if_neg ha, if_neg fun h => ha ⟨h.1, hconf⟩]
        by_cases hq : quit = some 0
        · exact ⟨_, if_pos hq⟩
        · obtain ⟨r, hr⟩ := ih (quit.map (· - 1))
          exact ⟨_, by rw [if_neg hq, hr]; rfl⟩

/-- The texts of a conference can be parsed, and their comments have positive numbers and a sender. -/
structure Readable (t : TextBase) (conf : Int) : Prop where
  parses : ∀ n file, t.textFile conf n = some file → displayEntry file ≠ .crash
  senders : 0 < conf → t.SendersFound conf
  pos : 0 < conf → ∀ n, ∀ m ∈ t.links conf n, 1 ≤ m

theorem Shown.refl (t : TextBase) (conf : Int) (ns : List Int) (f : ConfsFile) :
    Shown t conf ns f f [] :=
  ⟨.refl _ _, fun _ => id, fun _ hm hout => absurd hm hout, List.nil_sublist _, by simp⟩

/-- `display_text` for a text of the current conference, or without stacking. -/
theorem displayText_bytes (hr : Readable t conf) (quit : Option Nat) (cur num : Int)
    (stack : Bool) (hcur : conf = cur ∧ 0 ≤ cur ∨ stack = false) :
    ∃ r f' ns, displayText t quit cur conf num stack f.bytes = some (r, f'.bytes, ns) ∧
      Shown t conf (t.links conf num) f f' ns ∧
      (∀ m ∈ ns, 0 < conf ∧ (quit = none → t.disk.texts conf m)) := by
  unfold displayText
  by_cases hnum : num = 0
  · exact ⟨-1, f, [], if_pos hnum, .refl .., by simp⟩
  rw [if_neg hnum]
  cases hfile : t.textFile conf num with
  | none => exact ⟨-1, f, [], rfl, .refl .., by simp⟩
  | some file =>
    have hlinks : t.links conf num = match displayEntry file with
        | .entry te _ => te.cl.map (·.commentNum)
        | _ => [] := by
      simp only [TextBase.links, hfile]
    have hpos := fun h => hr.pos h num
    cases hentry : displayEntry file with
    | crash => exact absurd hentry (hr.parses num file hfile)
    | null => exact ⟨-1, f, [], by simp only [hentry], .refl .., by simp⟩
    | entry te next =>
      simp only [hentry] at hlinks ⊢
      rw [hlinks] at hpos ⊢
      by_cases hb : t.blocked te = true
      · exact ⟨0, f, [], if_pos hb, .refl .., by simp⟩
      rw [if_neg hb]
      by_cases hconf : 0 < conf
      · have hcl : ∀ c ∈ te.cl, 0 ≤ c.commentNum := by
          intro c hc
          have := hpos hconf _ (List.mem_map_of_mem hc)
          omega
        obtain ⟨cl', f', hrun, hshown, hsub, hex⟩ :=
          listLinks_bytes (f := f) hconf quit hcl (hr.senders hconf num file te next hfile hentry)
        rw [hrun]
        by_cases hstack : stack = true ∧ cur ≠ 0
        · obtain ⟨rfl, -⟩ := hcur.resolve_right fun h => by rw [h] at hstack; simp at hstack
          obtain ⟨ns, hns, hsub', hun⟩ := unreadLinks_bytes f' conf cl'
          refine ⟨0, f', ns, ?_, ⟨hshown.same, hshown.grows, hshown.missing, hsub'.trans hsub, hun⟩,
            fun m hm => ⟨hconf, fun hq => ?_⟩⟩
          · simp only [if_pos hstack, hns, Option.map_some]
          · have hm' := hsub'.subset hm
            rw [List.mem_filter] at hm'
            obtain ⟨c, hc, rfl⟩ := List.mem_map.mp hm'.1
            exact hex hq c hc (by simpa using hm'.2)
        · exact ⟨0, f', [], by simp only [if_neg hstack],
            ⟨hshown.same, hshown.grows, hshown.missing, List.nil_sublist _, by simp⟩, by simp⟩
      · obtain ⟨r, hrun⟩ := listLinks_mailbox (t := t) (not_lt.mp hconf) quit te.cl f.bytes
        rw [hrun]
        cases r with
        | none => exact ⟨-1, f, [], rfl, .refl .., by simp⟩
        | some cl =>
          have hstack : ¬ (stack = true ∧ cur ≠ 0) := by
            rintro ⟨h1, h2⟩
            rcases hcur with ⟨rfl, h0⟩ | h
            · omega
            · rw [h] at h1
              cases h1
          exact ⟨0, f, [], by simp only [if_neg hstack], .refl .., by simp⟩

end Shown

/-! ## A conference with some texts -/

def sampleConf (life : Int) (texts : List CString) : ConfEntry :=
  ⟨1, texts.length, 2, 0, 1, life, 0, "Test".toList⟩

/-- The conference with these texts, numbered from 1. -/
def sampleBase (life : Int) (texts : List CString) : TextBase where
  mailbox := []
  conffile := confBytes [sampleConf life texts]
  textFile conf n := if conf = 1 ∧ 1 ≤ n then texts[(n - 1).toNat]? else none
  blocked _ := false

theorem sampleBase_file {life n : Int} {texts : List CString} {file : CString}
    (h : (sampleBase life texts).textFile 1 n = some file) :
    1 ≤ n ∧ n ≤ texts.length ∧ texts[(n - 1).toNat]? = some file := by
  simp only [sampleBase, true_and] at h
  split at h
  next hn =>
    obtain ⟨hlt, -⟩ := List.getElem?_eq_some_iff.mp h
    exact ⟨hn, by omega, h⟩
  · cases h

theorem sampleBase_texts {life n : Int} {texts : List CString} (h : (sampleBase life texts).disk.texts 1 n) :
    1 ≤ n ∧ n ≤ texts.length := by
  obtain ⟨file, hfile⟩ := Option.isSome_iff_exists.mp h
  obtain ⟨h1, h2, -⟩ := sampleBase_file hfile
  exact ⟨h1, h2⟩

end SklaffKom
