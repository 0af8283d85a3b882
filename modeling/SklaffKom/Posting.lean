import SklaffKom.TextFile
import SklaffKom.ConfStruct
import SklaffKom.Lib.Runs
import Mathlib.Logic.Function.Basic

/-!
# Posting while a conference is edited

`save_text` takes the next number from the conference list and writes the text file; `cmd_mod_conf`
reads an entry, asks its questions and writes the whole entry back.  Each access to a locked file
is one step, so a post and each half of an edit are steps of their own.
-/

open CString

namespace SklaffKom

/-- The conference list and the text files of one conference. -/
structure Board where
  conffile : CString
  texts : Int → Option CString

/-- `save_text` into the conference `conf`: the number of the text and the files afterwards, -1 when
the conference is missing.  The header lines are taken to fit the `LONG_LINE` that there is for them. -/
def saveText (th : TextHeader) (inbuf : CString) (conf : Int) (b : Board) : Option (Int × Board) :=
  match confEntry conf b.conffile with
  | .crash => none
  | .null => some (-1, b)
  | .entry ce _ =>
    let ce := { ce with lastText := ce.lastText + 1 }
    match replaceConf ce b.conffile with
    | none => none
    | some none => some (-1, b)
    | some (some nbuf) =>
      some (ce.lastText,
        { conffile := nbuf,
          texts := Function.update b.texts ce.lastText (some (textBytes ce.lastText th inbuf)) })

/-- `conf_store_entry`: what it returns, and the file afterwards. -/
def confStoreEntry (ce : ConfEntry) (buf : CString) : Option (Int × CString) :=
  match replaceConf ce buf with
  | none => none
  | some none => some (-1, buf)
  | some (some newbuf) => some (0, newbuf)

/-- An answer to the question for the new name: a line that is not empty. -/
abbrev ConfName := { name : CString // name ≠ [] ∧ '\n' ∉ name }

/-- The files, the entries that editing sessions hold, and the texts saved so far with the number
that `save_text` returned for each. -/
structure PostState where
  board : Board
  copies : Nat → Option ConfEntry
  saved : List (Int × CString)

/-- One step: a post, or a half of the session `sid`. -/
inductive PostEvent where
  | save (th : TextHeader) (inbuf : CString)
  | read (sid : Nat)
  | store (sid : Nat) (newname : ConfName) (newType : Int)

/-- `entry_changed` in `cmd_mod_conf` -/
def entryChanged (ce : ConfEntry) (newname : ConfName) (newType : Int) : Prop :=
  ce.name ≠ newname.val ∨ ce.type ≠ newType

instance (ce : ConfEntry) (newname : ConfName) (newType : Int) :
    Decidable (entryChanged ce newname newType) := inferInstanceAs (Decidable (_ ∨ _))

def postStep (conf : Int) (s : PostState) : PostEvent → Option PostState
  | .save th inbuf =>
    match saveText th inbuf conf s.board with
    | none => none
    | some (num, b) =>
      some { s with board := b,
                    saved := if num = -1 then s.saved
                      else s.saved ++ [(num, textBytes num th inbuf)] }
  | .read sid =>
    match getConfStruct conf s.board.conffile with
    | none => none
    | some none => some s
    | some (some ce) => some { s with copies := Function.update s.copies sid (some ce) }
  | .store sid newname newType =>
    match s.copies sid with
    | none => some s
    | some ce =>
      let s := { s with copies := Function.update s.copies sid none }
      if entryChanged ce newname newType then
        match confStoreEntry { ce with name := newname.val, type := newType } s.board.conffile with
        | none => none
        | some (_, buf) => some { s with board := { s.board with conffile := buf } }
      else some s

/-- `last_text` in the list as it is stored. -/
def PostState.lastText (s : PostState) (conf : Int) : Option Int :=
  match confEntry conf s.board.conffile with
  | .entry ce _ => some ce.lastText
  | _ => none

/-- What a step has to keep: `last_text` does not decrease, no two posts have the same number, and
the text files are as they were saved. -/
structure Keeps (conf : Int) (s s' : PostState) : Prop where
  last : ∀ n, s.lastText conf = some n → ∃ m, s'.lastText conf = some m ∧ n ≤ m
  distinct : (s'.saved.map Prod.fst).Nodup
  intact : ∀ p ∈ s'.saved, s'.board.texts p.1 = some p.2

/-- A session that writes its entry back does so with the stored `last_text`. -/
def Fresh (conf : Int) (s : PostState) : PostEvent → Prop
  | .store sid newname newType => ∀ ce, s.copies sid = some ce → entryChanged ce newname newType →
      s.lastText conf = some ce.lastText
  | _ => True

/-- No editing session has begun and no text was saved yet. -/
def PostState.start (l : ConfFile) (texts : Int → Option CString) : PostState where
  board := { conffile := l.bytes, texts := texts }
  copies _ := none
  saved := []

/-- The list is well formed, no copy is ahead of it, and the saved texts are in their files. -/
structure PostInv (conf : Int) (s : PostState) : Prop where
  list : ∃ l : ConfFile, ∃ e, s.board.conffile = l.bytes ∧ l.entry conf = some e ∧
    (∀ sid ce, s.copies sid = some ce →
      ce.num = conf ∧ '\n' ∉ ce.name ∧ ce.lastText ≤ e.lastText) ∧
    ∀ p ∈ s.saved, p.1 ≤ e.lastText
  distinct : (s.saved.map Prod.fst).Nodup
  intact : ∀ p ∈ s.saved, s.board.texts p.1 = some p.2

theorem lastText_eq {conf : Int} {s : PostState} {l : ConfFile} {e : ConfEntry}
    (hs : s.board.conffile = l.bytes) (he : l.entry conf = some e) :
    s.lastText conf = some e.lastText := by
  obtain ⟨as, bs, -, -, hfind⟩ := l.confEntry_bytes he
  simp only [PostState.lastText, hs, hfind]

theorem postInv_start {l : ConfFile} {conf : Int} {e : ConfEntry} (he : l.entry conf = some e)
    (texts : Int → Option CString) : PostInv conf (.start l texts) where
  list := ⟨l, e, rfl, he, by simp [PostState.start], by simp [PostState.start]⟩
  distinct := by simp [PostState.start]
  intact := by simp [PostState.start]

/-- `save_text` takes the number after `last_text` wherever the list has an entry. -/
theorem saveText_entry {conf : Int} {buf next : CString} {ce : ConfEntry}
    (h : confEntry conf buf = .entry ce next) (texts : Int → Option CString) (th : TextHeader)
    (inbuf : CString) :
    ∃ nbuf, saveText th inbuf conf ⟨buf, texts⟩ = some (ce.lastText + 1,
      ⟨nbuf, Function.update texts (ce.lastText + 1)
        (some (textBytes (ce.lastText + 1) th inbuf))⟩) := by
  obtain ⟨nbuf, hrep⟩ := replaceConf_entry h { ce with lastText := ce.lastText + 1 } rfl
  refine ⟨nbuf, ?_⟩
  simp only [saveText, h, hrep]

/-- `save_text` in a well-formed list. -/
theorem saveText_bytes {l : ConfFile} {conf : Int} {e : ConfEntry} (he : l.entry conf = some e)
    (texts : Int → Option CString) (th : TextHeader) (inbuf : CString) :
    ∃ (ce : ConfEntry) (h : '\n' ∉ ce.name), ce = { e with lastText := e.lastText + 1 } ∧
      saveText th inbuf conf ⟨l.bytes, texts⟩ =
        some (e.lastText + 1, ⟨(l.update ce h).bytes, Function.update texts (e.lastText + 1)
          (some (textBytes (e.lastText + 1) th inbuf))⟩) := by
  obtain ⟨as, bs, -, -, hfind⟩ := l.confEntry_bytes he
  have hnum := (l.exists_split he).1
  have hline : '\n' ∉ ({ e with lastText := e.lastText + 1 } : ConfEntry).name :=
    l.oneLine e (l.mem_of_entry he)
  have hrep := l.replaceConf_bytes hline he hnum
  refine ⟨_, hline, rfl, ?_⟩
  simp only [saveText, hfind, hrep]

/-- A post takes the number after `last_text`. -/
theorem postStep_save {conf : Int} {s : PostState} (hI : PostInv conf s) (th : TextHeader)
    (inbuf : CString) :
    ∃ s', postStep conf s (.save th inbuf) = some s' ∧ Keeps conf s s' ∧ PostInv conf s' := by
  obtain ⟨⟨l, e, hs, he, hcopies, hsaved⟩, hdist, hint⟩ := hI
  obtain ⟨ce, hline, rfl, hsave⟩ := saveText_bytes he s.board.texts th inbuf
  have hnum := (l.exists_split he).1
  have he' := l.entry_update_self hline he hnum
  set saved := if e.lastText + 1 = -1 then s.saved
    else s.saved ++ [(e.lastText + 1, textBytes (e.lastText + 1) th inbuf)] with hsv
  have hmem : ∀ p ∈ saved, p ∈ s.saved ∨
      p = (e.lastText + 1, textBytes (e.lastText + 1) th inbuf) := by
    intro p hp
    rw [hsv] at hp
    split at hp
    · exact Or.inl hp
    · simpa using hp
  have hdist' : (saved.map Prod.fst).Nodup := by
    rw [hsv]
    split
    · exact hdist
    · rw [List.map_append, List.nodup_append]
      refine ⟨hdist, by simp, ?_⟩
      intro a ha b hb
      obtain ⟨p, hp, rfl⟩ := List.mem_map.mp ha
      have hle := hsaved p hp
      have hb' : b = e.lastText + 1 := by simpa using hb
      omega
  have hint' : ∀ p ∈ saved, Function.update s.board.texts (e.lastText + 1)
      (some (textBytes (e.lastText + 1) th inbuf)) p.1 = some p.2 := by
    intro p hp
    rcases hmem p hp with hp | rfl
    · have hle := hsaved p hp
      rw [Function.update_of_ne (by omega)]
      exact hint p hp
    · exact Function.update_self ..
  have hboard : s.board = ⟨l.bytes, s.board.texts⟩ := by rw [← hs]
  set s' : PostState := { s with
    board := ⟨(l.update _ hline).bytes, Function.update s.board.texts (e.lastText + 1)
      (some (textBytes (e.lastText + 1) th inbuf))⟩
    saved := saved } with hs'
  refine ⟨s', ?_, ⟨?_, hdist', hint'⟩,
    ⟨⟨l.update _ hline, _, rfl, he', ?_, ?_⟩, hdist', hint'⟩⟩
  · rw [postStep, hboard, hsave]
  · intro n hn
    rw [lastText_eq hs he, Option.some.injEq] at hn
    exact ⟨_, lastText_eq rfl he', by show n ≤ e.lastText + 1; omega⟩
  · intro sid ce hce
    obtain ⟨h1, h2, h3⟩ := hcopies sid ce hce
    exact ⟨h1, h2, by show ce.lastText ≤ e.lastText + 1; omega⟩
  · intro p hp
    show p.1 ≤ e.lastText + 1
    rcases hmem p hp with hp | rfl
    · have := hsaved p hp
      omega
    · exact Int.le_refl _

/-- A session that reads holds the stored entry. -/
theorem postStep_read {conf : Int} {s : PostState} (hI : PostInv conf s) (sid : Nat) :
    ∃ s', postStep conf s (.read sid) = some s' ∧ Keeps conf s s' ∧ PostInv conf s' := by
  obtain ⟨⟨l, e, hs, he, hcopies, hsaved⟩, hdist, hint⟩ := hI
  refine ⟨{ s with copies := Function.update s.copies sid (some e) }, ?_,
    ⟨fun n hn => ⟨n, hn, Int.le_refl n⟩, hdist, hint⟩, ⟨⟨l, e, hs, he, ?_, hsaved⟩, hdist, hint⟩⟩
  · simp only [postStep, hs, getConfStruct_bytes he]
  · intro sid' ce hce
    have hce' : Function.update s.copies sid (some e) sid' = some ce := hce
    by_cases hsid : sid' = sid
    · rw [hsid, Function.update_self, Option.some.injEq] at hce'
      rw [← hce']
      exact ⟨(l.exists_split he).1, l.oneLine e (l.mem_of_entry he), Int.le_refl _⟩
    · rw [Function.update_of_ne hsid] at hce'
      exact hcopies sid' ce hce'

/-- A session that writes back puts its copy of `last_text` into the list. -/
theorem postStep_store {conf : Int} {s : PostState} (hI : PostInv conf s) (sid : Nat)
    (newname : ConfName) (newType : Int) :
    ∃ s', postStep conf s (.store sid newname newType) = some s' ∧
      (Keeps conf s s' ↔ Fresh conf s (.store sid newname newType)) ∧
      (Fresh conf s (.store sid newname newType) → PostInv conf s') := by
  have hI' := hI
  obtain ⟨⟨l, e, hs, he, hcopies, hsaved⟩, hdist, hint⟩ := hI
  have hother : ∀ sid' ce, Function.update s.copies sid none sid' = some ce →
      s.copies sid' = some ce := by
    intro sid' ce hce
    by_cases hsid : sid' = sid
    · subst hsid
      rw [Function.update_self] at hce
      cases hce
    · rwa [Function.update_of_ne hsid] at hce
  cases hcopy : s.copies sid with
  | none =>
    refine ⟨s, by simp only [postStep, hcopy], ?_, fun _ => hI'⟩
    refine iff_of_true ⟨fun n hn => ⟨n, hn, Int.le_refl n⟩, hdist, hint⟩ ?_
    intro ce hce
    rw [hcopy] at hce
    cases hce
  | some ce =>
    by_cases hch : entryChanged ce newname newType
    · obtain ⟨hnum, -, hle⟩ := hcopies sid ce hcopy
      set ce' : ConfEntry := { ce with name := newname.val, type := newType } with hce'
      have hline : '\n' ∉ ce'.name := newname.2.2
      have hrep := l.replaceConf_bytes hline he hnum
      have he' := l.entry_update_self hline he hnum
      set s' : PostState := { s with
        copies := Function.update s.copies sid none
        board := { s.board with conffile := (l.update ce' hline).bytes } } with hs'
      have hlast : s.lastText conf = some e.lastText := lastText_eq hs he
      have hlast' : s'.lastText conf = some ce'.lastText := lastText_eq rfl he'
      rw [show ce'.lastText = ce.lastText from rfl] at hlast'
      have hfresh : Fresh conf s (.store sid newname newType) ↔ e.lastText = ce.lastText := by
        constructor
        · intro h
          have := h ce hcopy hch
          rw [hlast] at this
          exact Option.some.inj this
        · intro h ce₂ hce₂ _
          rw [hcopy] at hce₂
          cases hce₂
          rw [hlast, h]
      refine ⟨s', ?_, ?_, ?_⟩
      · simp only [postStep, hcopy, if_pos hch, confStoreEntry, hs, hrep, hs', ← hce']
      · rw [hfresh]
        constructor
        · intro hkeep
          obtain ⟨m, hm, hnm⟩ := hkeep.last _ hlast
          rw [hlast'] at hm
          cases hm
          omega
        · intro heq
          refine ⟨fun n hn => ⟨n, ?_, Int.le_refl n⟩, hdist, hint⟩
          rw [hlast', ← heq, ← hlast, hn]
      · rw [hfresh]
        intro heq
        refine ⟨⟨l.update ce' hline, ce', rfl, he', ?_, ?_⟩, hdist, hint⟩
        · intro sid' ce₂ hce₂
          rw [show ce'.lastText = e.lastText from heq.symm]
          exact hcopies sid' ce₂ (hother sid' ce₂ hce₂)
        · intro p hp
          rw [show ce'.lastText = e.lastText from heq.symm]
          exact hsaved p hp
    · refine ⟨{ s with copies := Function.update s.copies sid none }, ?_, ?_, ?_⟩
      · simp only [postStep, hcopy, if_neg hch]
      · refine iff_of_true ⟨fun n hn => ⟨n, hn, Int.le_refl n⟩, hdist, hint⟩ ?_
        intro ce₂ hce₂ hch₂
        rw [hcopy] at hce₂
        cases hce₂
        exact absurd hch₂ hch
      · intro _
        exact ⟨⟨l, e, hs, he, fun sid' ce₂ h => hcopies sid' ce₂ (hother sid' ce₂ h), hsaved⟩,
          hdist, hint⟩

/-- Along a run of posts and editing sessions no number is given twice, no text is overwritten and
`last_text` never decreases, exactly when every session that writes an entry back still holds the
stored `last_text`. -/
theorem posts_keep_numbers_iff {l : ConfFile} {conf : Int} {e : ConfEntry}
    (he : l.entry conf = some e) (texts : Int → Option CString) (events : List PostEvent) :
    Runs.AllSteps (postStep conf) (fun s _ s' => Keeps conf s s') (.start l texts) events ↔
      Runs.AllSteps (postStep conf) (fun s ev _ => Fresh conf s ev) (.start l texts) events := by
  refine Runs.allSteps_iff (I := PostInv conf) (fun s ev s₁ hI hrun => ?_)
    (postInv_start he texts) events
  have hstep : ∃ s', postStep conf s ev = some s' ∧ (Keeps conf s s' ↔ Fresh conf s ev) ∧
      (Fresh conf s ev → PostInv conf s') := by
    cases ev with
    | save th inbuf =>
      obtain ⟨s', hs', hkeep, hI'⟩ := postStep_save hI th inbuf
      exact ⟨s', hs', iff_of_true hkeep trivial, fun _ => hI'⟩
    | read sid =>
      obtain ⟨s', hs', hkeep, hI'⟩ := postStep_read hI sid
      exact ⟨s', hs', iff_of_true hkeep trivial, fun _ => hI'⟩
    | store sid newname newType => exact postStep_store hI sid newname newType
  obtain ⟨s', hs', hrest⟩ := hstep
  rw [hrun] at hs'
  cases hs'
  exact hrest

def emptyConference : ConfFile where
  entries := [⟨1, 0, 2, 0, 0, 0, 0, "Talk".toList⟩]
  oneLine := by decide
  numbered := by decide
  positive := by decide

def postHeader : TextHeader where
  num := 0
  author := 5
  time := 1000
  commentNum := 0
  commentConf := 0
  commentAuthor := 0
  size := 1
  subject := "Hi".toList
  type := typeText
  sh := ⟨0, 0⟩

/-- An edit that begins before a post and is written back after it, and a second post. -/
def renameRun : List PostEvent :=
  [.read 0, .save postHeader "first\n".toList, .store 0 ⟨"Chat".toList, by decide⟩ 0,
    .save postHeader "second\n".toList]

theorem posts_keep_numbers_iff_renameRun :
    Runs.AllSteps (postStep 1) (fun s _ s' => Keeps 1 s s')
        (.start emptyConference fun _ => none) renameRun ↔
      Runs.AllSteps (postStep 1) (fun s ev _ => Fresh 1 s ev)
        (.start emptyConference fun _ => none) renameRun :=
  posts_keep_numbers_iff (e := ⟨1, 0, 2, 0, 0, 0, 0, "Talk".toList⟩) rfl _ _

/-- `last_text` falls from 1 to 0, and the second post overwrites the first. -/
theorem rename_overwrites_post :
    ((Runs.run (postStep 1) (.start emptyConference fun _ => none) (renameRun.take 2)).bind
        fun s => s.lastText 1) = some 1 ∧
      ((Runs.run (postStep 1) (.start emptyConference fun _ => none) (renameRun.take 3)).bind
        fun s => s.lastText 1) = some 0 ∧
      (Runs.run (postStep 1) (.start emptyConference fun _ => none) renameRun).map
          (fun s => (s.saved.map Prod.fst, s.board.texts 1)) =
        some ([1, 1], some (textBytes 1 postHeader "second\n".toList)) := by
  decide +kernel

end SklaffKom
