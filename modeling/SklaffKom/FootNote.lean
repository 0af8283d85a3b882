import SklaffKom.Stdio
import SklaffKom.TextFile

/-!
# Footnotes

`cmd_footnote` appends its lines with the prefix `F:` to a text file.  `display_text` drops such
lines before it parses the file; `stack_text` parses the file as it is.
-/

open CString

namespace SklaffKom

/-- `len >= 2 && p[0] == 'F' && p[1] == ':'` -/
def isFootLine : CString → Bool
  | 'F' :: ':' :: _ => true
  | _ => false

/-- The copy of a file without its footnote lines. -/
def stripFootLines : Nat → CString → CString
  | 0, _ => []
  | fuel + 1, p =>
    if p = [] then []
    else
      match strchr p '\n' with
      | none => if isFootLine p then [] else p
      | some nl =>
        let line := p.take (p.length - nl.length)
        (if isFootLine line then [] else line ++ ['\n']) ++ stripFootLines fuel nl.tail

/-- The parse of `display_text` (and of `cmd_footnote` itself). -/
def displayEntry (file : CString) : TextScan :=
  getTextEntry (stripFootLines (file.length + 1) file)

/-- The parse of `stack_text`. -/
def stackEntry (file : CString) : TextScan := getTextEntry file

/-- The check of `cmd_footnote` for a footnote that is already there. -/
def foundFootLine : Nat → CString → Bool
  | 0, _ => false
  | fuel + 1, file =>
    if file = [] then false
    else
      let r := fgets 79 file
      isFootLine r.1 || foundFootLine fuel r.2

/-- The lines that `cmd_footnote` writes for the contents `p` of the editor's file. -/
def footLines : Nat → CString → CString
  | 0, _ => []
  | fuel + 1, p =>
    if p = [] then []
    else
      match strchr p '\n' with
      | none => 'F' :: ':' :: (p.take 78 ++ ['\n'])
      | some nl =>
        'F' :: ':' :: ((p.take (p.length - nl.length)).take 78 ++ ['\n']) ++ footLines fuel nl.tail

/-- `cmd_footnote` by the author of the text. -/
def appendFootnote (file text : CString) : CString :=
  if foundFootLine (file.length + 1) file then file
  else file ++ footLines (text.length + 1) text

/-! ## Files as lines -/

/-- On a file of whole lines the copy keeps the lines that are no footnote lines. -/
theorem stripFootLines_unlines {ls : List CString} (h : ∀ l ∈ ls, '\n' ∉ l) (fuel : Nat)
    (hfuel : ls.length < fuel) :
    stripFootLines fuel (unlines ls) = unlines (ls.filter fun l => !isFootLine l) := by
  induction ls generalizing fuel with
  | nil => cases fuel <;> simp [stripFootLines]
  | cons l ls ih =>
    obtain ⟨fuel, rfl⟩ : ∃ k, fuel = k + 1 := ⟨fuel - 1, by simp at hfuel; omega⟩
    have hl := h l List.mem_cons_self
    rw [unlines_cons, stripFootLines, if_neg (by simp), strchr_append hl]
    simp only [take_before, List.tail_cons]
    rw [ih (fun a ha => h a (List.mem_cons_of_mem _ ha)) fuel (by simp at hfuel; omega)]
    by_cases hf : isFootLine l = true
    · rw [if_pos hf, List.filter_cons_of_neg (by simp [hf])]
      rfl
    · rw [if_neg hf, List.filter_cons_of_pos (by simp [hf]), unlines_cons, List.append_assoc]
      rfl

/-- What `cmd_footnote` writes is footnote lines. -/
theorem footLines_eq (fuel : Nat) (p : CString) :
    ∃ ls, footLines fuel p = unlines ls ∧ ∀ l ∈ ls, '\n' ∉ l ∧ isFootLine l = true := by
  induction fuel generalizing p with
  | zero => exact ⟨[], rfl, by simp⟩
  | succ fuel ih =>
    rw [footLines]
    by_cases hp : p = []
    · exact ⟨[], by rw [if_pos hp]; rfl, by simp⟩
    rw [if_neg hp]
    cases hs : strchr p '\n' with
    | none =>
      refine ⟨['F' :: ':' :: p.take 78], by simp, ?_⟩
      have hnot : '\n' ∉ p := notMem_of_strchr hs
      intro l hl
      rw [List.mem_singleton.mp hl]
      refine ⟨?_, rfl⟩
      simp only [List.mem_cons, Char.reduceEq, false_or]
      exact fun hm => hnot (List.mem_of_mem_take hm)
    | some nl =>
      obtain ⟨a, r, hpa, rfl, ha⟩ := strchr_split hs
      obtain ⟨ls, hls, hfoot⟩ := ih r
      have htake : p.take (p.length - ('\n' :: r).length) = a := by
        rw [hpa, take_before]
      refine ⟨('F' :: ':' :: a.take 78) :: ls, ?_, ?_⟩
      · simp only [htake, List.tail_cons, hls, unlines_cons]
        simp
      · intro l hl
        rcases List.mem_cons.mp hl with rfl | hl
        · refine ⟨?_, rfl⟩
          simp only [List.mem_cons, Char.reduceEq, false_or]
          exact fun hm => ha (List.mem_of_mem_take hm)
        · exact hfoot l hl

theorem textBytes_unlines (num : Int) (th : TextHeader) (body : List CString) :
    textBytes num th (unlines body) = unlines (headerLine num th :: th.subject :: body) := by
  simp [textBytes]

def linkText (c : CommentLink) : CString := field c.commentNum ++ decimal c.commentAuthor

theorem linkLines_unlines (cl : List CommentLink) : linkLines cl = unlines (cl.map linkText) := by
  induction cl with
  | nil => rfl
  | cons c cl ih =>
    rw [linkLines_cons, ih, List.map_cons, unlines_cons]
    simp [linkLine, linkText]

theorem not_isFootLine_field (n : Int) (s : CString) : isFootLine (field n ++ s) = false := by
  obtain ⟨x, xs, hx⟩ := List.exists_cons_of_ne_nil (decimal_ne_nil n)
  have hnot : 'F' ∉ decimal n := notMem_decimal rfl (by decide)
  rw [hx] at hnot
  have hxF : x ≠ 'F' := fun he => hnot (he ▸ List.mem_cons_self)
  rw [field, hx]
  unfold isFootLine
  split
  · next h =>
    exact absurd (List.cons.inj h).1 hxF
  · rfl

theorem not_isFootLine_headerLine (num : Int) (th : TextHeader) :
    isFootLine (headerLine num th) = false := by
  simp only [headerLine, List.append_assoc]
  exact not_isFootLine_field num _

theorem isFootLine_eq {l : CString} (h : isFootLine l = true) : ∃ s, l = 'F' :: ':' :: s := by
  unfold isFootLine at h
  split at h
  · exact ⟨_, rfl⟩
  · cases h

/-- The link parser stops at footnote lines. -/
theorem strtol_footLines {foot : List CString} (h : ∀ l ∈ foot, isFootLine l = true) :
    (unlines foot).head? ≠ some '\n' ∧ (strtol (unlines foot)).2 = unlines foot := by
  cases foot with
  | nil => exact ⟨by simp, rfl⟩
  | cons l ls =>
    obtain ⟨s, rfl⟩ := isFootLine_eq (h l List.mem_cons_self)
    rw [unlines_cons, List.cons_append,
      strtol_of_noNumber (by decide) (by decide) (by decide) (by decide)]
    exact ⟨by simp, rfl⟩

/-! ## The two parses -/

/-- A file with a footnote between its links: the part that was saved, links, footnote, links. -/
theorem file_with_footnote (num : Int) (th : TextHeader) (body : List CString)
    (before after : List CommentLink) (text : CString) :
    ∃ foot, after.foldl appendLink (appendFootnote (before.foldl appendLink
        (textBytes num th (unlines body))) text) =
        textBytes num th (unlines body) ++ (linkLines before ++ (unlines foot ++ linkLines after)) ∧
      ∀ l ∈ foot, '\n' ∉ l ∧ isFootLine l = true := by
  rw [foldl_appendLink, foldl_appendLink, appendFootnote]
  split
  · exact ⟨[], by simp, by simp⟩
  · obtain ⟨ls, hls, hfoot⟩ := footLines_eq (text.length + 1) text
    exact ⟨ls, by rw [hls]; simp, hfoot⟩

/-- The copy without footnote lines is the saved text with all the links. -/
theorem stripFootLines_file (num : Int) {th : TextHeader} {body : List CString}
    (h : LocalText th body) (hsubject : isFootLine th.subject = false)
    (hbody : ∀ l ∈ body, isFootLine l = false) (before after : List CommentLink)
    {foot : List CString} (hfoot : ∀ l ∈ foot, '\n' ∉ l ∧ isFootLine l = true) (fuel : Nat)
    (hfuel : 2 + body.length + before.length + foot.length + after.length < fuel) :
    stripFootLines fuel (textBytes num th (unlines body) ++
        (linkLines before ++ (unlines foot ++ linkLines after))) =
      textBytes num th (unlines body) ++ (linkLines (before ++ after) ++ []) := by
  have hlink : ∀ c : CommentLink, '\n' ∉ linkText c := by
    intro c
    simp [linkText, notMem_field, notMem_decimal (n := c.commentAuthor) (c := '\n') rfl (by decide)]
  have hfilter : ∀ cl : List CommentLink,
      (cl.map linkText).filter (fun l => !isFootLine l) = cl.map linkText := by
    intro cl
    rw [List.filter_eq_self]
    intro l hl
    obtain ⟨c, -, rfl⟩ := List.mem_map.mp hl
    simp [linkText, not_isFootLine_field]
  have hnone : foot.filter (fun l => !isFootLine l) = [] := by
    rw [List.filter_eq_nil_iff]
    intro l hl
    simp [(hfoot l hl).2]
  have hkeep : body.filter (fun l => !isFootLine l) = body := by
    rw [List.filter_eq_self]
    intro l hl
    simp [hbody l hl]
  rw [textBytes_unlines, linkLines_unlines, linkLines_unlines, ← unlines_append, ← unlines_append,
    ← unlines_append, stripFootLines_unlines ?_ fuel ?_]
  · rw [List.append_nil, linkLines_unlines, ← unlines_append]
    congr 1
    simp [List.filter_append, not_isFootLine_headerLine, hsubject, hkeep, hnone, hfilter]
  · intro l hl
    simp only [List.mem_append, List.mem_cons, List.mem_map] at hl
    rcases hl with (rfl | rfl | hl) | ⟨c, -, rfl⟩ | hl | ⟨c, -, rfl⟩
    · exact notMem_headerLine num th
    · exact h.subject.1
    · exact (h.lines l hl).1
    · exact hlink c
    · exact (hfoot l hl).1
    · exact hlink c
  · simp
    omega

/-- A text without a line that begins with `F:`, with a footnote and links added in any order: what
`display_text` reads is the saved lines and all the links, with triplets replaced as for any text;
`stack_text` reads the same when no link follows the footnote. -/
theorem footnote_readers_agree (num : Int) {th : TextHeader} {body : List CString}
    (h : LocalText th body) (hsubject : isFootLine th.subject = false)
    (hbody : ∀ l ∈ body, isFootLine l = false) (before after : List CommentLink)
    (text : CString) :
    displayEntry (after.foldl appendLink (appendFootnote (before.foldl appendLink
          (textBytes num th (unlines body))) text)) =
        .entry { th := storedHeader num th, body := body.map (decodeLine '^'),
                 cl := before ++ after } (some []) ∧
      (∃ next, stackEntry (appendFootnote (before.foldl appendLink
          (textBytes num th (unlines body))) text) =
        .entry { th := storedHeader num th, body := body.map (decodeLine '^'), cl := before }
          next) ∧
      ∀ l ∈ body, NoTriplet l → decodeLine '^' l = l := by
  refine ⟨?_, ?_, fun l _ hno => decodeLine_of_noTriplet '^' hno⟩
  · obtain ⟨foot, hfile, hfoot⟩ := file_with_footnote num th body before after text
    rw [hfile, displayEntry, stripFootLines_file num h hsubject hbody before after hfoot _ ?_]
    · exact getTextEntry_textBytes num h (before ++ after) (by simp) rfl
    · have h1 := length_le_unlines (headerLine num th :: th.subject :: body)
      have h2 := length_le_linkLines before
      have h3 := length_le_linkLines after
      have h4 := length_le_unlines foot
      rw [← textBytes_unlines] at h1
      simp only [List.length_append, List.length_cons] at h1 ⊢
      omega
  · obtain ⟨foot, hfile, hfoot⟩ := file_with_footnote num th body before [] text
    rw [List.foldl_nil] at hfile
    rw [hfile, stackEntry, linkLines_nil, List.append_nil]
    have hstop := strtol_footLines fun l hl => (hfoot l hl).2
    exact ⟨some (unlines foot), getTextEntry_textBytes num h before hstop.1 hstop.2⟩

def noteHeader : TextHeader where
  num := 0
  author := 5
  time := 1000
  commentNum := 0
  commentConf := 0
  commentAuthor := 0
  size := 1
  subject := "Note".toList
  type := typeText
  sh := ⟨0, 0⟩

theorem footnote_readers_agree_sample :
    displayEntry ([⟨9, 5⟩].foldl appendLink (appendFootnote ([⟨8, 3⟩].foldl appendLink
          (textBytes 7 noteHeader (unlines ["One line".toList]))) "Later\n".toList)) =
        .entry { th := storedHeader 7 noteHeader, body := ["One line".toList].map (decodeLine '^'),
                 cl := [⟨8, 3⟩] ++ [⟨9, 5⟩] } (some []) ∧
      (∃ next, stackEntry (appendFootnote ([⟨8, 3⟩].foldl appendLink
          (textBytes 7 noteHeader (unlines ["One line".toList]))) "Later\n".toList) =
        .entry { th := storedHeader 7 noteHeader, body := ["One line".toList].map (decodeLine '^'),
                 cl := [⟨8, 3⟩] } next) ∧
      ∀ l ∈ ["One line".toList], NoTriplet l → decodeLine '^' l = l :=
  footnote_readers_agree 7 ⟨by decide, Or.inl rfl, rfl, by decide, by decide⟩ rfl (by decide)
    [⟨8, 3⟩] [⟨9, 5⟩] _

/-- Both readers replace a triplet, and a link after the footnote is seen by one of them only. -/
theorem footnote_readers_differ :
    (∃ te te' next next', displayEntry (textBytes 7 noteHeader (unlines ["a=20b".toList])) =
        .entry te next ∧ te.body = ["a b".toList] ∧
      stackEntry (textBytes 7 noteHeader (unlines ["a=20b".toList])) = .entry te' next' ∧
      te'.body = ["a b".toList]) ∧
    ∃ te te' next next',
      displayEntry (appendLink (appendFootnote (textBytes 7 noteHeader
        (unlines ["One line".toList])) "Later\n".toList) ⟨9, 5⟩) = .entry te next ∧
      te.cl = [⟨9, 5⟩] ∧
      stackEntry (appendLink (appendFootnote (textBytes 7 noteHeader
        (unlines ["One line".toList])) "Later\n".toList) ⟨9, 5⟩) = .entry te' next' ∧
      te'.cl = [] := by
  refine ⟨⟨⟨{ noteHeader with num := 7 }, ["a b".toList], []⟩,
    ⟨{ noteHeader with num := 7 }, ["a b".toList], []⟩, some [], some [], ?_⟩,
    ⟨{ noteHeader with num := 7 }, ["One line".toList], [⟨9, 5⟩]⟩,
    ⟨{ noteHeader with num := 7 }, ["One line".toList], []⟩, some [],
    some "F:Later\n9:5\n".toList, ?_⟩
  · decide +kernel
  · decide +kernel

end SklaffKom
