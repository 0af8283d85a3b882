import SklaffKom.TextFile

/-!
# Imported texts

News, mail and FTN messages are stored with the author 0 and without a type.  What `get_text_entry` reads from such
a text.
-/

open CString

namespace SklaffKom

/-- The metadata line of an imported text, with the author 0. -/
def importedLine (n now com size : Int) : CString :=
  field n ++ field 0 ++ field now ++ field com ++ field 0 ++ field 0 ++ decimal size

/-- The header of an imported text as it is read. -/
def importedHeader (n now com size : Int) (subject : CString) : TextHeader where
  num := n
  author := 0
  time := now
  commentNum := com
  commentConf := 0
  commentAuthor := 0
  size := size
  subject := rtrim ((decodeLine 'u' subject).take 69)
  type := typeText
  sh := ⟨0, 0⟩

/-- An imported text without comments as it is read: the subject and each line of the body with the
triplets replaced, and cut. -/
def importedEntry (n now com : Int) (subject : CString) (ls : List CString) : TextEntry where
  th := importedHeader n now com ls.length subject
  body := ls.map fun l => (decodeLine '^' l).take 78
  cl := []

/-- A text without an author has no type. -/
theorem readType_zero (buf : CString) : readType 0 buf = some (typeText, ⟨0, 0⟩) := by
  unfold readType
  split
  next colon eol _ _ => exact if_neg fun h => h.2 rfl
  next => rfl

theorem notMem_importedLine (n now com size : Int) : '\n' ∉ importedLine n now com size := by
  have hd : '\n' ∉ decimal size := notMem_decimal rfl (by decide)
  simp only [importedLine, List.mem_append, not_or, notMem_field, hd, not_false_eq_true, and_self]

theorem readHeader_importedLine (n now com size : Int) (rest : CString) :
    readHeader (importedLine n now com size ++ '\n' :: rest) =
      some { importedHeader n now com size [] with subject := [] } := by
  have hsize : atol (decimal size ++ '\n' :: rest) = size := atol_decimal _ (noDigit_cons.mpr rfl)
  simp only [importedLine, List.append_assoc, readHeader, nextField_field, atol_field,
    Option.bind_eq_bind, Option.bind_some, readType_zero, hsize, Option.pure_def, importedHeader]

/-- An imported text with comments is read back when its subject is one line and its body consists of whole
lines. -/
theorem getTextEntry_importedLinks (n now com : Int) {subject : CString} (hsubject : '\n' ∉ subject)
    {ls : List CString} (h : ∀ l ∈ ls, '\n' ∉ l) (cl : List CommentLink) :
    getTextEntry (importedLine n now com ls.length ++ '\n' :: (subject ++ '\n' :: (unlines ls ++ linkLines cl))) =
      .entry { importedEntry n now com subject ls with cl := cl } (some []) := by
  set buf := unlines ls ++ linkLines cl with hbuf
  have hnl : strchr (importedLine n now com ls.length ++ '\n' :: (subject ++ '\n' :: buf)) '\n' =
      some ('\n' :: (subject ++ '\n' :: buf)) :=
    strchr_append (notMem_importedLine n now com ls.length)
  have hline : readLine 'u' 70 ((subject ++ '\n' :: buf).length + 1) 1 (subject ++ '\n' :: buf) =
      some ((decodeLine 'u' subject).take 69, buf) :=
    readLine_take _ 1 hsubject (by rw [List.length_append]; omega) buf
  have hbody : readBody ls.length buf = some (ls.map fun l => (decodeLine '^' l).take 78, linkLines cl) :=
    readBody_take h (linkLines cl)
  have hlinks : readLinks ((linkLines cl).length + 1) (linkLines cl) = some (cl, some []) := by
    have hread := @readLinks_linkLines cl [] (by simp) rfl ((linkLines cl).length + 1)
      (Nat.le_succ_of_le (length_le_linkLines cl))
    rwa [List.append_nil] at hread
  have hsize : ((ls.length : Int)).toNat = ls.length := rfl
  rw [getTextEntry, readHeader_importedLine, hnl]
  simp only [List.tail_cons, readText, hline, importedHeader, hsize, hbody, hlinks,
    Option.bind_eq_bind, Option.bind_some, Option.pure_def, importedEntry]

theorem getTextEntry_imported (n now com : Int) {subject : CString} (hsubject : '\n' ∉ subject)
    {ls : List CString} (h : ∀ l ∈ ls, '\n' ∉ l) :
    getTextEntry (importedLine n now com ls.length ++ '\n' :: (subject ++ '\n' :: unlines ls)) =
      .entry (importedEntry n now com subject ls) (some []) := by
  have hread := getTextEntry_importedLinks n now com hsubject h []
  rwa [linkLines_nil, List.append_nil] at hread

/-! ## Lines -/

/-- Whole lines, and what stands behind the last line end. -/
theorem exists_unlines_append (s : CString) :
    ∃ ls rest, s = unlines ls ++ rest ∧ (∀ l ∈ ls, '\n' ∉ l) ∧ '\n' ∉ rest := by
  induction s with
  | nil => exact ⟨[], [], rfl, by simp, List.not_mem_nil⟩
  | cons c s ih =>
    obtain ⟨ls, rest, rfl, hls, hrest⟩ := ih
    by_cases hc : c = '\n'
    · refine ⟨[] :: ls, rest, by rw [hc, unlines_cons]; rfl, ?_, hrest⟩
      exact List.forall_mem_cons.mpr ⟨List.not_mem_nil, hls⟩
    have hcons {l : CString} (hl : '\n' ∉ l) : '\n' ∉ c :: l := fun h =>
      (List.mem_cons.mp h).elim (fun he => hc he.symm) hl
    cases ls with
    | nil => exact ⟨[], c :: rest, rfl, by simp, hcons hrest⟩
    | cons l ls =>
      obtain ⟨hl, hls⟩ := List.forall_mem_cons.mp hls
      refine ⟨(c :: l) :: ls, rest, by rw [unlines_cons, unlines_cons]; rfl, ?_, hrest⟩
      exact List.forall_mem_cons.mpr ⟨hcons hl, hls⟩

end SklaffKom
