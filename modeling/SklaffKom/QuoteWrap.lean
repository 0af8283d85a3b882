import SklaffKom.LineEd
import SklaffKom.Lib.Words

/-!
# Wrapping a quoted paragraph

`append_wrapped_quote` cuts a paragraph into lines of at most `QUOTE_TEXT_WIDTH` characters behind
`"> "`.  A last word of its own gets the word before it back from the line that is already written.
-/

open CString Words

namespace SklaffKom

/-- The paragraph of the source lines that are quoted. -/
def quoteParagraph (ls : List CString) : CString := ls.foldl addQuoteSourceLine []

/-- A line of a quotation. -/
def quoted (body : CString) : CString := '>' :: ' ' :: body

def quotedWords (lines : List CString) : List CString := lines.flatMap fun l => words isBlank (l.drop 2)

/-- The lines that are added begin with `"> "`, have at most 73 characters, and have the words of the
text, of which those longer than 71 characters may be cut. -/
def WrapsRight (text : CString) (s s' : EdState) : Prop :=
  ∃ lines, s'.before = s.before ++ lines ∧ (∀ l ∈ lines, ['>', ' '] <+: l ∧ l.length ≤ 73) ∧
    CutWords 71 (words isBlank text) (quotedWords lines)

/-- The text begins with one blank and a word of just the width of a line. -/
def BlankWideWord (text : CString) : Prop :=
  ∃ b w rest, text = b :: (w ++ rest) ∧ isBlank b = true ∧ w.length = 71 ∧
    (∀ c ∈ w, isBlank c = false) ∧ ∀ c ∈ rest.head?, isBlank c = true

theorem BlankWideWord.length_le {text : CString} (h : BlankWideWord text) : 72 ≤ text.length := by
  obtain ⟨b, w, rest, rfl, -, hw, -, -⟩ := h
  rw [List.length_cons, List.length_append, hw]
  omega

/-- The next 71 characters are no blanks. -/
theorem BlankWideWord.nonblank {text : CString} (h : BlankWideWord text) {j : Nat} (hj : 0 < j)
    (hle : j ≤ 71) {c : Char} (hc : text[j]? = some c) : isBlank c = false := by
  obtain ⟨b, w, rest, rfl, -, hw, hword, -⟩ := h
  obtain ⟨j, rfl⟩ := Nat.exists_eq_succ_of_ne_zero (show j ≠ 0 by omega)
  rw [List.getElem?_cons_succ, List.getElem?_append_left (by omega)] at hc
  exact hword c (List.mem_of_getElem? hc)

/-- Its first word. -/
theorem BlankWideWord.words {text : CString} (h : BlankWideWord text) :
    ∃ w ws, words isBlank text = w :: ws ∧ w.length = 71 := by
  obtain ⟨b, w, rest, rfl, hb, hw, hword, hrest⟩ := h
  have hne : w ≠ [] := by
    intro hnil
    rw [hnil] at hw
    cases hw
  refine ⟨w, Words.words isBlank rest, ?_, hw⟩
  rw [words_cons_sep hb, words_word_append hne hword hrest]

/-! ## One line -/

section Line

variable {start body word : CString} {s : EdState} {pre : List CString} {n : Nat}

@[simp] theorem quotedWords_quoted (body : CString) (ls : List CString) :
    quotedWords (quoted body :: ls) = words isBlank body ++ quotedWords ls := List.flatMap_cons

theorem quoted_fits (h : body.length ≤ 71) :
    ['>', ' '] <+: quoted body ∧ (quoted body).length ≤ 73 := by
  refine ⟨⟨body, rfl⟩, ?_⟩
  rw [quoted, List.length_cons, List.length_cons]
  omega

theorem appendQuoteLine_before (h : body.length ≤ 71) (s : EdState) :
    (appendQuoteLine body s).before = s.before ++ [quoted body] := by
  rw [appendQuoteLine, quoteTextWidth, List.take_of_length_le h]
  rfl

theorem words_trimEnd {p : Char → Bool} (hp : ∀ c, p c = true → isBlank c = true) (s : CString) :
    words isBlank (trimEnd p s) = words isBlank s := words_reverse_dropWhile hp s

/-- The word that is moved from the line before. -/
theorem orphan_some (hs : s.before = pre ++ [quoted body]) (hbody : body.length ≤ 71)
    {previous tail : CString} (h : orphan start s = some (previous, tail)) :
    ∃ body', previous = quoted body' ∧ body'.length ≤ 71 ∧ tail.length ≤ 71 ∧
      words isBlank body' ++ words isBlank tail = words isBlank body ++ words isBlank start := by
  have hblank : isBlank ' ' = true := rfl
  rw [orphan, hs, List.getLast?_append_of_ne_nil _ (List.cons_ne_nil _ []), List.getLast?_singleton] at h
  dsimp only at h
  cases hsplit : splitLast ((quoted body).drop 2) with
  | none =>
    rw [hsplit] at h
    cases h
  | some r =>
    obtain ⟨rest, word⟩ := r
    have hbodyEq : body = rest ++ ' ' :: word := splitLast_some hsplit
    rw [hsplit] at h
    dsimp only at h
    split at h
    · rename_i hfits
      rw [Option.some.injEq, Prod.mk.injEq] at h
      refine ⟨trimEnd (· = ' ') rest, h.1.symm, ?_, ?_, ?_⟩
      · have htrim := trimEnd_length_le (· = ' ') rest
        have hlen := congrArg List.length hbodyEq
        rw [List.length_append, List.length_cons] at hlen
        omega
      · rw [← h.2, List.length_append, List.length_cons]
        unfold quoteTextWidth at hfits
        omega
      · rw [words_trimEnd (by simp [isBlank]), ← h.2, words_append_cons hblank, hbodyEq,
          words_append_cons hblank, List.append_assoc]
    · cases h

/-- Where a line is cut before column 71: at a blank that is not the first character. -/
theorem quoteAdvance_pos (h : 0 < quoteAdvance start n) :
    quoteAdvance start n ≤ n ∧ ∃ c, start[quoteAdvance start n]? = some c ∧ isBlank c = true := by
  induction n with
  | zero => exact absurd h (Nat.lt_irrefl 0)
  | succ n ih =>
    rw [quoteAdvance] at h ⊢
    split
    · rename_i hblank
      refine ⟨le_rfl, ?_⟩
      cases hc : start[n + 1]? with
      | none => simp [hc] at hblank
      | some c => exact ⟨c, rfl, by simpa [hc] using hblank⟩
    · rename_i hblank
      rw [if_neg hblank] at h
      obtain ⟨hle, hc⟩ := ih h
      exact ⟨by omega, hc⟩

/-- There is no blank behind the first character. -/
theorem quoteAdvance_zero (h : quoteAdvance start n = 0) {j : Nat} (hj : 0 < j) (hjn : j ≤ n)
    {c : Char} (hc : start[j]? = some c) : isBlank c = false := by
  induction n with
  | zero => omega
  | succ n ih =>
    rw [quoteAdvance] at h
    split at h
    · cases h
    · rename_i hblank
      by_cases hn : j = n + 1
      · subst hn
        simpa [hc] using hblank
      · exact ih h (by omega)

/-- The three ways to take a line: the rest, the part before a blank, or 71 characters of which only
the first can be a blank. -/
theorem quoteStep_cases (hne : start ≠ []) :
    (start.length ≤ 71 ∧ quoteStep start = start.length) ∨
    (∃ b rest, start = start.take (quoteStep start) ++ b :: rest ∧ isBlank b = true ∧
      quoteStep start ≤ 71) ∨
    ∃ a x d rest, start = a :: (x ++ d :: rest) ∧ x.length = 70 ∧
      (∀ c ∈ x, isBlank c = false) ∧ isBlank d = false ∧ quoteStep start = 71 := by
  by_cases hlong : start.length > 71
  · right
    have hlong' : start.length > quoteTextWidth := hlong
    by_cases hpos : 0 < quoteAdvance start quoteTextWidth
    · left
      have hstep : quoteStep start = quoteAdvance start quoteTextWidth := by
        rw [quoteStep, if_pos hlong', if_pos hpos]
      obtain ⟨hle, b, hb, hblank⟩ := quoteAdvance_pos hpos
      rw [← hstep] at hb hle
      obtain ⟨hlt, hget⟩ := List.getElem?_eq_some_iff.mp hb
      refine ⟨b, start.drop (quoteStep start + 1), ?_, hblank, hle⟩
      rw [← hget, List.getElem_cons_drop, List.take_append_drop]
    · right
      have hzero : quoteAdvance start quoteTextWidth = 0 := by omega
      have hstep : quoteStep start = 71 := by
        rw [quoteStep, if_pos hlong', if_neg hpos]
        rfl
      obtain ⟨a, t, rfl⟩ := List.exists_cons_of_ne_nil hne
      rw [List.length_cons] at hlong
      have hget : t.drop 70 = t[70] :: t.drop 71 := List.drop_eq_getElem_cons (by omega)
      refine ⟨a, t.take 70, t[70], t.drop 71, ?_, ?_, ?_, ?_, hstep⟩
      · rw [← hget, List.take_append_drop]
      · rw [List.length_take]
        omega
      · intro c hc
        obtain ⟨j, hj, rfl⟩ := List.getElem_of_mem hc
        rw [List.length_take] at hj
        apply quoteAdvance_zero hzero (j := j + 1) (by omega)
        · unfold quoteTextWidth
          omega
        · rw [List.getElem?_cons_succ, List.getElem_take, List.getElem?_eq_getElem]
      · apply quoteAdvance_zero hzero (j := 71) (by omega) le_rfl
        rw [List.getElem?_cons_succ, List.getElem?_eq_getElem]
  · left
    refine ⟨by omega, ?_⟩
    rw [quoteStep, if_neg (show ¬ start.length > quoteTextWidth from hlong)]

def lineBody (start : CString) : CString := trimEnd isBlank (start.take (quoteStep start))

def lineRest (start : CString) : CString := (start.drop (quoteStep start)).dropWhile isBlank

theorem quoteStep_le (hne : start ≠ []) : quoteStep start ≤ 71 := by
  rcases quoteStep_cases hne with ⟨hshort, hstep⟩ | ⟨b, rest, -, -, hle⟩ | ⟨a, x, d, rest, -, -, -, -, h⟩
  · omega
  · exact hle
  · omega

theorem lineBody_le (hne : start ≠ []) : (lineBody start).length ≤ 71 := by
  have htrim := trimEnd_length_le isBlank (start.take (quoteStep start))
  have hstep := quoteStep_le hne
  rw [List.length_take] at htrim
  rw [lineBody]
  omega

theorem lineRest_lt (hne : start ≠ []) : (lineRest start).length < start.length := by
  have h1 := quoteStep_pos hne
  have h2 := (List.dropWhile_suffix (l := start.drop (quoteStep start)) isBlank).length_le
  have h3 := List.length_pos_iff.mpr hne
  rw [List.length_drop] at h2
  rw [lineRest]
  omega

theorem lineRest_head (start : CString) : ∀ c ∈ (lineRest start).head?, isBlank c = false := by
  intro c hc
  have hhead := List.head?_dropWhile_not isBlank (start.drop (quoteStep start))
  rw [lineRest] at hc
  rw [Option.mem_def.mp hc] at hhead
  simpa using hhead

/-- A line is cut between words, or within a word of more than 71 characters, or within one of 71 to
which the blank at the beginning of the paragraph has left no room. -/
theorem lineBody_words (hne : start ≠ []) :
    (¬ BlankWideWord start ∧
      words isBlank start = words isBlank (lineBody start) ++ words isBlank (lineRest start)) ∨
    ∃ p r ws, words isBlank start = (p ++ r) :: ws ∧ words isBlank (lineBody start) = [p] ∧
      words isBlank (lineRest start) = r :: ws ∧
      (71 < (p ++ r).length ∨ p.length = 70 ∧ r.length = 1 ∧ BlankWideWord start) := by
  have hid : ∀ c, isBlank c = true → isBlank c = true := fun _ => id
  rcases quoteStep_cases hne with ⟨hshort, hstep⟩ | ⟨b, rest, hsplit, hb, hle⟩ |
    ⟨a, x, d, rest, rfl, hx, hword, hd, hstep⟩
  · left
    refine ⟨fun hwide => ?_, ?_⟩
    · have := hwide.length_le
      omega
    rw [lineBody, lineRest, words_trimEnd hid, words_dropWhile hid, hstep, List.take_length,
      List.drop_length, words_nil, List.append_nil]
  · left
    have hdrop : start.drop (quoteStep start) = b :: rest := by
      have h := List.take_append_drop (quoteStep start) start
      conv at h => rhs; rw [hsplit]
      exact List.append_cancel_left h
    refine ⟨fun hwide => ?_, ?_⟩
    · have hget : start[quoteStep start]? = some b := by
        rw [← List.head?_drop, hdrop, List.head?_cons]
      rw [hwide.nonblank (quoteStep_pos hne) hle hget] at hb
      cases hb
    rw [lineBody, lineRest, words_trimEnd hid, words_dropWhile hid, hdrop, words_cons_sep hb,
      ← words_append_cons hb, ← hsplit]
  · right
    have hxne : x ≠ [] := by
      intro h
      rw [h] at hx
      cases hx
    have htake : (a :: (x ++ d :: rest)).take 71 = a :: x := by
      rw [List.take_succ_cons, List.take_left' hx]
    have hdrop : (a :: (x ++ d :: rest)).drop 71 = d :: rest := by
      rw [List.drop_succ_cons, List.drop_left' hx]
    have hbody : lineBody (a :: (x ++ d :: rest)) = a :: x := by
      rw [lineBody, hstep, htake]
      apply trimEnd_eq_self
      intro c hc
      rw [List.getLast?_cons_of_ne_nil hxne] at hc
      exact hword c (List.mem_of_getLast? hc)
    have hrest : lineRest (a :: (x ++ d :: rest)) = d :: rest := by
      rw [lineRest, hstep, hdrop, List.dropWhile_cons_of_neg (by simp [hd])]
    have hfirst : ∀ c ∈ (d :: rest).head?, isBlank c = false := by simpa using hd
    obtain ⟨r, rest', hr, hrne, hrword, hrest'⟩ :=
      exists_first_word (List.cons_ne_nil d rest) hfirst
    have hrlen := List.length_pos_iff.mpr hrne
    rw [hbody, hrest, hr]
    by_cases ha : isBlank a = true
    · -- the blank takes a column
      have hxr : ∀ c ∈ x ++ r, isBlank c = false := by
        intro c hc
        rcases List.mem_append.mp hc with hc | hc
        · exact hword c hc
        · exact hrword c hc
      refine ⟨x, r, words isBlank rest', ?_, ?_, words_word_append hrne hrword hrest', ?_⟩
      · rw [words_cons_sep ha, ← List.append_assoc]
        exact words_word_append (by simp [hxne]) hxr hrest'
      · rw [words_cons_sep ha, words_of_word hxne hword]
      · rw [List.length_append, hx]
        by_cases hone : r.length = 1
        · refine Or.inr ⟨rfl, hone, a, x ++ r, rest', ?_, ha, ?_, hxr, hrest'⟩
          · rw [List.append_assoc]
          · rw [List.length_append, hx, hone]
        · left
          omega
    · have haword : ∀ c ∈ a :: x, isBlank c = false := by
        rw [List.forall_mem_cons]
        exact ⟨by simpa using ha, hword⟩
      have hxr : ∀ c ∈ (a :: x) ++ r, isBlank c = false := by
        intro c hc
        rcases List.mem_append.mp hc with hc | hc
        · exact haword c hc
        · exact hrword c hc
      refine ⟨a :: x, r, words isBlank rest', ?_, words_of_word (List.cons_ne_nil a x) haword,
        words_word_append hrne hrword hrest', ?_⟩
      · rw [← List.append_assoc, ← List.cons_append]
        exact words_word_append (by simp) hxr hrest'
      · left
        rw [List.length_append, List.length_cons, hx]
        omega

end Line

/-! ## The whole paragraph -/

section Paragraph

variable {start text : CString} {s : EdState}

/-- A line is right where the rest is. -/
theorem CutWords.line (hne : start ≠ []) (hwide : ¬ BlankWideWord start) {out : List CString}
    (h : CutWords 71 (words isBlank (lineRest start)) out) :
    CutWords 71 (words isBlank start) (words isBlank (lineBody start) ++ out) := by
  rcases lineBody_words hne with ⟨-, hsoft⟩ | ⟨p, r, ws, hstart, hbody, hrest, hlong⟩
  · rw [hsoft]
    exact (CutWords.refl _ _).append h
  · rw [hrest] at h
    rw [hstart, hbody]
    apply h.cons_piece
    rcases hlong with hlong | ⟨-, -, hw⟩
    · exact hlong
    · exact absurd hw hwide

/-- A word of 71 characters is cut. -/
theorem not_cutWords_line (hne : start ≠ []) (hwide : BlankWideWord start) (out : List CString) :
    ¬ CutWords 71 (words isBlank start) (words isBlank (lineBody start) ++ out) := by
  intro hcut
  obtain ⟨w, ws', hw, hlen⟩ := hwide.words
  rcases lineBody_words hne with ⟨hno, -⟩ | ⟨p, r, ws, hstart, hbody, -, hlong⟩
  · exact hno hwide
  · rw [hstart] at hw hcut
    rw [hbody] at hcut
    have hpr : p ++ r = w := (List.cons.inj hw).1
    rw [hpr] at hcut hlong
    rcases hlong with hlong | ⟨hp, -, -⟩
    · omega
    · have hpw := hcut.head_eq (by omega)
      rw [hpw] at hp
      omega

theorem not_blankWideWord (h : ∀ c ∈ start.head?, isBlank c = false) : ¬ BlankWideWord start := by
  rintro ⟨b, w, rest, rfl, hb, -⟩
  have hno := h b rfl
  rw [hb] at hno
  cases hno

/-- The lines behind the first one; the last line that is written may lose a word to the next. -/
theorem wrapLoop_lines (start : CString) (hstart : ∀ c ∈ start.head?, isBlank c = false)
    {s : EdState} {pre : List CString} {body : CString} (hs : s.before = pre ++ [quoted body])
    (hbody : body.length ≤ 71) :
    ∃ lines out, (wrapLoop true start s).before = pre ++ lines ∧
      (∀ l ∈ lines, ['>', ' '] <+: l ∧ l.length ≤ 73) ∧
      quotedWords lines = words isBlank body ++ out ∧ CutWords 71 (words isBlank start) out := by
  -- each line takes at least one character
  induction hn : start.length using Nat.strong_induction_on generalizing start s pre body with
  | _ n ih =>
    rw [wrapLoop]
    by_cases hne : start = []
    · rw [dif_pos hne, hne]
      refine ⟨[quoted body], [], hs, ?_, quotedWords_quoted body [], .nil⟩
      intro l hl
      rw [List.mem_singleton.mp hl]
      exact quoted_fits hbody
    · rw [dif_neg hne]
      dsimp only
      split
      · rename_i previous tail ho
        have hmove : orphan start s = some (previous, tail) := by
          split at ho
          · exact ho
          · cases ho
        obtain ⟨body', rfl, hbody', htail, hwords⟩ := orphan_some hs hbody hmove
        refine ⟨[quoted body', quoted tail], words isBlank start, ?_, ?_, ?_, .refl _ _⟩
        · rw [appendQuoteLine_before htail]
          dsimp only
          rw [hs, List.dropLast_concat, List.append_assoc]
          rfl
        · intro l hl
          rcases List.mem_pair.mp hl with rfl | rfl
          · exact quoted_fits hbody'
          · exact quoted_fits htail
        · rw [quotedWords_quoted, quotedWords_quoted, quotedWords, List.flatMap_nil, List.append_nil,
            hwords]
      · have hle := lineBody_le hne
        obtain ⟨lines, out, hbefore, hok, hwords, hcut⟩ := ih (lineRest start).length
          (hn ▸ lineRest_lt hne) (lineRest start) (lineRest_head start)
          (appendQuoteLine_before hle s) hle rfl
        refine ⟨quoted body :: lines, words isBlank (lineBody start) ++ out, ?_, ?_, ?_, ?_⟩
        · refine hbefore.trans ?_
          rw [hs, List.append_assoc]
          rfl
        · rw [List.forall_mem_cons]
          exact ⟨quoted_fits hbody, hok⟩
        · rw [quotedWords_quoted, hwords]
        · exact CutWords.line hne (not_blankWideWord hstart) hcut

/-- The first line, and the others. -/
theorem wrapLoop_first (hne : text ≠ []) (s : EdState) : ∃ lines out,
    (wrapLoop false text s).before = s.before ++ lines ∧
      (∀ l ∈ lines, ['>', ' '] <+: l ∧ l.length ≤ 73) ∧
      quotedWords lines = words isBlank (lineBody text) ++ out ∧
      CutWords 71 (words isBlank (lineRest text)) out := by
  have hle := lineBody_le hne
  have hfirst : wrapLoop false text s =
      wrapLoop true (lineRest text) (appendQuoteLine (lineBody text) s) := by
    conv_lhs => rw [wrapLoop]
    rw [dif_neg hne]
    simp only [Bool.false_eq_true, false_and, and_false, if_false]
    rfl
  rw [hfirst]
  exact wrapLoop_lines (lineRest text) (lineRest_head text) (appendQuoteLine_before hle s) hle

theorem wrapsRight (hwide : ¬ BlankWideWord text) (s : EdState) :
    WrapsRight text s (wrapLoop false text s) := by
  by_cases hne : text = []
  · subst hne
    rw [wrapLoop, dif_pos rfl]
    refine ⟨[], (List.append_nil _).symm, by simp, ?_⟩
    rw [words_nil]
    exact .nil
  · obtain ⟨lines, out, hbefore, hok, hwords, hcut⟩ := wrapLoop_first hne s
    refine ⟨lines, hbefore, hok, ?_⟩
    rw [hwords]
    exact CutWords.line hne hwide hcut

theorem not_wrapsRight (hwide : BlankWideWord text) (s : EdState) :
    ¬ WrapsRight text s (wrapLoop false text s) := by
  have hne : text ≠ [] := by
    rintro rfl
    have := hwide.length_le
    simp at this
  obtain ⟨lines, out, hbefore, -, hwords, -⟩ := wrapLoop_first hne s
  rintro ⟨lines', hbefore', -, hcut⟩
  rw [hbefore, List.append_cancel_left_eq] at hbefore'
  rw [← hbefore', hwords] at hcut
  exact not_cutWords_line hne hwide out hcut

end Paragraph

/-- The words of a paragraph are those of its source lines. -/
theorem words_quoteParagraph (ls : List CString) :
    words isBlank (quoteParagraph ls) = ls.flatMap (words isBlank) := by
  have hblank : isBlank ' ' = true := rfl
  induction ls using List.reverseRecOn with
  | nil => exact words_nil
  | append_singleton ls line ih =>
    rw [quoteParagraph, List.foldl_append, List.foldl_cons, List.foldl_nil, List.flatMap_append,
      List.flatMap_singleton, ← ih, addQuoteSourceLine]
    split
    · rename_i hnil
      rw [quoteParagraph, hnil, words_nil, List.nil_append]
    · exact words_append_cons hblank _ line

/-- `append_wrapped_quote` loses no word, and cuts none that fits, just when the paragraph does not
begin with one blank before a word of the width of a line. -/
theorem quoteParagraph_right_iff (ls : List CString) (s : EdState) :
    words isBlank (quoteParagraph ls) = ls.flatMap (words isBlank) ∧
      (WrapsRight (quoteParagraph ls) s (wrapLoop false (quoteParagraph ls) s) ↔
        ¬ BlankWideWord (quoteParagraph ls)) :=
  ⟨words_quoteParagraph ls, fun h hwide => not_wrapsRight hwide s h, fun h => wrapsRight h s⟩

def wideLine : CString := ' ' :: List.replicate 71 'a'

/-- The word is cut behind its seventieth letter. -/
theorem wideLine_cut : ¬ WrapsRight (quoteParagraph [wideLine]) (edStart [])
    (wrapLoop false (quoteParagraph [wideLine]) (edStart [])) := by
  apply not_wrapsRight
  refine ⟨' ', List.replicate 71 'a', [], rfl, rfl, List.length_replicate, ?_, by simp⟩
  intro c hc
  rw [List.eq_of_mem_replicate hc]
  rfl

end SklaffKom
