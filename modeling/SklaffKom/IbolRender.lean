import Mathlib.Data.List.Forall2
import SklaffKom.Ibol
import SklaffKom.Lib.Split
import SklaffKom.TextFile

/-!
# Plain one-liners

`ibol_render_plain` writes a line with the date, the author and the source of an entry, and its text in
lines of a width that is counted in bytes.
-/

open CString Utf8

namespace SklaffKom

/-- `"%0*d"` -/
def zeroPadded (width : Nat) (n : Int) : CString :=
  let digits := decimal n.natAbs
  let sign := if n < 0 then ['-'] else []
  sign ++ List.replicate (width - sign.length - digits.length) '0' ++ digits

def ibolFormatFtnDate (ftnDate : Option CString) (outsz : Nat) : Option CString := do
  let tm ← scanFtnDate 7 (← ftnDate)
  let out := zeroPadded 4 tm.year ++ '-' :: zeroPadded 2 (tm.mon + 1) ++ '-' :: zeroPadded 2 tm.mday ++
    ' ' :: zeroPadded 2 tm.hour ++ ':' :: zeroPadded 2 tm.min
  if out.length ≥ outsz then none else some out

/-- `append_output`; what was written before is `out`. -/
def appendOutput (outsz : Nat) (out s : CString) : Option CString :=
  if out.length < outsz ∧ s.length < outsz - out.length then some (out ++ s) else none

/-- `for (i = width; i > 0; i--)`: where a line is cut. -/
def ibolCut (text : CString) (width : Nat) : Nat → Nat
  | 0 => width
  | i + 1 => if text[i + 1]? = some ' ' then i + 1 else ibolCut text width i

/-- One blank is passed over. -/
def skipBlank : CString → CString
  | ' ' :: s => s
  | s => s

/-- The pieces of a line of the text. -/
def appendWrappedLine (outsz width : Nat) : Nat → CString → CString → Option CString
  | 0, _, _ => none
  | fuel + 1, out, line =>
    if line.length > width then do
      let cut := ibolCut line width width
      let out ← appendOutput outsz out (line.take cut ++ ['\n'])
      appendWrappedLine outsz width fuel out (skipBlank (line.drop cut))
    else appendOutput outsz out (line ++ ['\n'])

def appendWrapped (outsz width : Nat) (out text : CString) : Option CString :=
  (text.splitOn '\n').foldlM (fun out line => appendWrappedLine outsz width (line.length + 1) out line) out

def ibolDatebuf (ftnDate : Option CString) : CString :=
  (ibolFormatFtnDate ftnDate 64).getD
    (match ftnDate with
      | some date => if date ≠ [] then strlcpy 64 date else "(unknown date)".toList
      | none => "(unknown date)".toList)

def ibolHeaderLine (entry : IbolEntry) (ftnDate : Option CString) : CString :=
  let author := if entry.author ≠ [] then entry.author else "(unknown)".toList
  let source := if entry.source ≠ [] then entry.source else "(unknown BBS)".toList
  ibolDatebuf ftnDate ++ " - ".toList ++ author ++ " @ ".toList ++ source

def ibolRenderPlain (entry : IbolEntry) (ftnDate : Option CString) (outsz width : Nat) :
    Option CString :=
  if outsz = 0 then none
  else do
    let width := if width < 20 then 78 else width
    let out ← appendOutput outsz [] (ibolHeaderLine entry ftnDate ++ ['\n'])
    appendWrapped outsz width out entry.text

/-! ## What is expected -/

/-- Pieces of a line; between two of them a blank may be missing. -/
inductive IbolPieces : CString → List CString → Prop
  | last {line : CString} : IbolPieces line [line]
  | blank {piece rest : CString} {ps : List CString} (h : IbolPieces rest ps) :
      IbolPieces (piece ++ ' ' :: rest) (piece :: ps)
  | hard {piece rest : CString} {ps : List CString} (h : IbolPieces rest ps) :
      IbolPieces (piece ++ rest) (piece :: ps)

/-- A line above the text, and the pieces of its lines: they fit the width and are UTF-8. -/
structure IbolRendered (entry : IbolEntry) (ftnDate : Option CString) (width : Nat)
    (ps : List (List CString)) : Prop where
  succeeds : ∀ outsz, (ibolHeaderLine entry ftnDate ++ '\n' :: unlines ps.flatten).length < outsz →
    ibolRenderPlain entry ftnDate outsz width =
      some (ibolHeaderLine entry ftnDate ++ '\n' :: unlines ps.flatten)
  pieces : List.Forall₂ IbolPieces (entry.text.splitOn '\n') ps
  short : ∀ p ∈ ps.flatten, p.length ≤ width
  valid : Valid (ibolHeaderLine entry ftnDate) ∧ ∀ p ∈ ps.flatten, Valid p

/-- A line that is cut inside of no character: at the last blank among the first bytes when there is
one, and else at a width where a character ends. -/
inductive CleanCuts (width : Nat) : CString → Prop
  | fits {line : CString} (h : line.length ≤ width) : CleanCuts width line
  | blank {piece rest : CString} (hne : piece ≠ []) (hlen : piece.length ≤ width)
      (hlast : ' ' ∉ rest.take (width - piece.length)) (hlong : width < (piece ++ ' ' :: rest).length)
      (h : CleanCuts width rest) : CleanCuts width (piece ++ ' ' :: rest)
  | hard {piece rest : CString} (hlen : piece.length = width) (hrest : rest ≠ [])
      (hnone : ' ' ∉ (piece ++ rest.take 1).tail) (hvalid : Valid piece) (h : CleanCuts width rest) :
      CleanCuts width (piece ++ rest)

/-! ## Where a line is cut -/

variable {line piece rest out : CString} {width outsz : Nat}

theorem ibolCut_last {text : CString} {i n : Nat} (hi : 0 < i) (hin : i ≤ n)
    (hblank : text[i]? = some ' ') (hnone : ∀ j, i < j → j ≤ n → text[j]? ≠ some ' ') :
    ibolCut text width n = i := by
  induction n with
  | zero => omega
  | succ n ih =>
    rw [ibolCut]
    by_cases heq : i = n + 1
    · rw [← heq, if_pos hblank]
    · rw [if_neg (hnone (n + 1) (by omega) (Nat.le_refl _))]
      exact ih (by omega) fun j hij hjn => hnone j hij (by omega)

theorem ibolCut_none {text : CString} {n : Nat}
    (hnone : ∀ j, 0 < j → j ≤ n → text[j]? ≠ some ' ') : ibolCut text width n = width := by
  induction n with
  | zero => rfl
  | succ n ih =>
    rw [ibolCut, if_neg (hnone (n + 1) (Nat.succ_pos n) (Nat.le_refl _))]
    exact ih fun j hj hjn => hnone j hj (by omega)

theorem ibolCut_blank (hne : piece ≠ []) (hlen : piece.length ≤ width)
    (hlast : ' ' ∉ rest.take (width - piece.length)) :
    ibolCut (piece ++ ' ' :: rest) width width = piece.length := by
  apply ibolCut_last (List.length_pos_iff.mpr hne) hlen
  · rw [List.getElem?_append_right (Nat.le_refl _), Nat.sub_self]
    rfl
  · intro j hj hjn hblank
    rw [List.getElem?_append_right (by omega)] at hblank
    obtain ⟨k, hk⟩ := Nat.exists_eq_add_of_lt hj
    have hindex : j - piece.length = k + 1 := by omega
    rw [hindex, List.getElem?_cons_succ] at hblank
    apply hlast
    apply List.mem_of_getElem? (i := k)
    rwa [List.getElem?_take_of_lt (by omega)]

theorem ibolCut_hard (hlen : piece.length = width) (hnone : ' ' ∉ (piece ++ rest.take 1).tail) :
    ibolCut (piece ++ rest) width width = width := by
  apply ibolCut_none
  intro j hj hjn hblank
  apply hnone
  have htake : piece ++ rest.take 1 = (piece ++ rest).take (width + 1) := by
    have hall : piece.length ≤ width + 1 := by omega
    rw [List.take_append, List.take_of_length_le hall, hlen, Nat.add_sub_cancel_left]
  obtain ⟨k, rfl⟩ := Nat.exists_eq_succ_of_ne_zero (Nat.ne_of_gt hj)
  apply List.mem_of_getElem? (i := k)
  rw [htake, List.getElem?_tail, List.getElem?_take_of_lt (by omega)]
  exact hblank

/-- How a long line begins: with a piece and a blank, or with a piece as long as the width. -/
theorem ibolCut_cases (hwidth : 0 < width) (hlong : width < line.length) :
    (∃ piece rest, line = piece ++ ' ' :: rest ∧ piece ≠ [] ∧ piece.length ≤ width ∧
      ' ' ∉ rest.take (width - piece.length)) ∨
    ∃ piece rest, line = piece ++ rest ∧ piece.length = width ∧ rest ≠ [] ∧
      ' ' ∉ (piece ++ rest.take 1).tail := by
  cases line with
  | nil => exact absurd hlong (Nat.not_lt_zero _)
  | cons c t =>
    rw [List.length_cons] at hlong
    by_cases hmem : ' ' ∈ t.take width
    · -- the last blank
      obtain ⟨as, bs, hsplit, hlast⟩ := List.eq_append_cons_of_mem (List.mem_reverse.mpr hmem)
      have htake : t.take width = bs.reverse ++ ' ' :: as.reverse := by
        rw [← List.reverse_reverse (t.take width), hsplit]
        simp
      have hlen : bs.length + (as.length + 1) = width := by
        have h := congrArg List.length htake
        rw [List.length_take, List.length_append, List.length_cons, List.length_reverse,
          List.length_reverse] at h
        omega
      refine Or.inl ⟨c :: bs.reverse, as.reverse ++ t.drop width, ?_, List.cons_ne_nil _ _, ?_, ?_⟩
      · calc
          c :: t = c :: (t.take width ++ t.drop width) := by rw [List.take_append_drop]
          _ = c :: bs.reverse ++ ' ' :: (as.reverse ++ t.drop width) := by
            rw [htake, List.append_assoc]
            rfl
      · rw [List.length_cons, List.length_reverse]
        omega
      · rw [List.length_cons, List.length_reverse, List.take_left' (by rw [List.length_reverse]; omega)]
        exact fun h => hlast (List.mem_reverse.mp h)
    · obtain ⟨w, rfl⟩ := Nat.exists_eq_succ_of_ne_zero (Nat.ne_of_gt hwidth)
      refine Or.inr ⟨c :: t.take w, t.drop w, ?_, ?_, ?_, ?_⟩
      · rw [List.cons_append, List.take_append_drop]
      · rw [List.length_cons, List.length_take]
        omega
      · exact List.ne_nil_of_length_pos (by rw [List.length_drop]; omega)
      · rw [List.cons_append, List.tail_cons]
        have hnext : t.take w ++ (t.drop w).take 1 = t.take (w + 1) := by
          rw [List.take_add]
        rwa [hnext]

/-! ## The pieces that are written -/

def ibolLinePieces (width : Nat) : Nat → CString → List CString
  | 0, line => [line]
  | fuel + 1, line =>
    if line.length > width then
      line.take (ibolCut line width width) ::
        ibolLinePieces width fuel (skipBlank (line.drop (ibolCut line width width)))
    else [line]

theorem ibolLinePieces_fits {fuel : Nat} (h : line.length ≤ width) :
    ibolLinePieces width fuel line = [line] := by
  cases fuel with
  | zero => rfl
  | succ fuel => rw [ibolLinePieces, if_neg (by omega)]

theorem ibolLinePieces_blank {fuel : Nat} (hne : piece ≠ []) (hlen : piece.length ≤ width)
    (hlast : ' ' ∉ rest.take (width - piece.length))
    (hlong : width < (piece ++ ' ' :: rest).length) :
    ibolLinePieces width (fuel + 1) (piece ++ ' ' :: rest) =
      piece :: ibolLinePieces width fuel rest := by
  rw [ibolLinePieces, if_pos hlong, ibolCut_blank hne hlen hlast, List.take_left, List.drop_left]
  rfl

theorem hard_head_ne (hwidth : 0 < width) (hlen : piece.length = width)
    (hnone : ' ' ∉ (piece ++ rest.take 1).tail) : rest.head? ≠ some ' ' := by
  intro hhead
  obtain ⟨t, rfl⟩ := List.head?_eq_some_iff.mp hhead
  obtain ⟨e, piece, rfl⟩ := List.exists_cons_of_length_pos (by omega : 0 < piece.length)
  apply hnone
  simp

theorem ibolLinePieces_hard {fuel : Nat} (hwidth : 0 < width) (hlen : piece.length = width)
    (hrest : rest ≠ []) (hnone : ' ' ∉ (piece ++ rest.take 1).tail) :
    ibolLinePieces width (fuel + 1) (piece ++ rest) = piece :: ibolLinePieces width fuel rest := by
  have hlong : (piece ++ rest).length > width := by
    have hpos := List.length_pos_iff.mpr hrest
    rw [List.length_append]
    omega
  have hskip : skipBlank rest = rest := by
    cases rest with
    | nil => exact absurd rfl hrest
    | cons d rest =>
      rw [skipBlank]
      intro s hs
      exact hard_head_ne hwidth hlen hnone (hs ▸ rfl)
  rw [ibolLinePieces, if_pos hlong, ibolCut_hard hlen hnone, List.take_left' hlen,
    List.drop_left' hlen, hskip]

/-- A line fits, or it is cut in one of the two ways. -/
@[elab_as_elim]
theorem ibolLine_induction {motive : CString → Prop} (hwidth : 0 < width)
    (fits : ∀ line, line.length ≤ width → motive line)
    (blank : ∀ piece rest, piece ≠ [] → piece.length ≤ width →
      ' ' ∉ rest.take (width - piece.length) → width < (piece ++ ' ' :: rest).length →
      motive rest → motive (piece ++ ' ' :: rest))
    (hard : ∀ piece rest, piece.length = width → rest ≠ [] → ' ' ∉ (piece ++ rest.take 1).tail →
      motive rest → motive (piece ++ rest)) (line : CString) : motive line := by
  induction hn : line.length using Nat.strong_induction_on generalizing line with
  | _ n ih =>
    by_cases hlong : width < line.length
    · rcases ibolCut_cases hwidth hlong with ⟨piece, rest, rfl, hne, hlen, hlast⟩ |
        ⟨piece, rest, rfl, hlen, hrest, hnone⟩
      · rw [List.length_append, List.length_cons] at hn
        exact blank piece rest hne hlen hlast hlong (ih _ (by omega) rest rfl)
      · rw [List.length_append] at hn
        exact hard piece rest hlen hrest hnone (ih _ (by omega) rest rfl)
    · exact fits line (by omega)

theorem ibolLinePieces_spec (hwidth : 0 < width) (line : CString) : ∀ fuel, line.length < fuel →
    IbolPieces line (ibolLinePieces width fuel line) ∧
      ∀ p ∈ ibolLinePieces width fuel line, p.length ≤ width ∧ ∀ c ∈ p, c ∈ line := by
  refine ibolLine_induction hwidth ?_ ?_ ?_ line
  · intro line hlen fuel _
    rw [ibolLinePieces_fits hlen, List.forall_mem_singleton]
    exact ⟨.last, hlen, fun c hc => hc⟩
  · intro piece rest hne hlen hlast hlong ih fuel hfuel
    rw [List.length_append, List.length_cons] at hfuel
    obtain ⟨fuel, rfl⟩ := Nat.exists_eq_succ_of_ne_zero (Nat.ne_of_gt (Nat.zero_lt_of_lt hfuel))
    obtain ⟨hpieces, hall⟩ := ih fuel (by omega)
    rw [ibolLinePieces_blank hne hlen hlast hlong, List.forall_mem_cons]
    refine ⟨.blank hpieces, ⟨hlen, fun c hc => List.mem_append_left _ hc⟩, fun p hp => ?_⟩
    refine ⟨(hall p hp).1, fun c hc => ?_⟩
    exact List.mem_append_right _ (List.mem_cons_of_mem _ ((hall p hp).2 c hc))
  · intro piece rest hlen hrest hnone ih fuel hfuel
    rw [List.length_append] at hfuel
    obtain ⟨fuel, rfl⟩ := Nat.exists_eq_succ_of_ne_zero (Nat.ne_of_gt (Nat.zero_lt_of_lt hfuel))
    obtain ⟨hpieces, hall⟩ := ih fuel (by omega)
    rw [ibolLinePieces_hard hwidth hlen hrest hnone, List.forall_mem_cons]
    refine ⟨.hard hpieces, ⟨Nat.le_of_eq hlen, fun c hc => List.mem_append_left _ hc⟩, fun p hp => ?_⟩
    exact ⟨(hall p hp).1, fun c hc => List.mem_append_right _ ((hall p hp).2 c hc)⟩

theorem cleanCuts_blank_iff (hwidth : 0 < width) (hne : piece ≠ []) (hlen : piece.length ≤ width)
    (hlast : ' ' ∉ rest.take (width - piece.length))
    (hlong : width < (piece ++ ' ' :: rest).length) :
    CleanCuts width (piece ++ ' ' :: rest) ↔ CleanCuts width rest := by
  refine ⟨fun h => ?_, .blank hne hlen hlast hlong⟩
  have hcut := ibolCut_blank hne hlen hlast
  generalize hline : piece ++ ' ' :: rest = line at h hlong hcut
  cases h with
  | fits h => omega
  | @blank piece' rest' hne' hlen' hlast' _ h =>
    have hcut' := ibolCut_blank hne' hlen' hlast'
    obtain ⟨-, heq⟩ := List.append_inj hline (by omega)
    rwa [(List.cons.inj heq).2]
  | @hard piece' rest' hlen' _ hnone' _ _ =>
    have hcut' := ibolCut_hard hlen' hnone'
    obtain ⟨-, heq⟩ := List.append_inj hline (by omega)
    exact absurd (heq ▸ rfl) (hard_head_ne hwidth hlen' hnone')

theorem cleanCuts_hard_iff (hwidth : 0 < width) (hlen : piece.length = width) (hrest : rest ≠ [])
    (hnone : ' ' ∉ (piece ++ rest.take 1).tail) :
    CleanCuts width (piece ++ rest) ↔ Valid piece ∧ CleanCuts width rest := by
  refine ⟨fun h => ?_, fun h => .hard hlen hrest hnone h.1 h.2⟩
  have hcut := ibolCut_hard hlen hnone
  have hlong : width < (piece ++ rest).length := by
    have hpos := List.length_pos_iff.mpr hrest
    rw [List.length_append]
    omega
  generalize hline : piece ++ rest = line at h hlong hcut
  cases h with
  | fits h => omega
  | @blank piece' rest' hne' hlen' hlast' _ h =>
    have hcut' := ibolCut_blank hne' hlen' hlast'
    obtain ⟨-, heq⟩ := List.append_inj hline (by omega)
    exact absurd (by rw [heq]; rfl) (hard_head_ne hwidth hlen hnone)
  | @hard piece' rest' hlen' _ _ hvalid h =>
    obtain ⟨rfl, rfl⟩ := List.append_inj hline (by omega)
    exact ⟨hvalid, h⟩

/-- The pieces of a line are UTF-8 exactly when it is cut inside of no character. -/
theorem ibolLinePieces_valid_iff (hwidth : 0 < width) (line : CString) : ∀ fuel, line.length < fuel →
    Valid line → ((∀ p ∈ ibolLinePieces width fuel line, Valid p) ↔ CleanCuts width line) := by
  refine ibolLine_induction hwidth ?_ ?_ ?_ line
  · intro line hlen fuel _ hvalid
    rw [ibolLinePieces_fits hlen, List.forall_mem_singleton]
    exact iff_of_true hvalid (.fits hlen)
  · intro piece rest hne hlen hlast hlong ih fuel hfuel hvalid
    rw [List.length_append, List.length_cons] at hfuel
    obtain ⟨fuel, rfl⟩ := Nat.exists_eq_succ_of_ne_zero (Nat.ne_of_gt (Nat.zero_lt_of_lt hfuel))
    obtain ⟨hpiece, hrest⟩ := hvalid.split (by decide)
    rw [ibolLinePieces_blank hne hlen hlast hlong, List.forall_mem_cons, and_iff_right hpiece,
      ih fuel (by omega) hrest, cleanCuts_blank_iff hwidth hne hlen hlast hlong]
  · intro piece rest hlen hrest hnone ih fuel hfuel hvalid
    rw [List.length_append] at hfuel
    obtain ⟨fuel, rfl⟩ := Nat.exists_eq_succ_of_ne_zero (Nat.ne_of_gt (Nat.zero_lt_of_lt hfuel))
    rw [ibolLinePieces_hard hwidth hlen hrest hnone, List.forall_mem_cons,
      cleanCuts_hard_iff hwidth hlen hrest hnone]
    refine and_congr_right fun hpiece => ?_
    exact ih fuel (by omega) (hpiece.of_append_left hvalid)

theorem appendOutput_eq {s : CString} (hroom : (out ++ s).length < outsz) :
    appendOutput outsz out s = some (out ++ s) := by
  rw [List.length_append] at hroom
  rw [appendOutput, if_pos ⟨by omega, by omega⟩]

theorem ibolCut_pos (hwidth : 0 < width) (line : CString) (n : Nat) : 0 < ibolCut line width n := by
  induction n with
  | zero => exact hwidth
  | succ n ih =>
    rw [ibolCut]
    split
    next => exact Nat.succ_pos n
    next => exact ih

theorem length_skipBlank (s : CString) : (skipBlank s).length ≤ s.length := by
  unfold skipBlank
  split
  next => exact Nat.le_succ _
  next => exact Nat.le_refl _

theorem appendWrappedLine_eq (hwidth : 0 < width) {fuel : Nat} (hfuel : line.length < fuel)
    (hroom : (out ++ unlines (ibolLinePieces width fuel line)).length < outsz) :
    appendWrappedLine outsz width fuel out line =
      some (out ++ unlines (ibolLinePieces width fuel line)) := by
  induction fuel generalizing line out with
  | zero => omega
  | succ fuel ih =>
    rw [ibolLinePieces] at hroom ⊢
    rw [appendWrappedLine]
    split at hroom
    next hlong =>
      have hpos := ibolCut_pos hwidth line width
      have hskip := length_skipBlank (line.drop (ibolCut line width width))
      rw [List.length_drop] at hskip
      have hone : ∀ p ls, out ++ unlines (p :: ls) = out ++ (p ++ ['\n']) ++ unlines ls := by
        intro p ls
        rw [unlines_cons, List.append_assoc, List.append_assoc]
        rfl
      rw [if_pos hlong, if_pos hlong]
      rw [hone] at hroom ⊢
      have hpiece := hroom
      rw [List.length_append] at hpiece
      dsimp only
      rw [appendOutput_eq (by omega)]
      exact ih (by omega) hroom
    next hfits =>
      have hone : unlines [line] = line ++ ['\n'] := by rw [unlines_cons, unlines_nil]
      rw [if_neg hfits, if_neg hfits]
      rw [hone] at hroom ⊢
      exact appendOutput_eq hroom

def ibolTextPieces (width : Nat) (text : CString) : List (List CString) :=
  (text.splitOn '\n').map fun line => ibolLinePieces width (line.length + 1) line

theorem appendWrapped_eq (hwidth : 0 < width) {text : CString}
    (hroom : (out ++ unlines (ibolTextPieces width text).flatten).length < outsz) :
    appendWrapped outsz width out text = some (out ++ unlines (ibolTextPieces width text).flatten) := by
  unfold appendWrapped ibolTextPieces at *
  generalize text.splitOn '\n' = lines at hroom ⊢
  induction lines generalizing out with
  | nil =>
    rw [List.map_nil, List.flatten_nil, unlines_nil, List.append_nil]
    rfl
  | cons line lines ih =>
    rw [List.map_cons, List.flatten_cons, unlines_append, ← List.append_assoc] at hroom ⊢
    have hline := hroom
    rw [List.length_append] at hline
    rw [List.foldlM_cons, appendWrappedLine_eq hwidth (Nat.lt_add_one line.length) (by omega)]
    exact ih hroom

theorem valid_of_mem_splitOn {text : CString} (h : Valid text) :
    ∀ line ∈ text.splitOn '\n', Valid line := by
  revert h
  refine Split.induction (a := '\n') (fun s hs h => ?_) (fun part rest hpart ih h => ?_) text
  · rw [List.splitOn_eq_singleton hs, List.forall_mem_singleton]
    exact h
  · obtain ⟨hfirst, hrest⟩ := h.split (by decide)
    rw [Split.splitOn_append hpart, List.forall_mem_cons]
    exact ⟨hfirst, ih hrest⟩

theorem valid_append_ascii_iff {x y : CString} {c : Char} (hc : isAscii c = true) :
    Valid (x ++ c :: y) ↔ Valid x ∧ Valid y :=
  ⟨Valid.split hc, fun h => h.1.append (h.2.cons hc)⟩

theorem valid_cons_iff {y : CString} {c : Char} (hc : isAscii c = true) : Valid (c :: y) ↔ Valid y :=
  ⟨Valid.of_cons hc, Valid.cons hc⟩

theorem valid_default_iff {x y : CString} (hy : Valid y) : Valid (if x ≠ [] then x else y) ↔ Valid x := by
  split
  next => rfl
  next h =>
    rw [not_not.mp h]
    exact iff_of_true hy valid_nil

/-- Between the parts of the header stands ASCII. -/
theorem valid_ibolHeaderLine (entry : IbolEntry) (ftnDate : Option CString) :
    Valid (ibolHeaderLine entry ftnDate) ↔
      Valid (ibolDatebuf ftnDate) ∧ Valid entry.author ∧ Valid entry.source := by
  have hauthor : Valid "(unknown)".toList :=
    ⟨"(unknown)".toList, by decide +kernel⟩
  have hsource : Valid "(unknown BBS)".toList :=
    ⟨"(unknown BBS)".toList, by decide +kernel⟩
  have hascii : isAscii ' ' = true ∧ isAscii '-' = true ∧ isAscii '@' = true := by decide
  have hsplit : ∀ d a b : CString, d ++ " - ".toList ++ a ++ " @ ".toList ++ b =
      d ++ ' ' :: '-' :: ' ' :: (a ++ ' ' :: '@' :: ' ' :: b) := by
    intro d a b
    simp
  rw [ibolHeaderLine, hsplit, valid_append_ascii_iff hascii.1, valid_cons_iff hascii.2.1,
    valid_cons_iff hascii.1, valid_append_ascii_iff hascii.1, valid_cons_iff hascii.2.2,
    valid_cons_iff hascii.1, valid_default_iff hauthor, valid_default_iff hsource]

theorem IbolPieces.subset {ps : List CString} (h : IbolPieces line ps) :
    ∀ p ∈ ps, ∀ c ∈ p, c ∈ line := by
  induction h with
  | last =>
    rw [List.forall_mem_singleton]
    exact fun c hc => hc
  | blank _ ih =>
    rw [List.forall_mem_cons]
    exact ⟨fun c hc => List.mem_append_left _ hc,
      fun p hp c hc => List.mem_append_right _ (List.mem_cons_of_mem _ (ih p hp c hc))⟩
  | hard _ ih =>
    rw [List.forall_mem_cons]
    exact ⟨fun c hc => List.mem_append_left _ hc,
      fun p hp c hc => List.mem_append_right _ (ih p hp c hc)⟩

theorem newline_notMem_pieces {ls : List CString} {ps : List (List CString)}
    (h : List.Forall₂ IbolPieces ls ps) (hls : ∀ l ∈ ls, '\n' ∉ l) : ∀ p ∈ ps.flatten, '\n' ∉ p := by
  induction h with
  | nil => exact List.forall_mem_nil _
  | cons hfirst _ ih =>
    obtain ⟨hl, hls⟩ := List.forall_mem_cons.mp hls
    rw [List.flatten_cons]
    intro p hp hnl
    rcases List.mem_append.mp hp with hp | hp
    · exact hl (hfirst.subset p hp _ hnl)
    · exact ih hls p hp hnl

theorem ibolTextPieces_spec (hwidth : 0 < width) (text : CString) :
    List.Forall₂ IbolPieces (text.splitOn '\n') (ibolTextPieces width text) ∧
      ∀ p ∈ (ibolTextPieces width text).flatten, p.length ≤ width ∧ '\n' ∉ p := by
  constructor
  · rw [ibolTextPieces, List.forall₂_map_right_iff, List.forall₂_same]
    exact fun line _ => (ibolLinePieces_spec hwidth line _ (Nat.lt_succ_self _)).1
  · intro p hp
    obtain ⟨ls, hls, hp⟩ := List.mem_flatten.mp hp
    obtain ⟨line, hline, rfl⟩ := List.mem_map.mp hls
    obtain ⟨hlen, hsub⟩ := (ibolLinePieces_spec hwidth line _ (Nat.lt_succ_self _)).2 p hp
    exact ⟨hlen, fun hnl => Split.notMem_of_mem_splitOn hline (hsub _ hnl)⟩

theorem ibolTextPieces_valid_iff (hwidth : 0 < width) {text : CString} (htext : Valid text) :
    (∀ p ∈ (ibolTextPieces width text).flatten, Valid p) ↔
      ∀ line ∈ text.splitOn '\n', CleanCuts width line := by
  have hline : ∀ line ∈ text.splitOn '\n',
      (∀ p ∈ ibolLinePieces width (line.length + 1) line, Valid p) ↔ CleanCuts width line :=
    fun line hmem => ibolLinePieces_valid_iff hwidth line _ (Nat.lt_succ_self _)
      (valid_of_mem_splitOn htext line hmem)
  constructor
  · intro h line hmem
    refine (hline line hmem).mp fun p hp => h p ?_
    exact List.mem_flatten.mpr ⟨_, List.mem_map.mpr ⟨line, hmem, rfl⟩, hp⟩
  · intro h p hp
    obtain ⟨ls, hls, hp⟩ := List.mem_flatten.mp hp
    obtain ⟨line, hmem, rfl⟩ := List.mem_map.mp hls
    exact (hline line hmem).mpr (h line hmem) p hp

theorem ibolRenderPlain_eq (entry : IbolEntry) (ftnDate : Option CString) (hwidth : 20 ≤ width)
    (hroom : (ibolHeaderLine entry ftnDate ++
      '\n' :: unlines (ibolTextPieces width entry.text).flatten).length < outsz) :
    ibolRenderPlain entry ftnDate outsz width = some (ibolHeaderLine entry ftnDate ++
      '\n' :: unlines (ibolTextPieces width entry.text).flatten) := by
  have hsplit : ibolHeaderLine entry ftnDate ++
      '\n' :: unlines (ibolTextPieces width entry.text).flatten =
      [] ++ (ibolHeaderLine entry ftnDate ++ ['\n']) ++
        unlines (ibolTextPieces width entry.text).flatten := by
    rw [List.nil_append, List.append_assoc]
    rfl
  rw [hsplit] at hroom ⊢
  have hhead := hroom
  rw [List.length_append] at hhead
  rw [ibolRenderPlain, if_neg (by omega), if_neg (by omega)]
  dsimp only
  rw [appendOutput_eq (by omega)]
  exact appendWrapped_eq (by omega) hroom

/-- The pieces are those of the lines of the output. -/
theorem ibolRendered_iff (entry : IbolEntry) (ftnDate : Option CString) (hwidth : 20 ≤ width) :
    (∃ ps, IbolRendered entry ftnDate width ps) ↔
      Valid (ibolHeaderLine entry ftnDate) ∧
        ∀ p ∈ (ibolTextPieces width entry.text).flatten, Valid p := by
  have hpos : 0 < width := by omega
  obtain ⟨hpieces, hall⟩ := ibolTextPieces_spec hpos entry.text
  constructor
  · rintro ⟨ps, h⟩
    have hflat : ps.flatten = (ibolTextPieces width entry.text).flatten := by
      set m := (ibolHeaderLine entry ftnDate ++ '\n' :: unlines ps.flatten).length
      set n := (ibolHeaderLine entry ftnDate ++
        '\n' :: unlines (ibolTextPieces width entry.text).flatten).length
      have h1 := h.succeeds (m + n + 1) (by omega)
      rw [ibolRenderPlain_eq entry ftnDate hwidth (by omega)] at h1
      have h2 := List.append_cancel_left (Option.some.inj h1)
      have hls : ∀ l ∈ entry.text.splitOn '\n', '\n' ∉ l := fun l => Split.notMem_of_mem_splitOn
      exact (unlines_inj (fun p hp => (hall p hp).2) (newline_notMem_pieces h.pieces hls)
        (List.cons.inj h2).2).symm
    exact hflat ▸ h.valid
  · intro hvalid
    exact ⟨ibolTextPieces width entry.text, fun outsz => ibolRenderPlain_eq entry ftnDate hwidth,
      hpieces, fun p hp => (hall p hp).1, hvalid⟩

/-- What is rendered is as expected exactly when the names and the date are UTF-8 and no line of the
text is cut inside of a character. -/
theorem ibolRenderPlain_iff (entry : IbolEntry) (ftnDate : Option CString) (width : Nat)
    (htext : Valid entry.text) (hwidth : 20 ≤ width) :
    (∃ ps, IbolRendered entry ftnDate width ps) ↔
      (Valid (ibolDatebuf ftnDate) ∧ Valid entry.author ∧ Valid entry.source) ∧
        ∀ line ∈ entry.text.splitOn '\n', CleanCuts width line := by
  rw [ibolRendered_iff entry ftnDate hwidth, valid_ibolHeaderLine,
    ibolTextPieces_valid_iff (by omega) htext]

def textEntry (text : CString) : IbolEntry := { IbolEntry.init with text := text }

theorem ibolRenderPlain_hej : ∃ ps, IbolRendered (textEntry "Hej".toList) none 20 ps := by
  have htext : Valid "Hej".toList := ⟨"Hej".toList, by decide +kernel⟩
  have hdate : Valid (ibolDatebuf none) := ⟨"(unknown date)".toList, by decide +kernel⟩
  refine (ibolRenderPlain_iff (textEntry "Hej".toList) none 20 htext (Nat.le_refl 20)).mpr
    ⟨⟨hdate, valid_nil, valid_nil⟩, fun line hline => .fits ?_⟩
  have hone : "Hej".toList.splitOn '\n' = ["Hej".toList] := by decide +kernel
  obtain rfl := List.mem_singleton.mp (hone ▸ hline)
  decide

/-- Nineteen letters and an `å` have no blank among the first twenty bytes. -/
theorem ibolRenderPlain_torn :
    ¬ ∃ ps, IbolRendered (textEntry (encode "aaaaaaaaaaaaaaaaaaaå".toList)) none 20 ps := by
  rw [ibolRendered_iff _ _ (Nat.le_refl 20)]
  intro h
  have hpiece : "aaaaaaaaaaaaaaaaaaa".toList ++ ['\xc3'] ∈
      (ibolTextPieces 20 (encode "aaaaaaaaaaaaaaaaaaaå".toList)).flatten := by decide +kernel
  have hlast := ((h.2 _ hpiece).last (by decide) (List.forall_mem_nil _)).2
  exact absurd hlast (by decide)

end SklaffKom
