import Mathlib.Data.List.Forall2
import SklaffKom.FtnText
import SklaffKom.Lib.Split

/-!
# Wrapping the body of a message

`wrap_ftn_body_for_skom` breaks the long lines of an imported body.  The pieces of a line are
collected in a buffer of a fixed size, and those that do not fit are lost.
-/

open CString

namespace SklaffKom

/-- `wrap_col` of a piece. -/
def pieceCol (first : Bool) (mark : CString) : Nat :=
  let cont := if first then [] else mark
  if cont.length < ftnWrapCol then ftnWrapCol - cont.length else ftnWrapCol

/-- `take`: the length of the next piece. -/
def takeLength (col : Nat) (s : CString) : Nat :=
  if s.length > col then wrapPoint col s col else s.length

theorem pieceCol_pos (first : Bool) (mark : CString) : 0 < pieceCol first mark := by
  have hpos : 0 < ftnWrapCol := by decide
  unfold pieceCol
  generalize (if first then [] else mark) = cont
  dsimp only
  split
  · omega
  · exact hpos

theorem wrapPoint_bounds {col : Nat} (hcol : 0 < col) (s : CString) {n : Nat} (hn : n ≤ col) :
    0 < wrapPoint col s n ∧ wrapPoint col s n ≤ col := by
  induction n with
  | zero => exact ⟨hcol, Nat.le_refl col⟩
  | succ n ih =>
    rw [wrapPoint]
    split
    · exact ⟨Nat.succ_pos n, hn⟩
    · exact ih (by omega)

theorem takeLength_pos {col : Nat} (hcol : 0 < col) {s : CString} (hs : s ≠ []) :
    0 < takeLength col s := by
  unfold takeLength
  split
  · exact (wrapPoint_bounds hcol s (Nat.le_refl col)).1
  · exact List.length_pos_iff.mpr hs

theorem takeLength_le {col : Nat} (hcol : 0 < col) (s : CString) :
    takeLength col s ≤ s.length ∧ takeLength col s ≤ col := by
  have hpoint := (wrapPoint_bounds hcol s (Nat.le_refl col)).2
  unfold takeLength
  split
  · exact ⟨by omega, hpoint⟩
  · exact ⟨Nat.le_refl _, by omega⟩

theorem restLength_lt (first : Bool) (mark : CString) {seg : CString}
    (hs : seg.dropWhile isBlank ≠ []) :
    (((seg.dropWhile isBlank).drop
      (takeLength (pieceCol first mark) (seg.dropWhile isBlank))).dropWhile isBlank).length <
      seg.length := by
  have hpos := takeLength_pos (pieceCol_pos first mark) hs
  have hne := List.length_pos_iff.mpr hs
  have h1 := (List.dropWhile_suffix (l := seg) isBlank).length_le
  have h2 := (List.dropWhile_suffix (l := (seg.dropWhile isBlank).drop
    (takeLength (pieceCol first mark) (seg.dropWhile isBlank))) isBlank).length_le
  rw [List.length_drop] at h2
  omega

/-! ## All pieces of a line -/

variable {mark seg line out : CString} {first : Bool} {ps : List CString}

/-- The pieces of a line when there is room for them. -/
def wrapPieces (mark : CString) (seg : CString) (first : Bool) : List CString :=
  if _hs : seg.dropWhile isBlank = [] then []
  else
    let s := seg.dropWhile isBlank
    let take := takeLength (pieceCol first mark) s
    s.take take :: wrapPieces mark ((s.drop take).dropWhile isBlank) false
termination_by seg.length
decreasing_by
  exact restLength_lt first mark _hs

/-- Pieces on lines of their own, with the mark in front of every piece but the first. -/
def layPieces (mark : CString) : Bool → List CString → CString
  | _, [] => []
  | first, p :: ps => (if first then p else mark ++ p) ++ '\n' :: layPieces mark false ps

theorem wrapPieces_nil (hs : seg.dropWhile isBlank = []) (first : Bool) :
    wrapPieces mark seg first = [] := by
  rw [wrapPieces, dif_pos hs]

/-- The next piece, and what is left of the line behind it. -/
def nextPiece (mark seg : CString) (first : Bool) : CString :=
  (seg.dropWhile isBlank).take (takeLength (pieceCol first mark) (seg.dropWhile isBlank))

def nextRest (mark seg : CString) (first : Bool) : CString :=
  ((seg.dropWhile isBlank).drop
    (takeLength (pieceCol first mark) (seg.dropWhile isBlank))).dropWhile isBlank

theorem wrapPieces_cons (hs : seg.dropWhile isBlank ≠ []) (first : Bool) :
    wrapPieces mark seg first =
      nextPiece mark seg first :: wrapPieces mark (nextRest mark seg first) false := by
  rw [wrapPieces, dif_neg hs]
  rfl

theorem length_nextPiece (mark seg : CString) (first : Bool) : (nextPiece mark seg first).length =
    takeLength (pieceCol first mark) (seg.dropWhile isBlank) := by
  unfold nextPiece
  rw [List.length_take]
  exact Nat.min_eq_left (takeLength_le (pieceCol_pos first mark) _).1

/-- The pieces that are written are the first ones; the mark of the next one may follow them. -/
theorem appendWrappedSegment_pieces (mark seg : CString) (first : Bool) (out : CString) {fuel : Nat}
    (hfuel : seg.length < fuel) :
    ∃ ps qs, wrapPieces mark seg first = ps ++ qs ∧
      (appendWrappedSegment mark fuel first out seg = out ++ layPieces mark first ps ∨
        mark ≠ [] ∧ qs ≠ [] ∧
          appendWrappedSegment mark fuel first out seg = out ++ layPieces mark first ps ++ mark) ∧
      (qs = [] ↔ wrapPieces mark seg first = [] ∨
        out.length + (layPieces mark first (wrapPieces mark seg first)).length + 1 < wrappedMax) := by
  induction fuel generalizing seg first out with
  | zero => omega
  | succ fuel ih =>
    by_cases hs : seg.dropWhile isBlank = []
    · have hstop : appendWrappedSegment mark (fuel + 1) first out seg = out := by
        rw [appendWrappedSegment]
        dsimp only
        rw [if_pos hs]
      rw [wrapPieces_nil hs, hstop]
      exact ⟨[], [], rfl, .inl (List.append_nil out).symm, by simp⟩
    have hpiece := length_nextPiece mark seg first
    rw [wrapPieces_cons hs]
    -- how long the line gets with the next piece
    have htotal : (layPieces mark first
        (nextPiece mark seg first :: wrapPieces mark (nextRest mark seg first) false)).length =
        (if first then [] else mark).length + (nextPiece mark seg first).length + 1 +
          (layPieces mark false (wrapPieces mark (nextRest mark seg first) false)).length := by
      cases first with
      | false =>
        simp only [layPieces, Bool.false_eq_true, if_false, List.length_append, List.length_cons]
        omega
      | true =>
        simp only [layPieces, if_true, List.length_append, List.length_cons, List.length_nil]
        omega
    rw [htotal]
    have hstep : appendWrappedSegment mark (fuel + 1) first out seg =
        if (if first then [] else mark) ≠ [] ∧
            out.length + (if first then [] else mark).length + 1 ≥ wrappedMax then out
        else if (out ++ if first then [] else mark).length +
            takeLength (pieceCol first mark) (seg.dropWhile isBlank) + 2 ≥ wrappedMax then
          out ++ if first then [] else mark
        else appendWrappedSegment mark fuel false
          ((out ++ if first then [] else mark) ++ nextPiece mark seg first ++ ['\n'])
          (nextRest mark seg first) := by
      rw [appendWrappedSegment]
      dsimp only
      rw [if_neg hs]
      rfl
    rw [hstep]
    generalize hcont : (if first then [] else mark) = cont
    by_cases hmark : cont ≠ [] ∧ out.length + cont.length + 1 ≥ wrappedMax
    · rw [if_pos hmark]
      refine ⟨[], _, rfl, .inl (List.append_nil out).symm, ?_⟩
      simp only [reduceCtorEq, false_or, false_iff]
      omega
    · rw [if_neg hmark]
      by_cases hroom : (out ++ cont).length +
          takeLength (pieceCol first mark) (seg.dropWhile isBlank) + 2 ≥ wrappedMax
      · rw [if_pos hroom]
        rw [List.length_append] at hroom
        refine ⟨[], _, rfl, ?_, ?_⟩
        · by_cases hne : cont = []
          · exact .inl (by rw [hne]; rfl)
          · have hcm : cont = mark := by
              cases first with
              | false => exact hcont.symm
              | true => exact absurd hcont.symm hne
            exact .inr ⟨hcm ▸ hne, List.cons_ne_nil _ _, by rw [hcm, layPieces, List.append_nil]⟩
        · simp only [reduceCtorEq, false_or, false_iff]
          omega
      · rw [if_neg hroom]
        rw [List.length_append] at hroom
        have hrest := restLength_lt first mark hs
        obtain ⟨ps, qs, hsplit, hresult, hfits⟩ := @ih (nextRest mark seg first)
          false (out ++ cont ++ nextPiece mark seg first ++ ['\n'])
          (by unfold nextRest; omega)
        have hlay : out ++ cont ++ nextPiece mark seg first ++ ['\n'] ++ layPieces mark false ps =
            out ++ layPieces mark first (nextPiece mark seg first :: ps) := by
          rw [← hcont]
          cases first with
          | false => simp [layPieces]
          | true => simp [layPieces]
        refine ⟨nextPiece mark seg first :: ps, qs, by rw [hsplit]; rfl, ?_, ?_⟩
        · rw [← hlay]
          exact hresult
        · rw [hfits]
          simp only [List.length_append, List.length_singleton, reduceCtorEq, false_or]
          constructor
          · rintro (hnil | hlt)
            · rw [hnil, layPieces, List.length_nil]
              omega
            · omega
          · intro hlt
            right
            omega

/-! ## What wrapping is for -/

/-- The lines that are broken. -/
def WrapsFtnLine (line : CString) : Prop :=
  ftnWrapCol < line.length ∧
    (ftnQuotePrefix line ≠ [] ∨ line.head? ∉ ['>', '|', '*', '-', '\x01'].map some)

def pieceLines (mark : CString) : List CString → List CString
  | [] => []
  | p :: ps => p :: ps.map (mark ++ ·)

/-- The pieces of a line hold its text, and their lines are narrow. -/
structure PiecesOf (line : CString) (ps : List CString) : Prop where
  text : ps.flatten.filter (fun c => !isBlank c) = line.filter fun c => !isBlank c
  width : ∀ l ∈ pieceLines (ftnQuotePrefix line) ps, l.length ≤ ftnWrapCol

/-- What is written for a line. -/
structure LineRight (line out : CString) : Prop where
  kept : ¬ WrapsFtnLine line → out = line ++ ['\n']
  wrapped : WrapsFtnLine line →
    ∃ ps, PiecesOf line ps ∧ out = unlines (pieceLines (ftnQuotePrefix line) ps)

theorem layPieces_false (mark : CString) (ps : List CString) :
    layPieces mark false ps = unlines (ps.map (mark ++ ·)) := by
  induction ps with
  | nil => rfl
  | cons p ps ih =>
    rw [layPieces, ih, List.map_cons, unlines_cons]
    rfl

theorem layPieces_true (mark : CString) (ps : List CString) :
    layPieces mark true ps = unlines (pieceLines mark ps) := by
  cases ps with
  | nil => rfl
  | cons p ps =>
    rw [layPieces, layPieces_false, pieceLines, unlines_cons]
    rfl

theorem filter_dropWhile_blank (s : CString) :
    (s.dropWhile isBlank).filter (fun c => !isBlank c) = s.filter fun c => !isBlank c := by
  conv_rhs => rw [← List.takeWhile_append_dropWhile (p := isBlank) (l := s), List.filter_append]
  have hnil : (s.takeWhile isBlank).filter (fun c => !isBlank c) = [] := by
    rw [List.filter_eq_nil_iff]
    intro c hc
    simp [List.mem_takeWhile_imp hc]
  rw [hnil, List.nil_append]

theorem wrapPieces_text (mark seg : CString) (first : Bool) :
    (wrapPieces mark seg first).flatten.filter (fun c => !isBlank c) =
      seg.filter fun c => !isBlank c := by
  induction hn : seg.length using Nat.strong_induction_on generalizing seg first with
  | _ n ih =>
    rw [← filter_dropWhile_blank seg]
    by_cases hs : seg.dropWhile isBlank = []
    · rw [wrapPieces_nil hs, hs]
      rfl
    · have hrest := ih _ (hn ▸ restLength_lt first mark hs) (nextRest mark seg first) false rfl
      rw [wrapPieces_cons hs, List.flatten_cons, List.filter_append, hrest]
      unfold nextRest nextPiece
      rw [filter_dropWhile_blank, ← List.filter_append, List.take_append_drop]

/-- Every piece is the next one of some rest of the line. -/
theorem mem_wrapPieces {p : CString} (hp : p ∈ wrapPieces mark seg first) :
    ∃ seg' f, seg' ⊆ seg ∧ seg'.dropWhile isBlank ≠ [] ∧ p = nextPiece mark seg' f ∧
      (first = false → f = false) := by
  induction hn : seg.length using Nat.strong_induction_on generalizing seg first with
  | _ n ih =>
    by_cases hs : seg.dropWhile isBlank = []
    · rw [wrapPieces_nil hs] at hp
      cases hp
    · rw [wrapPieces_cons hs, List.mem_cons] at hp
      rcases hp with rfl | hp
      · exact ⟨seg, first, List.Subset.refl _, hs, rfl, fun h => h⟩
      · obtain ⟨seg', f, hsub, hne, heq, hf⟩ := ih _ (hn ▸ restLength_lt first mark hs) hp rfl
        refine ⟨seg', f, fun c hc => ?_, hne, heq, fun _ => hf rfl⟩
        have hc' := (List.dropWhile_suffix isBlank).subset (hsub hc)
        exact (List.dropWhile_suffix isBlank).subset (List.mem_of_mem_drop hc')

theorem nextPiece_subset (mark seg : CString) (first : Bool) : nextPiece mark seg first ⊆ seg :=
  fun _ hc => (List.dropWhile_suffix isBlank).subset (List.mem_of_mem_take hc)

/-- A piece begins with a character of its line. -/
theorem nextPiece_head (hs : seg.dropWhile isBlank ≠ []) :
    ∃ c ∈ nextPiece mark seg first, isBlank c = false := by
  obtain ⟨c, t, ht⟩ := List.exists_cons_of_ne_nil hs
  have hpos := takeLength_pos (pieceCol_pos first mark) hs
  refine ⟨c, ?_, dropWhile_head ht⟩
  unfold nextPiece
  rw [ht] at hpos ⊢
  obtain ⟨k, hk⟩ := Nat.exists_eq_succ_of_ne_zero (Nat.pos_iff_ne_zero.mp hpos)
  rw [hk, List.take_succ_cons]
  exact List.mem_cons_self

theorem length_nextPiece_le (mark seg : CString) (first : Bool) :
    (nextPiece mark seg first).length ≤ pieceCol first mark := by
  rw [length_nextPiece]
  exact (takeLength_le (pieceCol_pos first mark) _).2

theorem pieceCol_le (first : Bool) (mark : CString) : pieceCol first mark ≤ ftnWrapCol := by
  unfold pieceCol
  generalize (if first then [] else mark) = cont
  dsimp only
  split
  · exact Nat.sub_le _ _
  · exact Nat.le_refl _

theorem pieceCol_mark (hmark : mark.length < ftnWrapCol) :
    mark.length + pieceCol false mark ≤ ftnWrapCol := by
  show mark.length + (if mark.length < ftnWrapCol then ftnWrapCol - mark.length else ftnWrapCol) ≤ _
  rw [if_pos hmark]
  omega

theorem length_pieceLines (hmark : mark.length < ftnWrapCol) (line : CString) :
    ∀ l ∈ pieceLines mark (wrapPieces mark line true), l.length ≤ ftnWrapCol := by
  by_cases hs : line.dropWhile isBlank = []
  · rw [wrapPieces_nil hs]
    exact fun l hl => (List.not_mem_nil hl).elim
  · rw [wrapPieces_cons hs, pieceLines]
    refine List.forall_mem_cons.mpr
      ⟨(length_nextPiece_le mark line true).trans (pieceCol_le true mark), fun l hl => ?_⟩
    obtain ⟨p, hp, rfl⟩ := List.mem_map.mp hl
    obtain ⟨seg', f, -, -, rfl, hf⟩ := mem_wrapPieces hp
    rw [hf rfl, List.length_append]
    have hlen := length_nextPiece_le mark seg' false
    have hcol := pieceCol_mark hmark
    omega

theorem ftnQuotePrefix_take (line : CString) : ∃ n, ftnQuotePrefix line = (line.take n).take 31 := by
  unfold ftnQuotePrefix
  cases behindQuote line with
  | none => exact ⟨0, rfl⟩
  | some r => exact ⟨_, rfl⟩

theorem length_ftnQuotePrefix (line : CString) : (ftnQuotePrefix line).length < ftnWrapCol := by
  obtain ⟨n, hn⟩ := ftnQuotePrefix_take line
  rw [hn]
  exact Nat.lt_of_le_of_lt (List.length_take_le _ _) (by decide)

theorem ftnQuotePrefix_subset (line : CString) : ftnQuotePrefix line ⊆ line := by
  obtain ⟨n, hn⟩ := ftnQuotePrefix_take line
  rw [hn]
  exact fun _ hc => List.mem_of_mem_take (List.mem_of_mem_take hc)

/-! ## When it is met -/

/-- There is room for the pieces of the line in the buffer. -/
def FtnLineFits (line : CString) : Prop :=
  (unlines (pieceLines (ftnQuotePrefix line) (wrapPieces (ftnQuotePrefix line) line true))).length ≤
    wrappedMax - 2

theorem wrapFtnLine_kept (h : ¬ WrapsFtnLine line) : wrapFtnLine line = line ++ ['\n'] := by
  unfold wrapFtnLine
  unfold WrapsFtnLine at h
  dsimp only
  split
  · rename_i hnil
    rw [hnil]
    rfl
  split
  · rename_i hmark
    exact absurd ⟨hmark.2, .inl hmark.1⟩ h
  split
  · rfl
  · rename_i hlong
    rw [not_or] at hlong
    exact absurd ⟨by omega, .inr hlong.1⟩ h

theorem wrapFtnLine_wraps (h : WrapsFtnLine line) : wrapFtnLine line =
    appendWrappedSegment (ftnQuotePrefix line) (line.length + 1) true [] line := by
  obtain ⟨hlong, hwrap⟩ := h
  have hne : line ≠ [] := by
    rintro rfl
    exact absurd hlong (by decide)
  unfold wrapFtnLine
  dsimp only
  rw [if_neg hne]
  by_cases hmark : ftnQuotePrefix line = []
  · have hkept := hwrap.resolve_left fun h => h hmark
    rw [if_neg (fun h => h.1 hmark), if_neg (by rw [not_or]; exact ⟨hkept, by omega⟩), hmark]
  · rw [if_pos ⟨hmark, hlong⟩]

theorem pieceLines_inj {ps qs : List CString} (h : pieceLines mark ps = pieceLines mark qs) :
    ps = qs := by
  cases ps with
  | nil =>
    cases qs with
    | nil => rfl
    | cons q qs => cases h
  | cons p ps =>
    cases qs with
    | nil => cases h
    | cons q qs =>
      obtain ⟨rfl, hrest⟩ := List.cons.inj h
      rw [List.map_injective_iff.mpr (List.append_right_injective mark) hrest]

theorem newline_notMem_pieceLines (hmark : '\n' ∉ mark) (hps : ∀ p ∈ ps, '\n' ∉ p) :
    ∀ l ∈ pieceLines mark ps, '\n' ∉ l := by
  cases ps with
  | nil => exact fun l hl => (List.not_mem_nil hl).elim
  | cons p ps =>
    obtain ⟨hp, hps⟩ := List.forall_mem_cons.mp hps
    refine List.forall_mem_cons.mpr ⟨hp, fun l hl => ?_⟩
    obtain ⟨q, hq, rfl⟩ := List.mem_map.mp hl
    simp [hmark, hps q hq]

/-- A mark behind the last line is no line. -/
theorem unlines_ne_append {as bs : List CString} (hne : mark ≠ []) (hmark : '\n' ∉ mark) :
    unlines as ≠ unlines bs ++ mark := by
  intro heq
  have hlast := congrArg List.getLast? heq
  rw [List.getLast?_append_of_ne_nil _ hne, List.getLast?_eq_getLast_of_ne_nil hne] at hlast
  rcases List.eq_nil_or_concat' as with rfl | ⟨as', l, rfl⟩
  · cases hlast
  · rw [unlines_append, unlines_cons, unlines_nil, ← List.append_assoc,
      List.getLast?_append_of_ne_nil _ (List.cons_ne_nil _ _)] at hlast
    rw [List.getLast?_singleton, Option.some.injEq] at hlast
    exact hmark (hlast ▸ List.getLast_mem hne)

theorem lineRight_iff (hline : '\n' ∉ line) :
    LineRight line (wrapFtnLine line) ↔ (WrapsFtnLine line → FtnLineFits line) := by
  by_cases hwraps : WrapsFtnLine line
  · have hmark : '\n' ∉ ftnQuotePrefix line := fun h => hline (ftnQuotePrefix_subset line h)
    have hpieces : ∀ p ∈ wrapPieces (ftnQuotePrefix line) line true, '\n' ∉ p := by
      intro p hp hc
      obtain ⟨seg', f, hsub, -, rfl, -⟩ := mem_wrapPieces hp
      exact hline (hsub (nextPiece_subset _ _ _ hc))
    obtain ⟨ps, qs, hsplit, hresult, hfits⟩ :=
      appendWrappedSegment_pieces (ftnQuotePrefix line) line true [] (Nat.lt_succ_self line.length)
    have htext := wrapPieces_text (ftnQuotePrefix line) line true
    rw [List.length_nil, Nat.zero_add, layPieces_true] at hfits
    rw [List.nil_append, layPieces_true] at hresult
    constructor
    · intro hright _
      obtain ⟨ps', hps', hout⟩ := hright.wrapped hwraps
      rw [wrapFtnLine_wraps hwraps] at hout
      have hno : ∀ p ∈ ps', '\n' ∉ p := by
        intro p hp hc
        have hmem : '\n' ∈ ps'.flatten.filter fun c => !isBlank c :=
          List.mem_filter.mpr ⟨List.mem_flatten.mpr ⟨p, hp, hc⟩, rfl⟩
        rw [hps'.text] at hmem
        exact hline (List.mem_filter.mp hmem).1
      by_cases hqs : qs = []
      · rcases hfits.mp hqs with hnil | hlt
        · unfold FtnLineFits
          rw [hnil]
          exact Nat.zero_le _
        · unfold FtnLineFits
          omega
      · exfalso
        rcases hresult with hresult | ⟨hne, -, hresult⟩
        · have hlines := unlines_inj (newline_notMem_pieceLines hmark hno)
            (newline_notMem_pieceLines hmark fun p hp =>
              hpieces p (hsplit ▸ List.mem_append_left qs hp)) (hout.symm.trans hresult)
          rw [pieceLines_inj hlines] at hps'
          -- the text of the pieces that are lost is missing
          obtain ⟨q, hq⟩ := List.exists_mem_of_ne_nil qs hqs
          obtain ⟨seg', f, -, hne, heq, -⟩ := mem_wrapPieces (hsplit ▸ List.mem_append_right ps hq)
          obtain ⟨c, hc, hword⟩ := @nextPiece_head (ftnQuotePrefix line) seg' f hne
          have hlost := hps'.text
          rw [← htext, hsplit, List.flatten_append, List.filter_append, List.self_eq_append_right,
            List.filter_eq_nil_iff] at hlost
          exact hlost c (List.mem_flatten.mpr ⟨q, hq, heq ▸ hc⟩) (by rw [hword]; rfl)
        · exact unlines_ne_append hne hmark (hout.symm.trans hresult)
    · intro hfit
      refine ⟨fun h => absurd hwraps h, fun _ => ⟨_, ⟨htext, ?_⟩, ?_⟩⟩
      · exact length_pieceLines (length_ftnQuotePrefix line) line
      · have hlt : (unlines (pieceLines (ftnQuotePrefix line)
            (wrapPieces (ftnQuotePrefix line) line true))).length + 1 < wrappedMax :=
          Nat.lt_of_le_of_lt (Nat.succ_le_succ (hfit hwraps)) (by decide)
        have hqs : qs = [] := hfits.mpr (.inr hlt)
        rw [hqs, List.append_nil] at hsplit
        rw [wrapFtnLine_wraps hwraps, hsplit]
        exact hresult.resolve_right fun h => h.2.1 hqs
  · constructor
    · exact fun _ h => absurd h hwraps
    · intro _
      exact ⟨fun _ => wrapFtnLine_kept hwraps, fun h => absurd h hwraps⟩

/-- The body line by line, each as it should be. -/
structure WrapsBody (body out : CString) : Prop where
  whole : out = (body.splitOn '\n').flatMap wrapFtnLine
  lines : ∀ line ∈ body.splitOn '\n', LineRight line (wrapFtnLine line)

/-- The text is kept unless the pieces of a line do not fit the buffer. -/
theorem wrapFtnBody_iff (body : CString) :
    WrapsBody body (wrapFtnBodyForSkom body) ↔
      ∀ line ∈ body.splitOn '\n', WrapsFtnLine line → FtnLineFits line := by
  constructor
  · intro h line hl
    exact (lineRight_iff (Split.notMem_of_mem_splitOn hl)).mp (h.lines line hl)
  · intro h
    refine ⟨rfl, fun line hl => ?_⟩
    exact (lineRight_iff (Split.notMem_of_mem_splitOn hl)).mpr (h line hl)

theorem length_flatten_le (mark : CString) (ps : List CString) :
    ps.flatten.length ≤ (unlines (pieceLines mark ps)).length := by
  have hrest : ∀ qs : List CString, qs.flatten.length ≤ (unlines (qs.map (mark ++ ·))).length := by
    intro qs
    induction qs with
    | nil => exact Nat.le_refl 0
    | cons q qs ih =>
      simp only [List.flatten_cons, List.map_cons, unlines_cons, List.length_append,
        List.length_cons]
      omega
  cases ps with
  | nil => exact Nat.le_refl 0
  | cons p ps =>
    have hps := hrest ps
    simp only [pieceLines, List.flatten_cons, unlines_cons, List.length_append, List.length_cons]
    omega

/-- More text than the buffer holds. -/
theorem not_ftnLineFits (hblank : ∀ c ∈ line, isBlank c = false) (hlong : wrappedMax - 2 < line.length) :
    ¬ FtnLineFits line := by
  intro hfits
  have hall : line.filter (fun c => !isBlank c) = line := by
    rw [List.filter_eq_self]
    intro c hc
    rw [hblank c hc]
    rfl
  have hlen := congrArg List.length (wrapPieces_text (ftnQuotePrefix line) line true)
  rw [hall] at hlen
  have hle := List.length_filter_le (fun c => !isBlank c)
    (wrapPieces (ftnQuotePrefix line) line true).flatten
  have hflat := length_flatten_le (ftnQuotePrefix line) (wrapPieces (ftnQuotePrefix line) line true)
  unfold FtnLineFits at hfits
  omega

/-- The longest line that `process_body` leaves, without a blank. -/
theorem wrapFtnBody_long :
    ¬ WrapsBody (List.replicate 4095 'a') (wrapFtnBodyForSkom (List.replicate 4095 'a')) := by
  intro h
  have hno : '\n' ∉ List.replicate 4095 'a' := fun hc =>
    absurd (List.mem_replicate.mp hc).2 (by decide)
  have hright := h.lines (List.replicate 4095 'a') (by
    rw [List.splitOn_eq_singleton hno]
    exact List.mem_cons_self)
  have hwraps : WrapsFtnLine (List.replicate 4095 'a') := by
    refine ⟨by rw [List.length_replicate]; decide, .inr ?_⟩
    rw [List.head?_replicate]
    decide
  refine not_ftnLineFits ?_ ?_ ((lineRight_iff hno).mp hright hwraps)
  · intro c hc
    rw [(List.mem_replicate.mp hc).2]
    rfl
  · rw [List.length_replicate]
    decide

end SklaffKom
