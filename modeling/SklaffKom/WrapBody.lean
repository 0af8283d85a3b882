import SklaffKom.Lib.Lists
import SklaffKom.SendMail

/-!
# Wrapping the body of a mail

`wrap_mail_body_for_skom` cuts the lines that are longer than 78 characters, at their last blank if it
can, and writes a newline in place of every line end.
-/

open CString

namespace SklaffKom

/-- The lines of a body, which end with LF, CR LF or CR. -/
inductive BodyLines : CString → List CString → Prop
  | last {l : CString} (hl : ∀ c ∈ l, isEol c = false) : BodyLines l [l]
  | lf {l rest : CString} {ls : List CString} (hl : ∀ c ∈ l, isEol c = false) (h : BodyLines rest ls) :
      BodyLines (l ++ '\n' :: rest) (l :: ls)
  | crLf {l rest : CString} {ls : List CString} (hl : ∀ c ∈ l, isEol c = false) (h : BodyLines rest ls) :
      BodyLines (l ++ '\r' :: '\n' :: rest) (l :: ls)
  | cr {l rest : CString} {ls : List CString} (hl : ∀ c ∈ l, isEol c = false)
      (hrest : rest.head? ≠ some '\n') (h : BodyLines rest ls) :
      BodyLines (l ++ '\r' :: rest) (l :: ls)

/-- The pieces of a line: the line itself when it fits, or else a first piece that does and the pieces
of what stands behind the blanks at the cut. -/
inductive LinePieces : CString → List CString → Prop
  | fits {line : CString} (h : line.length ≤ mailtossWrapCol) : LinePieces line [line]
  | cut {piece blanks rest : CString} {pieces : List CString} (hpiece : piece.length ≤ mailtossWrapCol)
      (hblanks : ∀ c ∈ blanks, isBlank c = true)
      (hlong : mailtossWrapCol < (piece ++ (blanks ++ rest)).length) (h : LinePieces rest pieces) :
      LinePieces (piece ++ (blanks ++ rest)) (piece :: pieces)

variable {line s : CString} {pieces : List CString}

theorem LinePieces.ne_nil (h : LinePieces line pieces) : pieces ≠ [] := by
  cases h with
  | fits h => exact List.cons_ne_nil _ _
  | cut => exact List.cons_ne_nil _ _

theorem LinePieces.piece (h : LinePieces line pieces) :
    ∀ p ∈ pieces, p.length ≤ mailtossWrapCol ∧ ∀ c ∈ p, c ∈ line := by
  induction h with
  | fits h =>
    rw [List.forall_mem_singleton]
    exact ⟨h, fun c hc => hc⟩
  | @cut piece blanks rest pieces hpiece _ _ _ ih =>
    rw [List.forall_mem_cons]
    refine ⟨⟨hpiece, fun c hc => List.mem_append_left _ hc⟩, fun p hp => ⟨(ih p hp).1, fun c hc => ?_⟩⟩
    exact List.mem_append_right _ (List.mem_append_right _ ((ih p hp).2 c hc))

/-- The text of a line is its pieces, one line each. -/
theorem wrapMailLine_pieces {fuel : Nat} (hfuel : line.length ≤ fuel) :
    ∃ pieces, LinePieces line pieces ∧ wrapMailLine fuel line = ['\n'].intercalate pieces := by
  have hcol : mailtossWrapCol = 78 := rfl
  induction fuel generalizing line with
  | zero =>
    rw [wrapMailLine]
    exact ⟨[line], .fits (by omega), List.intercalate_singleton.symm⟩
  | succ fuel ih =>
    rw [wrapMailLine]
    by_cases hlong : line.length > mailtossWrapCol
    · obtain ⟨hpos, hle⟩ := wrapCut_bounds line (Nat.le_refl mailtossWrapCol)
      rw [if_pos hlong]
      dsimp only
      generalize wrapCut line mailtossWrapCol = cut at hpos hle ⊢
      have hrest : ((line.drop cut).dropWhile isBlank).length ≤ fuel := by
        have h1 := (List.dropWhile_suffix (l := line.drop cut) isBlank).length_le
        rw [List.length_drop] at h1
        omega
      obtain ⟨pieces, hpieces, heq⟩ := ih hrest
      have hline : line.take cut ++ ((line.drop cut).takeWhile isBlank ++
          (line.drop cut).dropWhile isBlank) = line := by
        rw [List.takeWhile_append_dropWhile, List.take_append_drop]
      refine ⟨line.take cut :: pieces, ?_, ?_⟩
      · have hcut : LinePieces (line.take cut ++ ((line.drop cut).takeWhile isBlank ++
            (line.drop cut).dropWhile isBlank)) (line.take cut :: pieces) := by
          refine .cut ?_ (fun c hc => List.mem_takeWhile_imp hc) (by rw [hline]; exact hlong) hpieces
          rw [List.length_take]
          omega
        rwa [hline] at hcut
      · rw [heq, List.intercalate_cons_of_ne_nil hpieces.ne_nil, List.append_assoc]
        rfl
    · rw [if_neg hlong]
      exact ⟨[line], .fits (by omega), List.intercalate_singleton.symm⟩

/-- A cut that adds a newline takes a character at least. -/
theorem wrapMailLine_length (fuel : Nat) (line : CString) :
    (wrapMailLine fuel line).length ≤ 2 * line.length := by
  have hcol : mailtossWrapCol = 78 := rfl
  induction fuel generalizing line with
  | zero =>
    rw [wrapMailLine]
    omega
  | succ fuel ih =>
    rw [wrapMailLine]
    split
    next hlong =>
      have hcut := wrapCut_bounds line (Nat.le_refl mailtossWrapCol)
      have hrest := ih ((line.drop (wrapCut line mailtossWrapCol)).dropWhile isBlank)
      have hsuffix := (List.dropWhile_suffix
        (l := line.drop (wrapCut line mailtossWrapCol)) isBlank).length_le
      rw [List.length_drop] at hsuffix
      rw [List.length_append, List.length_cons, List.length_take]
      omega
    next => omega

theorem flatten_ne_nil {ls : List CString} {ps : List (List CString)}
    (hps : List.Forall₂ LinePieces ls ps) (hne : ps ≠ []) : ps.flatten ≠ [] := by
  cases hps with
  | nil => exact absurd rfl hne
  | cons hfirst _ =>
    rw [List.flatten_cons]
    exact List.append_ne_nil_of_left_ne_nil hfirst.ne_nil _

/-- The text of a body is the pieces of its lines. -/
theorem wrapMailBody_pieces {fuel : Nat} (hfuel : s.length < fuel) :
    ∃ ls ps, BodyLines s ls ∧ List.Forall₂ LinePieces ls ps ∧ ps ≠ [] ∧
      wrapMailBody fuel s = ['\n'].intercalate ps.flatten := by
  induction fuel generalizing s with
  | zero => omega
  | succ fuel ih =>
    obtain ⟨l, t, hl, hsplit, hline, hrest⟩ : ∃ l t, (∀ c ∈ l, isEol c = false) ∧ l ++ t = s ∧
        s.takeWhile (fun c => !isEol c) = l ∧ s.dropWhile (fun c => !isEol c) = t := by
      refine ⟨_, _, fun c hc => ?_, List.takeWhile_append_dropWhile, rfl, rfl⟩
      simpa using List.mem_takeWhile_imp hc
    have hend : ∀ c ∈ t.head?, isEol c = true := by
      intro c hc
      have hnot := List.head?_dropWhile_not (fun c => !isEol c) s
      rw [hrest, Option.mem_def.mp hc] at hnot
      simpa using hnot
    obtain ⟨pieces, hpieces, htext⟩ := wrapMailLine_pieces (Nat.le_refl l.length)
    -- a line with what stands behind its end
    have hstep : ∀ rest, rest.length < s.length →
        (∀ ls, BodyLines rest ls → BodyLines s (l :: ls)) →
        ∃ ls ps, BodyLines s ls ∧ List.Forall₂ LinePieces ls ps ∧ ps ≠ [] ∧
          wrapMailLine l.length l ++ '\n' :: wrapMailBody fuel rest =
            ['\n'].intercalate ps.flatten := by
      intro rest hlen hlines
      obtain ⟨ls, ps, hls, hps, hne, heq⟩ := ih (s := rest) (by omega)
      refine ⟨l :: ls, pieces :: ps, hlines ls hls, .cons hpieces hps, List.cons_ne_nil _ _, ?_⟩
      rw [htext, heq, List.flatten_cons,
        Lists.intercalate_append _ hpieces.ne_nil (flatten_ne_nil hps hne)]
      rfl
    rw [wrapMailBody, hline, hrest]
    subst hsplit
    split
    · refine ⟨[l], [pieces], ?_, .cons hpieces .nil, List.cons_ne_nil _ _, ?_⟩
      · rw [List.append_nil]
        exact .last hl
      · rw [List.append_nil, htext, List.flatten_singleton]
    · next rest =>
      exact hstep rest (by simp; omega) fun ls h => .crLf hl h
    · next c rest hne =>
      refine hstep rest (by simp; omega) fun ls h => ?_
      have hc := hend c rfl
      simp only [isEol, Bool.or_eq_true, decide_eq_true_eq] at hc
      rcases hc with rfl | rfl
      · exact .lf hl h
      · refine .cr hl (fun hlf => ?_) h
        obtain ⟨rest', rfl⟩ := List.head?_eq_some_iff.mp hlf
        exact hne rest' rfl rfl

theorem wrapMailBody_length {fuel : Nat} (s : CString) :
    (wrapMailBody fuel s).length ≤ 2 * s.length := by
  induction fuel generalizing s with
  | zero =>
    rw [wrapMailBody]
    exact Nat.zero_le _
  | succ fuel ih =>
    have hsplit := congrArg List.length
      (List.takeWhile_append_dropWhile (p := fun c => !isEol c) (l := s))
    have hline := wrapMailLine_length (s.takeWhile fun c => !isEol c).length
      (s.takeWhile fun c => !isEol c)
    rw [List.length_append] at hsplit
    rw [wrapMailBody, List.length_append]
    split
    · rw [List.length_nil]
      omega
    · next rest heq =>
      have hrest := ih rest
      rw [heq, List.length_cons, List.length_cons] at hsplit
      rw [List.length_cons]
      omega
    · next c rest _ heq =>
      have hrest := ih rest
      rw [heq, List.length_cons] at hsplit
      rw [List.length_cons]
      omega

/-- With fuel enough the loop ends by itself. -/
theorem wrapMailLine_fuel {n m : Nat} (hn : line.length ≤ n) (hm : line.length ≤ m) :
    wrapMailLine n line = wrapMailLine m line := by
  have hempty : ∀ k, wrapMailLine k [] = [] := by
    intro k
    cases k <;> rfl
  induction n generalizing m line with
  | zero =>
    have hnil : line = [] := List.eq_nil_of_length_eq_zero (by omega)
    rw [hnil, hempty, hempty]
  | succ n ih =>
    cases m with
    | zero =>
      have hnil : line = [] := List.eq_nil_of_length_eq_zero (by omega)
      rw [hnil, hempty, hempty]
    | succ m =>
      have hcut := wrapCut_bounds line (Nat.le_refl mailtossWrapCol)
      have hrest := (List.dropWhile_suffix
        (l := line.drop (wrapCut line mailtossWrapCol)) isBlank).length_le
      rw [List.length_drop] at hrest
      rw [wrapMailLine, wrapMailLine]
      split
      next hlong =>
        have hstep : wrapMailLine n ((line.drop (wrapCut line mailtossWrapCol)).dropWhile isBlank) =
            wrapMailLine m ((line.drop (wrapCut line mailtossWrapCol)).dropWhile isBlank) :=
          ih (by omega) (by omega)
        dsimp only
        rw [hstep]
      next => rfl

theorem wrapMailBody_fuel {n m : Nat} (hn : s.length < n) (hm : s.length < m) :
    wrapMailBody n s = wrapMailBody m s := by
  induction n generalizing m s with
  | zero => omega
  | succ n ih =>
    cases m with
    | zero => omega
    | succ m =>
      have hrest := (List.dropWhile_suffix (l := s) fun c => !isEol c).length_le
      rw [wrapMailBody, wrapMailBody]
      congr 1
      split
      next => rfl
      next rest heq =>
        rw [heq, List.length_cons, List.length_cons] at hrest
        have hstep : wrapMailBody n rest = wrapMailBody m rest := ih (by omega) (by omega)
        rw [hstep]
      next c rest _ heq =>
        rw [heq, List.length_cons] at hrest
        have hstep : wrapMailBody n rest = wrapMailBody m rest := ih (by omega) (by omega)
        rw [hstep]

theorem BodyLines.noEol {ls : List CString} (h : BodyLines s ls) :
    ∀ l ∈ ls, ∀ c ∈ l, isEol c = false := by
  induction h with
  | last hl => rwa [List.forall_mem_singleton]
  | lf hl _ ih => exact List.forall_mem_cons.mpr ⟨hl, ih⟩
  | crLf hl _ ih => exact List.forall_mem_cons.mpr ⟨hl, ih⟩
  | cr hl _ _ ih => exact List.forall_mem_cons.mpr ⟨hl, ih⟩

/-- Every piece is a line of its own that fits. -/
theorem fittingLines_pieces {ls : List CString} {ps : List (List CString)}
    (hls : ∀ l ∈ ls, ∀ c ∈ l, isEol c = false) (hps : List.Forall₂ LinePieces ls ps) :
    FittingLines ps.flatten := by
  induction hps with
  | nil => exact List.forall_mem_nil _
  | cons hfirst _ ih =>
    rw [List.forall_mem_cons] at hls
    rw [List.flatten_cons]
    intro p hp
    rcases List.mem_append.mp hp with hp | hp
    · obtain ⟨hlen, hsub⟩ := hfirst.piece p hp
      refine ⟨fun hnl => ?_, hlen⟩
      exact absurd (hls.1 _ (hsub _ hnl)) (by decide)
    · exact ih hls.2 p hp

/-- The wrapped body of a mail: both loops end by themselves, the body fits the buffer, its lines are
short, and they are the pieces of the lines it had. -/
theorem wrapMailBodyForSkom_spec (body : CString) :
    ((∀ fuel, body.length < fuel → wrapMailBody fuel body = wrapMailBodyForSkom body) ∧
      ∀ line fuel, line.length ≤ fuel → wrapMailLine fuel line = wrapMailLine line.length line) ∧
    (wrapMailBodyForSkom body).length + 1 ≤ 2 * body.length + 1 ∧
    (∀ l ∈ (wrapMailBodyForSkom body).splitOn '\n', l.length ≤ mailtossWrapCol) ∧
    ∃ ls ps, BodyLines body ls ∧ List.Forall₂ LinePieces ls ps ∧
      wrapMailBodyForSkom body = ['\n'].intercalate ps.flatten := by
  obtain ⟨ls, ps, hls, hps, hne, heq⟩ := wrapMailBody_pieces (Nat.lt_succ_self body.length)
  have hfit := fittingLines_pieces hls.noEol hps
  refine ⟨⟨fun fuel hfuel => ?_, fun line fuel hfuel => ?_⟩, ?_, ?_, ls, ps, hls, hps, heq⟩
  · exact wrapMailBody_fuel hfuel (Nat.lt_succ_self _)
  · exact wrapMailLine_fuel hfuel (Nat.le_refl _)
  · exact Nat.succ_le_succ (wrapMailBody_length body)
  · intro l hl
    rw [wrapMailBodyForSkom, heq, List.splitOn_intercalate _ (fun p hp => (hfit p hp).1)
      (flatten_ne_nil hps hne)] at hl
    exact (hfit l hl).2

end SklaffKom
