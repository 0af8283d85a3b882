import SklaffKom.EditSave

/-!
# What is typed is saved

A line that gets too long is cut at its last blank, and what stands behind it begins the next line.
-/

open CString Runs

namespace SklaffKom

/-- A key of a text: a printable character or the return key. -/
def TextKey (enter c : Char) : Prop := (' ' ≤ c ∧ c ≤ '~') ∨ c = enter

def nonBlank (s : CString) : CString := s.filter (· ≠ ' ')

/-- The lines of what is typed: those of the parts that the return key has ended, at least one for each,
and those of the rest. -/
structure TypedLines (enter : Char) (parts : List (CString × List CString)) (rest : CString)
    (restLines : List CString) : Prop where
  part : ∀ p ∈ parts, enter ∉ p.1 ∧ p.2 ≠ [] ∧ nonBlank p.2.flatten = nonBlank p.1
  noEnter : enter ∉ rest
  kept : nonBlank restLines.flatten = nonBlank rest

/-- Nothing is lost: the characters besides blanks are kept, each return key ends a line, and no line is too
long. -/
structure NothingLost (enter : Char) (keys : CString) (lines : List CString) : Prop where
  chars : nonBlank lines.flatten = nonBlank (keys.filter (· ≠ enter))
  ends : ∃ parts rest restLines, keys = (parts.map fun p => p.1 ++ [enter]).flatten ++ rest ∧
    lines = (parts.map (·.2)).flatten ++ restLines ∧ TypedLines enter parts rest restLines
  short : ∀ l ∈ lines, l.length ≤ 74

/-- A line is ended only when it is no command, and where it is cut it has a blank. -/
def EndsWell (s : EdState) (k : Char × Outside) : Prop :=
  endsLine s k.1 ≠ none →
    s.line.head? ≠ some '!' ∧ (' ' ≤ k.1 ∧ k.1 ≤ '~' → ' ' ∈ s.line ++ [k.1])

/-! ## One key -/

/-- What has been typed so far is in the lines before and in the current one. -/
structure TypedSoFar (enter : Char) (keys : CString) (s : EdState) : Prop where
  going : s.ended = false
  numbered : Numbered s
  waste : s.waste = []
  lastchar : s.lastchar = '\x00' ∨ TextKey enter s.lastchar
  short : ∀ l ∈ s.before ++ [s.line], l.length ≤ 74
  kept : ∃ parts rest current, keys = (parts.map fun p => p.1 ++ [enter]).flatten ++ rest ∧
    s.before = (parts.map (·.2)).flatten ++ current ∧ TypedLines enter parts rest (current ++ [s.line])

variable {w : EdWords} {a : EdArgs} {s : EdState} {enter c : Char} {keys l l' : CString}

theorem nonBlank_append (l l' : CString) : nonBlank (l ++ l') = nonBlank l ++ nonBlank l' :=
  List.filter_append l l'

theorem nonBlank_space (l l' : CString) : nonBlank (l ++ ' ' :: l') = nonBlank (l ++ l') := by
  rw [nonBlank_append, nonBlank_append, nonBlank, nonBlank, nonBlank, List.filter_cons_of_neg (by simp)]

theorem nonBlank_snoc (ls : List CString) (l : CString) :
    nonBlank (ls ++ [l]).flatten = nonBlank ls.flatten ++ nonBlank l := by
  rw [List.flatten_append, nonBlank_append, List.flatten_singleton]

theorem splitLast_of_mem {l : CString} (h : ' ' ∈ l) : ∃ r, splitLast l = some r := by
  unfold splitLast
  split
  · rename_i hnil
    rw [List.dropWhile_eq_nil_iff] at hnil
    simpa using hnil ' ' (List.mem_reverse.mpr h)
  · exact ⟨_, rfl⟩

theorem typedSoFar_start : TypedSoFar enter [] (edStart []) where
  going := rfl
  numbered := numbered_edStart []
  waste := rfl
  lastchar := Or.inl rfl
  short l hl := by
    rw [List.mem_singleton.mp hl]
    exact Nat.zero_le 74
  kept := ⟨[], [], [], rfl, rfl, fun _ h => absurd h List.not_mem_nil, List.not_mem_nil, rfl⟩

/-- A printable character that fits. -/
theorem TypedSoFar.char (h : TypedSoFar enter keys s) (hc : ' ' ≤ c ∧ c ≤ '~') (hne : c ≠ enter)
    (hfit : s.line.length < 74) :
    TypedSoFar enter (keys ++ [c]) { s with line := s.line ++ [c], lastchar := c } := by
  obtain ⟨parts, rest, current, hkeys, hbefore, hlines⟩ := h.kept
  refine ⟨h.going, h.numbered, h.waste, Or.inr (Or.inl hc), ?_, parts, rest ++ [c], current, ?_, hbefore, ?_⟩
  · intro l hl
    rcases List.mem_append.mp hl with hl | hl
    · exact h.short l (List.mem_append_left _ hl)
    · rw [List.mem_singleton.mp hl, List.length_append, List.length_singleton]
      omega
  · rw [hkeys, List.append_assoc]
  · refine ⟨hlines.part, ?_, ?_⟩
    · rw [List.mem_append, List.mem_singleton, not_or]
      exact ⟨hlines.noEnter, Ne.symm hne⟩
    · have hrest := hlines.kept
      rw [nonBlank_snoc] at hrest ⊢
      rw [nonBlank_append, nonBlank_append, ← List.append_assoc, hrest]

/-- A printable character that does not fit, in a line with a blank. -/
theorem TypedSoFar.wrap (h : TypedSoFar enter keys s) (hc : ' ' ≤ c ∧ c ≤ '~') (hne : c ≠ enter)
    (hlong : ¬ s.line.length < 74) (hblank : ' ' ∈ s.line ++ [c]) :
    TypedSoFar enter (keys ++ [c])
      { s with before := s.before ++ [(wrapLine (s.line ++ [c])).1], line := (wrapLine (s.line ++ [c])).2
               waste := [], numlines := s.numlines + 1, size := s.size + 1, lastchar := c } := by
  obtain ⟨r, hr⟩ := splitLast_of_mem hblank
  obtain ⟨front, tail⟩ := r
  have hwrap : wrapLine (s.line ++ [c]) = (front, tail) := by
    unfold wrapLine
    rw [hr]
  have hsplit := splitLast_some hr
  have hlen := congrArg List.length hsplit
  have hmax := h.short s.line (by simp)
  simp only [List.length_append, List.length_cons, List.length_nil] at hlen
  rw [hwrap]
  obtain ⟨parts, rest, current, hkeys, hbefore, hlines⟩ := h.kept
  refine ⟨h.going, h.numbered.append front tail [], rfl, Or.inr (Or.inl hc), ?_,
    parts, rest ++ [c], current ++ [front], ?_, ?_, ?_⟩
  · intro l hl
    simp only [List.mem_append, List.mem_singleton] at hl
    rcases hl with (hl | rfl) | rfl
    · exact h.short l (List.mem_append_left _ hl)
    · omega
    · omega
  · rw [hkeys, List.append_assoc]
  · rw [hbefore, List.append_assoc]
  · refine ⟨hlines.part, ?_, ?_⟩
    · rw [List.mem_append, List.mem_singleton, not_or]
      exact ⟨hlines.noEnter, Ne.symm hne⟩
    · -- the two new lines are the old one without the blank
      have hrest := hlines.kept
      rw [nonBlank_snoc] at hrest
      rw [nonBlank_snoc, nonBlank_snoc, List.append_assoc, ← nonBlank_append, ← nonBlank_space, ← hsplit,
        nonBlank_append, ← List.append_assoc, hrest, ← nonBlank_append]

/-- The return key. -/
theorem TypedSoFar.newLine (h : TypedSoFar enter keys s) :
    TypedSoFar enter (keys ++ [enter])
      { s with before := s.before ++ [s.line], line := s.waste, waste := []
               numlines := s.numlines + 1, size := s.size + 1, lastchar := enter } := by
  obtain ⟨parts, rest, current, hkeys, hbefore, hlines⟩ := h.kept
  refine ⟨h.going, h.numbered.append s.line s.waste [], rfl, Or.inr (Or.inr rfl), ?_,
    parts ++ [(rest, current ++ [s.line])], [], [], ?_, ?_, ?_, List.not_mem_nil, ?_⟩
  · intro l hl
    simp only [h.waste] at hl
    rcases List.mem_append.mp hl with hl | hl
    · exact h.short l hl
    · rw [List.mem_singleton.mp hl]
      exact Nat.zero_le 74
  · rw [hkeys]
    simp
  · show s.before ++ [s.line] = _
    rw [hbefore]
    simp
  · intro p hp
    rcases List.mem_append.mp hp with hp | hp
    · exact hlines.part p hp
    · rw [List.mem_singleton.mp hp]
      exact ⟨hlines.noEnter, by simp, hlines.kept⟩
  · rw [h.waste]
    rfl

theorem wrapLine_head {l : CString} (h : (wrapLine l).1.head? = some '!') : l.head? = some '!' := by
  unfold wrapLine at h
  split at h
  · rename_i front tail hsplit
    rw [splitLast_some hsplit, List.head?_append, h]
    rfl
  · rw [List.head?_take] at h
    simpa using h

theorem typed_step {k : Char × Outside} (henter : enter = '\r' ∨ enter = '\n')
    (h : TypedSoFar enter keys s) (hk : TextKey enter k.1) (hok : EndsWell s k) :
    ∃ s', edStep w a s k = some s' ∧ TypedSoFar enter (keys ++ [k.1]) s' := by
  have hunprintable : ¬ (' ' ≤ enter ∧ enter ≤ '~') := by
    rcases henter with rfl | rfl
    · decide
    · decide
  unfold edStep
  rw [if_neg (by rw [h.going]; exact Bool.false_ne_true)]
  by_cases hc : ' ' ≤ k.1 ∧ k.1 ≤ '~'
  · have hne : k.1 ≠ enter := fun he => hunprintable (he ▸ hc)
    by_cases hfit : s.line.length < 74
    · have hends : endsLine s k.1 = none := by
        rw [endsLine, if_pos hc, if_pos hfit]
      rw [hends]
      refine ⟨_, rfl, ?_⟩
      rw [editKey, if_pos hc]
      exact h.char hc hne hfit
    · have hends : endsLine s k.1 = some { s with
          line := (wrapLine (s.line ++ [k.1])).1, waste := (wrapLine (s.line ++ [k.1])).2 } := by
        rw [endsLine, if_pos hc, if_neg hfit]
      obtain ⟨hbang, hblank⟩ := hok (by rw [hends]; exact Option.some_ne_none _)
      rw [hends]
      refine ⟨_, rfl, ?_⟩
      have hplain : (wrapLine (s.line ++ [k.1])).1.head? ≠ some '!' := by
        intro hw
        have hhead := wrapLine_head hw
        cases hline : s.line with
        | nil =>
          rw [hline] at hfit
          exact hfit (by decide)
        | cons d l =>
          rw [hline] at hhead hbang
          exact hbang hhead
      rw [finishLine, if_neg hplain]
      exact h.wrap hc hne hfit (hblank hc)
  · have he : k.1 = enter := hk.resolve_left hc
    have hreturn : k.1 = '\r' ∨ (k.1 = '\n' ∧ s.lastchar ≠ '\r') := by
      rw [he]
      rcases henter with rfl | rfl
      · exact Or.inl rfl
      · refine Or.inr ⟨rfl, ?_⟩
        -- the key before was another of these keys
        rcases h.lastchar with hlast | hlast | hlast
        · rw [hlast]
          decide
        · intro hr
          rw [hr] at hlast
          exact absurd hlast (by decide)
        · rw [hlast]
          decide
    have hends : endsLine s k.1 = some s := by
      rw [endsLine, if_neg hc, if_pos hreturn]
    have hbang := (hok (by rw [hends]; exact Option.some_ne_none _)).1
    rw [hends]
    refine ⟨_, rfl, ?_⟩
    rw [finishLine, if_neg hbang, he]
    exact h.newLine

/-! ## The text -/

theorem typed_run {ks : List (Char × Outside)} (henter : enter = '\r' ∨ enter = '\n')
    (h : TypedSoFar enter keys s) (hks : ∀ k ∈ ks, TextKey enter k.1)
    (hok : AllPre (edStep w a) EndsWell s ks) :
    ∃ s', run (edStep w a) s ks = some s' ∧ TypedSoFar enter (keys ++ ks.map (·.1)) s' := by
  induction ks generalizing s keys with
  | nil => exact ⟨s, rfl, by rwa [List.map_nil, List.append_nil]⟩
  | cons k ks ih =>
    obtain ⟨hk, hks⟩ := List.forall_mem_cons.mp hks
    obtain ⟨hends, hrest⟩ := hok
    obtain ⟨s₁, hs₁, h₁⟩ := typed_step (w := w) (a := a) henter h hk hends
    obtain ⟨s', hrun, h'⟩ := ih h₁ hks (hrest s₁ hs₁)
    refine ⟨s', ?_, ?_⟩
    · show (edStep w a s k).bind (fun t => run (edStep w a) t ks) = some s'
      rw [hs₁]
      exact hrun
    · rw [List.map_cons, List.append_cons]
      exact h'

theorem nonBlank_parts {parts : List (CString × List CString)}
    (h : ∀ p ∈ parts, enter ∉ p.1 ∧ p.2 ≠ [] ∧ nonBlank p.2.flatten = nonBlank p.1) :
    nonBlank (parts.map (·.2)).flatten.flatten =
      nonBlank ((parts.map fun p => p.1 ++ [enter]).flatten.filter (· ≠ enter)) := by
  induction parts with
  | nil => rfl
  | cons p parts ih =>
    obtain ⟨⟨hnot, -, hkept⟩, hparts⟩ := List.forall_mem_cons.mp h
    have hpart : (p.1 ++ [enter]).filter (· ≠ enter) = p.1 := by
      rw [List.filter_append, List.filter_cons_of_neg (by simp), List.filter_nil, List.append_nil,
        List.filter_eq_self]
      intro c hc
      exact decide_eq_true fun he => hnot (he ▸ hc)
    rw [List.map_cons, List.map_cons, List.flatten_cons, List.flatten_cons, List.flatten_append,
      nonBlank_append, List.filter_append, nonBlank_append, ih hparts, hpart, hkept]

/-- What the return keys have ended, and the rest. -/
theorem NothingLost.of_typed {parts : List (CString × List CString)} {rest : CString}
    {restLines lines : List CString} (hkeys : keys = (parts.map fun p => p.1 ++ [enter]).flatten ++ rest)
    (hlines : lines = (parts.map (·.2)).flatten ++ restLines) (h : TypedLines enter parts rest restLines)
    (hshort : ∀ l ∈ lines, l.length ≤ 74) : NothingLost enter keys lines := by
  refine ⟨?_, ⟨parts, rest, restLines, hkeys, hlines, h⟩, hshort⟩
  have hrest : rest.filter (· ≠ enter) = rest := by
    rw [List.filter_eq_self]
    intro c hc
    exact decide_eq_true fun he => h.noEnter (he ▸ hc)
  rw [hkeys, hlines, List.flatten_append, nonBlank_append, List.filter_append, nonBlank_append,
    nonBlank_parts h.part, hrest, h.kept]

theorem TypedSoFar.save {o : Outside} (h : TypedSoFar enter keys s) :
    ∃ s', edStep w a s ('\x04', o) = some s' ∧ s'.ended = true ∧
      NothingLost enter keys (savedLines s') := by
  obtain ⟨parts, rest, current, hkeys, hbefore, hlines⟩ := h.kept
  have hends : endsLine s '\x04' = none := by
    rw [endsLine, if_neg (by decide), if_neg]
    rintro (hr | ⟨hr, -⟩)
    · exact absurd hr (by decide)
    · exact absurd hr (by decide)
  unfold edStep
  rw [if_neg (by rw [h.going]; exact Bool.false_ne_true)]
  simp only [hends]
  refine ⟨_, rfl, ?_⟩
  rw [editKey_end (Or.inr rfl)]
  by_cases hempty : s.line = []
  · rw [if_pos hempty]
    refine ⟨rfl, ?_⟩
    have hsaved : savedLines { leave s with lastchar := '\x04' } = s.before := savedLines_leave h.numbered
    rw [hsaved]
    refine NothingLost.of_typed hkeys hbefore ⟨hlines.part, hlines.noEnter, ?_⟩ ?_
    · have hkept := hlines.kept
      rw [nonBlank_snoc, hempty] at hkept
      rw [← hkept]
      exact (List.append_nil _).symm
    · intro l hl
      exact h.short l (List.mem_append_left _ hl)
  · rw [if_neg hempty]
    refine ⟨rfl, ?_⟩
    have hn : s.numlines = s.before.length + 1 := h.numbered
    have hnum : ¬ s.numlines = 0 := by omega
    have hsaved : savedLines { s with ended := true, lastchar := '\x04' } = s.before ++ [s.line] :=
      if_neg hnum
    rw [hsaved]
    refine NothingLost.of_typed hkeys ?_ hlines h.short
    rw [hbefore, List.append_assoc]

/-- Nothing of what is typed is lost when no line that is ended begins with `!`, and each that is cut has a
blank. -/
theorem typing_keeps (w : EdWords) (a : EdArgs) (henter : enter = '\r' ∨ enter = '\n')
    {ks : List (Char × Outside)} (hks : ∀ k ∈ ks, TextKey enter k.1)
    (hok : AllPre (edStep w a) EndsWell (edStart []) ks) (o : Outside) :
    ∃ s, run (edStep w a) (edStart []) (ks ++ [('\x04', o)]) = some s ∧ s.ended = true ∧
      NothingLost enter (ks.map (·.1)) (savedLines s) := by
  obtain ⟨s, hrun, hs⟩ := typed_run henter typedSoFar_start hks hok
  obtain ⟨s', hstep, hended, hkept⟩ := hs.save (w := w) (a := a) (o := o)
  refine ⟨s', ?_, hended, hkept⟩
  unfold run at hrun ⊢
  rw [List.foldlM_append, hrun]
  show (edStep w a s ('\x04', o)).bind some = some s'
  rw [hstep]
  rfl

theorem typing_keeps_line : ∃ s, run (edStep swedishWords ⟨true, true, true⟩) (edStart [])
    (typed "a\r" ++ [('\x04', quietOutside)]) = some s ∧ s.ended = true ∧
      NothingLost '\r' ((typed "a\r").map (·.1)) (savedLines s) := by
  refine typing_keeps _ _ (Or.inl rfl) ?_ ?_ quietOutside
  · intro k hk
    rcases List.mem_cons.mp hk with rfl | hk
    · exact Or.inl ⟨by decide, by decide⟩
    · rw [List.mem_singleton.mp hk]
      exact Or.inr rfl
  · refine ⟨fun h => absurd rfl h, fun s hs => ?_⟩
    cases hs
    refine ⟨fun _ => ⟨by decide, fun h => absurd h (by decide)⟩, fun _ _ => trivial⟩

def longWord : List (Char × Outside) := List.replicate 75 ('a', quietOutside)

/-- A character is lost where the word is cut. -/
theorem typing_loses : ∃ s, run (edStep swedishWords ⟨true, true, true⟩) (edStart [])
    (longWord ++ [('\x04', quietOutside)]) = some s ∧
      ¬ NothingLost '\r' (longWord.map (·.1)) (savedLines s) := by
  have hrun : run (edStep swedishWords ⟨true, true, true⟩) (edStart []) (longWord ++ [('\x04', quietOutside)]) =
      some ⟨[List.replicate 65 'a'], List.replicate 9 'a', 2, 2, [], '\x04', true⟩ := by decide +kernel
  refine ⟨_, hrun, fun h => ?_⟩
  have hlen := congrArg List.length h.chars
  exact absurd hlen (by decide +kernel)

end SklaffKom
