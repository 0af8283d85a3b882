import SklaffKom.Sklaffrc
import SklaffKom.Stdio
import SklaffKom.Lib.Split

/-!
# The signature of a user

`load_user_signature` of `ftntoss` reads the signature from the preferences of a user, without the parser of the
main program.
-/

open CString Runs Split

namespace SklaffKom

/-- The loop of `load_user_signature`: `in_sig` and what has been read. -/
def signatureLoop : List CString → Bool → Option CString → Option CString
  | [], _, sig => sig
  | line :: lines, inSig, sig =>
    if "![".toList.isPrefixOf line then
      if inSig then sig
      else signatureLoop lines (stripEol line = "![sig]".toList) sig
    else if !inSig then signatureLoop lines inSig sig
    else signatureLoop lines inSig (some (sig.getD [] ++ line))

def loadUserSignature (sklaffrc : Int → Option CString) (uid : Int) : Option CString := do
  if uid ≤ 0 then none else
  let sig ← signatureLoop (fileLines 4096 (← sklaffrc uid)) false none
  if stripEol sig = [] then none else some (stripEol sig)

/-! ## Files with short lines -/

/-- No line of the text is longer than the buffer. -/
def ShortLines (s : CString) : Prop := ∀ l ∈ s.splitOn '\n', l.length < 4095

instance (s : CString) : Decidable (ShortLines s) := inferInstanceAs (Decidable (∀ _ ∈ _, _))

def valueLines (v : CString) : List CString := (v.splitOn '\n').map (· ++ ['\n'])

theorem splitOn_lines (v rest : CString) :
    (v ++ '\n' :: rest).splitOn '\n' = v.splitOn '\n' ++ rest.splitOn '\n' := by
  refine Split.induction (a := '\n') (fun s hs => ?_) (fun part t hpart ih => ?_) v
  · rw [splitOn_append hs, List.splitOn_eq_singleton hs, List.singleton_append]
  · rw [List.append_assoc, List.cons_append, splitOn_append hpart, splitOn_append hpart, ih, List.cons_append]

theorem ShortLines.parts {v rest : CString} (h : ShortLines (v ++ '\n' :: rest)) :
    ShortLines v ∧ ShortLines rest := by
  unfold ShortLines at h ⊢
  rw [splitOn_lines, List.forall_mem_append] at h
  exact h

theorem fileLines_value {v : CString} (hshort : ShortLines v) (rest : CString) :
    fileLines 4096 (v ++ '\n' :: rest) = valueLines v ++ fileLines 4096 rest := by
  unfold ShortLines at hshort
  unfold valueLines
  revert hshort
  refine Split.induction (a := '\n') (fun s hs => ?_) (fun part t hpart ih => ?_) v
  · rw [List.splitOn_eq_singleton hs]
    intro hshort
    rw [fileLines_line hs (by have := hshort s (by simp); omega)]
    rfl
  · rw [splitOn_append hpart]
    intro hshort
    obtain ⟨hlen, ht⟩ := List.forall_mem_cons.mp hshort
    rw [List.append_assoc, List.cons_append, fileLines_line hpart (by omega), ih ht]
    rfl

theorem flatten_valueLines (v : CString) : (valueLines v).flatten = v ++ ['\n'] := by
  unfold valueLines
  refine Split.induction (a := '\n') (fun s hs => ?_) (fun part t hpart ih => ?_) v
  · rw [List.splitOn_eq_singleton hs]
    simp
  · rw [splitOn_append hpart, List.map_cons, List.flatten_cons, ih]
    simp

/-- No line of a value is taken for a heading. -/
theorem noHeading_valueLines {v : CString} (h : Clean ('\n' :: v)) :
    ∀ l ∈ valueLines v, "![".toList.isPrefixOf l = false := by
  have hline {l rest : CString} (hl : '\n' ∉ l) (h : ¬ ['\n', '!', '['] <+: '\n' :: (l ++ rest)) :
      "![".toList.isPrefixOf (l ++ ['\n']) = false := by
    rw [Bool.eq_false_iff, ne_eq, List.isPrefixOf_iff_prefix]
    intro hp
    have hl' : ['!', '['] <+: l := by
      rw [show "![".toList = ['!', '['] by decide] at hp
      rcases List.prefix_concat_iff.mp hp with heq | hp
      · have hmem : '\n' ∈ ['!', '['] := by
          rw [heq]
          simp
        exact absurd hmem (by decide)
      · exact hp
    exact h (List.cons_prefix_cons.mpr ⟨rfl, hl'.trans (List.prefix_append _ _)⟩)
  unfold valueLines
  revert h
  refine Split.induction (a := '\n') (fun s hs => ?_) (fun part t hpart ih => ?_) v
  · intro h l hl
    rw [List.splitOn_eq_singleton hs, List.map_singleton, List.mem_singleton] at hl
    rw [hl]
    refine @hline _ [] hs ?_
    rw [List.append_nil]
    exact (clean_cons.mp h).1
  · intro h l hl
    rw [splitOn_append hpart, List.map_cons, List.mem_cons] at hl
    rcases hl with rfl | hl
    · exact hline hpart (clean_cons.mp h).1
    · exact ih (h.part ⟨'\n' :: part, [], by simp⟩) l hl

/-! ## The signature of a file of sections -/

theorem signatureLoop_out {ls : List CString} (h : ∀ l ∈ ls, "![".toList.isPrefixOf l = false)
    (rest : List CString) (sig : Option CString) :
    signatureLoop (ls ++ rest) false sig = signatureLoop rest false sig := by
  induction ls with
  | nil => rfl
  | cons l ls ih =>
    obtain ⟨hl, hls⟩ := List.forall_mem_cons.mp h
    rw [List.cons_append, signatureLoop, hl, if_neg Bool.false_ne_true, if_pos (by decide), ih hls]

theorem signatureLoop_in {ls : List CString} (h : ∀ l ∈ ls, "![".toList.isPrefixOf l = false) (hne : ls ≠ [])
    (rest : List CString) (sig : Option CString) :
    signatureLoop (ls ++ rest) true sig = signatureLoop rest true (some (sig.getD [] ++ ls.flatten)) := by
  induction ls generalizing sig with
  | nil => exact absurd rfl hne
  | cons l ls ih =>
    obtain ⟨hl, hls⟩ := List.forall_mem_cons.mp h
    rw [List.cons_append, signatureLoop, hl, if_neg Bool.false_ne_true, if_neg (by decide)]
    cases ls with
    | nil => simp
    | cons m ls =>
      rw [ih hls (List.cons_ne_nil m ls)]
      simp

/-- The heading of a section is a line of its own, and its value are the lines up to the next heading. -/
theorem fileLines_section (x : Section) {rest : CString} (hshort : ShortLines (x.text ++ rest)) :
    fileLines 4096 (x.text ++ rest) =
      ('!' :: '[' :: (x.heading ++ [']', '\n'])) :: (valueLines x.value ++ fileLines 4096 rest) ∧
        ShortLines rest := by
  have htext : x.text ++ rest =
      ('!' :: '[' :: (x.heading ++ [']'])) ++ '\n' :: (x.value ++ '\n' :: rest) := by
    simp [Section.text, sectionText]
  have hnl : '\n' ∉ '!' :: '[' :: (x.heading ++ [']']) := by
    simpa using x.noNewline
  rw [htext] at hshort ⊢
  have hhead := hshort.parts
  have hlen := hhead.1 _ (by rw [List.splitOn_eq_singleton hnl]; exact List.mem_singleton_self _)
  obtain ⟨hvalue, hrest⟩ := hhead.2.parts
  refine ⟨?_, hrest⟩
  rw [fileLines_line hnl (by omega), fileLines_value hvalue]
  simp

theorem isHeading (h s : CString) : "![".toList.isPrefixOf ('!' :: '[' :: (h ++ s)) = true := by
  rw [show "![".toList = ['!', '['] by decide]
  rfl

theorem heading_iff {h : CString} : stripEol ('!' :: '[' :: (h ++ [']', '\n'])) = "![sig]".toList ↔
    h = "sig".toList := by
  have hstrip : stripEol ('!' :: '[' :: (h ++ [']', '\n'])) = '!' :: '[' :: (h ++ [']']) := by
    have hline : '!' :: '[' :: (h ++ [']', '\n']) = ('!' :: '[' :: (h ++ [']'])) ++ ['\n'] := by simp
    have hend : ∀ c ∈ ('!' :: '[' :: (h ++ [']'])).getLast?, isEol c = false := by
      intro c hc
      rw [List.getLast?_cons_cons, ← List.cons_append, List.getLast?_concat] at hc
      cases hc
      rfl
    rw [hline, stripEol, trimEnd_eq_of_append _ (by simp [isEol]), trimEnd_eq_self hend]
  rw [hstrip, show "![sig]".toList = '!' :: '[' :: ("sig".toList ++ [']']) by decide, List.cons.injEq,
    List.cons.injEq, and_iff_right rfl, and_iff_right rfl, List.append_left_inj]

/-- The search stops at the next heading. -/
theorem signatureLoop_stop (secs : List Section) (hshort : ShortLines (sectionsText secs)) (sig : CString) :
    signatureLoop (fileLines 4096 (sectionsText secs)) true (some sig) = some sig := by
  cases secs with
  | nil => rfl
  | cons x secs =>
    rw [show sectionsText (x :: secs) = x.text ++ sectionsText secs from rfl] at hshort ⊢
    rw [(fileLines_section x hshort).1, signatureLoop, isHeading, if_pos rfl,
      if_pos rfl]

/-- The first section with the heading is found. -/
theorem signatureLoop_sections (secs : List Section) (hshort : ShortLines (sectionsText secs)) :
    signatureLoop (fileLines 4096 (sectionsText secs)) false none =
      (secs.find? (·.heading = "sig".toList)).map fun x => x.value ++ ['\n'] := by
  induction secs with
  | nil => rfl
  | cons x secs ih =>
    have hvalues := noHeading_valueLines x.clean
    have hsplit := @fileLines_section x (sectionsText secs) hshort
    have hfile : sectionsText (x :: secs) = x.text ++ sectionsText secs := rfl
    rw [hfile, hsplit.1, signatureLoop, isHeading, if_pos rfl, if_neg Bool.false_ne_true]
    by_cases hx : x.heading = "sig".toList
    · have hne : valueLines x.value ≠ [] := by
        intro hnil
        have hflat := flatten_valueLines x.value
        rw [hnil] at hflat
        simp at hflat
      rw [List.find?_cons_of_pos (by rwa [decide_eq_true_eq]), decide_eq_true (heading_iff.mpr hx),
        signatureLoop_in hvalues hne,
        signatureLoop_stop secs hsplit.2, flatten_valueLines]
      rfl
    · have hno : ¬ stripEol ('!' :: '[' :: (x.heading ++ [']', '\n'])) = "![sig]".toList :=
        fun h => hx (heading_iff.mp h)
      rw [List.find?_cons_of_neg (by rwa [decide_eq_true_eq]), decide_eq_false hno,
        signatureLoop_out hvalues, ih hsplit.2]

/-! ## The two readers -/

/-- The signature that `ftntoss` puts under a text, from the value that the main program reads. -/
def signatureOf (value : Option CString) : Option CString :=
  value.bind fun v => if stripEol v = [] then none else some (stripEol v)

theorem loadUserSignature_sections (secs : List Section) (hshort : ShortLines (sectionsText secs)) {uid : Int}
    (huid : 0 < uid) : loadUserSignature (fun _ => some (sectionsText secs)) uid =
      signatureOf ((secs.find? (·.heading = "sig".toList)).map (·.value)) := by
  have hend (v : CString) : stripEol (v ++ ['\n']) = stripEol v := trimEnd_eq_of_append v (by simp [isEol])
  unfold loadUserSignature signatureOf
  rw [if_neg (by omega)]
  simp only [Option.bind_eq_bind, Option.bind_some]
  rw [signatureLoop_sections secs hshort]
  cases secs.find? (fun x => x.heading = "sig".toList) with
  | none => rfl
  | some x =>
    simp only [Option.map_some, Option.bind_some, hend]

/-- Where no heading occurs twice the main program finds the same section. -/
theorem lastEntry_sections {secs : List Section} (hnodup : (secs.map Section.heading).Nodup) :
    lastEntry (.field .sig) (rcEntries (sectionsText secs)) =
      (secs.find? (·.heading = "sig".toList)).map (·.value) := by
  induction secs with
  | nil => rfl
  | cons x secs ih =>
    rw [List.map_cons, List.nodup_cons] at hnodup
    obtain ⟨hfresh, hnodup⟩ := hnodup
    rw [rcEntries_cons, lastEntry_append]
    by_cases hx : x.heading = "sig".toList
    · have hentry : x.entry = some (.field .sig, x.value) := by
        rw [Section.entry, hx]
        rfl
      have hrest : lastEntry (.field .sig) (rcEntries (sectionsText secs)) = none := by
        rw [ih hnodup, List.find?_eq_none.mpr, Option.map_none]
        intro y hy hyx
        exact hfresh (List.mem_map.mpr ⟨y, hy, by rw [hx]; exact of_decide_eq_true hyx⟩)
      rw [hrest, hentry, List.find?_cons_of_pos (by rwa [decide_eq_true_eq])]
      rfl
    · have hentry : lastEntry (.field .sig) x.entry.toList = none := by
        apply lastEntry_eq_none
        intro e he hsig
        obtain ⟨i, hi, rfl⟩ := Option.map_eq_some_iff.mp (Option.mem_toList.mp he)
        have hname := findHeading_eq_some hi
        rw [show i = .field .sig from hsig] at hname
        exact hx hname.symm
      rw [hentry, Option.or_none, ih hnodup, List.find?_cons_of_neg (by rwa [decide_eq_true_eq])]

theorem rcInv_step {globalrc : CString} {s s' : RcFile} {c : RcChange} (h : RcInv s)
    (hs : rcStep globalrc s c = some s') : RcInv s' := by
  cases c with
  | field f v => exact (rcStep_field hs).1
  | numlines n => exact (rcStep_numlines h hs).1

/-- After any changes of preferences the signature under an exported text is the one that the main program reads
from the user's file, as long as the lines of the file fit the buffer. -/
theorem signature_over_runs (globalrc : CString) (secs : List Section)
    (hnodup : (secs.map Section.heading).Nodup) (numlines : Int) (cs : List RcChange) {s : RcFile}
    (hrun : run (rcStep globalrc) ⟨sectionsText secs, numlines⟩ cs = some s) (hshort : ShortLines s.userrc)
    {uid : Int} (huid : 0 < uid) :
    loadUserSignature (fun _ => some s.userrc) uid =
      signatureOf (lastEntry (.field .sig) (rcEntries s.userrc)) := by
  obtain ⟨secs', hfile, hnodup'⟩ : RcInv s :=
    run_invariant (fun _ _ _ h hs => rcInv_step h hs) ⟨secs, rfl, hnodup⟩ hrun
  rw [hfile] at hshort ⊢
  rw [loadUserSignature_sections secs' hshort huid, lastEntry_sections hnodup']

theorem signature_over_runs_example :
    ∃ s, run (rcStep []) ⟨sectionsText [fieldSection .sig "hej\n".toList (by decide)], 24⟩ [.field .ort lund] =
        some s ∧
      loadUserSignature (fun _ => some s.userrc) 7 = signatureOf (lastEntry (.field .sig)
        (rcEntries s.userrc)) :=
  ⟨_, rfl, signature_over_runs [] _ (by decide) 24 [.field .ort lund] rfl (by decide +kernel) (by decide)⟩

end SklaffKom
