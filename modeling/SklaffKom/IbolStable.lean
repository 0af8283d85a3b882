import SklaffKom.IbolUtf8

/-!
# Sanitizing twice

The sanitizers look for codes in what they read.  What they write can hold a code whose characters
came together when another code was deleted, and it can end in a blank or in a part of a character
that a second run would take off.
-/

open CString Utf8

namespace SklaffKom

variable {s t y o part : CString}

/-! ## Codes in a string -/

/-- `mystic_code_length` is 0 at every offset. -/
def MysticFree (s : CString) : Prop := ∀ t, t <:+ s → mysticCodeLength t = 0

theorem mysticFree_cons {c : Char} :
    MysticFree (c :: s) ↔ mysticCodeLength (c :: s) = 0 ∧ MysticFree s := by
  constructor
  · intro h
    exact ⟨h _ (List.suffix_refl _), fun t ht => h t (ht.trans (List.suffix_cons c s))⟩
  · rintro ⟨hc, hs⟩ t ht
    rcases List.suffix_cons_iff.mp ht with rfl | ht
    · exact hc
    · exact hs t ht

/-- The two characters behind the bar of a code. -/
def IsCodePair (p q : Char) : Prop :=
  p.isDigit = true ∧ q.isDigit = true ∨ (p.toUpper, q.toUpper) ∈ mysticKnown

theorem mysticCodeLength_pos_iff {c : Char} : 0 < mysticCodeLength (c :: s) ↔
    c = '|' ∧ ∃ p q, [p, q] <+: s ∧ IsCodePair p q := by
  constructor
  · intro h
    unfold mysticCodeLength at h
    split at h
    · rename_i p q r heq
      obtain ⟨rfl, rfl⟩ := List.cons.inj heq
      split at h
      · rename_i hpq
        exact ⟨rfl, p, q, ⟨r, rfl⟩, hpq⟩
      · exact absurd h (Nat.lt_irrefl 0)
    · exact absurd h (Nat.lt_irrefl 0)
  · rintro ⟨rfl, p, q, ⟨r, rfl⟩, hpq⟩
    have hthree : mysticCodeLength ('|' :: ([p, q] ++ r)) = 3 := if_pos hpq
    omega

theorem mysticFree_of_notMem (h : '|' ∉ s) : MysticFree s := by
  rintro t ht
  cases t with
  | nil => rfl
  | cons c t =>
    apply Nat.eq_zero_of_not_pos
    rw [mysticCodeLength_pos_iff]
    rintro ⟨rfl, -⟩
    exact h (ht.subset List.mem_cons_self)

theorem gap_range {c : Char} (h : isGap c = true) : c.toNat ≤ 32 ∨ c.toNat = 127 := by
  unfold isGap isControl isBlank at h
  simp only [Bool.or_eq_true, decide_eq_true_eq] at h
  rcases h with (h | h) | rfl | rfl
  · exact .inl (by omega)
  · exact .inr h
  · exact .inl (by decide)
  · exact .inl (by decide)

theorem toUpper_of_isGap {c : Char} (h : isGap c = true) : c.toUpper = c := by
  have hrange := gap_range h
  unfold Char.toUpper
  split
  · rename_i hc
    have hlow : 97 ≤ c.val.toNat := UInt32.le_iff_toNat_le.mp hc.1
    have hhigh : c.val.toNat ≤ 122 := UInt32.le_iff_toNat_le.mp hc.2
    have htoNat : c.toNat = c.val.toNat := rfl
    omega
  · rfl

theorem isGap_of_isDigit {c : Char} (h : c.isDigit = true) : isGap c = false := by
  rw [Bool.eq_false_iff]
  intro hg
  have hrange := gap_range hg
  unfold Char.isDigit at h
  simp only [Bool.and_eq_true, decide_eq_true_eq] at h
  have hlow : 48 ≤ c.val.toNat := UInt32.le_iff_toNat_le.mp h.1
  have hhigh : c.val.toNat ≤ 57 := UInt32.le_iff_toNat_le.mp h.2
  have htoNat : c.toNat = c.val.toNat := rfl
  omega

theorem isGap_of_isCodePair {p q : Char} (h : IsCodePair p q) : isGap p = false ∧ isGap q = false := by
  rcases h with ⟨hp, hq⟩ | h
  · exact ⟨isGap_of_isDigit hp, isGap_of_isDigit hq⟩
  · have hknown : ∀ k ∈ mysticKnown, isGap k.1 = false ∧ isGap k.2 = false :=
      List.forall_iff_forall_mem.mp (by simp [mysticKnown]; decide)
    have hword : ∀ c : Char, isGap c.toUpper = false → isGap c = false := by
      intro c hc
      rw [Bool.eq_false_iff]
      intro hg
      rw [toUpper_of_isGap hg, hg] at hc
      cases hc
    exact ⟨hword p (hknown _ h).1, hword q (hknown _ h).2⟩

theorem mysticCodeLength_gap {c : Char} (hc : isGap c = true) (s : CString) :
    mysticCodeLength (c :: s) = 0 := by
  apply Nat.eq_zero_of_not_pos
  rw [mysticCodeLength_pos_iff]
  rintro ⟨rfl, -⟩
  exact absurd hc (by decide)

theorem mysticFree_gaps {g : CString} (hg : ∀ c ∈ g, isGap c = true) :
    MysticFree (g ++ s) ↔ MysticFree s := by
  induction g with
  | nil => exact Iff.rfl
  | cons c g ih =>
    rw [List.cons_append, mysticFree_cons, mysticCodeLength_gap (hg c List.mem_cons_self),
      ih fun d hd => hg d (List.mem_cons_of_mem _ hd)]
    simp

/-! ## What is read and what is written -/

/-- `o` is a copy of `y`: the characters of words are the same, and where there is a gap in one there
is a gap in the other. -/
inductive Rewritten : CString → CString → Prop
  | nil : Rewritten [] []
  | char {c : Char} {y o : CString} (hc : isGap c = false) (h : Rewritten y o) : Rewritten (c :: y) (c :: o)
  | gap {g b y o : CString} (hg : ∀ c ∈ g, isGap c = true) (hb : ∀ c ∈ b, isGap c = true)
      (hgne : g ≠ []) (hbne : b ≠ []) (h : Rewritten y o) : Rewritten (g ++ y) (b ++ o)

theorem Rewritten.eq_of_word (h : Rewritten y o) (hy : ∀ c ∈ y, isGap c = false) : o = y := by
  induction h with
  | nil => rfl
  | char hc h ih => rw [ih fun c hc => hy c (List.mem_cons_of_mem _ hc)]
  | @gap g b y o hg hb hgne hbne h ih =>
    obtain ⟨c, g, rfl⟩ := List.exists_cons_of_ne_nil hgne
    have hc := hg c List.mem_cons_self
    rw [hy c (List.mem_append_left _ List.mem_cons_self)] at hc
    cases hc

theorem Rewritten.symm (h : Rewritten y o) : Rewritten o y := by
  induction h with
  | nil => exact .nil
  | char hc h ih => exact .char hc ih
  | gap hg hb hgne hbne h ih => exact .gap hb hg hbne hgne ih

theorem Rewritten.prefix_iff (h : Rewritten y o) {w : CString} (hw : ∀ c ∈ w, isGap c = false) :
    w <+: y ↔ w <+: o := by
  induction h generalizing w with
  | nil => exact Iff.rfl
  | @char c y o hc h ih =>
    cases w with
    | nil => simp
    | cons d w =>
      rw [List.cons_prefix_cons, List.cons_prefix_cons, ih fun e he => hw e (List.mem_cons_of_mem _ he)]
  | @gap g b y o hg hb hgne hbne h ih =>
    obtain ⟨c, g, rfl⟩ := List.exists_cons_of_ne_nil hgne
    obtain ⟨d, b, rfl⟩ := List.exists_cons_of_ne_nil hbne
    cases w with
    | nil => simp
    | cons e w =>
      have he := hw e List.mem_cons_self
      have hec : e ≠ c := fun h => by rw [h, hg c List.mem_cons_self] at he; cases he
      have hed : e ≠ d := fun h => by rw [h, hb d List.mem_cons_self] at he; cases he
      simp [hec, hed]

theorem Rewritten.mysticFree_iff (h : Rewritten y o) : MysticFree y ↔ MysticFree o := by
  induction h with
  | nil => exact Iff.rfl
  | @char c y o hc h ih =>
    have hcode : 0 < mysticCodeLength (c :: y) ↔ 0 < mysticCodeLength (c :: o) := by
      rw [mysticCodeLength_pos_iff, mysticCodeLength_pos_iff]
      have hpair : ∀ p q, IsCodePair p q → ([p, q] <+: y ↔ [p, q] <+: o) := by
        intro p q hpq
        apply h.prefix_iff
        obtain ⟨hp, hq⟩ := isGap_of_isCodePair hpq
        simp [hp, hq]
      constructor
      · rintro ⟨hbar, p, q, hpre, hpq⟩
        exact ⟨hbar, p, q, (hpair p q hpq).mp hpre, hpq⟩
      · rintro ⟨hbar, p, q, hpre, hpq⟩
        exact ⟨hbar, p, q, (hpair p q hpq).mpr hpre, hpq⟩
    rw [mysticFree_cons, mysticFree_cons, ih]
    simp only [Nat.pos_iff_ne_zero] at hcode
    rw [not_iff_not.mp hcode]
  | gap hg hb hgne hbne h ih => rw [mysticFree_gaps hg, mysticFree_gaps hb, ih]

/-! ## The last character -/

theorem isCont_of_isGap {c : Char} (h : isGap c = true) : isCont c = false :=
  isCont_of_isAscii (isAscii_of_isGap c h)

/-- The last character that is no continuation byte announces the same length. -/
theorem Rewritten.lastLead (h : Rewritten y o) {x conts : CString} {lead : Char}
    (hy : y = x ++ lead :: conts) (hlead : isCont lead = false) (hconts : ∀ c ∈ conts, isCont c = true) :
    ∃ x' lead', o = x' ++ lead' :: conts ∧ isCont lead' = false ∧ seqLength lead' = seqLength lead := by
  induction h generalizing x with
  | nil => simp at hy
  | @char c y o hc h ih =>
    cases x with
    | nil =>
      obtain ⟨rfl, rfl⟩ := List.cons.inj hy
      have hword : ∀ d ∈ y, isGap d = false := fun d hd =>
        gap_of_isCont isAscii_of_isGap (hconts d hd)
      exact ⟨[], c, by rw [h.eq_of_word hword]; rfl, hlead, rfl⟩
    | cons d x =>
      obtain ⟨rfl, hrest⟩ := List.cons.inj hy
      obtain ⟨x', lead', rfl, hrest⟩ := ih hrest
      exact ⟨c :: x', lead', rfl, hrest⟩
  | @gap g b y o hg hb hgne hbne h ih =>
    -- the character stands behind the gap or is its end
    have hbehind : ∀ {z}, y = z ++ lead :: conts → ∃ x' lead', b ++ o = x' ++ lead' :: conts ∧
        isCont lead' = false ∧ seqLength lead' = seqLength lead := by
      intro z hz
      obtain ⟨x', lead', rfl, hrest⟩ := ih hz
      exact ⟨b ++ x', lead', by rw [List.append_assoc], hrest⟩
    rcases List.append_eq_append_iff.mp hy with ⟨z, rfl, hz⟩ | ⟨z, rfl, hz⟩
    · exact hbehind hz
    · cases z with
      | nil => exact hbehind (z := []) hz.symm
      | cons d z =>
        obtain ⟨rfl, hz'⟩ := List.cons.inj hz
        have hnil : z = [] := by
          cases z with
          | nil => rfl
          | cons e z =>
            have hgap := isCont_of_isGap (hg e (by simp))
            rw [hconts e (by rw [hz']; exact List.mem_cons_self)] at hgap
            cases hgap
        rw [hnil] at hz'
        have hrest : conts = y := hz'
        rw [h.eq_of_word fun e he => gap_of_isCont isAscii_of_isGap (hconts e (hrest ▸ he)), ← hrest]
        obtain ⟨b', last, rfl⟩ := List.eq_nil_or_concat' b |>.resolve_left hbne
        have hlast := hb last (by simp)
        have hlead' := hg lead (by simp)
        refine ⟨b', last, by simp, isCont_of_isGap hlast, ?_⟩
        rw [seqLength_of_isAscii (isAscii_of_isGap _ hlast),
          seqLength_of_isAscii (isAscii_of_isGap _ hlead')]

/-- What is cut off at the end does not depend on the gaps. -/
theorem Rewritten.utf8SafeEnd_iff (h : Rewritten y o) :
    utf8SafeEnd (y ++ part) = y ↔ utf8SafeEnd (o ++ part) = o := by
  rcases exists_lastLead part with hall | ⟨x, lead, conts, rfl, hlead, hconts⟩
  · rcases exists_lastLead y with hyall | ⟨x, lead, conts, rfl, hlead, hconts⟩
    · rw [h.eq_of_word fun c hc => gap_of_isCont isAscii_of_isGap (hyall c hc)]
    · obtain ⟨x', lead', rfl, hlead', hlen⟩ := h.lastLead rfl hlead hconts
      have hall' : ∀ c ∈ conts ++ part, isCont c = true := by
        intro c hc
        rcases List.mem_append.mp hc with hc | hc
        · exact hconts c hc
        · exact hall c hc
      rw [List.append_assoc, List.append_assoc, List.cons_append, List.cons_append,
        utf8SafeEnd_append x hlead hall', utf8SafeEnd_append x' hlead' hall', hlen]
      split
      · simp
      · simp
  · rw [← List.append_assoc, ← List.append_assoc, utf8SafeEnd_append _ hlead hconts,
      utf8SafeEnd_append _ hlead hconts]
    split
    · simp
    · simp

/-! ## Fields -/

/-- Words with single blanks; `b` says that a blank may come first. -/
def Spaced : Bool → CString → Prop
  | _, [] => True
  | b, c :: s => if c = ' ' then b = true ∧ Spaced false s else isGap c = false ∧ Spaced true s

theorem spaced_squeeze (used pending b : Bool) (hu : used = true → b = true)
    (hp : pending = true → b = true) (z : CString) : Spaced b (squeeze isGap used pending z) := by
  induction z generalizing used pending b with
  | nil => trivial
  | cons c z ih =>
    rw [squeeze]
    by_cases hc : isGap c = true
    · rw [if_pos hc]
      exact ih used used b hu hu
    · have hne : c ≠ ' ' := by
        rintro rfl
        exact hc rfl
      have hc' : isGap c = false := by simpa using hc
      have hrest := ih true false true (fun _ => rfl) (fun h => by cases h)
      rw [if_neg hc]
      cases pending with
      | false =>
        show Spaced b (c :: _)
        rw [Spaced, if_neg hne]
        exact ⟨hc', hrest⟩
      | true =>
        show Spaced b (' ' :: c :: _)
        rw [Spaced, if_pos rfl, Spaced, if_neg hne]
        exact ⟨hp rfl, hc', hrest⟩

theorem Spaced.left {b : Bool} (h : Spaced b (s ++ t)) : Spaced b s := by
  induction s generalizing b with
  | nil => trivial
  | cons c s ih =>
    rw [List.cons_append, Spaced] at h
    rw [Spaced]
    split
    · rename_i hc
      rw [if_pos hc] at h
      exact ⟨h.1, ih h.2⟩
    · rename_i hc
      rw [if_neg hc] at h
      exact ⟨h.1, ih h.2⟩

theorem Spaced.not_isControl {b : Bool} (h : Spaced b s) : ∀ c ∈ s, isControl c = false := by
  induction s generalizing b with
  | nil => exact fun c hc => (List.not_mem_nil hc).elim
  | cons c s ih =>
    rw [Spaced] at h
    split at h
    · rename_i hc
      refine List.forall_mem_cons.mpr ⟨?_, ih h.2⟩
      rw [hc]
      rfl
    · refine List.forall_mem_cons.mpr ⟨?_, ih h.2⟩
      have hgap := h.1
      unfold isGap at hgap
      exact (Bool.or_eq_false_iff.mp hgap).1

/-- Single blanks stay, but one at the end. -/
theorem squeeze_spaced (s : CString) (hend : ∀ c ∈ s.getLast?, isGap c = false) :
    (∀ b, Spaced b s → squeeze isGap b false s = s) ∧
      (s ≠ [] → Spaced false s → squeeze isGap true true s = ' ' :: s) := by
  induction s with
  | nil => exact ⟨fun _ _ => rfl, fun h => absurd rfl h⟩
  | cons c s ih =>
    by_cases hs : s = []
    · subst hs
      have hc : isGap c = false := hend c rfl
      exact ⟨fun b _ => by simp [squeeze, hc], fun _ _ => by simp [squeeze, hc]⟩
    · obtain ⟨d, s', rfl⟩ := List.exists_cons_of_ne_nil hs
      have ih' := ih hend
      refine ⟨fun b h => ?_, fun _ h => ?_⟩
      · rw [Spaced] at h
        rw [squeeze]
        by_cases hc : c = ' '
        · rw [if_pos hc] at h
          rw [if_pos (by rw [hc]; rfl), h.1, ih'.2 hs h.2, hc]
        · rw [if_neg hc] at h
          rw [h.1, if_neg Bool.false_ne_true, ih'.1 true h.2]
          rfl
      · rw [Spaced] at h
        rw [squeeze]
        by_cases hc : c = ' '
        · rw [if_pos hc] at h
          cases h.1
        · rw [if_neg hc] at h
          rw [h.1, if_neg Bool.false_ne_true, ih'.1 true h.2]
          rfl

theorem getLast_squeeze {gap : Char → Bool} (used pending : Bool) (z : CString) :
    ∀ c ∈ (squeeze gap used pending z).getLast?, gap c = false := by
  induction z generalizing used pending with
  | nil => exact fun c hc => by cases hc
  | cons d z ih =>
    rw [squeeze]
    by_cases hd : gap d = true
    · rw [if_pos hd]
      exact ih used used
    · rw [if_neg hd]
      have hlast : ∀ c ∈ (d :: squeeze gap true false z).getLast?, gap c = false := by
        intro c hc
        cases hz : squeeze gap true false z with
        | nil =>
          rw [hz] at hc
          cases hc
          simpa using hd
        | cons e t =>
          rw [hz, List.getLast?_cons_cons, ← hz] at hc
          exact ih true false c hc
      cases pending with
      | false => exact hlast
      | true =>
        show ∀ c ∈ (' ' :: d :: squeeze gap true false z).getLast?, gap c = false
        rw [List.getLast?_cons_cons]
        exact hlast

/-- Without codes nothing is taken out. -/
theorem stripCodes_eq_self (hcode : MysticFree s) (hesc : '\x1b' ∉ s) : stripCodes s = s := by
  induction s with
  | nil => rw [stripCodes]
  | cons c s ih =>
    have hc : c ≠ '\x1b' := fun h => hesc (h ▸ List.mem_cons_self)
    have hansi : ansiCodeLength (c :: s) = 0 := by
      unfold ansiCodeLength
      split
      all_goals first
        | rfl
        | exact absurd (List.cons.inj (by assumption)).1 hc
    rw [mysticFree_cons] at hcode
    rw [stripCodes, if_neg (by omega), if_neg (by omega),
      ih hcode.2 fun h => hesc (List.mem_cons_of_mem _ h)]

/-- What is cut off is no gap. -/
theorem exists_utf8SafeEnd (s : CString) :
    ∃ part, s = utf8SafeEnd s ++ part ∧ ∀ c ∈ part, isGap c = false := by
  rcases exists_lastLead s with hall | ⟨x, lead, conts, rfl, hlead, hconts⟩
  · refine ⟨s, ?_, fun c hc => gap_of_isCont isAscii_of_isGap (hall c hc)⟩
    rw [utf8SafeEnd_conts hall, List.nil_append]
  · rw [utf8SafeEnd_append x hlead hconts]
    split
    · rename_i htorn
      refine ⟨lead :: conts, rfl, List.forall_mem_cons.mpr ⟨?_, fun c hc =>
        gap_of_isCont isAscii_of_isGap (hconts c hc)⟩⟩
      rw [Bool.eq_false_iff]
      intro hgap
      rw [seqLength_of_isAscii (isAscii_of_isGap _ hgap)] at htorn
      omega
    · exact ⟨[], by simp, fun c hc => (List.not_mem_nil hc).elim⟩

/-! ## What is safe to show -/

/-- No second run changes the string. -/
structure Stable (o : CString) : Prop where
  codes : MysticFree o
  word : ∀ c ∈ o.getLast?, isGap c = false
  whole : utf8SafeEnd o = o

/-- What the sanitizers are made for; `again` is a second run. -/
structure SafeText (control : Char → Bool) (again : CString → CString) (o : CString) : Prop where
  codes : MysticFree o
  chars : ∀ c ∈ o, control c = false
  same : again o = o

theorem sanitizeField_eq {dstsz : Nat} (h : 0 < dstsz) (v : CString) (flags : Nat) :
    (sanitizeField dstsz v flags).1 =
      utf8SafeEnd ((squeeze isGap false false (stripCodes v)).take (dstsz - 1)) := by
  have hloop := @sanitizeFieldLoop_eq dstsz v [] h false flags
  simp only [List.nil_append, ne_eq, not_true_eq_false, decide_false] at hloop
  unfold sanitizeField
  show utf8SafeEnd (sanitizeFieldLoop dstsz v [] false flags).1 = _
  rw [hloop]

theorem length_utf8SafeEnd_le (s : CString) : (utf8SafeEnd s).length ≤ s.length := by
  obtain ⟨part, hpart, -⟩ := exists_utf8SafeEnd s
  have hlen := congrArg List.length hpart
  rw [List.length_append] at hlen
  omega

theorem utf8SafeEnd_eq_self_of_length (h : s.length ≤ (utf8SafeEnd s).length) : utf8SafeEnd s = s := by
  obtain ⟨part, hpart, -⟩ := exists_utf8SafeEnd s
  have hlen := congrArg List.length hpart
  rw [List.length_append] at hlen
  have hnil : part = [] := List.length_eq_zero_iff.mp (by omega)
  rw [hnil, List.append_nil] at hpart
  exact hpart.symm

/-- The second run finds the words as the first has left them. -/
theorem safeText_field_iff {dstsz : Nat} (h : 0 < dstsz) (v : CString) (flags flags' : Nat) :
    SafeText isControl (fun s => (sanitizeField dstsz s flags').1) (sanitizeField dstsz v flags).1 ↔
      Stable (sanitizeField dstsz v flags).1 := by
  have hspaced : Spaced false (sanitizeField dstsz v flags).1 ∧
      (sanitizeField dstsz v flags).1.length ≤ dstsz - 1 := by
    rw [sanitizeField_eq h]
    have hall := spaced_squeeze false false false (fun h => h) (fun h => h) (stripCodes v)
    generalize squeeze isGap false false (stripCodes v) = k at hall
    obtain ⟨part, hpart, -⟩ := exists_utf8SafeEnd (k.take (dstsz - 1))
    have hlen := (length_utf8SafeEnd_le (k.take (dstsz - 1))).trans (List.length_take_le _ _)
    rw [← List.take_append_drop (dstsz - 1) k, hpart] at hall
    exact ⟨hall.left.left, hlen⟩
  obtain ⟨hspaced, hlen⟩ := hspaced
  generalize (sanitizeField dstsz v flags).1 = o at hspaced hlen
  have hchars := hspaced.not_isControl
  have hesc : '\x1b' ∉ o := fun hmem => absurd (hchars _ hmem) (by decide)
  have hagain : MysticFree o → (sanitizeField dstsz o flags').1 =
      utf8SafeEnd (squeeze isGap false false o) := by
    intro hcode
    have hshort := length_squeeze isGap false false o
    rw [Bool.toNat_false] at hshort
    rw [sanitizeField_eq h, stripCodes_eq_self hcode hesc, List.take_of_length_le (by omega)]
  constructor
  · intro hsafe
    have hsame : utf8SafeEnd (squeeze isGap false false o) = o :=
      (hagain hsafe.codes).symm.trans hsafe.same
    have hshort := length_squeeze isGap false false o
    rw [Bool.toNat_false] at hshort
    have hself := utf8SafeEnd_eq_self_of_length (s := squeeze isGap false false o)
      (by rw [hsame]; omega)
    rw [hself] at hsame
    refine ⟨hsafe.codes, ?_, ?_⟩
    · rw [← hsame]
      exact getLast_squeeze false false o
    · rw [hsame] at hself
      exact hself
  · rintro ⟨hcode, hword, hwhole⟩
    refine ⟨hcode, hchars, ?_⟩
    show (sanitizeField dstsz o flags').1 = o
    rw [hagain hcode, (squeeze_spaced o hword).1 false hspaced, hwhole]

/-! ## The part of a field that is shown -/

/-- A part of a value that a second run keeps, and a torn character behind it. -/
structure KeptPart (y part : CString) : Prop where
  codes : MysticFree y
  word : ∀ c ∈ y.getLast?, isGap c = false
  whole : utf8SafeEnd y = y
  torn : utf8SafeEnd (y ++ part) = y
  noGap : ∀ c ∈ part, isGap c = false

/-- The value `v` is `s` with codes put in: where a character of `s` stands no code begins. -/
inductive Coded : CString → CString → Prop
  | nil : Coded [] []
  | mystic {v s : CString} (h : 0 < mysticCodeLength v) (rest : Coded (v.drop (mysticCodeLength v)) s) :
      Coded v s
  | ansi {v s : CString} (hm : mysticCodeLength v = 0) (h : 0 < ansiCodeLength v)
      (rest : Coded (v.drop (ansiCodeLength v)) s) : Coded v s
  | char {c : Char} {v s : CString} (hm : mysticCodeLength (c :: v) = 0)
      (ha : ansiCodeLength (c :: v) = 0) (rest : Coded v s) : Coded (c :: v) (c :: s)

theorem coded_stripCodes (v : CString) : Coded v (stripCodes v) := by
  fun_induction stripCodes v with
  | case1 => exact .nil
  | case2 c t hm ih => exact .mystic hm ih
  | case3 c t hm ha ih => exact .ansi (Nat.eq_zero_of_not_pos hm) ha ih
  | case4 c t hm ha ih =>
    exact .char (Nat.eq_zero_of_not_pos hm) (Nat.eq_zero_of_not_pos ha) ih

theorem Coded.eq_stripCodes {v : CString} (h : Coded v s) : s = stripCodes v := by
  induction h with
  | nil => rw [stripCodes]
  | @mystic v s h rest ih =>
    cases v with
    | nil => cases h
    | cons c v =>
      rw [ih]
      conv_rhs => rw [stripCodes, if_pos h]
  | @ansi v s hm h rest ih =>
    cases v with
    | nil => cases h
    | cons c v =>
      rw [ih]
      conv_rhs => rw [stripCodes, hm, if_neg (Nat.lt_irrefl 0), if_pos h]
  | char hm ha rest ih =>
    rw [ih, stripCodes, hm, ha, if_neg (Nat.lt_irrefl 0), if_neg (Nat.lt_irrefl 0)]

theorem exists_coded_iff {v : CString} {P : CString → Prop} :
    (∃ s, Coded v s ∧ P s) ↔ P (stripCodes v) := by
  constructor
  · rintro ⟨s, hs, hP⟩
    exact hs.eq_stripCodes ▸ hP
  · exact fun hP => ⟨stripCodes v, coded_stripCodes v, hP⟩

/-- As much of the value as there is room for is such a part, its codes passed over. -/
def FieldKept (dstsz : Nat) (v : CString) : Prop :=
  ∃ s, Coded v s ∧ ∃ y part r, s.dropWhile isGap = y ++ (part ++ r) ∧ KeptPart y part ∧
    (squeeze isGap true false y).length + part.length ≤ dstsz - 1 ∧
    ((∀ c ∈ r, isGap c = true) ∨
      (squeeze isGap true false y).length + part.length = dstsz - 1)

theorem getLast_cons {c : Char} (hc : isGap c = false) (h : ∀ d ∈ s.getLast?, isGap d = false) :
    ∀ d ∈ (c :: s).getLast?, isGap d = false := by
  cases s with
  | nil =>
    intro d hd
    cases hd
    exact hc
  | cons e s =>
    rw [List.getLast?_cons_cons]
    exact h

theorem getLast_cons_iff {c : Char} (hne : s ≠ []) :
    (∀ d ∈ (c :: s).getLast?, isGap d = false) ↔ ∀ d ∈ s.getLast?, isGap d = false := by
  obtain ⟨d, s', rfl⟩ := List.exists_cons_of_ne_nil hne
  rw [List.getLast?_cons_cons]

theorem getLast_tail_word {c : Char} (h : ∀ d ∈ (c :: s).getLast?, isGap d = false) :
    ∀ d ∈ s.getLast?, isGap d = false := by
  cases s with
  | nil => exact fun d hd => by cases hd
  | cons e s => exact (getLast_cons_iff (List.cons_ne_nil e s)).mp h

/-- A gap at the beginning is one blank. -/
theorem squeeze_pending_word (hne : y ≠ []) (hword : ∀ c ∈ y.getLast?, isGap c = false) :
    squeeze isGap true true y = ' ' :: squeeze isGap true false (y.dropWhile isGap) := by
  induction y with
  | nil => exact absurd rfl hne
  | cons c y ih =>
    rw [squeeze]
    by_cases hc : isGap c = true
    · have hy : y ≠ [] := by
        rintro rfl
        rw [hword c rfl] at hc
        cases hc
      rw [if_pos hc, List.dropWhile_cons_of_pos hc, ih hy (getLast_tail_word hword)]
    · rw [if_neg hc, List.dropWhile_cons_of_neg hc, squeeze, if_neg hc]
      rfl

theorem rewritten_squeeze (hword : ∀ c ∈ y.getLast?, isGap c = false) :
    Rewritten y (squeeze isGap true false y) := by
  induction hn : y.length using Nat.strong_induction_on generalizing y with
  | _ n ih =>
    cases y with
    | nil => exact .nil
    | cons c y =>
      rw [List.length_cons] at hn
      by_cases hc : isGap c = true
      · have hy : y ≠ [] := by
          rintro rfl
          rw [hword c rfl] at hc
          cases hc
        have hrest := getLast_tail_word hword
        have hdrop : ∀ d ∈ (y.dropWhile isGap).getLast?, isGap d = false := by
          intro d hd
          obtain ⟨pre, hpre⟩ := List.dropWhile_suffix (l := y) isGap
          rw [← hpre, List.getLast?_append] at hrest
          exact hrest d (by rw [Option.mem_def.mp hd]; rfl)
        have hle := (List.dropWhile_suffix (l := y) isGap).length_le
        have hcopy := Rewritten.gap (g := c :: y.takeWhile isGap) (b := [' '])
          (List.forall_mem_cons.mpr ⟨hc, fun d hd => List.mem_takeWhile_imp hd⟩)
          (fun d hd => List.mem_singleton.mp hd ▸ rfl) (List.cons_ne_nil _ _) (List.cons_ne_nil _ _)
          (ih _ (by omega) hdrop rfl)
        rw [List.cons_append, List.takeWhile_append_dropWhile] at hcopy
        rw [squeeze, if_pos hc, squeeze_pending_word hy hrest]
        exact hcopy
      · rw [squeeze, if_neg hc]
        exact .char (by simpa using hc) (ih y.length (by omega) (getLast_tail_word hword) rfl)

theorem squeeze_append_word {pending : Bool} (hne : y ≠ [] ∨ pending = false)
    (hword : ∀ c ∈ y.getLast?, isGap c = false) (t : CString) :
    squeeze isGap true pending (y ++ t) =
      squeeze isGap true pending y ++ squeeze isGap true false t := by
  induction y generalizing pending with
  | nil =>
    rcases hne with hne | rfl
    · exact absurd rfl hne
    · rfl
  | cons c y ih =>
    rw [List.cons_append, squeeze, squeeze]
    by_cases hc : isGap c = true
    · have hy : y ≠ [] := by
        rintro rfl
        rw [hword c rfl] at hc
        cases hc
      rw [if_pos hc, if_pos hc, ih (.inl hy) (getLast_tail_word hword)]
    · rw [if_neg hc, if_neg hc, ih (.inr rfl) (getLast_tail_word hword), List.append_assoc]

theorem squeeze_append (hword : ∀ c ∈ y.getLast?, isGap c = false) (t : CString) :
    squeeze isGap true false (y ++ t) = squeeze isGap true false y ++ squeeze isGap true false t :=
  squeeze_append_word (.inr rfl) hword t

/-- The words that are shown are the words of a part of the value. -/
theorem exists_squeezed_part {pending : Bool} {z : CString} (hpre : o <+: squeeze isGap true pending z)
    (hword : ∀ c ∈ o.getLast?, isGap c = false) :
    ∃ y t, z = y ++ t ∧ squeeze isGap true pending y = o ∧ ∀ c ∈ y.getLast?, isGap c = false := by
  induction z generalizing o pending with
  | nil =>
    rw [List.prefix_nil.mp hpre]
    exact ⟨[], [], rfl, rfl, fun c hc => by cases hc⟩
  | cons c z ih =>
    by_cases ho : o = []
    · rw [ho]
      exact ⟨[], _, rfl, rfl, fun c hc => by cases hc⟩
    rw [squeeze] at hpre
    by_cases hc : isGap c = true
    · rw [if_pos hc] at hpre
      obtain ⟨y, t, rfl, hy, hend⟩ := ih hpre hword
      have hne : y ≠ [] := by
        rintro rfl
        exact ho hy.symm
      refine ⟨c :: y, t, rfl, ?_, (getLast_cons_iff hne).mpr hend⟩
      rw [squeeze, if_pos hc, hy]
    · rw [if_neg hc] at hpre
      have hc' : isGap c = false := by simpa using hc
      -- the character is written, behind the blank that is pending
      have hchar : ∀ {o' : CString}, c :: o' = o ∨ ' ' :: c :: o' = o →
          o' <+: squeeze isGap true false z → ∃ y t, z = y ++ t ∧
            squeeze isGap true false y = o' ∧ ∀ d ∈ y.getLast?, isGap d = false := by
        intro o' ho' hpre'
        apply ih hpre'
        rcases ho' with rfl | rfl
        · exact getLast_tail_word hword
        · exact getLast_tail_word (getLast_tail_word hword)
      cases pending with
      | false =>
        obtain ⟨d, o', rfl⟩ := List.exists_cons_of_ne_nil ho
        obtain ⟨rfl, hpre'⟩ := List.cons_prefix_cons.mp hpre
        obtain ⟨y, t, rfl, hy, hend⟩ := hchar (.inl rfl) hpre'
        refine ⟨d :: y, t, rfl, ?_, getLast_cons hc' hend⟩
        rw [squeeze, if_neg hc, hy]
        rfl
      | true =>
        obtain ⟨d, o1, rfl⟩ := List.exists_cons_of_ne_nil ho
        obtain ⟨rfl, hpre1⟩ := List.cons_prefix_cons.mp hpre
        have hne1 : o1 ≠ [] := by
          rintro rfl
          exact absurd (hword ' ' rfl) (by decide)
        obtain ⟨d, o', rfl⟩ := List.exists_cons_of_ne_nil hne1
        obtain ⟨rfl, hpre'⟩ := List.cons_prefix_cons.mp hpre1
        obtain ⟨y, t, rfl, hy, hend⟩ := hchar (.inr rfl) hpre'
        refine ⟨d :: y, t, rfl, ?_, getLast_cons hc' hend⟩
        rw [squeeze, if_neg hc, hy]
        rfl

theorem squeeze_eq_nil {pending : Bool} {r : CString} :
    squeeze isGap true pending r = [] ↔ ∀ c ∈ r, isGap c = true := by
  induction r generalizing pending with
  | nil => simp [squeeze]
  | cons c r ih =>
    rw [squeeze, List.forall_mem_cons]
    by_cases hc : isGap c = true
    · rw [if_pos hc, ih]
      simp [hc]
    · rw [if_neg hc]
      cases pending with
      | false => simp [hc]
      | true => simp [hc]

/-- Characters of a word are written as they are. -/
theorem exists_append_of_prefix_squeeze (hpart : ∀ c ∈ part, isGap c = false)
    (hpre : part <+: squeeze isGap true false t) : ∃ r, t = part ++ r := by
  obtain ⟨y, r, rfl, hy, hend⟩ := exists_squeezed_part hpre
    fun c hc => hpart c (List.mem_of_mem_getLast? hc)
  have hcopy := rewritten_squeeze hend
  rw [hy] at hcopy
  exact ⟨r, by rw [hcopy.symm.eq_of_word hpart]⟩

theorem squeeze_part (hpart : ∀ c ∈ part, isGap c = false) (r : CString) :
    squeeze isGap true false (part ++ r) = part ++ squeeze isGap true false r := by
  have hend : ∀ c ∈ part.getLast?, isGap c = false := fun c hc =>
    hpart c (List.mem_of_mem_getLast? hc)
  rw [squeeze_append hend, (rewritten_squeeze hend).eq_of_word hpart]

theorem stable_field_iff {dstsz : Nat} (h : 0 < dstsz) (v : CString) (flags : Nat) :
    Stable (sanitizeField dstsz v flags).1 ↔ FieldKept dstsz v := by
  rw [sanitizeField_eq h, squeeze_first, FieldKept, exists_coded_iff]
  generalize (stripCodes v).dropWhile isGap = z
  constructor
  · intro hstable
    obtain ⟨part, hW, hpart⟩ := exists_utf8SafeEnd ((squeeze isGap true false z).take (dstsz - 1))
    generalize ho : utf8SafeEnd ((squeeze isGap true false z).take (dstsz - 1)) = o at hstable hW
    have hWpre : o ++ part <+: squeeze isGap true false z := hW ▸ List.take_prefix _ _
    have hWlen := congrArg List.length hW
    rw [List.length_take, List.length_append] at hWlen
    rw [hW] at ho
    obtain ⟨y, t, rfl, hy, hend⟩ :=
      exists_squeezed_part ((List.prefix_append o part).trans hWpre) hstable.word
    have hcopy := rewritten_squeeze hend
    rw [squeeze_append hend, hy] at hWpre hWlen
    obtain ⟨r, rfl⟩ := exists_append_of_prefix_squeeze hpart
      ((List.prefix_append_right_inj o).mp hWpre)
    rw [squeeze_part hpart] at hWlen
    rw [hy] at hcopy
    have hwhole : utf8SafeEnd (_ ++ []) = _ ↔ utf8SafeEnd (_ ++ []) = _ := hcopy.utf8SafeEnd_iff
    rw [List.append_nil, List.append_nil] at hwhole
    refine ⟨y, part, r, rfl, ⟨hcopy.mysticFree_iff.mpr hstable.codes, hend,
      hwhole.mpr hstable.whole, hcopy.utf8SafeEnd_iff.mpr ho, hpart⟩, ?_, ?_⟩
    · rw [hy]
      omega
    · rw [hy]
      rw [List.length_append, List.length_append] at hWlen
      by_cases hfull : o.length + part.length = dstsz - 1
      · exact .inr hfull
      · left
        rw [← @squeeze_eq_nil false]
        apply List.length_eq_zero_iff.mp
        omega
  · rintro ⟨y, part, r, rfl, hkept, hlen, hfull⟩
    have hcopy := rewritten_squeeze hkept.word
    have hW : (squeeze isGap true false (y ++ (part ++ r))).take (dstsz - 1) =
        squeeze isGap true false y ++ part := by
      rw [squeeze_append hkept.word, squeeze_part hkept.noGap, ← List.append_assoc]
      rcases hfull with hgaps | hfull
      · rw [squeeze_eq_nil.mpr hgaps, List.append_nil]
        exact List.take_of_length_le (by rw [List.length_append]; exact hlen)
      · exact List.take_left' (by rw [List.length_append]; exact hfull)
    have hwhole : utf8SafeEnd (_ ++ []) = _ ↔ utf8SafeEnd (_ ++ []) = _ := hcopy.utf8SafeEnd_iff
    rw [List.append_nil, List.append_nil] at hwhole
    rw [hW, hcopy.utf8SafeEnd_iff.mp hkept.torn]
    exact ⟨hcopy.mysticFree_iff.mp hkept.codes, getLast_squeeze true false y,
      hwhole.mp hkept.whole⟩

/-! ## Texts -/

/-- The characters of a text that are no code and are not dropped on their own. -/
def isShown (c : Char) : Bool := c = '\n' || c = '\t' || !isControl c

/-- What a text may not hold. -/
def isTextControl (c : Char) : Bool := c ≠ '\n' && isControl c

theorem layout_filter (col : Nat) (s : CString) : layout col (s.filter isShown) = layout col s := by
  induction s generalizing col with
  | nil => rfl
  | cons c s ih =>
    by_cases hn : c = '\n'
    · simp [isShown, layout, hn, ih]
    by_cases ht : c = '\t'
    · simp [isShown, layout, ht, ih]
    by_cases hc : isControl c = true
    · simp [isShown, layout, hn, ht, hc, ih]
    · simp [isShown, layout, hn, ht, hc, ih]

theorem layout_chars (col : Nat) (s : CString) : ∀ c ∈ layout col s, isTextControl c = false := by
  induction s generalizing col with
  | nil => exact fun c hc => (List.not_mem_nil hc).elim
  | cons d s ih =>
    rw [layout]
    split
    · exact List.forall_mem_cons.mpr ⟨rfl, ih 0⟩
    split
    · intro c hc
      rcases List.mem_append.mp hc with hc | hc
      · rw [(List.mem_replicate.mp hc).2]
        rfl
      · exact ih _ c hc
    split
    · exact ih col
    · rename_i hctl
      refine List.forall_mem_cons.mpr ⟨?_, ih _⟩
      simp [isTextControl, hctl]

theorem layout_eq_self (col : Nat) (h : ∀ c ∈ s, isTextControl c = false) : layout col s = s := by
  induction s generalizing col with
  | nil => rfl
  | cons c s ih =>
    obtain ⟨hc, hs⟩ := List.forall_mem_cons.mp h
    rw [layout]
    by_cases hn : c = '\n'
    · rw [if_pos hn, ih 0 hs, hn]
    · have hctl : isControl c = false := by simpa [isTextControl, hn] using hc
      have ht : c ≠ '\t' := by
        rintro rfl
        exact absurd hctl (by decide)
      rw [if_neg hn, if_neg ht, hctl, if_neg Bool.false_ne_true, ih _ hs]

theorem isLayoutBlank_iff {c : Char} (h : isTextControl c = false) :
    isLayoutBlank c = isGap c := by
  by_cases hn : c = '\n'
  · subst hn
    rfl
  · have hctl : isControl c = false := by simpa [isTextControl, hn] using h
    simp [isLayoutBlank, isGap, hn, hctl]

theorem isGap_of_isLayoutBlank {c : Char} (h : isLayoutBlank c = true) : isGap c = true := by
  unfold isLayoutBlank at h
  rw [Bool.or_eq_true, decide_eq_true_eq] at h
  rcases h with rfl | h
  · rfl
  · simp [isGap, h]

theorem sanitizeTextLayout_eq {dstsz : Nat} (h : 0 < dstsz) (v : CString) (flags : Nat) :
    (sanitizeTextLayout dstsz v flags).1 =
      utf8SafeEnd (trimEnd isLayoutBlank ((layout 0 (stripCodes v)).take (dstsz - 1))) := by
  have hloop := @sanitizeTextLoop_eq dstsz v [] h 0 flags
  rw [List.nil_append] at hloop
  unfold sanitizeTextLayout
  show utf8SafeEnd (trimEnd isLayoutBlank (sanitizeTextLoop dstsz v [] 0 flags).1) = _
  rw [hloop]

theorem safeText_text_iff {dstsz : Nat} (h : 0 < dstsz) (v : CString) (flags flags' : Nat) :
    SafeText isTextControl (fun s => (sanitizeTextLayout dstsz s flags').1)
      (sanitizeTextLayout dstsz v flags).1 ↔ Stable (sanitizeTextLayout dstsz v flags).1 := by
  have hout : (∀ c ∈ (sanitizeTextLayout dstsz v flags).1, isTextControl c = false) ∧
      (sanitizeTextLayout dstsz v flags).1.length ≤ dstsz - 1 := by
    rw [sanitizeTextLayout_eq h]
    obtain ⟨part, hpart, -⟩ :=
      exists_utf8SafeEnd (trimEnd isLayoutBlank ((layout 0 (stripCodes v)).take (dstsz - 1)))
    obtain ⟨b, hb, -⟩ := trimEnd_append isLayoutBlank ((layout 0 (stripCodes v)).take (dstsz - 1))
    refine ⟨fun c hc => layout_chars 0 (stripCodes v) c ?_, ?_⟩
    · apply List.mem_of_mem_take
      rw [hb]
      apply List.mem_append_left
      rw [hpart]
      exact List.mem_append_left _ hc
    · exact (length_utf8SafeEnd_le _).trans ((trimEnd_length_le _ _).trans (List.length_take_le _ _))
  obtain ⟨hchars, hlen⟩ := hout
  generalize (sanitizeTextLayout dstsz v flags).1 = o at hchars hlen
  have hesc : '\x1b' ∉ o := fun hmem => absurd (hchars _ hmem) (by decide)
  have hblank : (∀ c ∈ o.getLast?, isLayoutBlank c = false) ↔ ∀ c ∈ o.getLast?, isGap c = false := by
    constructor
    · intro hend c hc
      rw [← isLayoutBlank_iff (hchars c (List.mem_of_mem_getLast? hc))]
      exact hend c hc
    · intro hend c hc
      rw [isLayoutBlank_iff (hchars c (List.mem_of_mem_getLast? hc))]
      exact hend c hc
  have hagain : MysticFree o → (sanitizeTextLayout dstsz o flags').1 =
      utf8SafeEnd (trimEnd isLayoutBlank o) := by
    intro hcode
    rw [sanitizeTextLayout_eq h, stripCodes_eq_self hcode hesc, layout_eq_self 0 hchars,
      List.take_of_length_le hlen]
  constructor
  · intro hsafe
    have hsame : utf8SafeEnd (trimEnd isLayoutBlank o) = o :=
      (hagain hsafe.codes).symm.trans hsafe.same
    have hshort := trimEnd_length_le isLayoutBlank o
    have hself := utf8SafeEnd_eq_self_of_length (s := trimEnd isLayoutBlank o) (by rw [hsame]; omega)
    rw [hself] at hsame
    refine ⟨hsafe.codes, ?_, ?_⟩
    · exact hblank.mp (getLast_of_trimEnd hsame)
    · rw [hsame] at hself
      exact hself
  · rintro ⟨hcode, hword, hwhole⟩
    refine ⟨hcode, hchars, ?_⟩
    show (sanitizeTextLayout dstsz o flags').1 = o
    rw [hagain hcode, trimEnd_eq_self (hblank.mpr hword), hwhole]

/-! ## The part of a text that is shown -/

/-- As much of the text as there is room for, but the blanks behind it, is such a part. -/
def TextKept (dstsz : Nat) (v : CString) : Prop :=
  ∃ s, Coded v s ∧ ∃ y part b r, s.filter isShown = y ++ (part ++ (b ++ r)) ∧ KeptPart y part ∧
    (∀ c ∈ b, isGap c = true) ∧ (layout 0 (y ++ part)).length ≤ dstsz - 1 ∧
    (r = [] ∨ dstsz - 1 ≤ (layout 0 (y ++ (part ++ b))).length)

theorem layout_word {c : Char} (hc : isGap c = false) (col : Nat) (s : CString) :
    layout col (c :: s) = c :: layout (col + 1) s := by
  have hne : ∀ d, isGap d = true → c ≠ d := by
    rintro d hd rfl
    rw [hd] at hc
    cases hc
  have hctl : isControl c = false := by
    unfold isGap at hc
    exact (Bool.or_eq_false_iff.mp hc).1
  rw [layout, if_neg (hne _ rfl), if_neg (hne _ rfl), hctl, if_neg Bool.false_ne_true]

theorem layout_part (hpart : ∀ c ∈ part, isGap c = false) (col : Nat) (s : CString) :
    layout col (part ++ s) = part ++ layout (col + part.length) s := by
  induction part generalizing col with
  | nil => rfl
  | cons c part ih =>
    obtain ⟨hc, hpart⟩ := List.forall_mem_cons.mp hpart
    rw [List.cons_append, layout_word hc, ih hpart, List.length_cons, Nat.add_right_comm,
      Nat.add_assoc]
    rfl

theorem layout_gaps {b : CString} (hb : ∀ c ∈ b, isGap c = true) (col : Nat) :
    ∀ c ∈ layout col b, isLayoutBlank c = true := by
  induction b generalizing col with
  | nil => exact fun c hc => (List.not_mem_nil hc).elim
  | cons d b ih =>
    obtain ⟨hd, hb⟩ := List.forall_mem_cons.mp hb
    rw [layout]
    split
    · exact List.forall_mem_cons.mpr ⟨rfl, ih hb 0⟩
    split
    · intro c hc
      rcases List.mem_append.mp hc with hc | hc
      · rw [(List.mem_replicate.mp hc).2]
        rfl
      · exact ih hb _ c hc
    split
    · exact ih hb col
    · rename_i hctl
      refine List.forall_mem_cons.mpr ⟨?_, ih hb _⟩
      have hblank : isBlank d = true := by simpa [isGap, hctl] using hd
      simp [isLayoutBlank, hblank]

/-- A gap becomes blanks or stays. -/
theorem layout_gap {c : Char} (hgap : isGap c = true) (hc : isShown c = true) (col : Nat) :
    ∃ g col', g ≠ [] ∧ (∀ d ∈ g, isGap d = true) ∧ ∀ s, layout col (c :: s) = g ++ layout col' s := by
  by_cases hn : c = '\n'
  · refine ⟨['\n'], 0, List.cons_ne_nil _ _, fun d hd => List.mem_singleton.mp hd ▸ rfl, fun s => ?_⟩
    rw [layout, if_pos hn]
    rfl
  by_cases ht : c = '\t'
  · have hpos : 8 - col % 8 ≠ 0 := by omega
    refine ⟨List.replicate (8 - col % 8) ' ', col + (8 - col % 8), by simpa using hpos,
      fun d hd => (List.mem_replicate.mp hd).2 ▸ rfl, fun s => ?_⟩
    rw [layout, if_neg hn, if_pos ht]
  · have hctl : isControl c = false := by simpa [isShown, hn, ht] using hc
    refine ⟨[c], col + 1, List.cons_ne_nil _ _, fun d hd => List.mem_singleton.mp hd ▸ hgap,
      fun s => ?_⟩
    rw [layout, if_neg hn, if_neg ht, hctl, if_neg Bool.false_ne_true]
    rfl

theorem rewritten_layout (hs : ∀ c ∈ s, isShown c = true) (col : Nat) : Rewritten s (layout col s) := by
  induction s generalizing col with
  | nil => exact .nil
  | cons c s ih =>
    obtain ⟨hc, hs⟩ := List.forall_mem_cons.mp hs
    by_cases hgap : isGap c = true
    · obtain ⟨g, col', hg, hall, heq⟩ := layout_gap hgap hc col
      rw [heq]
      exact .gap (g := [c]) (fun d hd => List.mem_singleton.mp hd ▸ hgap) hall
        (List.cons_ne_nil _ _) hg (ih hs col')
    · have hword : isGap c = false := by simpa using hgap
      rw [layout_word hword]
      exact .char hword (ih hs _)

/-- The last characters of a text and of its layout. -/
theorem getLast_layout (hend : ∀ c ∈ y.getLast?, isGap c = false) (col : Nat) :
    ∀ c ∈ (layout col y).getLast?, isGap c = false := by
  rcases List.eq_nil_or_concat' y with rfl | ⟨y', c, rfl⟩
  · exact fun c hc => by cases hc
  · have hc : isGap c = false := hend c (by simp)
    obtain ⟨col', heq⟩ := layout_append y' col
    rw [heq, layout_word hc]
    intro d hd
    simp only [layout, List.getLast?_append, List.getLast?_singleton, Option.some_or,
      Option.mem_def, Option.some.injEq] at hd
    exact hd ▸ hc

/-- What is shown is the layout of a part of the text. -/
theorem exists_laidOut_part {z : CString} {col : Nat} (hz : ∀ c ∈ z, isShown c = true)
    (hpre : o <+: layout col z) (hend : ∀ c ∈ o.getLast?, isGap c = false) :
    ∃ y t, z = y ++ t ∧ layout col y = o ∧ ∀ c ∈ y.getLast?, isGap c = false := by
  induction z generalizing o col with
  | nil =>
    rw [List.prefix_nil.mp hpre]
    exact ⟨[], [], rfl, rfl, fun c hc => by cases hc⟩
  | cons c z ih =>
    obtain ⟨hc, hrest⟩ := List.forall_mem_cons.mp hz
    by_cases ho : o = []
    · rw [ho]
      exact ⟨[], _, rfl, rfl, fun c hc => by cases hc⟩
    -- a part of the gap alone ends in a gap
    have hno : ∀ {g : CString}, (∀ d ∈ g, isGap d = true) → ¬ o <+: g := by
      intro g hall hog
      have hlast := List.getLast?_eq_getLast_of_ne_nil ho
      have hmem := hall _ (hog.subset (List.getLast_mem ho))
      rw [hend _ hlast] at hmem
      cases hmem
    by_cases hgap : isGap c = true
    · obtain ⟨g, col', hg, hall, heq⟩ := layout_gap hgap hc col
      rw [heq] at hpre
      have hparts := List.prefix_or_prefix_of_prefix hpre (List.prefix_append g _)
      obtain ⟨o', rfl⟩ := hparts.resolve_left (hno hall)
      have hpre' := (List.prefix_append_right_inj g).mp hpre
      have ho' : o' ≠ [] := by
        rintro rfl
        exact hno hall (by rw [List.append_nil])
      have hend' : ∀ d ∈ o'.getLast?, isGap d = false := by
        rwa [List.getLast?_append_of_ne_nil _ ho'] at hend
      obtain ⟨y, t, rfl, hy, hlast⟩ := ih hrest hpre' hend'
      have hne : y ≠ [] := by
        rintro rfl
        exact ho' hy.symm
      exact ⟨c :: y, t, rfl, by rw [heq, hy], (getLast_cons_iff hne).mpr hlast⟩
    · have hword : isGap c = false := by simpa using hgap
      rw [layout_word hword] at hpre
      obtain ⟨d, o', rfl⟩ := List.exists_cons_of_ne_nil ho
      obtain ⟨rfl, hpre'⟩ := List.cons_prefix_cons.mp hpre
      obtain ⟨y, t, rfl, hy, hlast⟩ := ih hrest hpre' (getLast_tail_word hend)
      exact ⟨d :: y, t, rfl, by rw [layout_word hword, hy], getLast_cons hword hlast⟩

theorem exists_append_of_prefix_layout {col : Nat} (ht : ∀ c ∈ t, isShown c = true)
    (hpart : ∀ c ∈ part, isGap c = false) (hpre : part <+: layout col t) : ∃ r, t = part ++ r := by
  obtain ⟨y, r, rfl, hy, hend⟩ := exists_laidOut_part ht hpre
    fun c hc => hpart c (List.mem_of_mem_getLast? hc)
  have hcopy := rewritten_layout (fun c hc => ht c (List.mem_append_left r hc)) col
  rw [hy] at hcopy
  exact ⟨r, by rw [hcopy.symm.eq_of_word hpart]⟩

/-- The blanks at the end are trimmed. -/
theorem trimEnd_blanks {b : CString} (hend : ∀ c ∈ o.getLast?, isLayoutBlank c = false)
    (hb : ∀ c ∈ b, isLayoutBlank c = true) : trimEnd isLayoutBlank (o ++ b) = o := by
  have hnil : trimEnd isLayoutBlank b = [] := by
    unfold trimEnd
    rw [List.reverse_eq_nil_iff, List.dropWhile_eq_nil_iff]
    exact fun c hc => hb c (List.mem_reverse.mp hc)
  rw [trimEnd_append_eq, if_pos hnil, trimEnd_eq_self hend]

theorem stable_text_iff {dstsz : Nat} (h : 0 < dstsz) (v : CString) (flags : Nat) :
    Stable (sanitizeTextLayout dstsz v flags).1 ↔ TextKept dstsz v := by
  rw [sanitizeTextLayout_eq h, ← layout_filter, TextKept, exists_coded_iff]
  have hz : ∀ c ∈ (stripCodes v).filter isShown, isShown c = true := fun c hc =>
    (List.mem_filter.mp hc).2
  generalize (stripCodes v).filter isShown = z at hz
  constructor
  · intro hstable
    obtain ⟨bl, hT, hbl⟩ := trimEnd_append isLayoutBlank ((layout 0 z).take (dstsz - 1))
    obtain ⟨part, hW, hpart⟩ :=
      exists_utf8SafeEnd (trimEnd isLayoutBlank ((layout 0 z).take (dstsz - 1)))
    generalize trimEnd isLayoutBlank ((layout 0 z).take (dstsz - 1)) = W at hstable hT hW
    generalize ho : utf8SafeEnd W = o at hstable hW
    subst hW
    have hpre : o ++ part ++ bl <+: layout 0 z := hT ▸ List.take_prefix _ _
    have hlen : (o ++ part).length ≤ dstsz - 1 := by
      have htake := List.length_take_le (dstsz - 1) (layout 0 z)
      rw [hT, List.length_append] at htake
      omega
    rw [List.append_assoc] at hpre
    obtain ⟨y, t, rfl, hy, hend⟩ :=
      exists_laidOut_part hz ((List.prefix_append o _).trans hpre) hstable.word
    obtain ⟨col, hcol⟩ := layout_append y 0
    rw [hy] at hcol
    rw [hcol, List.prefix_append_right_inj] at hpre
    have ht : ∀ c ∈ t, isShown c = true := fun c hc => hz c (List.mem_append_right y hc)
    obtain ⟨t', rfl⟩ :=
      exists_append_of_prefix_layout ht hpart ((List.prefix_append part bl).trans hpre)
    have hcopy := rewritten_layout (fun c hc => hz c (List.mem_append_left _ hc)) 0 (s := y)
    rw [hy] at hcopy
    have hwhole : utf8SafeEnd (_ ++ []) = _ ↔ utf8SafeEnd (_ ++ []) = _ := hcopy.utf8SafeEnd_iff
    rw [List.append_nil, List.append_nil] at hwhole
    refine ⟨y, part, t'.takeWhile isGap, t'.dropWhile isGap, ?_,
      ⟨hcopy.mysticFree_iff.mpr hstable.codes, hend, hwhole.mpr hstable.whole,
        hcopy.utf8SafeEnd_iff.mpr ho, hpart⟩, fun c hc => List.mem_takeWhile_imp hc, ?_, ?_⟩
    · rw [List.takeWhile_append_dropWhile]
    · have hshown : layout 0 (y ++ part) = o ++ part := by
        have hself := layout_part hpart col []
        rw [List.append_nil, layout, List.append_nil] at hself
        rw [hcol, hself]
      rw [hshown]
      exact hlen
    · cases hr : t'.dropWhile isGap with
      | nil => exact .inl rfl
      | cons d r =>
        right
        by_contra hroom
        -- otherwise the next word begins in the buffer
        have hd : isGap d = false := dropWhile_head hr
        obtain ⟨col', hcol'⟩ := layout_append (t'.takeWhile isGap) (col + part.length)
        have hsplit : layout (col + part.length) t' = layout (col + part.length)
            (t'.takeWhile isGap) ++ d :: layout (col' + 1) r := by
          rw [← layout_word hd, ← hr, ← hcol', List.takeWhile_append_dropWhile]
        rw [hcol, layout_part hpart, List.length_append, List.length_append] at hroom
        rw [hcol, layout_part hpart, hsplit] at hT
        generalize layout (col + part.length) (t'.takeWhile isGap) = lb at hroom hT
        obtain ⟨m, hm⟩ : ∃ m, dstsz - 1 = (o ++ (part ++ lb)).length + (m + 1) := by
          refine ⟨dstsz - 1 - (o ++ (part ++ lb)).length - 1, ?_⟩
          rw [List.length_append, List.length_append]
          omega
        have hassoc : o ++ (part ++ (lb ++ d :: layout (col' + 1) r)) =
            (o ++ (part ++ lb)) ++ d :: layout (col' + 1) r := by simp
        rw [hassoc, hm, List.take_length_add_append, List.take_succ_cons] at hT
        have hcancel : lb ++ d :: (layout (col' + 1) r).take m = bl := by
          simpa [List.append_assoc] using hT
        have hblank := hbl d (hcancel ▸ List.mem_append_right lb List.mem_cons_self)
        rw [isGap_of_isLayoutBlank hblank] at hd
        cases hd
  · rintro ⟨y, part, b, r, rfl, hkept, hb, hlen, hfull⟩
    obtain ⟨col, hcol⟩ := layout_append y 0
    have hly : layout 0 (y ++ part) = layout 0 y ++ part := by
      have hself := layout_part hkept.noGap col []
      rw [List.append_nil, layout, List.append_nil] at hself
      rw [hcol, hself]
    rw [hly] at hlen
    have hword : ∀ c ∈ (layout 0 y ++ part).getLast?, isLayoutBlank c = false := by
      intro c hc
      rw [Bool.eq_false_iff]
      intro hblank
      have hgap := isGap_of_isLayoutBlank hblank
      by_cases hpart : part = []
      · rw [hpart, List.append_nil] at hc
        rw [getLast_layout hkept.word 0 c hc] at hgap
        cases hgap
      · rw [List.getLast?_append_of_ne_nil _ hpart] at hc
        rw [hkept.noGap c (List.mem_of_mem_getLast? hc)] at hgap
        cases hgap
    have hlb := layout_gaps hb (col + part.length)
    have hT : trimEnd isLayoutBlank ((layout 0 (y ++ (part ++ (b ++ r)))).take (dstsz - 1)) =
        layout 0 y ++ part := by
      obtain ⟨col', hcol'⟩ := layout_append b (col + part.length)
      rw [hcol, layout_part hkept.noGap] at hfull ⊢
      rw [hcol']
      generalize layout (col + part.length) b = lb at hlb hfull
      have htake : (layout 0 y ++ (part ++ (lb ++ layout col' r))).take (dstsz - 1) =
          layout 0 y ++ part ++ lb.take (dstsz - 1 - (layout 0 y ++ part).length) := by
        have hassoc : layout 0 y ++ (part ++ (lb ++ layout col' r)) =
            layout 0 y ++ (part ++ lb) ++ layout col' r := by simp
        have hbefore : (layout 0 y ++ (part ++ lb)).take (dstsz - 1) =
            layout 0 y ++ part ++ lb.take (dstsz - 1 - (layout 0 y ++ part).length) := by
          rw [← List.append_assoc, List.take_append, List.take_of_length_le hlen]
        rw [hassoc, ← hbefore]
        rcases hfull with rfl | hfull
        · rw [layout, List.append_nil]
        · exact take_full hfull
      rw [htake]
      exact trimEnd_blanks hword fun c hc => hlb c (List.mem_of_mem_take hc)
    have hcopy := rewritten_layout (fun c hc => hz c (List.mem_append_left _ hc)) 0 (s := y)
    have hwhole : utf8SafeEnd (_ ++ []) = _ ↔ utf8SafeEnd (_ ++ []) = _ := hcopy.utf8SafeEnd_iff
    rw [List.append_nil, List.append_nil] at hwhole
    rw [hT, hcopy.utf8SafeEnd_iff.mp hkept.torn]
    exact ⟨hcopy.mysticFree_iff.mp hkept.codes, getLast_layout hkept.word 0,
      hwhole.mp hkept.whole⟩

/-- What is shown is safe, and a second run changes nothing, exactly if the part of the value that is
shown holds no code when its codes are gone, and does not end in a gap or in a torn character. -/
theorem sanitize_safe_iff {dstsz : Nat} (h : 0 < dstsz) (v : CString) (flags flags' : Nat) :
    (SafeText isControl (fun s => (sanitizeField dstsz s flags').1) (sanitizeField dstsz v flags).1 ↔
      FieldKept dstsz v) ∧
    (SafeText isTextControl (fun s => (sanitizeTextLayout dstsz s flags').1)
      (sanitizeTextLayout dstsz v flags).1 ↔ TextKept dstsz v) :=
  ⟨(safeText_field_iff h v flags flags').trans (stable_field_iff h v flags),
    (safeText_text_iff h v flags flags').trans (stable_text_iff h v flags)⟩

theorem sanitize_safe_hej :
    SafeText isControl (fun s => (sanitizeField 64 s 0).1) (sanitizeField 64 "|07Hej  du".toList 0).1 := by
  have hcoded : Coded "|07Hej  du".toList "Hej  du".toList := by
    rw [show "Hej  du".toList = stripCodes "|07Hej  du".toList by decide +kernel]
    exact coded_stripCodes _
  have hfree : MysticFree "Hej  du".toList := mysticFree_of_notMem (by decide +kernel)
  have hlast : ∀ c ∈ "Hej  du".toList.getLast?, isGap c = false := by
    rw [show "Hej  du".toList.getLast? = some 'u' by decide +kernel]
    intro c hc
    obtain rfl := Option.some.inj hc
    decide
  refine (sanitize_safe_iff (by decide) _ 0 0).1.mpr
    ⟨_, hcoded, "Hej  du".toList, [], [], ?_, ?_, ?_, ?_⟩
  · decide +kernel
  · exact ⟨hfree, hlast, by decide +kernel, by decide +kernel,
      fun c hc => (List.not_mem_nil hc).elim⟩
  · decide +kernel
  · exact .inl fun c hc => (List.not_mem_nil hc).elim

/-- The deleted code brings the bar of another one to its digits. -/
theorem sanitize_safe_torn :
    ¬ MysticFree (sanitizeField 64 "||0707".toList 0).1 ∧
      ¬ MysticFree (sanitizeTextLayout 64 "||0707".toList 0).1 := by
  have hfield : (sanitizeField 64 "||0707".toList 0).1 = "|07".toList := by decide +kernel
  have htext : (sanitizeTextLayout 64 "||0707".toList 0).1 = "|07".toList := by decide +kernel
  rw [hfield, htext]
  have hcode : ¬ MysticFree "|07".toList := fun hfree =>
    absurd (hfree _ (List.suffix_refl _)) (by decide +kernel)
  exact ⟨hcode, hcode⟩

end SklaffKom
