import SklaffKom.IbolSanitize

/-!
# UTF-8 in one-liners

From valid text `ibol_parse_body` makes valid fields, except where an escape character stands in
front of a character that is not ASCII.
-/

open CString Utf8

namespace SklaffKom

/-! ## The fields -/

theorem isAscii_of_isGap (c : Char) (h : isGap c = true) : isAscii c = true := by
  unfold isGap isControl isBlank at h
  unfold isAscii
  simp only [Bool.or_eq_true, decide_eq_true_eq] at h ⊢
  rcases h with (h | h) | rfl | rfl
  · omega
  · omega
  · decide
  · decide

theorem isAscii_of_isSpace (c : Char) (h : isSpace c = true) : isAscii c = true := by
  unfold isSpace at h
  simp only [Bool.or_eq_true, beq_iff_eq] at h
  rcases h with ((((rfl | rfl) | rfl) | rfl) | rfl) | rfl <;> decide

/-- The blanks that `sanitize_text_layout` drops at the end. -/
def isLayoutBlank (c : Char) : Bool := c = '\n' || isBlank c

theorem isAscii_of_isLayoutBlank (c : Char) (h : isLayoutBlank c = true) : isAscii c = true := by
  unfold isLayoutBlank isBlank at h
  simp only [Bool.or_eq_true, decide_eq_true_eq] at h
  rcases h with rfl | rfl | rfl <;> decide

/-- No escape character takes a part of a character out of the value; or nothing but the rests of such
characters is left of it. -/
def FieldKeeps (v : CString) : Prop :=
  tornPart v = none ∨ OnlyRests isGap ((stripCodes v).dropWhile isGap)

/-- The same for a text: as far as there is room for it. -/
def TextKeeps (v : CString) : Prop :=
  (∀ x ∈ tornPart v, ibolTextMax - 1 ≤ (layout 0 x).length) ∨
    OnlyRests isLayoutBlank ((layout 0 (stripCodes v)).take (ibolTextMax - 1))

theorem valid_sanitizeField_iff {dstsz : Nat} {v : CString} (hv : Valid v) (hlen : v.length < dstsz)
    (flags : Nat) : Valid (sanitizeField dstsz v flags).1 ↔ FieldKeeps v := by
  have hfull : (sanitizeFieldLoop dstsz v [] false flags).1 = squeeze isGap false false (stripCodes v) := by
    have hs := length_squeeze isGap false false (stripCodes v)
    have hc := length_stripCodes v
    rw [Bool.toNat_false] at hs
    rw [sanitizeFieldLoop_eq v (by simpa using Nat.zero_lt_of_lt hlen), List.nil_append]
    apply List.take_of_length_le
    simp only [ne_eq, not_true_eq_false, decide_false]
    omega
  have hstrip := stripped_of_valid hv
  unfold Stripped at hstrip
  unfold sanitizeField FieldKeeps
  show Valid (utf8SafeEnd (sanitizeFieldLoop dstsz v [] false flags).1) ↔ _
  rw [hfull]
  cases htorn : tornPart v with
  | none =>
    rw [htorn] at hstrip
    have hsq := valid_squeeze isAscii_of_isGap hstrip false false
    simp only [true_or, iff_true]
    rw [utf8SafeEnd_valid hsq]
    exact hsq
  | some x =>
    rw [htorn] at hstrip
    obtain ⟨hx, c, y, hc, heq⟩ := hstrip
    obtain ⟨x', y', hx', hsq⟩ := squeeze_stray isAscii_of_isGap hx hc y false false
    rw [← heq] at hsq
    simp only [reduceCtorEq, false_or]
    rw [hsq, valid_utf8SafeEnd_iff hx' hc, ← hsq, squeeze_first, squeeze_word_iff isAscii_of_isGap]

theorem valid_sanitizeTextLayout_iff {v : CString} (hv : Valid v) (flags : Nat) :
    Valid (sanitizeTextLayout ibolTextMax v flags).1 ↔ TextKeeps v := by
  have hloop := @sanitizeTextLoop_eq ibolTextMax v [] (by decide) 0 flags
  rw [List.nil_append] at hloop
  have hstrip := stripped_of_valid hv
  unfold Stripped at hstrip
  unfold sanitizeTextLayout TextKeeps
  show Valid (utf8SafeEnd (trimEnd isLayoutBlank (sanitizeTextLoop ibolTextMax v [] 0 flags).1)) ↔ _
  rw [hloop]
  cases htorn : tornPart v with
  | none =>
    rw [htorn] at hstrip
    simp only [Option.mem_def, reduceCtorEq, false_implies, implies_true, true_or, iff_true]
    exact valid_utf8SafeEnd_trimEnd isAscii_of_isLayoutBlank (valid_layout hstrip 0) _
  | some x =>
    rw [htorn] at hstrip
    obtain ⟨hx, c, y, hc, heq⟩ := hstrip
    obtain ⟨col, hlayout⟩ := layout_append x 0
    have hsplit : layout 0 (stripCodes v) = layout 0 x ++ c :: layout (col + 1) y := by
      rw [heq, hlayout, layout_cont hc]
    simp only [Option.mem_def, Option.some.injEq, forall_eq']
    by_cases hroom : ibolTextMax - 1 ≤ (layout 0 x).length
    · -- the text is full in front of the escape character
      simp only [hroom, true_or, iff_true]
      rw [hsplit, take_full hroom]
      exact valid_utf8SafeEnd_trimEnd isAscii_of_isLayoutBlank (valid_layout hx 0) _
    · simp only [hroom, false_or]
      have htake : (layout 0 (stripCodes v)).take (ibolTextMax - 1) =
          layout 0 x ++ c :: (layout (col + 1) y).take (ibolTextMax - 1 - (layout 0 x).length - 1) := by
        rw [hsplit, List.take_append, List.take_of_length_le (by omega)]
        obtain ⟨k, hk⟩ : ∃ k, ibolTextMax - 1 - (layout 0 x).length = k + 1 :=
          ⟨ibolTextMax - 1 - (layout 0 x).length - 1, by omega⟩
        rw [hk, List.take_succ_cons, Nat.add_sub_cancel]
      obtain ⟨y', hy'⟩ := trimEnd_behind (layout 0 x) (gap_of_isCont isAscii_of_isLayoutBlank hc)
        ((layout (col + 1) y).take (ibolTextMax - 1 - (layout 0 x).length - 1))
      rw [← htake] at hy'
      rw [hy', valid_utf8SafeEnd_iff (valid_layout hx 0) hc, ← hy', trimEnd_iff]

theorem valid_flattenText {v : CString} (hv : Valid v) : Valid (flattenText ibolTextMax v) := by
  unfold flattenText
  rw [flattenTextLoop_eq v (by decide), List.nil_append]
  exact valid_utf8SafeEnd_take (valid_squeeze isAscii_of_isSpace hv _ _) _

/-! ## The values of the lines -/

theorem isAscii_of_isEol {c : Char} (h : isEol c = true) : isAscii c = true := by
  unfold isEol at h
  simp only [Bool.or_eq_true, decide_eq_true_eq] at h
  rcases h with rfl | rfl <;> decide

theorem isAscii_of_isBlank {c : Char} (h : isBlank c = true) : isAscii c = true := by
  unfold isBlank at h
  simp only [Bool.or_eq_true, decide_eq_true_eq] at h
  rcases h with rfl | rfl <;> decide

theorem valid_drop_ascii {a p : CString} (ha : ∀ c ∈ a, isAscii c = true) (h : Valid (a ++ p)) :
    Valid p := (valid_ascii ha).of_append_left h

theorem valid_dropWhile {P : Char → Bool} (hP : ∀ c, P c = true → isAscii c = true) {p : CString}
    (h : Valid p) : Valid (p.dropWhile P) := by
  refine valid_drop_ascii (a := p.takeWhile P) (fun c hc => hP c (List.mem_takeWhile_imp hc)) ?_
  rwa [List.takeWhile_append_dropWhile]

/-- Text up to the next line end, and from there on. -/
theorem valid_line {p : CString} (h : Valid p) :
    Valid (p.takeWhile fun c => !isEol c) ∧ Valid (skipEol (p.dropWhile fun c => !isEol c)) := by
  have hsplit := @List.takeWhile_append_dropWhile _ (fun c => !isEol c) p
  cases hd : p.dropWhile (fun c => !isEol c) with
  | nil =>
    rw [hd, List.append_nil] at hsplit
    rw [hsplit]
    exact ⟨h, valid_nil⟩
  | cons e t =>
    have he : isEol e = true := by simpa using dropWhile_head hd
    rw [hd] at hsplit
    rw [← hsplit] at h
    obtain ⟨hline, ht⟩ := h.split (isAscii_of_isEol he)
    refine ⟨hline, ?_⟩
    cases t with
    | nil => exact valid_nil
    | cons c t =>
      rw [skipEol]
      split
      · next hc =>
        rw [Bool.and_eq_true] at hc
        exact ht.of_cons (isAscii_of_isEol hc.1)
      · exact ht

theorem valid_ibolLines {p : CString} (h : Valid p) : ∀ line ∈ ibolLines p, Valid line := by
  fun_induction ibolLines p with
  | case1 => simp
  | case2 p hp ih =>
    obtain ⟨hline, hrest⟩ := valid_line h
    exact List.forall_mem_cons.mpr ⟨hline, ih hrest⟩

theorem isAscii_of_toLower {c : Char} (h : isAscii c.toLower = true) : isAscii c = true := by
  unfold Char.toLower at h
  split at h
  · next hc =>
    unfold isAscii
    have hlt : c.val.toNat ≤ 90 := UInt32.le_iff_toNat_le.mp hc.2
    simp only [decide_eq_true_eq]
    show c.val.toNat < 128
    omega
  · exact h

/-- A name of ASCII letters and its colon are ASCII in the line too. -/
theorem valid_afterFieldName {name line value : CString} (hname : ∀ c ∈ name, isAscii c.toLower = true)
    (hline : Valid line) (h : afterFieldName name line = some value) : Valid value := by
  unfold afterFieldName at h
  dsimp only at h
  split at h
  · cases h
  · split at h
    · cases h
    · next hlen hcolon =>
      cases h
      set p := line.dropWhile isBlank with hp
      simp only [Bool.or_eq_true, Bool.not_eq_true', decide_eq_true_eq, not_or, Bool.not_eq_false,
        ne_eq, not_not] at hcolon
      have hvalid : Valid p := valid_dropWhile (fun c => isAscii_of_isBlank) hline
      rw [← List.take_append_drop (name.length + 1) p] at hvalid
      refine valid_drop_ascii ?_ hvalid
      have hprefix : name.map Char.toLower = (p.take name.length).map Char.toLower := by
        have h := List.prefix_iff_eq_take.mp (List.isPrefixOf_iff_prefix.mp hcolon.1)
        rwa [List.length_map, ← List.map_take] at h
      intro c hc
      rw [List.take_add_one, hcolon.2, List.mem_append] at hc
      rcases hc with hc | hc
      · have hmem : c.toLower ∈ name.map Char.toLower := hprefix ▸ List.mem_map_of_mem hc
        obtain ⟨d, hd, heq⟩ := List.mem_map.mp hmem
        exact isAscii_of_toLower (heq ▸ hname d hd)
      · rw [List.mem_singleton.mp hc]
        rfl

theorem asciiName {name : CString} (h : name.all (fun c => isAscii c.toLower) = true) :
    ∀ c ∈ name, isAscii c.toLower = true :=
  List.all_eq_true.mp h

theorem valid_fieldValue {name line value : CString} (hname : ∀ c ∈ name, isAscii c.toLower = true)
    (hline : Valid line) (h : fieldValue name line = some value) : Valid value := by
  obtain ⟨p, hp, rfl⟩ := Option.map_eq_some_iff.mp h
  have hblank : ∀ c, isBlank c = true → isAscii c = true := fun _ => isAscii_of_isBlank
  exact valid_trimEnd hblank (valid_dropWhile hblank (valid_afterFieldName hname hline hp))

theorem valid_fieldValueLayout {name line value : CString}
    (hname : ∀ c ∈ name, isAscii c.toLower = true) (hline : Valid line)
    (h : fieldValueLayout name line = some value) : Valid value := by
  obtain ⟨p, hp, rfl⟩ := Option.map_eq_some_iff.mp h
  have hv := valid_afterFieldName hname hline hp
  split
  · next hblank =>
    cases p with
    | nil => exact hv
    | cons c p => exact hv.of_cons (isAscii_of_isBlank (by simpa using hblank))
  · exact hv

theorem length_utf8SafeEnd (s : CString) : (utf8SafeEnd s).length ≤ s.length := by
  unfold utf8SafeEnd
  split
  · exact Nat.zero_le _
  · dsimp only
    split
    · rw [List.length_take]
      exact Nat.min_le_right _ _
    · exact Nat.le_refl _

theorem copySegment_valid {dstsz : Nat} (hpos : 0 < dstsz) {src : CString} (h : Valid src) :
    Valid (copySegment dstsz src).1 ∧ (copySegment dstsz src).1.length < dstsz := by
  refine ⟨valid_utf8SafeEnd_take h (dstsz - 1), ?_⟩
  have hle := length_utf8SafeEnd (src.take (dstsz - 1))
  rw [List.length_take] at hle
  unfold copySegment
  dsimp only
  omega

/-! ## The raw values -/

/-- The value of the last line with a field. -/
def lastValue (name : CString) (lines : List CString) : CString :=
  (lines.filterMap (fieldValue name)).getLast?.getD []

/-- The values of the lines `Oneliner:` that are not blank. -/
def onelinerValues (lines : List CString) : List CString :=
  (lines.filterMap (fieldValueLayout "Oneliner".toList)).filter fun value => !value.all isBlank

/-- The values one under the other, as far as there is room. -/
def joinValues (values : List CString) : CString :=
  values.foldl (fun dst value => (appendSegment ibolTextMax dst value (some '\n')).1) []

theorem head_of_afterFieldName {a : Char} {name line value : CString}
    (h : afterFieldName (a :: name) line = some value) :
    (line.dropWhile isBlank).head?.map Char.toLower = some a.toLower := by
  unfold afterFieldName at h
  dsimp only at h
  split at h
  · cases h
  · split at h
    · cases h
    · next hcolon =>
      simp only [Bool.or_eq_true, Bool.not_eq_true', not_or, Bool.not_eq_false] at hcolon
      have hprefix := List.isPrefixOf_iff_prefix.mp hcolon.1
      obtain ⟨t, ht⟩ := hprefix
      rw [← List.head?_map, ← ht]
      rfl

/-- A line has one of the fields at most. -/
theorem fields_disjoint {a b : Char} (hab : a.toLower ≠ b.toLower) {name name' line value : CString}
    (h : afterFieldName (a :: name) line = some value) : afterFieldName (b :: name') line = none := by
  cases h' : afterFieldName (b :: name') line with
  | none => rfl
  | some value' =>
    have heq := (head_of_afterFieldName h).symm.trans (head_of_afterFieldName h')
    exact absurd (Option.some.inj heq) hab

theorem lastValue_append (name : CString) (lines : List CString) (line : CString) :
    lastValue name (lines ++ [line]) = (fieldValue name line).getD (lastValue name lines) := by
  unfold lastValue
  rw [List.filterMap_append]
  cases h : fieldValue name line <;> simp [h]

theorem joinValues_append (values : List CString) (value : CString) :
    joinValues (values ++ [value]) =
      (appendSegment ibolTextMax (joinValues values) value (some '\n')).1 := by
  unfold joinValues
  rw [List.foldl_append, List.foldl_cons, List.foldl_nil]

theorem onelinerValues_append (lines : List CString) (line : CString) :
    onelinerValues (lines ++ [line]) = onelinerValues lines ++
      (fieldValueLayout "Oneliner".toList line).toList.filter fun value => !value.all isBlank := by
  unfold onelinerValues
  generalize "Oneliner".toList = name
  rw [List.filterMap_append, List.filter_append]
  cases h : fieldValueLayout name line <;> simp [h]

/-- What the loop over the lines has collected. -/
structure Collected (lines : List CString) (entry : IbolEntry) : Prop where
  authorRaw : entry.authorRaw = (copySegment ibolAuthorMax (lastValue "Author".toList lines)).1
  sourceRaw : entry.sourceRaw = (copySegment ibolSourceMax (lastValue "Source".toList lines)).1
  textRaw : entry.textRaw = joinValues (onelinerValues lines)
  onelinerParts : entry.onelinerParts = 0 → entry.textRaw = []

theorem fieldValue_none {name line : CString} (h : afterFieldName name line = none) :
    fieldValue name line = none ∧ fieldValueLayout name line = none := by
  unfold fieldValue fieldValueLayout
  rw [h]
  exact ⟨rfl, rfl⟩

theorem fields_of_author {line value : CString} (h : fieldValue "Author".toList line = some value) :
    fieldValue "Source".toList line = none ∧ fieldValueLayout "Oneliner".toList line = none := by
  obtain ⟨p, hp, -⟩ := Option.map_eq_some_iff.mp h
  have hsource : afterFieldName "Source".toList line = none :=
    @fields_disjoint 'A' 'S' (by decide) "uthor".toList "ource".toList _ _ hp
  have honeliner : afterFieldName "Oneliner".toList line = none :=
    @fields_disjoint 'A' 'O' (by decide) "uthor".toList "neliner".toList _ _ hp
  exact ⟨(fieldValue_none hsource).1, (fieldValue_none honeliner).2⟩

theorem fields_of_source {line value : CString} (h : fieldValue "Source".toList line = some value) :
    fieldValueLayout "Oneliner".toList line = none := by
  obtain ⟨p, hp, -⟩ := Option.map_eq_some_iff.mp h
  have honeliner : afterFieldName "Oneliner".toList line = none :=
    @fields_disjoint 'S' 'O' (by decide) "ource".toList "neliner".toList _ _ hp
  exact (fieldValue_none honeliner).2

theorem appendSegment_nil (src : CString) (separator separator' : Option Char) :
    appendSegment ibolTextMax [] src separator = appendSegment ibolTextMax [] src separator' := by
  have hnil : ∀ sep, appendSegment ibolTextMax [] src sep =
      (utf8SafeEnd (src.take (ibolTextMax - 1)), decide (src.length > ibolTextMax - 1)) := by
    intro sep
    unfold appendSegment
    exact if_neg fun h => h.2.1 rfl
  rw [hnil, hnil]

theorem Collected.step {lines : List CString} {s : IbolEntry × CString} (h : Collected lines s.1)
    (line : CString) : Collected (lines ++ [line]) (ibolBodyLine s line).1 := by
  have hvalues := onelinerValues_append lines line
  have hauthors := lastValue_append "Author".toList lines line
  have hsources := lastValue_append "Source".toList lines line
  unfold ibolBodyLine
  obtain ⟨entry, previous⟩ := s
  dsimp only at h ⊢
  cases hauthor : fieldValue "Author".toList line with
  | some value =>
    obtain ⟨hsource, honeliner⟩ := fields_of_author hauthor
    rw [hauthor] at hauthors
    rw [hsource] at hsources
    rw [honeliner] at hvalues
    exact ⟨by rw [hauthors]; rfl, by rw [hsources]; exact h.sourceRaw,
      by rw [hvalues]; exact h.textRaw.trans (by simp), h.onelinerParts⟩
  | none =>
    rw [hauthor] at hauthors
    cases hsource : fieldValue "Source".toList line with
    | some value =>
      rw [hsource] at hsources
      rw [fields_of_source hsource] at hvalues
      exact ⟨by rw [hauthors]; exact h.authorRaw, by rw [hsources]; rfl,
        by rw [hvalues]; exact h.textRaw.trans (by simp), h.onelinerParts⟩
    | none =>
      rw [hsource] at hsources
      have hraw : entry.authorRaw =
            (copySegment ibolAuthorMax (lastValue "Author".toList (lines ++ [line]))).1 ∧
          entry.sourceRaw =
            (copySegment ibolSourceMax (lastValue "Source".toList (lines ++ [line]))).1 := by
        rw [hauthors, hsources]
        exact ⟨h.authorRaw, h.sourceRaw⟩
      cases honeliner : fieldValueLayout "Oneliner".toList line with
      | none =>
        rw [honeliner] at hvalues
        exact ⟨hraw.1, hraw.2, by rw [hvalues]; exact h.textRaw.trans (by simp), h.onelinerParts⟩
      | some value =>
        rw [honeliner] at hvalues
        dsimp only
        cases hblank : value.all isBlank with
        | true =>
          rw [if_pos rfl]
          refine ⟨hraw.1, hraw.2, ?_, h.onelinerParts⟩
          rw [hvalues]
          exact h.textRaw.trans (by simp [hblank])
        | false =>
          have happend : (appendSegment ibolTextMax entry.textRaw value
              (if entry.onelinerParts ≠ 0 then some '\n' else none)).1 =
                joinValues (onelinerValues (lines ++ [line])) := by
            have hone : (Option.some value).toList.filter (fun value => !value.all isBlank) = [value] := by
              simp [hblank]
            rw [hvalues, hone, joinValues_append, ← h.textRaw]
            by_cases hparts : entry.onelinerParts = 0
            · -- the first value has no line end in front of it
              rw [h.onelinerParts hparts, appendSegment_nil value _ (some '\n')]
            · rw [if_pos hparts]
          rw [if_neg Bool.false_ne_true]
          split
          all_goals exact ⟨hraw.1, hraw.2, happend, fun hz => absurd hz (Nat.succ_ne_zero _)⟩

theorem collected (lines : List CString) :
    Collected lines (lines.foldl ibolBodyLine (IbolEntry.init, [])).1 := by
  induction lines using List.reverseRecOn with
  | nil => exact ⟨rfl, rfl, rfl, fun _ => rfl⟩
  | append_singleton lines line ih =>
    rw [List.foldl_append, List.foldl_cons, List.foldl_nil]
    exact ih.step line

/-! ## The body -/

theorem valid_lastValue {name : CString} (hname : ∀ c ∈ name, isAscii c.toLower = true)
    {lines : List CString} (h : ∀ line ∈ lines, Valid line) : Valid (lastValue name lines) := by
  unfold lastValue
  cases hlast : (lines.filterMap (fieldValue name)).getLast? with
  | none => exact valid_nil
  | some value =>
    obtain ⟨line, hline, hvalue⟩ := List.mem_filterMap.mp (List.mem_of_getLast? hlast)
    exact valid_fieldValue hname (h line hline) hvalue

theorem valid_appendSegment {dst src : CString} (hdst : Valid dst) (hsrc : Valid src) :
    Valid (appendSegment ibolTextMax dst src (some '\n')).1 := by
  unfold appendSegment
  split
  · exact hdst
  · dsimp only
    have hsep : Valid (if dst = [] then dst else dst ++ (some '\n').toList) := by
      split
      · exact hdst
      · exact hdst.append (valid_nil.cons rfl)
    obtain ⟨x, part, hx, hv, rfl | hcut⟩ :=
      hsrc.take (ibolTextMax - (if dst = [] then dst else dst ++ (some '\n').toList).length - 1)
    · rw [hx, List.append_nil, utf8SafeEnd_valid (hsep.append hv)]
      exact hsep.append hv
    · rw [hx, ← List.append_assoc, utf8SafeEnd_cut hcut]
      exact hsep.append hv

theorem valid_joinValues {values : List CString} (h : ∀ value ∈ values, Valid value) :
    Valid (joinValues values) := by
  induction values using List.reverseRecOn with
  | nil => exact valid_nil
  | append_singleton values value ih =>
    rw [joinValues_append]
    exact valid_appendSegment (ih fun v hv => h v (by simp [hv])) (h value (by simp))

theorem valid_onelinerValues {lines : List CString} (h : ∀ line ∈ lines, Valid line) :
    ∀ value ∈ onelinerValues lines, Valid value := by
  intro value hvalue
  obtain ⟨line, hline, hv⟩ := List.mem_filterMap.mp (List.mem_of_mem_filter hvalue)
  exact valid_fieldValueLayout (asciiName rfl) (h line hline) hv

/-- The condition on a body: its last author and source and its one-liners are not torn. -/
def KeepsUtf8 (body : CString) : Prop :=
  FieldKeeps (copySegment ibolAuthorMax (lastValue "Author".toList (ibolLines body))).1 ∧
    FieldKeeps (copySegment ibolSourceMax (lastValue "Source".toList (ibolLines body))).1 ∧
    TextKeeps (joinValues (onelinerValues (ibolLines body)))

theorem ibolParseBody_fields (body : CString) :
    let entry := ((ibolLines body).foldl ibolBodyLine (IbolEntry.init, [])).1
    let parsed := (ibolParseBody body).1
    (∃ flags, parsed.author = (sanitizeField ibolAuthorMax entry.authorRaw flags).1) ∧
      (∃ flags, parsed.source = (sanitizeField ibolSourceMax entry.sourceRaw flags).1) ∧
      (∃ flags, parsed.text = (sanitizeTextLayout ibolTextMax entry.textRaw flags).1) ∧
      parsed.textFlat = flattenText ibolTextMax parsed.text :=
  ⟨⟨_, rfl⟩, ⟨_, rfl⟩, ⟨_, rfl⟩, rfl⟩

/-- From valid text `ibol_parse_body` makes valid fields exactly when no escape character in a field
stands in front of a character that is not ASCII, as far as the field goes, or nothing else is left of
the field. -/
theorem ibolParseBody_valid_iff {body : CString} (h : Valid body) :
    (Valid (ibolParseBody body).1.author ∧ Valid (ibolParseBody body).1.source ∧
      Valid (ibolParseBody body).1.text ∧ Valid (ibolParseBody body).1.textFlat) ↔
      KeepsUtf8 body := by
  have hlines := valid_ibolLines h
  have hc := collected (ibolLines body)
  have hauthor := @copySegment_valid ibolAuthorMax (by decide) _
    (valid_lastValue (asciiName (rfl : "Author".toList.all _ = true)) hlines)
  have hsource := @copySegment_valid ibolSourceMax (by decide) _
    (valid_lastValue (asciiName (rfl : "Source".toList.all _ = true)) hlines)
  have htext := valid_joinValues (valid_onelinerValues hlines)
  rw [← hc.authorRaw] at hauthor
  rw [← hc.sourceRaw] at hsource
  rw [← hc.textRaw] at htext
  obtain ⟨⟨f₁, h₁⟩, ⟨f₂, h₂⟩, ⟨f₃, h₃⟩, h₄⟩ := ibolParseBody_fields body
  unfold KeepsUtf8
  rw [← hc.authorRaw, ← hc.sourceRaw, ← hc.textRaw,
    ← valid_sanitizeField_iff hauthor.1 hauthor.2 f₁, ← valid_sanitizeField_iff hsource.1 hsource.2 f₂,
    ← valid_sanitizeTextLayout_iff htext f₃, h₄, h₁, h₂, h₃]
  -- the flattened text is valid when the text is
  exact ⟨fun hv => ⟨hv.1, hv.2.1, hv.2.2.1⟩,
    fun hv => ⟨hv.1, hv.2.1, hv.2.2, valid_flattenText hv.2.2⟩⟩

/-- `Åsa`, a one-liner with a color code and one with an escape sequence. -/
def ibolBodyExample : CString :=
  encode "Author: Åsa\nSource: |15Malmö\nOneliner: \x1b[1mhej\n".toList

theorem ibolParseBody_valid_example :
    (Valid (ibolParseBody ibolBodyExample).1.author ∧ Valid (ibolParseBody ibolBodyExample).1.source ∧
      Valid (ibolParseBody ibolBodyExample).1.text ∧
      Valid (ibolParseBody ibolBodyExample).1.textFlat) ↔ KeepsUtf8 ibolBodyExample :=
  ibolParseBody_valid_iff ⟨_, rfl⟩

/-- An escape character in front of `å` deletes the first of its two bytes. -/
theorem ibolParseBody_invalid : ∃ body, Valid body ∧ ¬ Valid (ibolParseBody body).1.text := by
  refine ⟨encode "Oneliner: a\x1båb".toList, ⟨_, rfl⟩, ?_⟩
  have htext : (ibolParseBody (encode "Oneliner: a\x1båb".toList)).1.text =
      ['a'] ++ byteChar 0xa5 :: ['b'] := by decide +kernel
  rw [htext]
  exact not_valid_append_cont (valid_nil.cons rfl) (by decide) ['b']

end SklaffKom
