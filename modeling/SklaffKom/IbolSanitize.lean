import SklaffKom.Ibol

/-!
# What the sanitizers leave of UTF-8

The sanitizers of one-liners delete codes and control characters byte by byte, and cut what is left
to the size of the member.  An escape character in front of a character of several bytes takes only
the first of them with it.
-/

open CString Utf8

namespace SklaffKom

/-! ## The end of a string that was cut -/

/-- The end of a string: its last byte that is no continuation byte decides. -/
theorem utf8SafeEnd_append (x : CString) {lead : Char} {conts : CString} (hlead : isCont lead = false)
    (hconts : ∀ c ∈ conts, isCont c = true) : utf8SafeEnd (x ++ lead :: conts) =
      if seqLength lead = 0 ∨ conts.length + 1 < seqLength lead then x else x ++ lead :: conts := by
  have hlen : (x ++ lead :: conts).length = x.length + conts.length + 1 := by
    rw [List.length_append, List.length_cons, Nat.add_assoc]
  have hget : (x ++ lead :: conts)[x.length]?.getD '\x00' = lead := by simp
  have hback : backWhile (x ++ lead :: conts) isCont ((x ++ lead :: conts).length - 1) = x.length := by
    have h := backWhile_append (a := x ++ [lead]) (b := conts) (c := []) hconts
      (x.length + conts.length) (by simp) (by simp)
    rw [List.append_nil, List.append_assoc, List.singleton_append, List.length_append] at h
    rw [hlen]
    exact h.trans (backWhile_of_false (by rw [List.length_singleton, Nat.add_sub_cancel, hget, hlead]))
  unfold utf8SafeEnd
  rw [if_neg (by simp), hback]
  dsimp only
  rw [hget, hlen, List.take_left, show x.length + conts.length + 1 - x.length = conts.length + 1 by omega]

/-- A string of continuation bytes is emptied. -/
theorem utf8SafeEnd_conts {s : CString} (h : ∀ c ∈ s, isCont c = true) : utf8SafeEnd s = [] := by
  cases s with
  | nil => rfl
  | cons c s =>
    have hback : backWhile (c :: s) isCont (c :: s).length.pred = 0 := by
      have hall : ∀ p < (c :: s).length, backWhile (c :: s) isCont p = 0 := by
        intro p hp
        induction p with
        | zero => rfl
        | succ p ih =>
          rw [backWhile, if_pos, ih (by omega)]
          rw [List.getElem?_eq_getElem hp]
          exact h _ (List.getElem_mem hp)
      exact hall _ (by simp)
    unfold utf8SafeEnd
    rw [if_neg (List.cons_ne_nil c s)]
    show (if seqLength ((c :: s)[backWhile (c :: s) isCont _]?.getD '\x00') = 0 ∨ _ then _ else _) = _
    rw [← Nat.pred_eq_sub_one, hback]
    show (if seqLength c = 0 ∨ _ then _ else _) = _
    rw [if_pos (Or.inl (seqLength_of_isCont (h c List.mem_cons_self)))]
    rfl

theorem utf8SafeEnd_valid {s : CString} (h : Valid s) : utf8SafeEnd s = s := by
  rcases exists_lastLead s with hall | ⟨x, lead, conts, rfl, hlead, hconts⟩
  · cases s with
    | nil => rfl
    | cons c s => exact absurd h (not_valid_cont (hall c List.mem_cons_self) s)
  · have hlen := (h.last hlead hconts).2
    rw [utf8SafeEnd_append x hlead hconts, if_neg (by omega)]

/-- A character that is cut at the end is dropped. -/
theorem utf8SafeEnd_cut {x part : CString} (hp : IsCut part) : utf8SafeEnd (x ++ part) = x := by
  obtain ⟨lead, conts, rfl, hlen, hconts⟩ := hp
  rw [utf8SafeEnd_append x (isCont_of_seqLength (by omega)) hconts, if_pos (Or.inr hlen)]

/-- The first bytes of a valid string, without the blanks at the end. -/
theorem valid_utf8SafeEnd_take {s : CString} (h : Valid s) (n : Nat) : Valid (utf8SafeEnd (s.take n)) := by
  obtain ⟨x, part, hx, hv, rfl | hcut⟩ := h.take n
  · rw [hx, List.append_nil, utf8SafeEnd_valid hv]
    exact hv
  · rw [hx, utf8SafeEnd_cut hcut]
    exact hv

/-- A continuation byte that belongs to no character stays, unless there is nothing else. -/
theorem valid_utf8SafeEnd_iff {x : CString} (hx : Valid x) {c : Char} (hc : isCont c = true)
    (y : CString) :
    Valid (utf8SafeEnd (x ++ c :: y)) ↔ ∀ d ∈ x ++ c :: y, isCont d = true := by
  refine ⟨fun h => ?_, fun h => ?_⟩
  · refine (exists_lastLead (x ++ c :: y)).resolve_right ?_
    rintro ⟨u, lead, conts, heq, hlead, hconts⟩
    have hstray := not_valid_append_cont hx hc
    rw [heq, utf8SafeEnd_append u hlead hconts] at h
    rcases List.append_eq_append_iff.mp heq with ⟨z, rfl, hz⟩ | ⟨z, rfl, hz⟩
    · cases z with
      | nil =>
        obtain ⟨rfl, -⟩ := List.cons.inj hz
        rw [hlead] at hc
        cases hc
      | cons d z =>
        -- the byte stands in front of the last character
        obtain ⟨rfl, -⟩ := List.cons.inj hz
        split at h
        · exact hstray z h
        · rw [List.append_assoc] at h
          exact hstray _ h
    · cases z with
      | nil =>
        obtain ⟨rfl, -⟩ := List.cons.inj hz
        rw [hlead] at hc
        cases hc
      | cons d z =>
        -- the byte stands behind the last character, which is complete
        obtain ⟨rfl, rfl⟩ : lead = d ∧ conts = z ++ c :: y := by simpa using hz
        have hlen := (hx.last hlead fun e he => hconts e (by simp [he])).2
        rw [if_neg] at h
        · exact hstray y (by simpa using h)
        · rw [List.length_append, List.length_cons, hlen]
          omega
  · rw [utf8SafeEnd_conts h]
    exact valid_nil

/-! ## What the loops copy -/

/-- What is left of a value without its codes. -/
def stripCodes (p : CString) : CString :=
  match p with
  | [] => []
  | ch :: t =>
    if 0 < mysticCodeLength (ch :: t) then
      stripCodes ((ch :: t).drop (mysticCodeLength (ch :: t)))
    else if 0 < ansiCodeLength (ch :: t) then
      stripCodes ((ch :: t).drop (ansiCodeLength (ch :: t)))
    else ch :: stripCodes t
termination_by p.length
decreasing_by
  all_goals simp only [List.length_drop, List.length_cons]
  all_goals omega

/-- Words with one blank between them; `used` says that there is a word before, `pending` that there
is a gap behind it. -/
def squeeze (gap : Char → Bool) : Bool → Bool → CString → CString
  | _, _, [] => []
  | used, pending, c :: t =>
    if gap c then squeeze gap used used t
    else (if pending then [' ', c] else [c]) ++ squeeze gap true false t

/-- A text with its tabs expanded, from a column on. -/
def layout : Nat → CString → CString
  | _, [] => []
  | col, c :: t =>
    if c = '\n' then '\n' :: layout 0 t
    else if c = '\t' then List.replicate (8 - col % 8) ' ' ++ layout (col + (8 - col % 8)) t
    else if isControl c then layout col t
    else c :: layout (col + 1) t

def isGap (c : Char) : Bool := isControl c || isBlank c

theorem take_full {s t : CString} {n : Nat} (h : n ≤ s.length) : (s ++ t).take n = s.take n :=
  List.take_append_of_le_length h

theorem squeeze_word {gap : Char → Bool} {c : Char} (hc : gap c = false) (used pending : Bool)
    (dst t : CString) : dst ++ squeeze gap used pending (c :: t) =
      (if pending then dst ++ [' '] else dst) ++ c :: squeeze gap true false t := by
  rw [squeeze, hc, if_neg Bool.false_ne_true]
  cases pending with
  | false => rfl
  | true => simp

/-- There is room for the blank that is pending. -/
theorem length_pending {dstsz : Nat} {dst : CString} (hdst : dst.length < dstsz) {pending : Bool}
    (hroom : ¬ (pending = true ∧ dst.length + 1 ≥ dstsz)) :
    (if pending then dst ++ [' '] else dst).length ≤ dstsz - 1 := by
  cases pending with
  | false => exact Nat.le_sub_one_of_lt hdst
  | true =>
    rw [if_pos rfl, List.length_append, List.length_singleton]
    simp only [true_and] at hroom
    omega

theorem sanitizeFieldLoop_eq {dstsz : Nat} (p : CString) {dst : CString} (hdst : dst.length < dstsz)
    (pending : Bool) (flags : Nat) :
    (sanitizeFieldLoop dstsz p dst pending flags).1 =
      (dst ++ squeeze isGap (dst ≠ []) pending (stripCodes p)).take (dstsz - 1) := by
  fun_induction sanitizeFieldLoop dstsz p dst pending flags with
  | case1 dst pending flags =>
    rw [stripCodes, squeeze, List.append_nil, List.take_of_length_le (by omega)]
  | case2 dst pending flags ch t hm ih =>
    rw [ih hdst, stripCodes, if_pos hm]
  | case3 dst pending flags ch t hm ha ih =>
    rw [ih hdst, stripCodes, if_neg hm, if_pos ha]
  | case4 dst pending flags ch t hm ha hc ih =>
    rw [ih hdst, stripCodes, if_neg hm, if_neg ha, squeeze, if_pos (by simp [isGap, hc])]
  | case5 dst pending flags ch t hm ha hc hb ih =>
    rw [ih hdst, stripCodes, if_neg hm, if_neg ha, squeeze, if_pos (by simp [isGap, hb])]
  | case6 dst pending flags ch t hm ha hc hb hfull =>
    rw [take_full (by omega), List.take_of_length_le (by omega)]
  | case7 dst pending flags ch t hm ha hc hb hroom dst' hfull =>
    have hdst' : (if pending then dst ++ [' '] else dst) = dst' := by simp [dst']
    have hlen : dst'.length ≤ dstsz - 1 := hdst' ▸ length_pending hdst hroom
    rw [stripCodes, if_neg hm, if_neg ha, squeeze_word (by simp [isGap, hc, hb]), hdst',
      take_full (by omega), List.take_of_length_le hlen]
  | case8 dst pending flags ch t hm ha hc hb hroom dst' hroom' ih =>
    have hdst' : (if pending then dst ++ [' '] else dst) = dst' := by simp [dst']
    rw [ih (by rw [List.length_append, List.length_singleton]; omega), stripCodes,
      if_neg hm, if_neg ha, squeeze_word (by simp [isGap, hc, hb]), hdst', List.append_assoc,
      List.singleton_append]
    simp

theorem sanitizeTextLoop_eq {dstsz : Nat} (p : CString) {dst : CString} (hdst : dst.length < dstsz)
    (col flags : Nat) : (sanitizeTextLoop dstsz p dst col flags).1 =
      (dst ++ layout col (stripCodes p)).take (dstsz - 1) := by
  fun_induction sanitizeTextLoop dstsz p dst col flags with
  | case1 dst col flags =>
    rw [stripCodes, layout, List.append_nil, List.take_of_length_le (by omega)]
  | case2 dst col flags ch t hm ih => rw [ih hdst, stripCodes, if_pos hm]
  | case3 dst col flags ch t hm ha ih => rw [ih hdst, stripCodes, if_neg hm, if_pos ha]
  | case4 dst col flags t hfull hm ha =>
    rw [take_full (by omega), List.take_of_length_le (by omega)]
  | case5 dst col flags t hroom hm ha ih =>
    rw [ih (by rw [List.length_append, List.length_singleton]; omega), stripCodes, if_neg hm,
      if_neg ha, layout, if_pos rfl, List.append_assoc, List.singleton_append]
  | case6 dst col flags t spaces hfull hm ha hn =>
    -- the tab is cut
    rw [stripCodes, if_neg hm, if_neg ha, layout, if_neg hn, if_pos rfl, ← List.append_assoc,
      take_full (by rw [List.length_append, List.length_replicate]; omega), List.take_append,
      List.take_of_length_le (by omega), List.take_replicate, Nat.min_eq_left (by omega)]
  | case7 dst col flags t spaces hroom hm ha hn ih =>
    rw [ih (by rw [List.length_append, List.length_replicate]; omega), stripCodes, if_neg hm,
      if_neg ha, layout, if_neg hn, if_pos rfl, List.append_assoc]
  | case8 dst col flags ch t hm ha hn ht hc ih =>
    rw [ih hdst, stripCodes, if_neg hm, if_neg ha, layout, if_neg hn, if_neg ht, if_pos hc]
  | case9 dst col flags ch t hm ha hn ht hc hfull =>
    rw [take_full (by omega), List.take_of_length_le (by omega)]
  | case10 dst col flags ch t hm ha hn ht hc hroom ih =>
    rw [ih (by rw [List.length_append, List.length_singleton]; omega), stripCodes, if_neg hm,
      if_neg ha, layout, if_neg hn, if_neg ht, if_neg hc, List.append_assoc, List.singleton_append]

theorem flattenTextLoop_eq {dstsz : Nat} (p : CString) {dst : CString} (hdst : dst.length < dstsz)
    (pending : Bool) : flattenTextLoop dstsz p dst pending =
      (dst ++ squeeze isSpace (dst ≠ []) pending p).take (dstsz - 1) := by
  fun_induction flattenTextLoop dstsz p dst pending with
  | case1 dst pending => rw [squeeze, List.append_nil, List.take_of_length_le (by omega)]
  | case2 ch p dst pending hs ih => rw [ih hdst, squeeze, if_pos hs]
  | case3 ch p dst pending hs hfull => rw [take_full (by omega), List.take_of_length_le (by omega)]
  | case4 ch p dst pending hs hroom dst' hfull =>
    have hdst' : (if pending then dst ++ [' '] else dst) = dst' := by simp [dst']
    have hlen : dst'.length ≤ dstsz - 1 := hdst' ▸ length_pending hdst hroom
    rw [squeeze_word (Bool.eq_false_iff.mpr hs), hdst', take_full (by omega),
      List.take_of_length_le hlen]
  | case5 ch p dst pending hs hroom dst' hroom' ih =>
    have hdst' : (if pending then dst ++ [' '] else dst) = dst' := by simp [dst']
    rw [ih (by rw [List.length_append, List.length_singleton]; omega),
      squeeze_word (Bool.eq_false_iff.mpr hs), hdst', List.append_assoc, List.singleton_append]
    simp

/-! ## Codes in valid text -/

/-- What is kept in front of the first escape character that takes a part of a character with it. -/
def tornPart (p : CString) : Option CString :=
  match p with
  | [] => none
  | ch :: t =>
    if 0 < mysticCodeLength (ch :: t) then
      tornPart ((ch :: t).drop (mysticCodeLength (ch :: t)))
    else if 0 < ansiCodeLength (ch :: t) then
      if t.head?.any fun c => !isAscii c then some []
      else tornPart ((ch :: t).drop (ansiCodeLength (ch :: t)))
    else (tornPart t).map (ch :: ·)
termination_by p.length
decreasing_by
  all_goals simp only [List.length_drop, List.length_cons]
  all_goals omega

/-- No code begins with this character. -/
def NoCode (c : Char) : Prop := c ≠ '|' ∧ c ≠ '\x1b'

theorem codeLength_of_noCode {c : Char} (hc : NoCode c) (t : CString) :
    mysticCodeLength (c :: t) = 0 ∧ ansiCodeLength (c :: t) = 0 := by
  obtain ⟨hm, ha⟩ := hc
  constructor
  · unfold mysticCodeLength
    split
    · exact absurd (by simp_all) hm
    · rfl
  · unfold ansiCodeLength
    split <;> first | rfl | exact absurd (by simp_all) ha

theorem stripCodes_noCode {s : CString} (hs : ∀ c ∈ s, NoCode c) (t : CString) :
    stripCodes (s ++ t) = s ++ stripCodes t := by
  induction s with
  | nil => rfl
  | cons c s ih =>
    obtain ⟨hc, hs⟩ := List.forall_mem_cons.mp hs
    obtain ⟨hm, ha⟩ := codeLength_of_noCode hc (s ++ t)
    rw [List.cons_append, stripCodes, hm, ha, if_neg (Nat.lt_irrefl 0), if_neg (Nat.lt_irrefl 0), ih hs,
      List.cons_append]

theorem tornPart_noCode {s : CString} (hs : ∀ c ∈ s, NoCode c) (t : CString) :
    tornPart (s ++ t) = (tornPart t).map (s ++ ·) := by
  induction s with
  | nil => simp
  | cons c s ih =>
    obtain ⟨hc, hs⟩ := List.forall_mem_cons.mp hs
    obtain ⟨hm, ha⟩ := codeLength_of_noCode hc (s ++ t)
    rw [List.cons_append, tornPart, hm, ha, if_neg (Nat.lt_irrefl 0), if_neg (Nat.lt_irrefl 0), ih hs,
      Option.map_map]
    rfl

theorem valid_drop_csiLength {p : CString} (h : Valid p) : Valid (p.drop (csiLength p)) := by
  have hsplit : p.drop (csiLength p) = [] ∨
      ∃ a f, isAscii f = true ∧ p = a ++ f :: p.drop (csiLength p) := by
    clear h
    induction p with
    | nil => exact Or.inl rfl
    | cons c p ih =>
      rw [csiLength]
      split
      · next hc => exact Or.inr ⟨[], c, by simp [isAscii]; omega, rfl⟩
      · rw [List.drop_succ_cons]
        rcases ih with ih | ⟨a, f, hf, heq⟩
        · exact Or.inl ih
        · exact Or.inr ⟨c :: a, f, hf, by rw [List.cons_append, ← heq]⟩
  rcases hsplit with hnil | ⟨a, f, hf, heq⟩
  · rw [hnil]
    exact valid_nil
  · rw [heq] at h
    exact (h.split hf).2

theorem valid_drop_oscLength {p : CString} (h : Valid p) : Valid (p.drop (oscLength p)) := by
  have hsplit : p.drop (oscLength p) = [] ∨
      ∃ a f, isAscii f = true ∧ p = a ++ f :: p.drop (oscLength p) := by
    clear h
    induction p with
    | nil => exact Or.inl rfl
    | cons c p ih =>
      rw [oscLength]
      split
      · next hc => exact Or.inr ⟨[], c, by rw [hc]; rfl, rfl⟩
      · split
        · next hc =>
          obtain ⟨p', rfl⟩ : ∃ p', p = '\\' :: p' := by
            cases p with
            | nil => cases hc.2
            | cons d p' => exact ⟨p', by rw [Option.some.inj hc.2]⟩
          exact Or.inr ⟨[c], '\\', rfl, rfl⟩
        · rw [List.drop_succ_cons]
          rcases ih with ih | ⟨a, f, hf, heq⟩
          · exact Or.inl ih
          · exact Or.inr ⟨c :: a, f, hf, by rw [List.cons_append, ← heq]⟩
  rcases hsplit with hnil | ⟨a, f, hf, heq⟩
  · rw [hnil]
    exact valid_nil
  · rw [heq] at h
    exact (h.split hf).2

theorem isAscii_of_toUpper {c : Char} (h : isAscii c.toUpper = true) : isAscii c = true := by
  unfold Char.toUpper at h
  split at h
  · next hc =>
    unfold isAscii
    have hlt : c.val.toNat ≤ 122 := UInt32.le_iff_toNat_le.mp hc.2
    simp only [decide_eq_true_eq]
    show c.val.toNat < 128
    omega
  · exact h

theorem isAscii_of_isDigit {c : Char} (h : c.isDigit = true) : isAscii c = true := by
  unfold isAscii
  simp only [decide_eq_true_eq]
  have hlt := UInt32.le_iff_toNat_le.mp (of_decide_eq_true (Bool.and_eq_true_iff.mp h).2)
  exact Nat.lt_of_le_of_lt hlt (by decide)

theorem exists_of_mysticCodeLength {p : CString} (h : 0 < mysticCodeLength p) :
    mysticCodeLength p = 3 ∧ ∃ a b r, p = '|' :: a :: b :: r ∧ isAscii a = true ∧ isAscii b = true := by
  unfold mysticCodeLength at h ⊢
  split at h
  · next a b r =>
    split at h
    · next hab =>
      refine ⟨if_pos hab, a, b, r, rfl, ?_⟩
      rcases hab with ⟨ha, hb⟩ | hab
      · exact ⟨isAscii_of_isDigit ha, isAscii_of_isDigit hb⟩
      · have hall : ∀ k ∈ mysticKnown, isAscii k.1 = true ∧ isAscii k.2 = true :=
          List.forall_iff_forall_mem.mp (by simp [mysticKnown]; decide)
        exact ⟨isAscii_of_toUpper (hall _ hab).1, isAscii_of_toUpper (hall _ hab).2⟩
    · exact absurd h (Nat.lt_irrefl 0)
  · exact absurd h (Nat.lt_irrefl 0)

theorem noCode_of_isCont {c : Char} (h : isCont c = true) : NoCode c := by
  constructor <;> rintro rfl <;> exact absurd h (by decide)

/-- What is left of a value: valid text, or valid text up to a continuation byte that is torn off. -/
def Stripped (v : CString) : Prop :=
  match tornPart v with
  | none => Valid (stripCodes v)
  | some x => Valid x ∧ ∃ c y, isCont c = true ∧ stripCodes v = x ++ c :: y

theorem Stripped.prepend {s t : CString} (hs : Valid s) (hcode : ∀ c ∈ s, NoCode c)
    (ht : Stripped t) : Stripped (s ++ t) := by
  unfold Stripped at ht ⊢
  rw [tornPart_noCode hcode, stripCodes_noCode hcode]
  cases h : tornPart t with
  | none =>
    rw [h] at ht
    exact hs.append ht
  | some x =>
    rw [h] at ht
    obtain ⟨hx, c, y, hc, heq⟩ := ht
    exact ⟨hs.append hx, c, y, hc, by rw [heq, List.append_assoc]⟩

/-- A character that begins no code in front of valid text. -/
theorem Stripped.char {c : Char} {t : CString} (hc : isAscii c = true)
    (hm : mysticCodeLength (c :: t) = 0) (ha : ansiCodeLength (c :: t) = 0) (ht : Stripped t) :
    Stripped (c :: t) := by
  have hstrip : stripCodes (c :: t) = c :: stripCodes t := by
    rw [stripCodes, hm, ha, if_neg (Nat.lt_irrefl 0), if_neg (Nat.lt_irrefl 0)]
  have htorn : tornPart (c :: t) = (tornPart t).map (c :: ·) := by
    rw [tornPart, hm, ha, if_neg (Nat.lt_irrefl 0), if_neg (Nat.lt_irrefl 0)]
  unfold Stripped at ht ⊢
  rw [hstrip, htorn]
  cases h : tornPart t with
  | none =>
    rw [h] at ht
    exact ht.cons hc
  | some x =>
    rw [h] at ht
    obtain ⟨hx, d, y, hd, heq⟩ := ht
    exact ⟨hx.cons hc, d, y, hd, by rw [heq, List.cons_append]⟩

/-- A code in front of valid text. -/
theorem Stripped.code {v : CString} (hv : v ≠ []) {n : Nat} (hn : mysticCodeLength v = n ∨
      mysticCodeLength v = 0 ∧ ansiCodeLength v = n ∧ ∀ c ∈ v.tail.head?, isAscii c = true)
    (hpos : 0 < n) (ht : Stripped (v.drop n)) : Stripped v := by
  obtain ⟨ch, t, rfl⟩ := List.exists_cons_of_ne_nil hv
  have hstrip : stripCodes (ch :: t) = stripCodes ((ch :: t).drop n) := by
    rw [stripCodes]
    rcases hn with rfl | ⟨hm, rfl, -⟩
    · rw [if_pos hpos]
    · rw [hm, if_neg (Nat.lt_irrefl 0), if_pos hpos]
  have htorn : tornPart (ch :: t) = tornPart ((ch :: t).drop n) := by
    rw [tornPart]
    rcases hn with rfl | ⟨hm, rfl, hascii⟩
    · rw [if_pos hpos]
    · rw [hm, if_neg (Nat.lt_irrefl 0), if_pos hpos, if_neg]
      rw [Option.any_eq_true]
      rintro ⟨c, hc, hna⟩
      rw [hascii c hc] at hna
      cases hna
  unfold Stripped at ht ⊢
  rw [hstrip, htorn]
  exact ht

/-- A character that is no ASCII character behind an escape character. -/
theorem stripped_torn {d : Char} (hd : isAscii d = false) {p : CString} (h : Valid (d :: p))
    (hansi : ansiCodeLength ('\x1b' :: d :: p) = 2) : Stripped ('\x1b' :: d :: p) := by
  have hmystic : mysticCodeLength ('\x1b' :: d :: p) = 0 := rfl
  have htorn : tornPart ('\x1b' :: d :: p) = some [] := by
    rw [tornPart, hmystic, hansi, if_neg (Nat.lt_irrefl 0), if_pos Nat.two_pos, if_pos (by simp [hd])]
  have hstrip : stripCodes ('\x1b' :: d :: p) = stripCodes p := by
    rw [stripCodes, hmystic, hansi, if_neg (Nat.lt_irrefl 0), if_pos Nat.two_pos]
    rfl
  -- the first byte of a character of several is deleted
  obtain ⟨cs, hcs⟩ := h
  unfold Stripped
  rw [htorn, hstrip]
  refine ⟨valid_nil, ?_⟩
  cases cs with
  | nil => cases hcs
  | cons e cs =>
    obtain ⟨lead, conts, he, hlen, hconts⟩ := isSeq_encodeChar e
    rw [encode, List.flatMap_cons, he, List.cons_append] at hcs
    obtain ⟨rfl, rfl⟩ := List.cons.inj hcs
    cases conts with
    | nil =>
      unfold isAscii at hd
      unfold seqLength at hlen
      rw [if_neg (of_decide_eq_false hd)] at hlen
      simp only [List.length_nil] at hlen
      split at hlen <;> (try split at hlen) <;> (try split at hlen) <;> (try split at hlen) <;> omega
    | cons c conts =>
      have hc := hconts c List.mem_cons_self
      refine ⟨c, stripCodes (conts ++ List.flatMap encodeChar cs), hc, ?_⟩
      exact stripCodes_noCode (s := [c]) (by simpa using noCode_of_isCont hc) _

theorem stripped_escape {t : CString} (h : Valid t) (ih : ∀ u, Valid u → u.length ≤ t.length → Stripped u) :
    Stripped ('\x1b' :: t) := by
  cases t with
  | nil =>
    refine Stripped.code (n := 1) (List.cons_ne_nil '\x1b' []) (Or.inr ⟨rfl, rfl, ?_⟩) Nat.one_pos ?_
    · simp
    · exact ih [] valid_nil (Nat.le_refl 0)
  | cons d p =>
    cases hd : isAscii d with
    | true =>
      have hp := h.of_cons hd
      by_cases hcsi : d = '['
      · subst hcsi
        refine Stripped.code (n := csiLength p + 2) (List.cons_ne_nil _ _)
          (Or.inr ⟨rfl, rfl, by simpa using hd⟩) (Nat.succ_pos _) ?_
        refine ih _ (valid_drop_csiLength hp) ?_
        show (p.drop (csiLength p)).length ≤ p.length + 1
        rw [List.length_drop]
        omega
      by_cases hosc : d = ']'
      · subst hosc
        refine Stripped.code (n := oscLength p + 2) (List.cons_ne_nil _ _)
          (Or.inr ⟨rfl, rfl, by simpa using hd⟩) (Nat.succ_pos _) ?_
        refine ih _ (valid_drop_oscLength hp) ?_
        show (p.drop (oscLength p)).length ≤ p.length + 1
        rw [List.length_drop]
        omega
      have hansi : ansiCodeLength ('\x1b' :: d :: p) = 2 := by
        unfold ansiCodeLength
        split <;> simp_all
      refine Stripped.code (n := 2) (List.cons_ne_nil _ _)
        (Or.inr ⟨rfl, hansi, by simpa using hd⟩) Nat.two_pos ?_
      exact ih p hp (by simp)
    | false =>
      have hansi : ansiCodeLength ('\x1b' :: d :: p) = 2 := by
        unfold ansiCodeLength
        split <;> simp_all [isAscii]
      exact stripped_torn hd h hansi

/-- What the sanitizers leave of valid text. -/
theorem stripped_of_valid {v : CString} (h : Valid v) : Stripped v := by
  induction hn : v.length using Nat.strong_induction_on generalizing v with
  | _ n ih =>
    subst hn
    have ih' : ∀ u, Valid u → u.length < v.length → Stripped u := fun u hu hlt => ih _ hlt hu rfl
    obtain ⟨cs, rfl⟩ := h
    cases cs with
    | nil =>
      unfold Stripped
      rw [encode, List.flatMap_nil, tornPart, stripCodes]
      exact valid_nil
    | cons c cs =>
      obtain ⟨lead, conts, hc, hlen, hconts⟩ := isSeq_encodeChar c
      have hcs : encode (c :: cs) = (lead :: conts) ++ encode cs := by rw [encode, List.flatMap_cons, hc]; rfl
      have hvalid := valid_encodeChar c
      rw [hc] at hvalid
      have hrest : Stripped (encode cs) := by
        refine ih' _ ⟨cs, rfl⟩ ?_
        rw [hcs, List.length_append, List.length_cons]
        omega
      by_cases hcode : NoCode lead
      · rw [hcs]
        exact hrest.prepend hvalid (List.forall_mem_cons.mpr ⟨hcode, fun d hd => noCode_of_isCont (hconts d hd)⟩)
      -- a code begins with a character of one byte
      have hlead : lead = '|' ∨ lead = '\x1b' := by
        by_contra hne
        exact hcode ⟨fun h => hne (Or.inl h), fun h => hne (Or.inr h)⟩
      have hone : conts = [] := by
        have hseq : seqLength lead = 1 := by rcases hlead with rfl | rfl <;> decide
        exact List.length_eq_zero_iff.mp (by omega)
      subst hone
      rw [hcs]
      rcases hlead with rfl | rfl
      · by_cases hm : 0 < mysticCodeLength ('|' :: encode cs)
        · obtain ⟨hthree, a, b, r, heq, ha, hb⟩ := exists_of_mysticCodeLength hm
          obtain ⟨-, heq⟩ := List.cons.inj heq
          have hr : Valid r := Valid.of_cons hb (Valid.of_cons ha (heq ▸ ⟨cs, rfl⟩))
          refine Stripped.code (List.cons_ne_nil _ _) (Or.inl hthree) (by decide) ?_
          show Stripped (('|' :: encode cs).drop 3)
          rw [heq]
          have hlen : (encode cs).length = r.length + 2 := by
            rw [heq]
            rfl
          refine ih' r hr ?_
          rw [hcs, List.length_append, hlen]
          omega
        · have hzero : mysticCodeLength ('|' :: encode cs) = 0 := Nat.eq_zero_of_not_pos hm
          exact hrest.char rfl hzero rfl
      · refine stripped_escape ⟨cs, rfl⟩ fun u hu hle => ih' u hu ?_
        rw [hcs, List.length_append]
        exact Nat.lt_of_le_of_lt hle (Nat.lt_add_of_pos_left Nat.one_pos)

/-! ## Gaps in valid text -/

/-- Continuation bytes, and gaps behind them. -/
def OnlyRests (gap : Char → Bool) (z : CString) : Prop :=
  ∃ b c, z = b ++ c ∧ (∀ d ∈ b, isCont d = true) ∧ ∀ d ∈ c, gap d = true

theorem squeeze_pending_iff {gap : Char → Bool} (z : CString) :
    (∀ c ∈ squeeze gap true true z, isCont c = true) ↔ ∀ c ∈ z, gap c = true := by
  induction z with
  | nil => simp [squeeze]
  | cons c z ih =>
    cases hc : gap c with
    | true => rw [squeeze, hc, if_pos rfl, ih, List.forall_mem_cons, hc, and_iff_right rfl]
    | false =>
      -- the blank in front of the word
      have hblank : ¬ isCont ' ' = true := by decide
      rw [squeeze, hc, if_neg Bool.false_ne_true, if_pos rfl]
      simp [hblank, hc]

theorem onlyRests_cons {gap : Char → Bool} (c : Char) (z : CString) : OnlyRests gap (c :: z) ↔
    (isCont c = true ∧ OnlyRests gap z) ∨ ∀ d ∈ c :: z, gap d = true := by
  constructor
  · rintro ⟨b, e, heq, hb, he⟩
    cases b with
    | nil => exact Or.inr (by rw [heq]; exact he)
    | cons d b =>
      obtain ⟨rfl, rfl⟩ := List.cons.inj heq
      obtain ⟨hd, hb⟩ := List.forall_mem_cons.mp hb
      exact Or.inl ⟨hd, b, e, rfl, hb, he⟩
  · rintro (⟨hc, b, e, rfl, hb, he⟩ | hall)
    · exact ⟨c :: b, e, rfl, List.forall_mem_cons.mpr ⟨hc, hb⟩, he⟩
    · exact ⟨[], c :: z, rfl, by simp, hall⟩

theorem squeeze_first (gap : Char → Bool) (z : CString) :
    squeeze gap false false z = squeeze gap true false (z.dropWhile gap) := by
  induction z with
  | nil => rfl
  | cons c z ih =>
    cases hc : gap c with
    | true => rw [squeeze, hc, if_pos rfl, ih, List.dropWhile_cons_of_pos hc]
    | false =>
      rw [List.dropWhile_cons_of_neg (by simp [hc]), squeeze, squeeze, hc]
      rfl

theorem valid_sep (pending : Bool) : Valid (if pending then [' '] else []) := by
  cases pending with
  | false => exact valid_nil
  | true => exact valid_nil.cons rfl

section Gaps

variable {gap : Char → Bool} (hgap : ∀ c, gap c = true → isAscii c = true)

include hgap

theorem gap_of_isCont {c : Char} (hc : isCont c = true) : gap c = false := by
  rw [Bool.eq_false_iff]
  intro hg
  rw [isCont_of_isAscii (hgap c hg)] at hc
  cases hc

/-- The words of valid text are valid, whatever follows. -/
theorem squeeze_valid_append {x : CString} (hx : Valid x) (used pending : Bool) :
    ∃ x' used' pending', Valid x' ∧
      ∀ y, squeeze gap used pending (x ++ y) = x' ++ squeeze gap used' pending' y := by
  revert used pending
  refine Valid.induction ?_ ?_ hx
  · exact fun used pending => ⟨[], used, pending, valid_nil, fun y => rfl⟩
  intro s t hs hv _ ih used pending
  obtain ⟨lead, conts, rfl, hlen, hconts⟩ := hs
  cases hlead : gap lead with
  | true =>
    -- a gap is one byte
    have hnil : conts = [] := by
      rw [seqLength_of_isAscii (hgap lead hlead)] at hlen
      exact List.length_eq_zero_iff.mp (by omega)
    subst hnil
    obtain ⟨x', used', pending', hx', heq⟩ := ih used used
    refine ⟨x', used', pending', hx', fun y => ?_⟩
    rw [← heq, List.append_assoc, List.singleton_append, squeeze, hlead, if_pos rfl]
  | false =>
    have hword : ∀ cs, (∀ c ∈ cs, isCont c = true) → ∀ z,
        squeeze gap true false (cs ++ z) = cs ++ squeeze gap true false z := by
      intro cs hcs z
      induction cs with
      | nil => rfl
      | cons c cs ihc =>
        obtain ⟨hc, hcs⟩ := List.forall_mem_cons.mp hcs
        have h := squeeze_word (gap_of_isCont hgap hc) true false [] (cs ++ z)
        rw [List.nil_append, ihc hcs] at h
        exact h
    obtain ⟨x', used', pending', hx', heq⟩ := ih true false
    refine ⟨(if pending then [' '] else []) ++ (lead :: conts ++ x'), used', pending',
      (valid_sep pending).append (hv.append hx'), fun y => ?_⟩
    have h := squeeze_word hlead used pending [] (conts ++ (t ++ y))
    rw [List.nil_append, List.nil_append, hword conts hconts, heq] at h
    rw [List.append_assoc, List.cons_append, h]
    simp

theorem valid_squeeze {x : CString} (hx : Valid x) (used pending : Bool) :
    Valid (squeeze gap used pending x) := by
  obtain ⟨x', used', pending', hx', heq⟩ := squeeze_valid_append hgap hx used pending
  have h := heq []
  rw [List.append_nil, squeeze, List.append_nil] at h
  rwa [h]

theorem squeeze_stray {x : CString} (hx : Valid x) {c : Char} (hc : isCont c = true) (y : CString)
    (used pending : Bool) :
    ∃ x' y', Valid x' ∧ squeeze gap used pending (x ++ c :: y) = x' ++ c :: y' := by
  obtain ⟨x', used', pending', hx', heq⟩ := squeeze_valid_append hgap hx used pending
  have h := squeeze_word (gap_of_isCont hgap hc) used' pending' [] y
  rw [List.nil_append, List.nil_append] at h
  refine ⟨x' ++ (if pending' then [' '] else []), squeeze gap true false y,
    hx'.append (valid_sep pending'), ?_⟩
  rw [heq, h, List.append_assoc]

theorem squeeze_word_iff (z : CString) :
    (∀ c ∈ squeeze gap true false z, isCont c = true) ↔ OnlyRests gap z := by
  induction z with
  | nil => exact ⟨fun _ => ⟨[], [], rfl, by simp, by simp⟩, fun _ => by simp [squeeze]⟩
  | cons c z ih =>
    rw [onlyRests_cons]
    cases hc : gap c with
    | true =>
      have hcont : isCont c = false := isCont_of_isAscii (hgap c hc)
      rw [squeeze, hc, if_pos rfl, squeeze_pending_iff, List.forall_mem_cons, hc, hcont]
      simp
    | false =>
      have h := squeeze_word hc true false [] z
      rw [List.nil_append, List.nil_append] at h
      rw [h, if_neg Bool.false_ne_true, List.nil_append, List.forall_mem_cons, ih,
        List.forall_mem_cons, hc]
      simp

end Gaps

theorem length_squeeze (gap : Char → Bool) (used pending : Bool) (z : CString) :
    (squeeze gap used pending z).length ≤ z.length + pending.toNat := by
  induction z generalizing used pending with
  | nil => simp [squeeze]
  | cons c z ih =>
    rw [squeeze]
    split
    · have h := ih used used
      have hle := Bool.toNat_le used
      rw [List.length_cons]
      omega
    · have h := ih true false
      rw [Bool.toNat_false] at h
      cases pending <;> simp <;> omega

theorem length_stripCodes (v : CString) : (stripCodes v).length ≤ v.length := by
  fun_induction stripCodes v with
  | case1 => exact Nat.le_refl 0
  | case2 ch t hm ih => exact ih.trans (by simp)
  | case3 ch t hm ha ih => exact ih.trans (by simp)
  | case4 ch t hm ha ih => exact Nat.succ_le_succ ih

/-! ## The layout of valid text -/

theorem layout_append (x : CString) (col : Nat) :
    ∃ col', ∀ y, layout col (x ++ y) = layout col x ++ layout col' y := by
  induction x generalizing col with
  | nil => exact ⟨col, fun y => rfl⟩
  | cons c x ih =>
    by_cases hn : c = '\n'
    · obtain ⟨col', h⟩ := ih 0
      exact ⟨col', fun y => by simp [layout, hn, h]⟩
    by_cases ht : c = '\t'
    · obtain ⟨col', h⟩ := ih (col + (8 - col % 8))
      exact ⟨col', fun y => by simp [layout, ht, h]⟩
    by_cases hc : isControl c = true
    · obtain ⟨col', h⟩ := ih col
      exact ⟨col', fun y => by simp [layout, hn, ht, hc, h]⟩
    · obtain ⟨col', h⟩ := ih (col + 1)
      exact ⟨col', fun y => by simp [layout, hn, ht, hc, h]⟩

theorem isControl_of_isCont {c : Char} (hc : isCont c = true) : isControl c = false := by
  unfold isCont at hc
  simp only [Bool.and_eq_true, decide_eq_true_eq] at hc
  unfold isControl
  simp
  omega

theorem layout_cont {c : Char} (hc : isCont c = true) (col : Nat) (y : CString) :
    layout col (c :: y) = c :: layout (col + 1) y := by
  have hctl := isControl_of_isCont hc
  rw [layout, if_neg, if_neg, if_neg (by rw [hctl]; exact Bool.false_ne_true)]
  · rintro rfl
    exact absurd hctl (by decide)
  · rintro rfl
    exact absurd hctl (by decide)

theorem layout_conts {conts : CString} (h : ∀ c ∈ conts, isCont c = true) (col : Nat) (y : CString) :
    layout col (conts ++ y) = conts ++ layout (col + conts.length) y := by
  induction conts generalizing col with
  | nil => rfl
  | cons c conts ih =>
    obtain ⟨hc, h⟩ := List.forall_mem_cons.mp h
    rw [List.cons_append, layout_cont hc, ih h, List.length_cons, Nat.add_right_comm, Nat.add_assoc]
    rfl

theorem valid_layout {x : CString} (hx : Valid x) (col : Nat) : Valid (layout col x) := by
  revert col
  refine Valid.induction (fun _ => valid_nil) ?_ hx
  intro s t hs hv _ ih col
  obtain ⟨lead, conts, rfl, hlen, hconts⟩ := hs
  cases hlead : isAscii lead with
  | true =>
    have hnil : conts = [] := by
      rw [seqLength_of_isAscii hlead] at hlen
      exact List.length_eq_zero_iff.mp (by omega)
    subst hnil
    rw [List.singleton_append, layout]
    split
    · exact (ih 0).cons rfl
    · split
      · refine (valid_ascii fun c hc => ?_).append (ih _)
        rw [(List.mem_replicate.mp hc).2]
        rfl
      · split
        · exact ih col
        · exact (ih (col + 1)).cons hlead
  | false =>
    have hctl : isControl lead = false := by
      unfold isAscii at hlead
      have hge := of_decide_eq_false hlead
      unfold isControl
      simp
      omega
    rw [List.cons_append, layout, if_neg, if_neg, hctl, if_neg Bool.false_ne_true,
      layout_conts hconts]
    · exact hv.append (ih _)
    · rintro rfl
      cases hlead
    · rintro rfl
      cases hlead

/-! ## Blanks at the end -/

theorem trimEnd_behind {P : Char → Bool} (x : CString) {c : Char} (hc : P c = false) (y : CString) :
    ∃ y', trimEnd P (x ++ c :: y) = x ++ c :: y' := by
  have hrev : (x ++ c :: y).reverse = y.reverse ++ c :: x.reverse := by simp
  unfold trimEnd
  rw [hrev, List.dropWhile_append]
  split
  · refine ⟨[], ?_⟩
    rw [List.dropWhile_cons_of_neg (by simp [hc])]
    simp
  · exact ⟨(y.reverse.dropWhile P).reverse, by simp⟩

section Blanks

variable {P : Char → Bool} (hP : ∀ c, P c = true → isAscii c = true)

include hP

theorem valid_trimEnd {s : CString} (h : Valid s) : Valid (trimEnd P s) := by
  obtain ⟨r, hr, hall⟩ := trimEnd_append P s
  rw [hr] at h
  refine h.left fun c hc => isCont_of_isAscii (hP c (hall c ?_))
  exact List.mem_of_mem_head? hc

theorem not_blank_cut {part : CString} (hp : IsCut part) : ∀ c ∈ part.getLast?, P c = false := by
  obtain ⟨lead, conts, rfl, hlen, hconts⟩ := hp
  have hall : ∀ c ∈ lead :: conts, P c = false := by
    refine List.forall_mem_cons.mpr ⟨?_, fun c hc => gap_of_isCont hP (hconts c hc)⟩
    rw [Bool.eq_false_iff]
    intro hlead
    rw [seqLength_of_isAscii (hP lead hlead)] at hlen
    omega
  exact fun c hc => hall c (List.mem_of_getLast? hc)

/-- The first bytes of valid text, without the blanks at their end. -/
theorem valid_utf8SafeEnd_trimEnd {s : CString} (h : Valid s) (n : Nat) :
    Valid (utf8SafeEnd (trimEnd P (s.take n))) := by
  obtain ⟨x, part, hx, hv, rfl | hcut⟩ := h.take n
  · rw [hx, List.append_nil, utf8SafeEnd_valid (valid_trimEnd hP hv)]
    exact valid_trimEnd hP hv
  · have hself : trimEnd P (x ++ part) = x ++ part := by
      apply trimEnd_eq_self
      intro c hc
      have hne : part ≠ [] := by
        obtain ⟨lead, conts, rfl, -⟩ := hcut
        exact List.cons_ne_nil lead conts
      rw [List.getLast?_append_of_ne_nil _ hne] at hc
      exact not_blank_cut hP hcut c hc
    rw [hx, hself, utf8SafeEnd_cut hcut]
    exact hv

omit hP in
theorem trimEnd_iff (s : CString) : (∀ c ∈ trimEnd P s, isCont c = true) ↔ OnlyRests P s := by
  constructor
  · intro h
    obtain ⟨r, hr, hall⟩ := trimEnd_append P s
    exact ⟨trimEnd P s, r, hr, h, hall⟩
  · rintro ⟨b, e, rfl, hb, he⟩ c hc
    have htrim : trimEnd P (b ++ e) = trimEnd P b := by
      unfold trimEnd
      rw [List.reverse_append, List.dropWhile_append_of_pos]
      exact fun d hd => he d (List.mem_reverse.mp hd)
    rw [htrim] at hc
    obtain ⟨r, hr, -⟩ := trimEnd_append P b
    exact hb c (by rw [hr]; exact List.mem_append_left r hc)

end Blanks

end SklaffKom
