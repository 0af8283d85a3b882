import SklaffKom.Lib.Utf8

/-!
# Columns of UTF-8 text

`utf8_trunc_cols` steps from first byte to first byte with the length that the byte announces, also
where the string ends before.
-/

open CString Utf8

namespace SklaffKom

def utf8DispLen (s : CString) : Nat := s.countP fun c => c.toNat &&& 0xc0 ≠ 0x80

/-- `clen` -/
def charLen (c : Char) : Nat :=
  if c.toNat &&& 0x80 = 0 then 1
  else if c.toNat &&& 0xe0 = 0xc0 then 2
  else if c.toNat &&& 0xf0 = 0xe0 then 3
  else if c.toNat &&& 0xf8 = 0xf0 then 4
  else 1

theorem charLen_bounds (c : Char) : 0 < charLen c ∧ charLen c ≤ 4 := by
  unfold charLen
  split_ifs <;> decide

/-- The loop of `utf8_trunc_cols` behind `cols` characters and `o` bytes; `none` when it looks at what
stands behind the terminator. -/
def utf8TruncLoop (maxCols outlen cols o : Nat) : CString → Option CString
  | [] => some []
  | c :: r =>
    if o + 4 < outlen then
      if cols + 1 > maxCols then some []
      else if o + charLen c ≥ outlen then some []
      else if charLen c ≤ (c :: r).length then
        (utf8TruncLoop maxCols outlen (cols + 1) (o + charLen c) ((c :: r).drop (charLen c))).map
          ((c :: r).take (charLen c) ++ ·)
      else none
    else some []
termination_by s => s.length
decreasing_by
  have hpos := (charLen_bounds c).1
  rw [List.length_drop, List.length_cons]
  omega

def utf8TruncCols (s : CString) (maxCols outlen : Nat) : Option CString :=
  utf8TruncLoop maxCols outlen 0 0 s

/-- A number of characters, each as long as its first byte announces. -/
inductive Characters : Nat → CString → Prop
  | nil : Characters 0 []
  | cons {c : Char} {r t : CString} {k : Nat} (hlen : (c :: r).length = charLen c)
      (h : Characters k t) : Characters (k + 1) (c :: r ++ t)

/-- No character that is reached within the columns and the room is longer than what is left. -/
def NoneCut (s : CString) (maxCols outlen : Nat) : Prop :=
  ∀ k p c r, Characters k p → s = p ++ c :: r → k < maxCols → p.length + 4 < outlen →
    charLen c ≤ (c :: r).length

/-- What is expected of the cut of a string. -/
structure TruncSafe (s : CString) (maxCols outlen : Nat) : Prop where
  inside : ∃ out k, utf8TruncCols s maxCols outlen = some out ∧ out <+: s ∧ Characters k out ∧
    k ≤ maxCols
  whole : Valid s → utf8DispLen s ≤ maxCols → s.length + 4 < outlen →
    utf8TruncCols s maxCols outlen = some s
  columns : Valid s → s.length + 4 < outlen → ∃ out, utf8TruncCols s maxCols outlen = some out ∧
    Valid out ∧ utf8DispLen out = min maxCols (utf8DispLen s)

/-! ## Any string -/

variable {maxCols outlen cols o : Nat} {s out : CString}

/-- One step: no character is too long for the room that is asked for in front of it. -/
theorem utf8TruncLoop_cons (c : Char) (r : CString) :
    utf8TruncLoop maxCols outlen cols o (c :: r) =
      if cols < maxCols ∧ o + 4 < outlen then
        if charLen c ≤ (c :: r).length then
          (utf8TruncLoop maxCols outlen (cols + 1) (o + charLen c) ((c :: r).drop (charLen c))).map
            ((c :: r).take (charLen c) ++ ·)
        else none
      else some [] := by
  have hfour := (charLen_bounds c).2
  rw [utf8TruncLoop]
  by_cases hroom : o + 4 < outlen
  · by_cases hcols : cols < maxCols
    · have hgo : cols < maxCols ∧ o + 4 < outlen := ⟨hcols, hroom⟩
      rw [if_pos hroom, if_neg (by omega), if_neg (by omega), if_pos hgo]
    · rw [if_pos hroom, if_pos (by omega), if_neg (fun h => hcols h.1)]
  · rw [if_neg hroom, if_neg (fun h => hroom h.2)]

/-- The characters of a string that begins with a whole one. -/
theorem Characters.take {c : Char} {r t : CString} {k : Nat} (hlen : charLen c ≤ (c :: r).length)
    (h : Characters k t) : Characters (k + 1) ((c :: r).take (charLen c) ++ t) := by
  have hpos := (charLen_bounds c).1
  obtain ⟨n, hn⟩ := Nat.exists_eq_add_of_lt hpos
  rw [hn, Nat.zero_add, List.take_succ_cons]
  apply Characters.cons _ h
  rw [List.length_cons] at hlen
  rw [List.length_cons, List.length_take, hn]
  omega

/-- What the loop copies are characters. -/
theorem utf8TruncLoop_characters (hcols : cols ≤ maxCols)
    (h : utf8TruncLoop maxCols outlen cols o s = some out) :
    out <+: s ∧ ∃ k, Characters k out ∧ cols + k ≤ maxCols := by
  induction hn : s.length using Nat.strong_induction_on generalizing s out cols o with
  | _ n ih =>
    cases s with
    | nil =>
      rw [utf8TruncLoop] at h
      obtain rfl := Option.some.inj h
      exact ⟨List.nil_prefix, 0, .nil, hcols⟩
    | cons c r =>
      have hpos := (charLen_bounds c).1
      rw [utf8TruncLoop_cons] at h
      split at h
      next hgo =>
        split at h
        next hlen =>
          obtain ⟨rest, hrest, rfl⟩ := Option.map_eq_some_iff.mp h
          have hshort : ((c :: r).drop (charLen c)).length < n := by
            rw [List.length_drop, hn]
            omega
          obtain ⟨hpre, k, hk, hle⟩ := ih _ hshort (by omega) hrest rfl
          refine ⟨?_, k + 1, hk.take hlen, by omega⟩
          obtain ⟨z, hz⟩ := hpre
          exact ⟨z, by rw [List.append_assoc, hz, List.take_append_drop]⟩
        next => cases h
      next =>
        obtain rfl := Option.some.inj h
        exact ⟨List.nil_prefix, 0, .nil, hcols⟩

/-- The loop stays inside of the string exactly when no character that it reaches is cut off. -/
theorem utf8TruncLoop_isSome_iff :
    (utf8TruncLoop maxCols outlen cols o s).isSome ↔ ∀ k p c r, Characters k p → s = p ++ c :: r →
      cols + k < maxCols → o + p.length + 4 < outlen → charLen c ≤ (c :: r).length := by
  induction hn : s.length using Nat.strong_induction_on generalizing s cols o with
  | _ n ih =>
    cases s with
    | nil =>
      rw [utf8TruncLoop]
      exact iff_of_true rfl fun k p c r _ h => by simp at h
    | cons c r =>
      have hpos := (charLen_bounds c).1
      have hone : c :: r = [] ++ c :: r := rfl
      rw [utf8TruncLoop_cons]
      by_cases hgo : cols < maxCols ∧ o + 4 < outlen
      · rw [if_pos hgo]
        by_cases hlen : charLen c ≤ (c :: r).length
        · have hshort : ((c :: r).drop (charLen c)).length < n := by
            rw [List.length_drop, hn]
            omega
          rw [if_pos hlen, Option.isSome_map, ih _ hshort rfl]
          constructor
          · intro h k p d t hp hs hcols hroom
            cases hp with
            | nil =>
              obtain ⟨rfl, rfl⟩ := List.cons.inj hs
              exact hlen
            | @cons e u q k hunit htail =>
              rw [List.append_assoc, List.cons_append] at hs
              obtain ⟨rfl, hr⟩ := List.cons.inj hs
              rw [List.length_append, hunit] at hroom
              refine h k q d t htail ?_ (by omega) (by omega)
              rw [hr, ← List.cons_append, ← hunit, List.drop_left]
          · intro h k p d t hp hs hcols hroom
            refine h (k + 1) _ d t (hp.take hlen) ?_ (by omega) ?_
            · rw [List.append_assoc, ← hs, List.take_append_drop]
            · rw [List.length_append, List.length_take]
              omega
        · rw [if_neg hlen]
          refine iff_of_false (by decide) fun h => hlen ?_
          exact h 0 [] c r .nil hone hgo.1 hgo.2
      · rw [if_neg hgo]
        exact iff_of_true rfl fun k p d t _ _ hcols hroom => absurd ⟨by omega, by omega⟩ hgo

/-! ## Valid text -/

theorem charLen_of_seqLength {c : Char} (h : 0 < seqLength c) : charLen c = seqLength c := by
  have hall : ∀ n < 0xf8, n < 0x80 ∨ 0xc0 ≤ n →
      (if n &&& 0x80 = 0 then 1 else if n &&& 0xe0 = 0xc0 then 2 else if n &&& 0xf0 = 0xe0 then 3
        else if n &&& 0xf8 = 0xf0 then 4 else 1) =
      if n < 0x80 then 1 else if n < 0xc0 then 0 else if n < 0xe0 then 2 else if n < 0xf0 then 3
        else if n < 0xf8 then 4 else 0 := by decide +kernel
  have hlead : c.toNat < 0xf8 ∧ (c.toNat < 0x80 ∨ 0xc0 ≤ c.toNat) := by
    unfold seqLength at h
    split_ifs at h <;> omega
  exact hall _ hlead.1 hlead.2

theorem isCont_iff {c : Char} (h : c.toNat < 0x100) :
    isCont c = true ↔ c.toNat &&& 0xc0 = 0x80 := by
  have hall : ∀ n < 0x100, (0x80 ≤ n && n < 0xc0) = true ↔ n &&& 0xc0 = 0x80 := by decide +kernel
  exact hall _ h

/-- A character is one column. -/
theorem utf8DispLen_seq (h : IsSeq s) (t : CString) : utf8DispLen (s ++ t) = utf8DispLen t + 1 := by
  obtain ⟨lead, conts, rfl, hlen, hconts⟩ := h
  have hlead : ¬ lead.toNat &&& 0xc0 = 0x80 := by
    have hbyte : lead.toNat < 0x100 := by
      by_contra hbig
      rw [seqLength, if_neg (by omega), if_neg (by omega), if_neg (by omega), if_neg (by omega),
        if_neg (by omega)] at hlen
      omega
    rw [← isCont_iff hbyte, isCont_of_seqLength (by omega)]
    decide
  have hnone : utf8DispLen conts = 0 := by
    apply List.countP_eq_zero.mpr
    intro c hc
    have hcont := hconts c hc
    have hbyte : c.toNat < 0x100 := by
      simp only [isCont, Bool.and_eq_true, decide_eq_true_eq] at hcont
      omega
    rw [isCont_iff hbyte] at hcont
    simp [hcont]
  unfold utf8DispLen at hnone ⊢
  rw [List.countP_append, List.countP_cons_of_pos (by simpa using hlead), hnone, Nat.add_comm]

/-- On valid text with room enough the loop copies as many characters as there are columns. -/
theorem utf8TruncLoop_valid (hs : Valid s) : ∀ cols o, cols ≤ maxCols → o + s.length + 4 < outlen →
    ∃ out, utf8TruncLoop maxCols outlen cols o s = some out ∧ Valid out ∧
      utf8DispLen out = min (maxCols - cols) (utf8DispLen s) ∧
      (utf8DispLen s ≤ maxCols - cols → out = s) := by
  refine Valid.induction ?_ ?_ hs
  · intro cols o _ _
    rw [utf8TruncLoop]
    exact ⟨[], rfl, valid_nil, (Nat.min_zero _).symm, fun _ => rfl⟩
  · intro s t hseq hvs _ ih cols o hcols hroom
    have hdisp := utf8DispLen_seq hseq t
    obtain ⟨lead, conts, rfl, hlen, -⟩ := id hseq
    have hchar : charLen lead = (lead :: conts).length := by
      rw [charLen_of_seqLength (by omega), hlen, List.length_cons]
    rw [List.length_append] at hroom
    rw [List.cons_append, utf8TruncLoop_cons, ← List.cons_append, hchar]
    by_cases hgo : cols < maxCols
    · obtain ⟨out, hout, hvalid, hcount, hall⟩ :=
        ih (cols + 1) (o + (lead :: conts).length) hgo (by omega)
      rw [if_pos ⟨hgo, by omega⟩, if_pos (by rw [List.length_append]; omega), List.drop_left,
        List.take_left, hout]
      refine ⟨_, rfl, hvs.append hvalid, ?_, fun h => ?_⟩
      · rw [utf8DispLen_seq hseq, hdisp, hcount]
        omega
      · rw [hall (by omega)]
    · rw [if_neg (fun h => hgo h.1)]
      refine ⟨[], rfl, valid_nil, ?_, fun h => ?_⟩
      · show 0 = _
        omega
      · omega

/-- The cut of a string is what is expected exactly when no character that it reaches is cut off by
the end of the string. -/
theorem truncSafe_iff (s : CString) (maxCols outlen : Nat) :
    TruncSafe s maxCols outlen ↔ NoneCut s maxCols outlen := by
  have hiff : (utf8TruncLoop maxCols outlen 0 0 s).isSome ↔ _ := utf8TruncLoop_isSome_iff
  simp only [Nat.zero_add] at hiff
  constructor
  · intro h
    obtain ⟨out, k, hout, -⟩ := h.inside
    exact hiff.mp (by rw [← utf8TruncCols, hout]; rfl)
  · intro h
    obtain ⟨out, hout⟩ := Option.isSome_iff_exists.mp (hiff.mpr h)
    obtain ⟨hpre, k, hk, hle⟩ := utf8TruncLoop_characters (Nat.zero_le _) hout
    refine ⟨⟨out, k, hout, hpre, hk, by omega⟩, fun hs hcols hroom => ?_, fun hs hroom => ?_⟩
    · rw [← Nat.zero_add s.length] at hroom
      obtain ⟨out, hout, -, -, hall⟩ := utf8TruncLoop_valid hs 0 0 (Nat.zero_le maxCols) hroom
      rw [hall hcols] at hout
      exact hout
    · rw [← Nat.zero_add s.length] at hroom
      obtain ⟨out, hout, hvalid, hcount, -⟩ :=
        utf8TruncLoop_valid hs 0 0 (Nat.zero_le maxCols) hroom
      exact ⟨out, hout, hvalid, hcount⟩

/-- The byte `\xc3` announces another one. -/
theorem utf8TruncCols_cut : ¬ TruncSafe "Hej \xc3".toList 20 80 := by
  intro h
  obtain ⟨out, k, hout, -⟩ := h.inside
  have hnone : utf8TruncCols "Hej \xc3".toList 20 80 = none := by decide +kernel
  rw [hnone] at hout
  cases hout

end SklaffKom
