import SklaffKom.Lib.CString

/-!
# UTF-8 in C strings

A C string is valid when it is the encoding of a list of characters.  What the proofs about cutting
and deleting use is only that each encoding is a first byte, which announces a length, and the
continuation bytes that are missing to it.
-/

namespace Utf8

/-- A byte, as a character of a C string. -/
def byteChar (b : UInt8) : Char := Char.ofNat b.toNat

/-- The bytes of a character. -/
def encodeChar (c : Char) : CString := (String.utf8EncodeChar c).map byteChar

def encode (cs : List Char) : CString := cs.flatMap encodeChar

/-- The string is UTF-8. -/
def Valid (s : CString) : Prop := ∃ cs, s = encode cs

def isAscii (c : Char) : Bool := c.toNat < 0x80

def isCont (c : Char) : Bool := 0x80 ≤ c.toNat && c.toNat < 0xc0

/-- The length that a first byte announces, 0 for a byte that is no first byte. -/
def seqLength (c : Char) : Nat :=
  if c.toNat < 0x80 then 1
  else if c.toNat < 0xc0 then 0
  else if c.toNat < 0xe0 then 2
  else if c.toNat < 0xf0 then 3
  else if c.toNat < 0xf8 then 4
  else 0

/-- A first byte and continuation bytes, as many as it announces. -/
def IsSeq (s : CString) : Prop :=
  ∃ lead conts, s = lead :: conts ∧ seqLength lead = conts.length + 1 ∧ ∀ c ∈ conts, isCont c = true

/-- The beginning of a sequence. -/
def IsCut (s : CString) : Prop :=
  ∃ lead conts, s = lead :: conts ∧ conts.length + 1 < seqLength lead ∧ ∀ c ∈ conts, isCont c = true

/-! ## Sequences -/

theorem toNat_byteChar {n : Nat} (h : n < 256) : (byteChar (UInt8.ofNat n)).toNat = n := by
  have hn : (UInt8.ofNat n).toNat = n := by
    rw [UInt8.toNat_ofNat']
    exact Nat.mod_eq_of_lt h
  rw [byteChar, hn, CString.toNat_ofNat (by omega)]

theorem isCont_byteChar {n : Nat} (h : n < 64) : isCont (byteChar (UInt8.ofNat (n + 128))) = true := by
  unfold isCont
  rw [toNat_byteChar (by omega)]
  simp
  omega

theorem seqLength_byteChar {n : Nat} (h : n < 256) : seqLength (byteChar (UInt8.ofNat n)) =
    if n < 0x80 then 1 else if n < 0xc0 then 0 else if n < 0xe0 then 2 else if n < 0xf0 then 3
    else if n < 0xf8 then 4 else 0 := by
  unfold seqLength
  rw [toNat_byteChar h]

theorem isSeq_encodeChar (c : Char) : IsSeq (encodeChar c) := by
  unfold encodeChar
  fun_cases String.utf8EncodeChar c
  -- one case for each length
  · refine ⟨_, [], rfl, ?_, by simp⟩
    rw [seqLength_byteChar (by omega), if_pos (by omega)]
    rfl
  · refine ⟨_, [_], rfl, ?_, ?_⟩
    · rw [seqLength_byteChar (by omega), if_neg (by omega), if_neg (by omega), if_pos (by omega)]
      rfl
    · simp only [List.mem_singleton, forall_eq]
      exact isCont_byteChar (by omega)
  · refine ⟨_, [_, _], rfl, ?_, ?_⟩
    · rw [seqLength_byteChar (by omega), if_neg (by omega), if_neg (by omega), if_neg (by omega),
        if_pos (by omega)]
      rfl
    · rw [List.forall_mem_cons, List.forall_mem_singleton]
      exact ⟨isCont_byteChar (by omega), isCont_byteChar (by omega)⟩
  · refine ⟨_, [_, _, _], rfl, ?_, ?_⟩
    · rw [seqLength_byteChar (by omega), if_neg (by omega), if_neg (by omega), if_neg (by omega),
        if_neg (by omega), if_pos (by omega)]
      rfl
    · rw [List.forall_mem_cons, List.forall_mem_cons, List.forall_mem_singleton]
      exact ⟨isCont_byteChar (by omega), isCont_byteChar (by omega), isCont_byteChar (by omega)⟩

theorem seqLength_of_isCont {c : Char} (h : isCont c = true) : seqLength c = 0 := by
  unfold isCont at h
  simp only [Bool.and_eq_true, decide_eq_true_eq] at h
  unfold seqLength
  rw [if_neg (by omega), if_pos h.2]

theorem isCont_of_seqLength {c : Char} (h : 0 < seqLength c) : isCont c = false := by
  rw [Bool.eq_false_iff]
  intro hc
  rw [seqLength_of_isCont hc] at h
  omega

theorem encodeChar_of_isAscii {c : Char} (h : isAscii c = true) : encodeChar c = [c] := by
  unfold isAscii at h
  have hc : c.val.toNat ≤ 127 := by
    have hlt : c.toNat < 128 := of_decide_eq_true h
    exact Nat.le_of_lt_succ hlt
  unfold encodeChar String.utf8EncodeChar
  rw [if_pos hc]
  show [byteChar (UInt8.ofNat c.toNat)] = [c]
  congr 1
  apply Char.toNat_inj.mp
  exact toNat_byteChar (by show c.val.toNat < 256; omega)

theorem seqLength_of_isAscii {c : Char} (h : isAscii c = true) : seqLength c = 1 := by
  unfold isAscii at h
  unfold seqLength
  rw [if_pos (of_decide_eq_true h)]

/-- Two sequences at the beginning of one string are the same. -/
theorem IsSeq.append_inj {s s' t t' : CString} (hs : IsSeq s) (hs' : IsSeq s')
    (h : s ++ t = s' ++ t') : s = s' ∧ t = t' := by
  obtain ⟨lead, conts, rfl, hlen, -⟩ := hs
  obtain ⟨lead', conts', rfl, hlen', -⟩ := hs'
  rw [List.cons_append, List.cons_append] at h
  obtain ⟨rfl, -⟩ := List.cons.inj h
  apply List.append_inj h
  rw [List.length_cons, List.length_cons, ← hlen, ← hlen']

/-! ## Valid strings -/

theorem valid_nil : Valid [] := ⟨[], rfl⟩

theorem Valid.append {s t : CString} (hs : Valid s) (ht : Valid t) : Valid (s ++ t) := by
  obtain ⟨cs, rfl⟩ := hs
  obtain ⟨ds, rfl⟩ := ht
  exact ⟨cs ++ ds, by unfold encode; rw [List.flatMap_append]⟩

theorem valid_encodeChar (c : Char) : Valid (encodeChar c) :=
  ⟨[c], by unfold encode; rw [List.flatMap_singleton]⟩

theorem valid_ascii {s : CString} (h : ∀ c ∈ s, isAscii c = true) : Valid s := by
  induction s with
  | nil => exact valid_nil
  | cons c s ih =>
    obtain ⟨hc, hs⟩ := List.forall_mem_cons.mp h
    have hone := (valid_encodeChar c).append (ih hs)
    rwa [encodeChar_of_isAscii hc, List.singleton_append] at hone

/-- A valid string is taken apart into sequences. -/
@[elab_as_elim]
theorem Valid.induction {motive : CString → Prop} (hnil : motive [])
    (hseq : ∀ s t, IsSeq s → Valid s → Valid t → motive t → motive (s ++ t)) {s : CString}
    (h : Valid s) : motive s := by
  obtain ⟨cs, rfl⟩ := h
  induction cs with
  | nil => exact hnil
  | cons c cs ih => exact hseq _ _ (isSeq_encodeChar c) (valid_encodeChar c) ⟨cs, rfl⟩ ih

theorem Valid.of_append_left {s t : CString} (hs : Valid s) (h : Valid (s ++ t)) : Valid t := by
  revert h
  refine Valid.induction (fun h => h) (fun s s' hs _ _ ih h => ih ?_) hs
  · obtain ⟨cs, hcs⟩ := h
    cases cs with
    | nil =>
      obtain ⟨lead, conts, rfl, -⟩ := hs
      cases hcs
    | cons c cs =>
      rw [List.append_assoc] at hcs
      exact ⟨cs, (hs.append_inj (isSeq_encodeChar c) hcs).2⟩

/-- No valid string begins with a continuation byte. -/
theorem not_valid_cont {c : Char} (hc : isCont c = true) (s : CString) : ¬ Valid (c :: s) := by
  rintro ⟨cs, hcs⟩
  cases cs with
  | nil => cases hcs
  | cons d cs =>
    obtain ⟨lead, conts, hd, hlen, -⟩ := isSeq_encodeChar d
    rw [encode, List.flatMap_cons, hd] at hcs
    obtain ⟨rfl, -⟩ := List.cons.inj hcs
    rw [isCont_of_seqLength (by omega)] at hc
    cases hc

/-- A continuation byte behind whole characters belongs to none. -/
theorem not_valid_append_cont {x : CString} (hx : Valid x) {c : Char} (hc : isCont c = true)
    (y : CString) : ¬ Valid (x ++ c :: y) :=
  fun h => not_valid_cont hc y (hx.of_append_left h)

/-- The beginning of a valid string: whole characters, and perhaps a part of one. -/
theorem Valid.take {s : CString} (h : Valid s) (n : Nat) :
    ∃ x part, s.take n = x ++ part ∧ Valid x ∧ (part = [] ∨ IsCut part) := by
  revert n
  refine Valid.induction (fun n => ⟨[], [], List.take_nil, valid_nil, Or.inl rfl⟩) ?_ h
  intro s t hs hv _ ih n
  obtain ⟨lead, conts, rfl, hlen, hconts⟩ := hs
  by_cases hn : (lead :: conts).length ≤ n
  · obtain ⟨x, part, hx, hvx, hpart⟩ := ih (n - (lead :: conts).length)
    refine ⟨lead :: conts ++ x, part, ?_, hv.append hvx, hpart⟩
    rw [List.take_append, List.take_of_length_le hn, hx, List.append_assoc]
  · -- the cut is inside of this character
    refine ⟨[], (lead :: conts).take n, ?_, valid_nil, ?_⟩
    · rw [List.take_append_of_le_length (by omega), List.nil_append]
    · cases n with
      | zero => exact Or.inl rfl
      | succ n =>
        rw [List.length_cons] at hn
        refine Or.inr ⟨lead, conts.take n, rfl, ?_, fun c hc => hconts c (List.take_subset _ _ hc)⟩
        rw [List.length_take]
        omega

/-- Behind the beginning of a character stands a continuation byte. -/
theorem IsCut.cont {part t : CString} (hp : IsCut part) (h : Valid (part ++ t)) :
    ∃ c ∈ t.head?, isCont c = true := by
  obtain ⟨lead, conts, rfl, hlen, -⟩ := hp
  obtain ⟨cs, hcs⟩ := h
  cases cs with
  | nil => cases hcs
  | cons d cs =>
    obtain ⟨lead', conts', hd, hlen', hconts'⟩ := isSeq_encodeChar d
    rw [encode, List.flatMap_cons, hd, List.cons_append, List.cons_append] at hcs
    obtain ⟨rfl, hrest⟩ := List.cons.inj hcs
    rcases List.append_eq_append_iff.mp hrest with ⟨z, rfl, rfl⟩ | ⟨z, rfl, -⟩
    · cases z with
      | nil =>
        rw [List.append_nil] at hlen'
        omega
      | cons b z => exact ⟨b, rfl, hconts' b (by simp)⟩
    · rw [List.length_append] at hlen
      omega

theorem isCont_of_isAscii {a : Char} (ha : isAscii a = true) : isCont a = false :=
  isCont_of_seqLength (by rw [seqLength_of_isAscii ha]; exact Nat.one_pos)

/-- A valid string may be parted where no continuation byte follows. -/
theorem Valid.left {x t : CString} (h : Valid (x ++ t)) (ht : ∀ c ∈ t.head?, isCont c = false) :
    Valid x := by
  obtain ⟨x', part, hx, hv, hpart⟩ := h.take x.length
  rw [List.take_left] at hx
  have hnil : part = [] := by
    apply hpart.resolve_right
    intro hcut
    rw [hx, List.append_assoc] at h
    obtain ⟨c, hc, hcont⟩ := hcut.cont (hv.of_append_left h)
    rw [ht c hc] at hcont
    cases hcont
  rwa [hx, hnil, List.append_nil]

/-- The strings in front of and behind an ASCII character of a valid string. -/
theorem Valid.split {x y : CString} {a : Char} (ha : isAscii a = true) (h : Valid (x ++ a :: y)) :
    Valid x ∧ Valid y := by
  have hx : Valid x := h.left (by simpa using isCont_of_isAscii ha)
  have hone : Valid [a] := valid_ascii (by simpa using ha)
  exact ⟨hx, hone.of_append_left (hx.of_append_left h)⟩

theorem Valid.cons {s : CString} {a : Char} (ha : isAscii a = true) (h : Valid s) : Valid (a :: s) :=
  (valid_ascii (by simpa using ha) : Valid [a]).append h

theorem Valid.of_cons {s : CString} {a : Char} (ha : isAscii a = true) (h : Valid (a :: s)) :
    Valid s :=
  (Valid.split ha (x := []) h).2

/-- The last byte that is no continuation byte. -/
theorem exists_lastLead (s : CString) : (∀ c ∈ s, isCont c = true) ∨ ∃ x lead conts,
    s = x ++ lead :: conts ∧ isCont lead = false ∧ ∀ c ∈ conts, isCont c = true := by
  induction s with
  | nil => exact Or.inl (by simp)
  | cons c s ih =>
    rcases ih with hall | ⟨x, lead, conts, rfl, hlead, hconts⟩
    · cases hc : isCont c with
      | true => exact Or.inl (List.forall_mem_cons.mpr ⟨hc, hall⟩)
      | false => exact Or.inr ⟨[], c, s, rfl, hc, hall⟩
    · exact Or.inr ⟨c :: x, lead, conts, rfl, hlead, hconts⟩

/-- What the last character of a valid string looks like. -/
theorem Valid.last {x conts : CString} {lead : Char} (h : Valid (x ++ lead :: conts))
    (hlead : isCont lead = false) (hconts : ∀ c ∈ conts, isCont c = true) :
    Valid x ∧ seqLength lead = conts.length + 1 := by
  have hv : Valid x := h.left (by simpa using hlead)
  refine ⟨hv, ?_⟩
  -- the last character
  obtain ⟨cs, hcs⟩ := hv.of_append_left h
  cases cs with
  | nil => cases hcs
  | cons d cs =>
    obtain ⟨lead', conts', hd, hlen, -⟩ := isSeq_encodeChar d
    rw [encode, List.flatMap_cons, hd, List.cons_append] at hcs
    obtain ⟨rfl, hrest⟩ := List.cons.inj hcs
    cases cs with
    | nil =>
      rw [List.flatMap_nil, List.append_nil] at hrest
      rw [hrest, hlen]
    | cons e cs =>
      exfalso
      obtain ⟨lead'', conts'', he, hlen'', -⟩ := isSeq_encodeChar e
      rw [List.flatMap_cons, he] at hrest
      have hmem := hconts lead'' (by rw [hrest]; simp)
      rw [isCont_of_seqLength (by omega)] at hmem
      cases hmem

end Utf8
