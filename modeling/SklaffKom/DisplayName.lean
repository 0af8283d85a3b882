import SklaffKom.Stdio

/-!
# The display name of a sender

`extract_display_name` shows who wrote a news article or a mail, `extract_sender_display` finds the name
that is looked up in the list of blocked senders.
-/

open CString

namespace SklaffKom

/-! ## Blocked senders -/

def isAsciiSpace (c : Char) : Bool := isBlank c || isEol c

def trimAscii (s : CString) : CString := trimEnd isAsciiSpace (s.dropWhile isAsciiSpace)

def stripOuterQuotes (s : CString) : CString :=
  let s := trimAscii s
  trimAscii (if 2 ≤ s.length ∧ s.head? = some '"' ∧ s.getLast? = some '"' then s.tail.dropLast else s)

def extractSenderDisplay (sender : CString) (outsz : Nat) : CString :=
  stripOuterQuotes ((strlcpy outsz sender).takeWhile (· ≠ '<'))

/-- `sender_display` of `sender_is_blocked`, with buffers of one size. -/
def senderDisplay (sender : CString) (size : Nat) : CString :=
  extractSenderDisplay (stripOuterQuotes (trimAscii (strlcpy size sender))) size

/-! ## Shown senders -/

/-- "email (Name)": the name, or else what is left of the value. -/
def commentName (s : CString) : CString :=
  match cutAt '(' s with
  | none => s
  | some (a, b) =>
    match cutAt ')' b with
    | none => s
    | some (inner, _) =>
      if inner = [] then s
      else
        let ns := inner.dropWhile isBlank
        let ne := trimEnd (fun c => isBlank c || c = '"') ns
        -- a quote in front is skipped also when nothing is left behind it
        let name := if ns.head? = some '"' then (if ne = [] then ns.tail else ne.tail) else ne
        if name ≠ [] then name else a ++ '(' :: inner.take (inner.length - ns.length)

/-- "\"Name\" <email>": the name, or else the address.  `s` is the value and `front` what stands in front
of its `<`. -/
def angleName (s front : CString) : CString :=
  let part := trimEnd isBlank front
  let rest := s.drop (part.length + 1)
  -- the end is still that of the whole value
  let quoted := part.head? = some '"' ∧ 2 ≤ s.length ∧ s.getLast? = some '"'
  let name := if quoted then part.tail else part
  if name ≠ [] then name
  else
    match cutAt '>' (if quoted then rest.dropLast else rest) with
    | some (address, _) => address
    | none => []

def extractDisplayName (sender : CString) (outlen : Nat) : CString :=
  let s := trimEnd isAsciiSpace ((strlcpy 256 sender).dropWhile isBlank)
  strlcpy outlen <|
    match cutAt '<' s with
    | some (front, _) => angleName s front
    | none => commentName s

/-! ## The forms of a header -/

inductive SenderForm
  | plain
  | quoted
  | comment
  | bare
deriving DecidableEq

/-- A name and an address that stand for themselves in a header. -/
structure NameAndAddress (name address : CString) : Prop where
  nonempty : name ≠ []
  nameChars : ∀ c ∈ name, c ∉ ['<', '>', '(', ')', '"']
  first : ∀ c ∈ name.head?, isBlank c = false
  last : ∀ c ∈ name.getLast?, isBlank c = false
  addressChars : ∀ c ∈ address, c ∉ ['<', '>', '(', ')', '"'] ∧ isBlank c = false

def SenderForm.text (name address : CString) : SenderForm → CString
  | plain => name ++ " <".toList ++ address ++ ">".toList
  | quoted => '"' :: name ++ "\" <".toList ++ address ++ ">".toList
  | comment => address ++ " (".toList ++ name ++ ")".toList
  | bare => '<' :: address ++ ">".toList

/-- Who is expected to be shown. -/
def SenderForm.shown (name address : CString) : SenderForm → CString
  | bare => address
  | _ => name

/-- What is expected for a header: the right name is shown, and the same one is looked up for the forms
with a name in front. -/
structure SenderNamed (form : SenderForm) (name address : CString) (outlen size : Nat) : Prop where
  shown : extractDisplayName (form.text name address) outlen = form.shown name address
  blocked : form = .plain ∨ form = .quoted → senderDisplay (form.text name address) size = name

/-! ## Trimming -/

variable {name address s : CString} {p : Char → Bool}

theorem dropWhile_eq_self (h : ∀ c ∈ s.head?, p c = false) : s.dropWhile p = s := by
  cases s with
  | nil => rfl
  | cons c s => rw [List.dropWhile_cons_of_neg (by rw [h c rfl]; decide)]

theorem trimAscii_eq_self (hfirst : ∀ c ∈ s.head?, isAsciiSpace c = false)
    (hlast : ∀ c ∈ s.getLast?, isAsciiSpace c = false) : trimAscii s = s := by
  rw [trimAscii, dropWhile_eq_self hfirst, trimEnd_eq_self hlast]

/-- What `trim_ascii` leaves has no blank and no line end at its ends. -/
theorem trimAscii_ends (s : CString) : (∀ c ∈ (trimAscii s).head?, isAsciiSpace c = false) ∧
    ∀ c ∈ (trimAscii s).getLast?, isAsciiSpace c = false := by
  constructor
  · intro c hc
    obtain ⟨r, hr, -⟩ := trimEnd_append isAsciiSpace (s.dropWhile isAsciiSpace)
    have hhead : (s.dropWhile isAsciiSpace).head? = some c := by
      rw [hr, List.head?_append]
      rw [trimAscii] at hc
      rw [hc]
      rfl
    have hnot := List.head?_dropWhile_not isAsciiSpace s
    rw [hhead] at hnot
    simpa using hnot
  · intro c hc
    rw [trimAscii, trimEnd, List.getLast?_reverse] at hc
    have hnot := List.head?_dropWhile_not isAsciiSpace (s.dropWhile isAsciiSpace).reverse
    rw [Option.mem_def.mp hc] at hnot
    simpa using hnot

theorem trimEnd_snoc {c : Char} (hs : ∀ d ∈ s.getLast?, p d = false) (hc : p c = true) :
    trimEnd p (s ++ [c]) = s := by
  have hone : trimEnd p [c] = [] := by simp [trimEnd, hc]
  rw [trimEnd_append_eq, if_pos hone, trimEnd_eq_self hs]

theorem strlcpy_eq_self {size : Nat} (h : s.length < size) : strlcpy size s = s := by
  rw [strlcpy, List.take_of_length_le (by omega)]

/-! ## The forms -/

theorem text_plain : SenderForm.plain.text name address = name ++ ' ' :: '<' :: (address ++ ['>']) := by
  simp [SenderForm.text]

theorem text_quoted :
    SenderForm.quoted.text name address = '"' :: (name ++ '"' :: ' ' :: '<' :: (address ++ ['>'])) := by
  simp [SenderForm.text]

theorem text_comment :
    SenderForm.comment.text name address = address ++ ' ' :: '(' :: (name ++ [')']) := by
  simp [SenderForm.text]

theorem text_bare : SenderForm.bare.text name address = '<' :: (address ++ ['>']) := by
  simp [SenderForm.text]

namespace NameAndAddress

theorem notMem_name (h : NameAndAddress name address) {c : Char}
    (hc : c ∈ ['<', '>', '(', ')', '"']) : c ∉ name :=
  fun hmem => h.nameChars c hmem hc

theorem notMem_address (h : NameAndAddress name address) {c : Char}
    (hc : c ∈ ['<', '>', '(', ')', '"']) : c ∉ address :=
  fun hmem => (h.addressChars c hmem).1 hc

end NameAndAddress

/-- A value that ends in no blank is taken as it is behind its first blanks. -/
theorem extractDisplayName_eq {outlen : Nat} (hlen : s.length < 256)
    (hlast : ∀ c ∈ s.getLast?, isAsciiSpace c = false) :
    extractDisplayName s outlen = strlcpy outlen (match cutAt '<' (s.dropWhile isBlank) with
      | some (front, _) => angleName (s.dropWhile isBlank) front
      | none => commentName (s.dropWhile isBlank)) := by
  have htrim : trimEnd isAsciiSpace (s.dropWhile isBlank) = s.dropWhile isBlank := by
    apply trimEnd_eq_self
    intro c hc
    apply hlast
    rw [← List.takeWhile_append_dropWhile (p := isBlank) (l := s), List.getLast?_append, hc]
    rfl
  rw [extractDisplayName, strlcpy_eq_self hlen, htrim]

theorem text_last (form : SenderForm) : ∀ c ∈ (form.text name address).getLast?,
    isAsciiSpace c = false ∧ c ≠ '"' := by
  have hend : ∀ {x : CString} {d : Char}, isAsciiSpace d = false ∧ d ≠ '"' →
      ∀ c ∈ (x ++ [d]).getLast?, isAsciiSpace c = false ∧ c ≠ '"' := by
    intro x d hd c hc
    rw [List.getLast?_append] at hc
    obtain rfl := Option.some.inj hc
    exact hd
  cases form with
  | plain => exact hend (by decide)
  | quoted => exact hend (by decide)
  | comment => exact hend (by decide)
  | bare => exact hend (by decide)

/-- A name in front of the address is left as it stands there: the end of the value is no quote. -/
theorem angleName_front {part : CString} (hs : ∀ c ∈ s.getLast?, c ≠ '"') (hne : part ≠ [])
    (hlast : ∀ c ∈ part.getLast?, isBlank c = false) : angleName s (part ++ [' ']) = part := by
  have hend : s.getLast? ≠ some '"' := fun h => hs '"' h rfl
  rw [angleName, trimEnd_snoc hlast (by decide)]
  simp [hend, hne]

theorem extractDisplayName_plain (h : NameAndAddress name address) {outlen : Nat}
    (hlen : (SenderForm.plain.text name address).length < 256)
    (hout : (SenderForm.plain.text name address).length < outlen) :
    extractDisplayName (SenderForm.plain.text name address) outlen = name := by
  have hshort : name.length < outlen := by
    rw [text_plain, List.length_append] at hout
    omega
  have hhead : ∀ c ∈ (SenderForm.plain.text name address).head?, isBlank c = false := by
    rw [text_plain, List.head?_append_of_ne_nil _ h.nonempty]
    exact h.first
  have hcut : cutAt '<' (SenderForm.plain.text name address) =
      some (name ++ [' '], address ++ ['>']) := by
    rw [text_plain, List.append_cons, cutAt_append]
    simp [h.notMem_name]
  rw [extractDisplayName_eq hlen fun c hc => (text_last _ c hc).1, dropWhile_eq_self hhead, hcut]
  show strlcpy outlen (angleName _ (name ++ [' '])) = name
  rw [angleName_front (fun c hc => (text_last _ c hc).2) h.nonempty h.last, strlcpy_eq_self hshort]

/-- The quotes are not stripped. -/
theorem extractDisplayName_quoted (h : NameAndAddress name address) {outlen : Nat}
    (hlen : (SenderForm.quoted.text name address).length < 256)
    (hout : (SenderForm.quoted.text name address).length < outlen) :
    extractDisplayName (SenderForm.quoted.text name address) outlen = '"' :: name ++ ['"'] := by
  have hshort : ('"' :: name ++ ['"']).length < outlen := by
    rw [text_quoted] at hout
    simp only [List.length_append, List.length_cons] at hout ⊢
    omega
  have hhead : ∀ c ∈ (SenderForm.quoted.text name address).head?, isBlank c = false := by
    intro c hc
    obtain rfl := Option.some.inj hc
    decide
  have hcut : cutAt '<' (SenderForm.quoted.text name address) =
      some ('"' :: name ++ ['"'] ++ [' '], address ++ ['>']) := by
    have htext : SenderForm.quoted.text name address =
        ('"' :: name ++ ['"'] ++ [' ']) ++ '<' :: (address ++ ['>']) := by simp [text_quoted]
    rw [htext, cutAt_append]
    simp [h.notMem_name]
  rw [extractDisplayName_eq hlen fun c hc => (text_last _ c hc).1, dropWhile_eq_self hhead, hcut]
  show strlcpy outlen (angleName _ ('"' :: name ++ ['"'] ++ [' '])) = _
  rw [angleName_front (fun c hc => (text_last _ c hc).2) (by simp), strlcpy_eq_self hshort]
  intro c hc
  rw [List.getLast?_append] at hc
  obtain rfl := Option.some.inj hc
  decide

theorem commentName_name (h : NameAndAddress name address) {a : CString} (ha : '(' ∉ a) :
    commentName (a ++ '(' :: (name ++ [')'])) = name := by
  have hquote : name.head? ≠ some '"' := fun hh =>
    h.notMem_name (by decide) (List.mem_of_mem_head? hh)
  have hlast : ∀ c ∈ name.getLast?, (isBlank c || c = '"') = false := by
    intro c hc
    have hne : c ≠ '"' := fun heq => h.notMem_name (by decide) (heq ▸ List.mem_of_getLast? hc)
    simp [h.last c hc, hne]
  rw [commentName, cutAt_append ha]
  show (match cutAt ')' (name ++ [')']) with | none => _ | some (inner, _) => _) = _
  rw [cutAt_append (h.notMem_name (by decide))]
  simp [h.nonempty, dropWhile_eq_self h.first, trimEnd_eq_self hlast, hquote]

theorem extractDisplayName_comment (h : NameAndAddress name address) {outlen : Nat}
    (hlen : (SenderForm.comment.text name address).length < 256)
    (hout : (SenderForm.comment.text name address).length < outlen) :
    extractDisplayName (SenderForm.comment.text name address) outlen = name := by
  have hshort : name.length < outlen := by
    rw [text_comment] at hout
    simp only [List.length_append, List.length_cons] at hout
    omega
  -- an empty address leaves a blank in front
  obtain ⟨a, ha, hpar, hdrop⟩ : ∃ a, '<' ∉ a ∧ '(' ∉ a ∧
      (SenderForm.comment.text name address).dropWhile isBlank = a ++ '(' :: (name ++ [')']) := by
    rw [text_comment]
    cases haddress : address with
    | nil => exact ⟨[], List.not_mem_nil, List.not_mem_nil, rfl⟩
    | cons c t =>
      refine ⟨c :: t ++ [' '], ?_, ?_, ?_⟩
      · simp [← haddress, h.notMem_address]
      · simp [← haddress, h.notMem_address]
      · rw [← haddress, List.append_cons, dropWhile_eq_self]
        rw [haddress]
        intro d hd
        obtain rfl := Option.some.inj hd
        exact (h.addressChars _ (by rw [haddress]; exact List.mem_cons_self)).2
  have hcut : cutAt '<' (a ++ '(' :: (name ++ [')'])) = none := by
    apply cutAt_none
    simp [ha, h.notMem_name]
  rw [extractDisplayName_eq hlen fun c hc => (text_last _ c hc).1, hdrop, hcut]
  show strlcpy outlen (commentName _) = name
  rw [commentName_name h hpar, strlcpy_eq_self hshort]

theorem extractDisplayName_bare (h : NameAndAddress name address) {outlen : Nat}
    (hlen : (SenderForm.bare.text name address).length < 256)
    (hout : (SenderForm.bare.text name address).length < outlen) :
    extractDisplayName (SenderForm.bare.text name address) outlen = address := by
  have hshort : address.length < outlen := by
    rw [text_bare] at hout
    simp only [List.length_append, List.length_cons] at hout
    omega
  have hhead : ∀ c ∈ (SenderForm.bare.text name address).head?, isBlank c = false := by
    intro c hc
    obtain rfl := Option.some.inj hc
    decide
  have hcut : cutAt '<' (SenderForm.bare.text name address) = some ([], address ++ ['>']) := by
    rw [text_bare]
    exact cutAt_append List.not_mem_nil _
  have hname : angleName (SenderForm.bare.text name address) [] = address := by
    have hgt : cutAt '>' (address ++ ['>']) = some (address, []) :=
      cutAt_append (h.notMem_address (by decide)) _
    rw [text_bare]
    simp [angleName, trimEnd, hgt]
  rw [extractDisplayName_eq hlen fun c hc => (text_last _ c hc).1, dropWhile_eq_self hhead, hcut]
  show strlcpy outlen (angleName _ []) = address
  rw [hname, strlcpy_eq_self hshort]

/-! ## The name that is looked up -/

/-- The name that is looked up has no blank and no line end at its ends. -/
theorem senderDisplay_ends (sender : CString) (size : Nat) :
    (∀ c ∈ (senderDisplay sender size).head?, isAsciiSpace c = false) ∧
      ∀ c ∈ (senderDisplay sender size).getLast?, isAsciiSpace c = false :=
  trimAscii_ends _

theorem stripOuterQuotes_eq_self (hfirst : ∀ c ∈ s.head?, isAsciiSpace c = false)
    (hlast : ∀ c ∈ s.getLast?, isAsciiSpace c = false ∧ c ≠ '"') : stripOuterQuotes s = s := by
  have htrim : trimAscii s = s := trimAscii_eq_self hfirst fun c hc => (hlast c hc).1
  have hquote : s.getLast? ≠ some '"' := fun h => (hlast _ h).2 rfl
  rw [stripOuterQuotes, htrim, if_neg fun h => hquote h.2.2, htrim]

theorem senderDisplay_plain (h : NameAndAddress name address) {size : Nat}
    (hsize : (SenderForm.plain.text name address).length < size)
    (hfirst : ∀ c ∈ name.head?, isAsciiSpace c = false)
    (hlast : ∀ c ∈ name.getLast?, isAsciiSpace c = false) :
    senderDisplay (SenderForm.plain.text name address) size = name := by
  have hhead : ∀ c ∈ (SenderForm.plain.text name address).head?, isAsciiSpace c = false := by
    rw [text_plain, List.head?_append_of_ne_nil _ h.nonempty]
    exact hfirst
  have hfull : stripOuterQuotes (trimAscii (strlcpy size (SenderForm.plain.text name address))) =
      SenderForm.plain.text name address := by
    rw [strlcpy_eq_self hsize, trimAscii_eq_self hhead fun c hc => (text_last _ c hc).1,
      stripOuterQuotes_eq_self hhead (text_last _)]
  have hfront : (SenderForm.plain.text name address).takeWhile (· ≠ '<') = name ++ [' '] := by
    rw [text_plain, List.append_cons, List.takeWhile_append_of_pos]
    · simp
    · intro c hc
      apply decide_eq_true
      rintro rfl
      rcases List.mem_append.mp hc with hc | hc
      · exact h.notMem_name (by decide) hc
      · exact absurd hc (by decide)
  have hname : trimAscii (name ++ [' ']) = name := by
    rw [trimAscii, dropWhile_eq_self, trimEnd_snoc hlast (by decide)]
    rw [List.head?_append_of_ne_nil _ h.nonempty]
    exact hfirst
  rw [senderDisplay, hfull, extractSenderDisplay, strlcpy_eq_self hsize, hfront, stripOuterQuotes,
    hname, if_neg, trimAscii_eq_self hfirst hlast]
  exact fun hq => h.notMem_name (by decide) (List.mem_of_mem_head? hq.2.1)

/-- The header is treated as expected exactly when its name stands in no quotes, and begins and ends
with no line end in the form with the name in front. -/
theorem senderNamed_iff (form : SenderForm) (name address : CString) (outlen size : Nat)
    (h : NameAndAddress name address) (hlen : (form.text name address).length < 256)
    (hout : (form.text name address).length < outlen)
    (hsize : (form.text name address).length < size) :
    SenderNamed form name address outlen size ↔ form ≠ .quoted ∧ (form = .plain →
      (∀ c ∈ name.head?, isEol c = false) ∧ ∀ c ∈ name.getLast?, isEol c = false) := by
  cases form with
  | plain =>
    constructor
    · intro hnamed
      have hends := senderDisplay_ends (SenderForm.plain.text name address) size
      rw [hnamed.blocked (Or.inl rfl)] at hends
      refine ⟨by decide, fun _ => ⟨fun c hc => ?_, fun c hc => ?_⟩⟩
      · exact (Bool.or_eq_false_iff.mp (hends.1 c hc)).2
      · exact (Bool.or_eq_false_iff.mp (hends.2 c hc)).2
    · intro hends
      obtain ⟨hfirst, hlast⟩ := hends.2 rfl
      refine ⟨extractDisplayName_plain h hlen hout, fun _ => senderDisplay_plain h hsize ?_ ?_⟩
      · exact fun c hc => Bool.or_eq_false_iff.mpr ⟨h.first c hc, hfirst c hc⟩
      · exact fun c hc => Bool.or_eq_false_iff.mpr ⟨h.last c hc, hlast c hc⟩
  | quoted =>
    refine iff_of_false (fun hnamed => ?_) fun hne => hne.1 rfl
    have hshown := hnamed.shown
    rw [extractDisplayName_quoted h hlen hout] at hshown
    have hlength := congrArg List.length hshown
    simp only [SenderForm.shown, List.length_append, List.length_cons] at hlength
    omega
  | comment =>
    refine iff_of_true ⟨extractDisplayName_comment h hlen hout, fun hf => ?_⟩
      ⟨by decide, fun hf => by cases hf⟩
    rcases hf with hf | hf <;> cases hf
  | bare =>
    refine iff_of_true ⟨extractDisplayName_bare h hlen hout, fun hf => ?_⟩
      ⟨by decide, fun hf => by cases hf⟩
    rcases hf with hf | hf <;> cases hf

theorem nameAndAddress_hej : NameAndAddress "Hej".toList "a@b".toList where
  nonempty := by decide
  nameChars := by
    have hall : "Hej".toList.all (fun c => c ∉ ['<', '>', '(', ')', '"']) = true := by decide
    exact fun c hc => of_decide_eq_true (List.all_eq_true.mp hall c hc)
  first := by
    intro c hc
    obtain rfl := Option.some.inj hc
    decide
  last := by
    intro c hc
    obtain rfl := Option.some.inj hc
    decide
  addressChars := by
    have hall : "a@b".toList.all (fun c => c ∉ ['<', '>', '(', ')', '"'] ∧ isBlank c = false) = true := by
      decide
    exact fun c hc => of_decide_eq_true (List.all_eq_true.mp hall c hc)

theorem senderNamed_hej : SenderNamed .plain "Hej".toList "a@b".toList 80 80 := by
  have hends : SenderForm.plain ≠ .quoted ∧ (SenderForm.plain = .plain →
      (∀ c ∈ "Hej".toList.head?, isEol c = false) ∧
        ∀ c ∈ "Hej".toList.getLast?, isEol c = false) := by
    refine ⟨by decide, fun _ => ⟨fun c hc => ?_, fun c hc => ?_⟩⟩
    · obtain rfl := Option.some.inj hc
      decide
    · obtain rfl := Option.some.inj hc
      decide
  exact (senderNamed_iff .plain _ _ 80 80 nameAndAddress_hej (by decide +kernel) (by decide +kernel)
    (by decide +kernel)).mpr hends

/-- The quotes of `"Hej" <a@b>` are shown. -/
theorem extractDisplayName_quotes : ¬ SenderNamed .quoted "Hej".toList "a@b".toList 80 80 := by
  intro h
  have hshown : extractDisplayName "\"Hej\" <a@b>".toList 80 = "Hej".toList := h.shown
  exact absurd hshown (by decide +kernel)

end SklaffKom
