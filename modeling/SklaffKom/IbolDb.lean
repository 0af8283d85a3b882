import SklaffKom.Lib.SwapReverse
import SklaffKom.Stdio

/-!
# The cache of one-liners

`ibol_db_append` adds a record to the end of the cache file, a line for each, in which the
separators and the line ends of the fields are escaped.  `ibol_db_read_recent` reads the file from
its end.
-/

open CString SwapReverse

namespace SklaffKom

/-- `IBOL_DB_MSGID_MAX` -/
def ibolMsgidMax : Nat := 256

def ibolAuthorMax : Nat := 128

def ibolSourceMax : Nat := 256

def ibolTextMax : Nat := 4096

def llongMax : Int := 9223372036854775807

structure IbolRecord where
  timestamp : Int
  msgid : CString
  author : CString
  source : CString
  text : CString
deriving DecidableEq, Repr

/-! ## Writing -/

def escapeChar : Char → CString
  | '\\' => ['\\', '\\']
  | ':' => ['\\', ':']
  | '\n' => ['\\', 'n']
  | '\r' => ['\\', 'r']
  | '\t' => ['\\', 't']
  | c => [c]

def writeEscaped (s : CString) : CString := s.flatMap escapeChar

/-- `ibol_db_write_record` -/
def ibolWriteRecord (r : IbolRecord) : CString :=
  decimal r.timestamp ++ ':' :: (writeEscaped r.msgid ++ ':' :: (writeEscaped r.author ++
    ':' :: (writeEscaped r.source ++ ':' :: (writeEscaped r.text ++ ['\n']))))

/-- `ibol_db_append` -/
def ibolAppend (file : CString) (r : IbolRecord) : CString := file ++ ibolWriteRecord r

/-! ## Parsing -/

def appendDecoded (dstsz : Nat) (dst : CString) (ch : Char) : Except CString CString :=
  if dst.length + 1 ≥ dstsz then .error "cache field is too long".toList else .ok (dst ++ [ch])

/-- What a known escape stands for. -/
def unescape : Char → Option Char
  | 'n' => some '\n'
  | 'r' => some '\r'
  | 't' => some '\t'
  | ':' => some ':'
  | '\\' => some '\\'
  | _ => none

/-- The end of a line where a field ends or is missing. -/
def fieldEnd (finalField : Bool) (p dst : CString) : Except CString (CString × CString) :=
  if finalField then .ok (dst, p) else .error "cache line has too few fields".toList

/-- `parse_decoded_field`: the field and the place after it; `dst` is what has been decoded so far. -/
def parseDecodedField (finalField : Bool) (dstsz : Nat) :
    CString → CString → Except CString (CString × CString)
  | [], dst => fieldEnd finalField [] dst
  | c :: p, dst =>
    -- a raw line end ends the line, in the last field as in the others
    if isEol c then fieldEnd finalField (c :: p) dst
    -- in the last field a colon stands for itself
    else if finalField = false ∧ c = ':' then .ok (dst, p)
    else if c ≠ '\\' then do
      let dst ← appendDecoded dstsz dst c
      parseDecodedField finalField dstsz p dst
    else
      match p with
      | [] => .error "dangling escape at end of cache field".toList
      | e :: p =>
        if isEol e then .error "dangling escape at end of cache field".toList
        else
          match unescape e with
          | some ch => do
            let dst ← appendDecoded dstsz dst ch
            parseDecodedField finalField dstsz p dst
          | none => do
            -- an unknown escape is kept as it is
            let dst ← appendDecoded dstsz dst '\\'
            let dst ← appendDecoded dstsz dst e
            parseDecodedField finalField dstsz p dst

/-- The test of a timestamp after `strtoll`. -/
def parseStamp (stamp : CString) : Except CString Int :=
  let (timestamp, rest) := strtol stamp
  if timestamp < -llongMax - 1 ∨ llongMax < timestamp ∨ rest = stamp ∨ rest ≠ [] ∨ timestamp < 0 then
    .error ("invalid unix timestamp '".toList ++ stamp ++ "'".toList)
  else .ok timestamp

/-- `ibol_db_parse_line` -/
def ibolParseLine (line : CString) : Except CString IbolRecord := do
  let (stamp, p) ← parseDecodedField false 64 line []
  let timestamp ← parseStamp stamp
  -- a field has to leave room for the NUL in its member
  let (msgid, p) ← parseDecodedField false ibolMsgidMax p []
  let (author, p) ← parseDecodedField false ibolAuthorMax p []
  let (source, p) ← parseDecodedField false ibolSourceMax p []
  let (text, _) ← parseDecodedField true ibolTextMax p []
  if msgid = [] then .error "cache record has empty MSGID".toList
  else .ok ⟨timestamp, msgid, author, source, text⟩

/-! ## Reading backwards -/

/-- `while (scan > 0) { if (!P(file[scan - 1])) break; scan--; }` -/
def skipBack (file : CString) (P : Char → Bool) : Nat → Nat
  | 0 => 0
  | scan + 1 => if P (file[scan]?.getD '\x00') then skipBack file P scan else scan + 1

theorem skipBack_le (file : CString) (P : Char → Bool) (scan : Nat) : skipBack file P scan ≤ scan := by
  induction scan with
  | zero => exact Nat.le_refl 0
  | succ scan ih =>
    rw [skipBack]
    split <;> omega

/-- `read_previous_physical_line`: the line before the place and where it begins. -/
def readPreviousPhysicalLine (file : CString) (scan : Nat) : Option (CString × Nat) :=
  -- blank lines are passed over
  let lineEnd := skipBack file isEol scan
  if lineEnd = 0 then none
  else
    let lineStart := skipBack file (fun c => !isEol c) lineEnd
    if lineEnd - lineStart = 0 then none
    else some ((file.drop lineStart).take (lineEnd - lineStart), lineStart)

theorem readPreviousPhysicalLine_lt {file line : CString} {scan start : Nat}
    (h : readPreviousPhysicalLine file scan = some (line, start)) : start < scan := by
  have h1 := skipBack_le file isEol scan
  unfold readPreviousPhysicalLine at h
  dsimp only at h
  split at h
  · cases h
  · split at h
    · cases h
    · cases h
      omega

/-- The loop of `ibol_db_read_recent`: lines that are no records are left out. -/
def readRecentLoop (file : CString) (maxRecords scan : Nat) (records : List IbolRecord) :
    List IbolRecord :=
  if scan > 0 ∧ records.length < maxRecords then
    match _h : readPreviousPhysicalLine file scan with
    | none => records
    | some (line, scan') =>
      match ibolParseLine line with
      | .ok record => readRecentLoop file maxRecords scan' (records ++ [record])
      | .error _ => readRecentLoop file maxRecords scan' records
  else records
termination_by scan
decreasing_by
  all_goals exact readPreviousPhysicalLine_lt _h

/-- `ibol_db_read_recent`; `none` is a file that cannot be opened. -/
def ibolReadRecent (file : Option CString) (maxRecords : Nat) : Option (List IbolRecord) :=
  if maxRecords = 0 then some []
  else
    file.map fun file =>
      let records := readRecentLoop file maxRecords file.length []
      swapLoop records (records.length / 2)

/-! ## One record -/

/-- A backslash at the end of the line. -/
theorem parseDecodedField_dangling (finalField : Bool) {dstsz : Nat} {dst rest : CString}
    (hrest : ∀ c ∈ rest.head?, isEol c = true) :
    ∃ e, parseDecodedField finalField dstsz (['\\'] ++ rest) dst = .error e := by
  rw [List.singleton_append]
  unfold parseDecodedField
  rw [if_neg (by decide), if_neg (by simp), if_neg (by simp)]
  cases rest with
  | nil => exact ⟨_, rfl⟩
  | cons c rest =>
    dsimp only
    rw [if_pos (hrest c rfl)]
    exact ⟨_, rfl⟩

theorem parseDecodedField_char {finalField : Bool} {dstsz : Nat} {c : Char} {dst : CString}
    (heol : isEol c = false) (hcolon : c ≠ ':') (hesc : c ≠ '\\') (hlen : dst.length + 1 < dstsz)
    (p : CString) :
    parseDecodedField finalField dstsz (c :: p) dst =
      parseDecodedField finalField dstsz p (dst ++ [c]) := by
  conv_lhs => unfold parseDecodedField appendDecoded
  rw [heol, if_neg (by simp), if_neg (fun h => hcolon h.2), if_pos hesc, if_neg (by omega)]
  rfl

theorem parseDecodedField_escape {finalField : Bool} {dstsz : Nat} {e ch : Char} {dst : CString}
    (heol : isEol e = false) (he : unescape e = some ch) (hlen : dst.length + 1 < dstsz)
    (p : CString) :
    parseDecodedField finalField dstsz ('\\' :: e :: p) dst =
      parseDecodedField finalField dstsz p (dst ++ [ch]) := by
  conv_lhs => unfold parseDecodedField appendDecoded
  rw [if_neg (by decide), if_neg (by simp), if_neg (by simp)]
  dsimp only
  rw [heol, if_neg (by simp), he]
  dsimp only
  rw [if_neg (by omega)]
  rfl

/-- An escaped character is decoded to itself. -/
theorem parseDecodedField_escapeChar (finalField : Bool) {dstsz : Nat} (c : Char) {dst : CString}
    (hlen : dst.length + 1 < dstsz) (p : CString) :
    parseDecodedField finalField dstsz (escapeChar c ++ p) dst =
      parseDecodedField finalField dstsz p (dst ++ [c]) := by
  unfold escapeChar
  split
  · exact parseDecodedField_escape (by decide) rfl hlen p
  · exact parseDecodedField_escape (by decide) rfl hlen p
  · exact parseDecodedField_escape (by decide) rfl hlen p
  · exact parseDecodedField_escape (by decide) rfl hlen p
  · exact parseDecodedField_escape (by decide) rfl hlen p
  -- the character is none of those that are escaped
  · rename_i h1 h2 h3 h4 h5
    apply parseDecodedField_char _ h2 h1 hlen
    unfold isEol
    rw [decide_eq_false h3, decide_eq_false h4]
    rfl

/-- An escaped field that fits is decoded, whatever follows it. -/
theorem parseDecodedField_writeEscaped (finalField : Bool) {dstsz : Nat} (s : CString)
    {dst : CString} (hlen : dst.length + s.length < dstsz) (p : CString) :
    parseDecodedField finalField dstsz (writeEscaped s ++ p) dst =
      parseDecodedField finalField dstsz p (dst ++ s) := by
  induction s generalizing dst with
  | nil => rw [List.append_nil]; rfl
  | cons c s ih =>
    rw [List.length_cons] at hlen
    unfold writeEscaped at ih ⊢
    rw [List.flatMap_cons, List.append_assoc, parseDecodedField_escapeChar _ _ (by omega),
      ih (by rw [List.length_append, List.length_singleton]; omega), List.append_assoc,
      List.singleton_append]

/-- A field that is not the last one ends at the colon after it. -/
theorem parseDecodedField_colon {dstsz : Nat} {s : CString} (hlen : s.length < dstsz) (p : CString) :
    parseDecodedField false dstsz (writeEscaped s ++ ':' :: p) [] = .ok (s, p) := by
  rw [parseDecodedField_writeEscaped false s (by rw [List.length_nil]; omega)]
  unfold parseDecodedField
  rw [if_neg (by decide), if_pos ⟨rfl, rfl⟩, List.nil_append]

/-- The last field ends with the line. -/
theorem parseDecodedField_final {dstsz : Nat} {s p : CString} (hlen : s.length < dstsz)
    (hp : ∀ c ∈ p.head?, isEol c = true) :
    parseDecodedField true dstsz (writeEscaped s ++ p) [] = .ok (s, p) := by
  rw [parseDecodedField_writeEscaped true s (by rw [List.length_nil]; omega), List.nil_append]
  cases p with
  | nil => rfl
  | cons c p =>
    unfold parseDecodedField
    rw [if_pos (hp c rfl)]
    rfl

/-- The values of a record that fit their members, with a message id. -/
structure IbolRecord.Fits (r : IbolRecord) : Prop where
  timestamp : 0 ≤ r.timestamp ∧ r.timestamp ≤ llongMax
  msgid : r.msgid ≠ [] ∧ r.msgid.length < ibolMsgidMax
  author : r.author.length < ibolAuthorMax
  source : r.source.length < ibolSourceMax
  text : r.text.length < ibolTextMax

/-- The characters of a number are not escaped. -/
theorem escapeChar_number {c : Char} (h : c.isDigit = true ∨ c = '-') : escapeChar c = [c] := by
  rcases h with h | rfl
  · unfold escapeChar
    split <;> first | exact absurd h (by decide) | rfl
  · rfl

/-- A timestamp is written as it would be escaped. -/
theorem writeEscaped_decimal (n : Int) : writeEscaped (decimal n) = decimal n := by
  have hall : ∀ s : CString, (∀ c ∈ s, c.isDigit = true ∨ c = '-') → writeEscaped s = s := by
    intro s hs
    unfold writeEscaped
    induction s with
    | nil => rfl
    | cons c s ih =>
      obtain ⟨hc, hs⟩ := List.forall_mem_cons.mp hs
      rw [List.flatMap_cons, escapeChar_number hc, ih hs, List.singleton_append]
  exact hall _ fun c hc => mem_decimal hc

/-- A timestamp has room in its buffer. -/
theorem length_decimal_stamp {n : Int} (h0 : -llongMax - 1 ≤ n) (h : n ≤ llongMax) :
    (decimal n).length < 64 := by
  have hlen : (decimal n).length ≤ 20 := by
    apply length_decimal_long
    unfold longMax
    unfold llongMax at h0 h
    omega
  omega

theorem parseStamp_decimal {n : Int} (h0 : 0 ≤ n) (h : n ≤ llongMax) :
    parseStamp (decimal n) = .ok n := by
  have hs := strtol_decimal n (s := []) (by simp)
  rw [List.append_nil] at hs
  unfold parseStamp
  rw [hs]
  dsimp only
  rw [if_neg]
  have hne := decimal_ne_nil n
  have hmin : ¬ n < -llongMax - 1 := by
    unfold llongMax
    omega
  rintro (hlt | hlt | hrest | hrest | hlt)
  · exact hmin hlt
  · omega
  · exact hne hrest.symm
  · exact hrest rfl
  · omega

/-- A record without its line end. -/
def ibolLine (r : IbolRecord) : CString :=
  decimal r.timestamp ++ ':' :: (writeEscaped r.msgid ++ ':' :: (writeEscaped r.author ++
    ':' :: (writeEscaped r.source ++ ':' :: writeEscaped r.text)))

theorem ibolWriteRecord_eq (r : IbolRecord) : ibolWriteRecord r = ibolLine r ++ ['\n'] := by
  unfold ibolWriteRecord ibolLine
  simp only [List.append_assoc, List.cons_append]

/-- A line that was written is read, with or without its line end. -/
theorem ibolParseLine_line {r : IbolRecord} (hr : r.Fits) {p : CString}
    (hp : ∀ c ∈ p.head?, isEol c = true) : ibolParseLine (ibolLine r ++ p) = .ok r := by
  -- the digits of the timestamp would be escaped to themselves, so it is read as a field
  have hstamp : parseDecodedField false 64 (ibolLine r ++ p) [] =
      .ok (decimal r.timestamp, writeEscaped r.msgid ++ ':' :: (writeEscaped r.author ++
        ':' :: (writeEscaped r.source ++ ':' :: (writeEscaped r.text ++ p)))) := by
    have h0 : -llongMax - 1 ≤ r.timestamp := Int.le_trans (by decide) hr.timestamp.1
    have h := parseDecodedField_colon (length_decimal_stamp h0 hr.timestamp.2)
      (writeEscaped r.msgid ++ ':' :: (writeEscaped r.author ++
        ':' :: (writeEscaped r.source ++ ':' :: (writeEscaped r.text ++ p))))
    rw [writeEscaped_decimal] at h
    rw [← h]
    unfold ibolLine
    simp only [List.append_assoc, List.cons_append]
  unfold ibolParseLine
  rw [hstamp]
  dsimp only [bind, Except.bind]
  rw [parseStamp_decimal hr.timestamp.1 hr.timestamp.2]
  dsimp only
  rw [parseDecodedField_colon hr.msgid.2]
  dsimp only
  rw [parseDecodedField_colon hr.author]
  dsimp only
  rw [parseDecodedField_colon hr.source]
  dsimp only
  rw [parseDecodedField_final hr.text hp]
  dsimp only
  rw [if_neg hr.msgid.1]

/-! ## A record that is cut -/

theorem escapeChar_cases (c : Char) : escapeChar c = [c] ∨ ∃ e, escapeChar c = ['\\', e] := by
  unfold escapeChar
  split
  · exact Or.inr ⟨_, rfl⟩
  · exact Or.inr ⟨_, rfl⟩
  · exact Or.inr ⟨_, rfl⟩
  · exact Or.inr ⟨_, rfl⟩
  · exact Or.inr ⟨_, rfl⟩
  · exact Or.inl rfl

/-- A part of an escaped character. -/
theorem prefix_escapeChar {c : Char} {u : CString} (h : u <+: escapeChar c) :
    u = [] ∨ u = ['\\'] ∨ u = escapeChar c := by
  cases u with
  | nil => exact Or.inl rfl
  | cons d u =>
    rcases escapeChar_cases c with hc | ⟨e, hc⟩
    · rw [hc] at h ⊢
      obtain ⟨rfl, hu⟩ := List.cons_prefix_cons.mp h
      rw [List.prefix_nil.mp hu]
      exact Or.inr (Or.inr rfl)
    · rw [hc] at h ⊢
      obtain ⟨rfl, hu⟩ := List.cons_prefix_cons.mp h
      cases u with
      | nil => exact Or.inr (Or.inl rfl)
      | cons d u =>
        obtain ⟨rfl, hnil⟩ := List.cons_prefix_cons.mp hu
        rw [List.prefix_nil.mp hnil]
        exact Or.inr (Or.inr rfl)

/-- A part of an escaped field: whole characters, and perhaps a single backslash. -/
theorem prefix_writeEscaped {s u : CString} (h : u <+: writeEscaped s) :
    ∃ p, p <+: s ∧ (u = writeEscaped p ∨ u = writeEscaped p ++ ['\\']) := by
  induction s generalizing u with
  | nil => exact ⟨[], List.nil_prefix, Or.inl (List.prefix_nil.mp h)⟩
  | cons c s ih =>
    have hone : writeEscaped (c :: s) = escapeChar c ++ writeEscaped s := rfl
    rw [hone] at h
    rcases List.prefix_or_prefix_of_prefix h (List.prefix_append _ _) with hc | ⟨v, rfl⟩
    · -- the cut is in the first character
      rcases prefix_escapeChar hc with rfl | rfl | rfl
      · exact ⟨[], List.nil_prefix, Or.inl rfl⟩
      · exact ⟨[], List.nil_prefix, Or.inr rfl⟩
      · exact ⟨[c], List.cons_prefix_cons.mpr ⟨rfl, List.nil_prefix⟩, Or.inl (List.append_nil _).symm⟩
    · rw [List.prefix_append_right_inj] at h
      obtain ⟨p, hp, hu⟩ := ih h
      refine ⟨c :: p, List.cons_prefix_cons.mpr ⟨rfl, hp⟩, ?_⟩
      rcases hu with rfl | rfl
      · exact Or.inl rfl
      · exact Or.inr (List.append_assoc _ _ _).symm

/-- A field that is not the last one has to be complete. -/
theorem parseDecodedField_torn {dstsz : Nat} {s u : CString} (hlen : s.length < dstsz)
    (hu : u <+: writeEscaped s) {rest : CString} (hrest : ∀ c ∈ rest.head?, isEol c = true) :
    ∃ e, parseDecodedField false dstsz (u ++ rest) [] = .error e := by
  obtain ⟨p, hp, hu⟩ := prefix_writeEscaped hu
  have hple := hp.length_le
  rcases hu with rfl | rfl
  · rw [parseDecodedField_writeEscaped false p (by rw [List.length_nil]; omega)]
    cases rest with
    | nil => exact ⟨_, rfl⟩
    | cons c rest =>
      unfold parseDecodedField
      rw [if_pos (hrest c rfl)]
      exact ⟨_, rfl⟩
  · rw [List.append_assoc, parseDecodedField_writeEscaped false p (by rw [List.length_nil]; omega)]
    exact parseDecodedField_dangling false hrest

/-- The last field may be cut between two characters. -/
theorem parseDecodedField_tornFinal {dstsz : Nat} {s u : CString} (hlen : s.length < dstsz)
    (hu : u <+: writeEscaped s) : (∃ p, p <+: s ∧ u = writeEscaped p) ∨
      ∀ rest, (∀ c ∈ rest.head?, isEol c = true) →
        ∃ e, parseDecodedField true dstsz (u ++ rest) [] = .error e := by
  obtain ⟨p, hp, rfl | rfl⟩ := prefix_writeEscaped hu
  · exact Or.inl ⟨p, hp, rfl⟩
  · refine Or.inr fun rest hrest => ?_
    have hple := hp.length_le
    rw [List.append_assoc, parseDecodedField_writeEscaped true p (by rw [List.length_nil]; omega)]
    exact parseDecodedField_dangling true hrest

theorem prefix_field {t X Y : CString} {c : Char} (h : t <+: X ++ c :: Y) :
    t <+: X ∨ ∃ t', t = X ++ c :: t' ∧ t' <+: Y := by
  rcases List.prefix_or_prefix_of_prefix h (List.prefix_append _ _) with h' | ⟨u, rfl⟩
  · exact Or.inl h'
  · rw [List.prefix_append_right_inj] at h
    cases u with
    | nil => exact Or.inl (by rw [List.append_nil])
    | cons d u =>
      obtain ⟨rfl, hu⟩ := List.cons_prefix_cons.mp h
      exact Or.inr ⟨u, rfl, hu⟩

/-- A line that was cut is no record, unless the cut is in the text, between two characters. -/
theorem ibolParseLine_torn {r : IbolRecord} (hr : r.Fits) {t : CString} (ht : t <+: ibolLine r) :
    (∃ p, p <+: r.text ∧ t = ibolLine { r with text := p }) ∨
      ∀ rest, (∀ c ∈ rest.head?, isEol c = true) → ∃ e, ibolParseLine (t ++ rest) = .error e := by
  have h0 : -llongMax - 1 ≤ r.timestamp := Int.le_trans (by decide) hr.timestamp.1
  have hstamp := length_decimal_stamp h0 hr.timestamp.2
  unfold ibolLine at ht
  rw [← writeEscaped_decimal] at ht
  -- the field in which the cut is
  rcases prefix_field ht with htorn | ⟨t₁, rfl, h₁⟩
  · refine Or.inr fun rest hrest => ?_
    obtain ⟨e, he⟩ := parseDecodedField_torn hstamp htorn hrest
    exact ⟨e, by rw [ibolParseLine, he]; rfl⟩
  have hline : ∀ rest, writeEscaped (decimal r.timestamp) ++ ':' :: t₁ ++ rest =
      writeEscaped (decimal r.timestamp) ++ ':' :: (t₁ ++ rest) := fun rest => List.append_assoc _ _ _
  have htime := parseStamp_decimal hr.timestamp.1 hr.timestamp.2
  rcases prefix_field h₁ with htorn | ⟨t₂, rfl, h₂⟩
  · refine Or.inr fun rest hrest => ?_
    obtain ⟨e, he⟩ := parseDecodedField_torn hr.msgid.2 htorn hrest
    refine ⟨e, ?_⟩
    rw [hline, ibolParseLine, parseDecodedField_colon hstamp]
    dsimp only [bind, Except.bind]
    rw [htime]
    dsimp only
    rw [he]
  rcases prefix_field h₂ with htorn | ⟨t₃, rfl, h₃⟩
  · refine Or.inr fun rest hrest => ?_
    obtain ⟨e, he⟩ := parseDecodedField_torn hr.author htorn hrest
    refine ⟨e, ?_⟩
    rw [hline, ibolParseLine, parseDecodedField_colon hstamp]
    dsimp only [bind, Except.bind]
    rw [htime]
    dsimp only
    rw [List.append_assoc, List.cons_append, parseDecodedField_colon hr.msgid.2]
    dsimp only
    rw [he]
  rcases prefix_field h₃ with htorn | ⟨t₄, rfl, h₄⟩
  · refine Or.inr fun rest hrest => ?_
    obtain ⟨e, he⟩ := parseDecodedField_torn hr.source htorn hrest
    refine ⟨e, ?_⟩
    rw [hline, ibolParseLine, parseDecodedField_colon hstamp]
    dsimp only [bind, Except.bind]
    rw [htime]
    dsimp only
    rw [List.append_assoc, List.cons_append, parseDecodedField_colon hr.msgid.2]
    dsimp only
    rw [List.append_assoc, List.cons_append, parseDecodedField_colon hr.author]
    dsimp only
    rw [he]
  rcases parseDecodedField_tornFinal hr.text h₄ with ⟨p, hp, rfl⟩ | htorn
  · refine Or.inl ⟨p, hp, ?_⟩
    rw [writeEscaped_decimal]
    rfl
  · refine Or.inr fun rest hrest => ?_
    obtain ⟨e, he⟩ := htorn rest hrest
    refine ⟨e, ?_⟩
    rw [hline, ibolParseLine, parseDecodedField_colon hstamp]
    dsimp only [bind, Except.bind]
    rw [htime]
    dsimp only
    rw [List.append_assoc, List.cons_append, parseDecodedField_colon hr.msgid.2]
    dsimp only
    rw [List.append_assoc, List.cons_append, parseDecodedField_colon hr.author]
    dsimp only
    rw [List.append_assoc, List.cons_append, parseDecodedField_colon hr.source]
    dsimp only
    rw [he]

/-- A record with a time before 1970 is written, but not read. -/
theorem ibolParseLine_negative {r : IbolRecord} (h0 : -llongMax - 1 ≤ r.timestamp)
    (hneg : r.timestamp < 0) {t : CString} (ht : t <+: ibolLine r) {rest : CString}
    (hrest : ∀ c ∈ rest.head?, isEol c = true) : ∃ e, ibolParseLine (t ++ rest) = .error e := by
  have hmax : r.timestamp ≤ llongMax := Int.le_trans (Int.le_of_lt hneg) (by decide)
  have hstamp := length_decimal_stamp h0 hmax
  unfold ibolLine at ht
  rw [← writeEscaped_decimal] at ht
  rcases prefix_field ht with htorn | ⟨t', rfl, -⟩
  · obtain ⟨e, he⟩ := parseDecodedField_torn hstamp htorn hrest
    exact ⟨e, by rw [ibolParseLine, he]; rfl⟩
  · have hread : ∃ e, parseStamp (decimal r.timestamp) = .error e := by
      have hs := strtol_decimal r.timestamp (s := []) (by simp)
      rw [List.append_nil] at hs
      unfold parseStamp
      rw [hs]
      dsimp only
      rw [if_pos (Or.inr (Or.inr (Or.inr (Or.inr hneg))))]
      exact ⟨_, rfl⟩
    obtain ⟨e, he⟩ := hread
    refine ⟨e, ?_⟩
    rw [List.append_assoc, List.cons_append, ibolParseLine, parseDecodedField_colon hstamp]
    dsimp only [bind, Except.bind]
    rw [he]

/-! ## The lines of the file -/

/-- An escape is no line end. -/
theorem isEol_of_mem_escapeChar (d : Char) : ∀ c ∈ escapeChar d, isEol c = false := by
  have hpair : ∀ {e : Char}, isEol e = false → ∀ c ∈ ['\\', e], isEol c = false := by
    intro e he
    rw [List.forall_mem_cons, List.forall_mem_singleton]
    exact ⟨rfl, he⟩
  unfold escapeChar
  split
  · exact hpair rfl
  · exact hpair rfl
  · exact hpair rfl
  · exact hpair rfl
  · exact hpair rfl
  · rename_i h1 h2 h3 h4 h5
    intro c hc
    rw [List.mem_singleton.mp hc]
    unfold isEol
    rw [decide_eq_false h3, decide_eq_false h4]
    rfl

theorem isEol_of_mem_writeEscaped {s : CString} {c : Char} (hc : c ∈ writeEscaped s) :
    isEol c = false := by
  obtain ⟨d, -, hd⟩ := List.mem_flatMap.mp hc
  exact isEol_of_mem_escapeChar d c hd

theorem isEol_of_mem_ibolLine {r : IbolRecord} {c : Char} (hc : c ∈ ibolLine r) :
    isEol c = false := by
  unfold ibolLine at hc
  rw [← writeEscaped_decimal] at hc
  simp only [List.mem_append, List.mem_cons] at hc
  rcases hc with h | rfl | h | rfl | h | rfl | h | rfl | h
  all_goals first | exact isEol_of_mem_writeEscaped h | decide

theorem ibolLine_ne_nil (r : IbolRecord) : ibolLine r ≠ [] :=
  List.append_ne_nil_of_right_ne_nil _ (List.cons_ne_nil _ _)

/-- The walk goes back over what satisfies the test. -/
theorem skipBack_append {P : Char → Bool} (a : CString) {b : CString} (hb : ∀ c ∈ b, P c = true)
    (rest : CString) :
    skipBack (a ++ (b ++ rest)) P (a ++ b).length = skipBack (a ++ (b ++ rest)) P a.length := by
  have hwalk : ∀ k ≤ b.length,
      skipBack (a ++ (b ++ rest)) P (a.length + k) = skipBack (a ++ (b ++ rest)) P a.length := by
    intro k hk
    induction k with
    | zero => rfl
    | succ k ih =>
      have hget : (a ++ (b ++ rest))[a.length + k]?.getD '\x00' = b[k] := by
        rw [List.getElem?_append_right (by omega), Nat.add_sub_cancel_left,
          List.getElem?_append_left (by omega), List.getElem?_eq_getElem (by omega)]
        rfl
      show skipBack _ P (a.length + k + 1) = _
      rw [skipBack, hget, if_pos (hb _ (List.getElem_mem _)), ih (by omega)]
  rw [List.length_append]
  exact hwalk b.length (Nat.le_refl _)

/-- The walk stays where the character before the place does not satisfy the test. -/
theorem skipBack_stop {P : Char → Bool} {a : CString} (ha : ∀ c ∈ a.getLast?, P c = false)
    (rest : CString) : skipBack (a ++ rest) P a.length = a.length := by
  cases List.eq_nil_or_concat a with
  | inl h =>
    rw [h]
    rfl
  | inr h =>
    obtain ⟨l, c, rfl⟩ := h
    rw [List.concat_eq_append] at ha ⊢
    have hc : P c = false := ha c (by rw [List.getLast?_concat]; rfl)
    rw [List.length_append, List.length_singleton, skipBack, List.append_assoc,
      List.getElem?_append_right (Nat.le_refl _), Nat.sub_self]
    show (if P c = true then _ else _) = _
    rw [if_neg (by rw [hc]; decide)]

/-- A line is read back when what stands before it is empty or ends with a line end. -/
theorem readPreviousPhysicalLine_line {a line : CString} (ha : ∀ c ∈ a.getLast?, isEol c = true)
    (hne : line ≠ []) (hline : ∀ c ∈ line, isEol c = false) (rest : CString) :
    readPreviousPhysicalLine (a ++ (line ++ '\n' :: rest)) (a ++ (line ++ ['\n'])).length =
      some (line, a.length) := by
  -- back over the one newline, since the line does not end with another
  have hend : skipBack (a ++ (line ++ '\n' :: rest)) isEol (a ++ (line ++ ['\n'])).length =
      (a ++ line).length := by
    have hnewline : ∀ c ∈ ['\n'], isEol c = true := List.forall_mem_singleton.mpr rfl
    have h := skipBack_append (a ++ line) hnewline rest
    rw [List.singleton_append, List.append_assoc, List.append_assoc] at h
    rw [h, ← List.append_assoc, skipBack_stop]
    intro c hc
    rw [List.getLast?_append_of_ne_nil _ hne] at hc
    exact hline c (List.mem_of_getLast? hc)
  -- back over the line, to the end of the one before
  have hstart : skipBack (a ++ (line ++ '\n' :: rest)) (fun c => !isEol c) (a ++ line).length =
      a.length := by
    rw [skipBack_append a (fun c hc => by rw [hline c hc]; rfl), skipBack_stop]
    intro c hc
    rw [ha c hc]
    rfl
  have hpos := List.length_pos_of_ne_nil hne
  unfold readPreviousPhysicalLine
  rw [hend]
  dsimp only
  rw [hstart, List.length_append, if_neg (by omega), Nat.add_sub_cancel_left, if_neg (by omega),
    List.drop_left, List.take_left]

/-! ## The whole file -/

/-- The file after records have been added to an empty one. -/
theorem foldl_ibolAppend (rs : List IbolRecord) (file : CString) :
    rs.foldl ibolAppend file = file ++ rs.flatMap ibolWriteRecord := by
  induction rs generalizing file with
  | nil =>
    rw [List.flatMap_nil, List.append_nil]
    rfl
  | cons r rs ih => rw [List.foldl_cons, ih, ibolAppend, List.flatMap_cons, List.append_assoc]

/-- The records of a file end with a line end. -/
theorem isEol_getLast_records (rs : List IbolRecord) :
    ∀ c ∈ (rs.flatMap ibolWriteRecord).getLast?, isEol c = true := by
  cases List.eq_nil_or_concat rs with
  | inl h =>
    rw [h]
    intro c hc
    cases hc
  | inr h =>
    obtain ⟨l, r, rfl⟩ := h
    rw [List.concat_eq_append, List.flatMap_append, List.flatMap_singleton, ibolWriteRecord_eq,
      ← List.append_assoc, List.getLast?_concat]
    intro c hc
    cases hc
    rfl

/-- From the end of a record on, the records before it are found, the last one first. -/
theorem readRecentLoop_records {ps : List IbolRecord} (hps : ∀ r ∈ ps, r.Fits) (rest : CString)
    (maxRecords : Nat) (found : List IbolRecord) :
    readRecentLoop (ps.flatMap ibolWriteRecord ++ rest) maxRecords
      (ps.flatMap ibolWriteRecord).length found =
        found ++ ps.reverse.take (maxRecords - found.length) := by
  -- the last record is found first, and the induction goes on with those before it
  induction ps using List.reverseRecOn generalizing rest found with
  | nil =>
    rw [readRecentLoop, if_neg (fun h => absurd h.1 (by decide)), List.reverse_nil, List.take_nil,
      List.append_nil]
  | append_singleton ps r ih =>
    have hr : r.Fits := hps r (by simp)
    have hps' : ∀ q ∈ ps, q.Fits := fun q hq => hps q (List.mem_append_left _ hq)
    have hprev := readPreviousPhysicalLine_line (isEol_getLast_records ps) (ibolLine_ne_nil r)
      (fun c hc => isEol_of_mem_ibolLine hc) rest
    have hparse : ibolParseLine (ibolLine r) = .ok r := by
      have h := ibolParseLine_line hr (p := []) (by simp)
      rwa [List.append_nil] at h
    rw [List.flatMap_append, List.flatMap_singleton, List.reverse_append, List.reverse_singleton,
      List.singleton_append, ibolWriteRecord_eq, readRecentLoop]
    by_cases hfull : found.length < maxRecords
    · have hpos : (ps.flatMap ibolWriteRecord ++ (ibolLine r ++ ['\n'])).length > 0 := by
        rw [List.length_append, List.length_append, List.length_singleton]
        omega
      rw [if_pos ⟨hpos, hfull⟩, List.append_assoc, List.append_assoc, List.singleton_append]
      split
      · rename_i hnone
        rw [hprev] at hnone
        cases hnone
      · rename_i line scan hsome
        rw [hprev] at hsome
        cases hsome
        rw [hparse]
        dsimp only
        rw [ih hps', List.length_append, List.length_singleton,
          show maxRecords - found.length = maxRecords - (found.length + 1) + 1 by omega,
          List.take_succ_cons, List.append_assoc, List.singleton_append]
    · rw [if_neg (fun h => hfull h.2), Nat.sub_eq_zero_of_le (by omega), List.take_zero,
        List.append_nil]

/-- The records appended to an empty file are read back: the last ones, in the order in which they
were appended, and each line for itself. -/
theorem ibolReadRecent_append (rs : List IbolRecord) (hrs : ∀ r ∈ rs, r.Fits) (maxRecords : Nat) :
    ibolReadRecent (some (rs.foldl ibolAppend [])) maxRecords =
        some (rs.drop (rs.length - min maxRecords rs.length)) ∧
      ∀ r ∈ rs, ibolParseLine (ibolWriteRecord r) = .ok r := by
  constructor
  · unfold ibolReadRecent
    split
    · rename_i hzero
      rw [hzero, Nat.zero_min, Nat.sub_zero, List.drop_length]
    · have hloop := readRecentLoop_records hrs [] maxRecords []
      rw [List.append_nil, List.nil_append, List.length_nil, Nat.sub_zero] at hloop
      rw [foldl_ibolAppend, List.nil_append, Option.map_some, hloop]
      dsimp only
      -- the records were found from the last one on, and are turned round
      rw [swapLoop_half, List.take_reverse, List.reverse_reverse,
        show rs.length - maxRecords = rs.length - min maxRecords rs.length by omega]
  · intro r hr
    rw [ibolWriteRecord_eq]
    apply ibolParseLine_line (hrs r hr)
    intro c hc
    cases hc
    rfl

/-- Two records with a separator, an escape, a tabulator and line ends in their fields. -/
def ibolExample : List IbolRecord :=
  [⟨0, "a:1".toList, [], "C:\\n".toList, "one\r\ntwo".toList⟩,
    ⟨1767225600, ":".toList, "\t".toList, "\\".toList, []⟩]

theorem ibolReadRecent_append_example :
    ibolReadRecent (some (ibolExample.foldl ibolAppend [])) 1 =
        some (ibolExample.drop (ibolExample.length - min 1 ibolExample.length)) ∧
      ∀ r ∈ ibolExample, ibolParseLine (ibolWriteRecord r) = .ok r :=
  ibolReadRecent_append ibolExample
    (by
      unfold ibolExample
      intro r hr
      rcases List.mem_pair.mp hr with rfl | rfl
      · exact ⟨by decide, by decide, by decide, by decide, by decide⟩
      · exact ⟨by decide, by decide, by decide, by decide, by decide⟩)
    1

end SklaffKom
