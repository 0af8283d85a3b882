import SklaffKom.FtnAddress
import SklaffKom.FtnImport

/-!
# Finding imported messages again

Before an import `scan_existing_skl_msgids` reads the texts of the conference and takes the first
line of each that looks like a `MSGID` line.  The subject and the header of a text come from the
message, and stand in front of the line with its `MSGID`.
-/

open CString Sweeps

namespace SklaffKom

/-! ## The `MSGID`s of local texts -/

def makeFtnAddr (a : FtnAddress) : CString :=
  let addr := decimal a.zone ++ [':'] ++ decimal a.net ++ ['/'] ++ decimal a.node
  strlcpy 64 (if a.point = 0 then addr else addr ++ ['.'] ++ decimal a.point)

/-- `%08lx` -/
def hex8 (n : Nat) : CString :=
  List.replicate (8 - (Nat.toDigits 16 n).length) '0' ++ Nat.toDigits 16 n

def makeFtnMsgidForAka (aka : FtnAddress) (serial : Nat) : CString :=
  strlcpy 256 (makeFtnAddr aka ++ [' '] ++ hex8 (serial % 2 ^ 32))

def makeExportOneSerial (confnum textnum : Int) : Nat :=
  (confnum % 65536).toNat * 65536 + (textnum % 65536).toNat

/-- What `read_skom_export_text` returns. -/
structure ExportText where
  uid : Int
  time : Int
  com : Int
  subject : CString
  body : CString

/-- The four numbers that `sscanf(buf, "%ld:%ld:%ld:%ld:...")` has to find. -/
def scanTextHeader (buf : CString) : Option (Int × Int × Int × Int) := do
  let (textnum, s) ← scanInt buf
  let s ← scanChar ':' s
  let (uid, s) ← scanInt s
  let s ← scanChar ':' s
  let (when, s) ← scanInt s
  let s ← scanChar ':' s
  let (com, _) ← scanInt s
  pure (textnum, uid, when, com)

/-- `read_skom_export_text` of a file. -/
def readSkomExportText (file : CString) : Option ExportText :=
  match strchr file '\n' with
  | none => none
  | some p =>
    match scanTextHeader (stripEol (file.take (file.length - p.length))) with
    | none => none
    | some (_, uid, when, com) =>
      let rest := p.drop 1
      let subj := stripEol (rest.takeWhile (· ≠ '\n'))
      some
        { uid := uid
          time := when
          com := com
          subject := strlcpy 256 (if subj = [] then "(no subject)".toList else subj)
          body := (rest.dropWhile (· ≠ '\n')).drop 1 }

/-! ## The scan -/

/-- `sizeof(LONG_LINE)` -/
def longLine : Nat := 159

/-- The value behind the name of a `MSGID` line, in the three forms in which it occurs. -/
def msgidLineValue (line : CString) : Option CString :=
  if "\x01MSGID:".toList.isPrefixOf line then some (line.drop 7)
  else if "^AMSGID:".toList.isPrefixOf line then some (line.drop 8)
  else if "FTN-MSGID:".toList.isPrefixOf line then some (line.drop 10)
  else none

def extractFtnMsgidFromLine (line : CString) : Option CString :=
  match msgidLineValue line with
  | none => none
  | some p =>
    let out := strlcpy 256 (p.dropWhile isBlank)
    let out := (out.takeWhile fun c => !isEol c).dropWhile isSpace
    if out = [] then none else some out

/-- The first `MSGID` in a file, or in a part of one. -/
def firstMsgid (file : CString) : Option CString :=
  (fileLines longLine file).findSome? extractFtnMsgidFromLine

/-- What `scan_existing_skl_msgids` takes for the `MSGID` of a text.  A text without one that was
written here has the `MSGID` under which it is exported. -/
def scanText (confnum : Int) (aka : FtnAddress) (textnum : Int) (file : Option CString) :
    Option CString := do
  let file ← file
  match firstMsgid file with
  | some msgid => some msgid
  | none =>
    let t ← readSkomExportText file
    if t.uid > 0 then some (makeFtnMsgidForAka aka (makeExportOneSerial confnum textnum)) else none

/-- A text of `scan_existing_skl_msgids`. -/
def scanStep (confnum : Int) (aka : FtnAddress) (texts : Int → Option CString) (refs : List Skref)
    (textnum : Int) : List Skref :=
  match scanText confnum aka textnum (texts textnum) with
  | some msgid => addSkref refs msgid textnum
  | none => refs

def scanExistingSklMsgids (confnum : Int) (aka : FtnAddress) (conf : FtnConf) : List Skref :=
  ((List.range conf.lastText.toNat).map fun k : Nat => (k : Int) + 1).foldl
    (scanStep confnum aka conf.texts) []

/-! ## The lines of a text -/

theorem msgidLineValue_some {line p : CString} (h : msgidLineValue line = some p) :
    '\x01' ∈ line ∨ '^' ∈ line ∨ 'F' ∈ line := by
  unfold msgidLineValue at h
  split at h
  · next hp => exact Or.inl ((List.isPrefixOf_iff_prefix.mp hp).subset (by decide))
  split at h
  · next hp => exact Or.inr (Or.inl ((List.isPrefixOf_iff_prefix.mp hp).subset (by decide)))
  split at h
  · next hp => exact Or.inr (Or.inr ((List.isPrefixOf_iff_prefix.mp hp).subset (by decide)))
  · cases h

theorem extractFtnMsgidFromLine_some {line id : CString} (h : extractFtnMsgidFromLine line = some id) :
    id ≠ [] ∧ ∀ c ∈ id.head?, isSpace c = false := by
  unfold extractFtnMsgidFromLine at h
  split at h
  · cases h
  · dsimp only at h
    split at h
    · cases h
    · next p _ hne =>
      cases h
      refine ⟨hne, fun c hc => ?_⟩
      have hhead := List.head?_dropWhile_not isSpace
        ((strlcpy 256 (p.dropWhile isBlank)).takeWhile fun c => !isEol c)
      rw [Option.mem_def.mp hc] at hhead
      simpa using hhead

theorem firstMsgid_append {a : CString} (ha : WholeLines a) (b : CString) :
    firstMsgid (a ++ b) = (firstMsgid a).or (firstMsgid b) := by
  unfold firstMsgid
  rw [fileLines_append (by decide) ha, List.findSome?_append]

/-- Without the first character of a `MSGID` line there is no such line. -/
theorem firstMsgid_eq_none {a : CString} (ha : ∀ c ∈ a, c ≠ '\x01' ∧ c ≠ '^' ∧ c ≠ 'F') :
    firstMsgid a = none := by
  unfold firstMsgid
  rw [List.findSome?_eq_none_iff]
  intro l hl
  have hsub := subset_of_mem_fileLines (by decide) hl
  unfold extractFtnMsgidFromLine
  cases hv : msgidLineValue l with
  | none => rfl
  | some p =>
    rcases msgidLineValue_some hv with h | h | h
    · exact absurd rfl (ha _ (hsub h)).1
    · exact absurd rfl (ha _ (hsub h)).2.1
    · exact absurd rfl (ha _ (hsub h)).2.2

theorem firstMsgid_some {a id : CString} (h : firstMsgid a = some id) :
    id ≠ [] ∧ ∀ c ∈ id.head?, isSpace c = false := by
  obtain ⟨l, -, hl⟩ := List.exists_of_findSome?_eq_some h
  exact extractFtnMsgidFromLine_some hl

/-! ## The line with the `MSGID` -/

/-- The name at the beginning of the line. -/
def msgidHeader : CString := "FTN-MSGID: ".toList

/-- What the scan sees of a `MSGID`: the part that fits the line buffer. -/
def msgidSeen (msgid : CString) : CString := msgid.take 147

theorem fgets_msgidLine {msgid : CString} (hm : '\n' ∉ msgid) (rest : CString) :
    ∃ e, (e = [] ∨ e = ['\n']) ∧
      (fgets longLine (msgidHeader ++ msgid ++ '\n' :: rest)).1 =
        msgidHeader ++ msgidSeen msgid ++ e := by
  have hlen : msgidHeader.length = 11 := by decide
  have hnl : '\n' ∉ msgidHeader ++ msgid := by
    rw [List.mem_append, not_or]
    exact ⟨by decide, hm⟩
  rcases Nat.lt_or_ge msgid.length 147 with hlt | hge
  · refine ⟨['\n'], Or.inr rfl, ?_⟩
    rw [fgets_line hnl (by rw [List.length_append, hlen, longLine]; omega), msgidSeen,
      List.take_of_length_le (by omega)]
  · refine ⟨[], Or.inl rfl, ?_⟩
    have hmin : min (longLine - 1) ((msgidHeader ++ msgid ++ '\n' :: rest).length -
        ('\n' :: rest).length + 1) = 158 := by
      rw [List.length_append, Nat.add_sub_cancel, List.length_append, hlen, longLine]
      omega
    simp only [fgets, strchr_append hnl, hmin]
    rw [List.append_nil, List.append_assoc, List.take_append, hlen,
      List.take_of_length_le (by rw [hlen]; decide), List.take_append_of_le_length (by omega)]
    rfl

theorem dropWhile_isBlank_append {a e : CString} (he : e = [] ∨ e = ['\n']) :
    (a ++ e).dropWhile isBlank = a.dropWhile isBlank ++ e := by
  rw [List.dropWhile_append]
  split
  · next h =>
    rw [List.isEmpty_iff.mp h]
    rcases he with rfl | rfl <;> rfl
  · rfl

theorem dropWhile_isSpace_isBlank (a : CString) :
    (a.dropWhile isBlank).dropWhile isSpace = a.dropWhile isSpace := by
  induction a with
  | nil => rfl
  | cons c a ih =>
    by_cases hc : isBlank c = true
    · have hs : isSpace c = true := by
        unfold isBlank at hc
        rw [Bool.or_eq_true, decide_eq_true_eq, decide_eq_true_eq] at hc
        rcases hc with rfl | rfl <;> rfl
      rw [List.dropWhile_cons_of_pos hc, List.dropWhile_cons_of_pos hs, ih]
    · rw [List.dropWhile_cons_of_neg hc]

theorem extract_msgidLine {m e : CString} (hm : ∀ c ∈ m, isEol c = false) (hlen : m.length ≤ 147)
    (he : e = [] ∨ e = ['\n']) : extractFtnMsgidFromLine (msgidHeader ++ m ++ e) =
      if m.dropWhile isSpace = [] then none else some (m.dropWhile isSpace) := by
  have hvalue : msgidLineValue (msgidHeader ++ m ++ e) = some (' ' :: (m ++ e)) := by
    have hcut : msgidHeader = "FTN-MSGID:".toList ++ [' '] := by decide
    have h3 : "FTN-MSGID:".toList.isPrefixOf (msgidHeader ++ m ++ e) = true := by
      rw [List.isPrefixOf_iff_prefix, hcut, List.append_assoc, List.append_assoc]
      exact List.prefix_append _ _
    have hhead : ∃ x, msgidHeader ++ m ++ e = 'F' :: x :=
      ⟨"TN-MSGID: ".toList ++ m ++ e, by rw [show msgidHeader = 'F' :: "TN-MSGID: ".toList by decide]; rfl⟩
    obtain ⟨x, hx⟩ := hhead
    have h1 : ¬ "\x01MSGID:".toList.isPrefixOf (msgidHeader ++ m ++ e) = true := by
      rw [hx, show "\x01MSGID:".toList = '\x01' :: "MSGID:".toList by decide, List.isPrefixOf]
      simp
    have h2 : ¬ "^AMSGID:".toList.isPrefixOf (msgidHeader ++ m ++ e) = true := by
      rw [hx, show "^AMSGID:".toList = '^' :: "AMSGID:".toList by decide, List.isPrefixOf]
      simp
    have hlen : "FTN-MSGID:".toList.length = 10 := by decide
    unfold msgidLineValue
    rw [if_neg h1, if_neg h2, if_pos h3, hcut, List.append_assoc, List.append_assoc, ← hlen,
      List.drop_left]
    rfl
  have hblank : (' ' :: (m ++ e)).dropWhile isBlank = m.dropWhile isBlank ++ e := by
    rw [List.dropWhile_cons_of_pos (by decide), dropWhile_isBlank_append he]
  have hle : (m.dropWhile isBlank).length ≤ 147 :=
    (List.dropWhile_suffix isBlank).length_le.trans hlen
  have hcopy : strlcpy 256 (m.dropWhile isBlank ++ e) = m.dropWhile isBlank ++ e := by
    apply List.take_of_length_le
    rw [List.length_append]
    rcases he with rfl | rfl <;> simp <;> omega
  have hline : (m.dropWhile isBlank ++ e).takeWhile (fun c => !isEol c) = m.dropWhile isBlank := by
    have hall : ∀ c ∈ m.dropWhile isBlank, (!isEol c) = true := fun c hc => by
      rw [hm c ((List.dropWhile_suffix isBlank).subset hc)]
      rfl
    rw [List.takeWhile_append_of_pos hall]
    rcases he with rfl | rfl
    · rw [List.takeWhile_nil, List.append_nil]
    · rw [List.takeWhile_cons_of_neg (by decide), List.append_nil]
  unfold extractFtnMsgidFromLine
  rw [hvalue]
  dsimp only
  rw [hblank, hcopy, hline, dropWhile_isSpace_isBlank]

/-- Whether the scan finds a message under its own `MSGID`: no line before the one with its `MSGID`
is taken for another one, and nothing of the `MSGID` is lost when its line is read. -/
def KeepsMsgid (area : CString) (msg : FidoMsg) : Prop :=
  match firstMsgid (msg.subject ++ ['\n'] ++ ftnHeaderHead area msg) with
  | some msgid => msgid = msg.msgid
  | none => msg.msgid.length ≤ 147 ∧ ∀ c ∈ msg.msgid.head?, isSpace c = false

theorem dropWhile_msgidSeen_eq {msgid : CString} : (msgidSeen msgid).dropWhile isSpace = msgid ↔
    msgid.length ≤ 147 ∧ ∀ c ∈ msgid.head?, isSpace c = false := by
  have hle : (msgidSeen msgid).length ≤ 147 := List.length_take_le _ _
  constructor
  · intro heq
    have hsuf := (List.dropWhile_suffix (l := msgidSeen msgid) isSpace).length_le
    rw [heq] at hsuf
    have hlen : msgid.length ≤ 147 := hsuf.trans hle
    refine ⟨hlen, fun c hc => ?_⟩
    have hhead := List.head?_dropWhile_not isSpace (msgidSeen msgid)
    rw [heq, Option.mem_def.mp hc] at hhead
    simpa using hhead
  · rintro ⟨hlen, hhead⟩
    rw [msgidSeen, List.take_of_length_le hlen]
    cases msgid with
    | nil => rfl
    | cons c t => exact List.dropWhile_cons_of_neg (by simp [hhead c rfl])

/-- The first `MSGID` in the line of a message and what follows is its own when the scan sees it. -/
theorem firstMsgid_msgidLine {msgid : CString} (hne : msgid ≠ []) (hm : ∀ c ∈ msgid, isEol c = false)
    (rest : CString) : firstMsgid (msgidHeader ++ msgid ++ '\n' :: rest) = some msgid ↔
      msgid.length ≤ 147 ∧ ∀ c ∈ msgid.head?, isSpace c = false := by
  have hnl : '\n' ∉ msgid := fun h => by simpa [isEol] using hm _ h
  obtain ⟨e, he, hline⟩ := fgets_msgidLine hnl rest
  have hextract := extract_msgidLine (m := msgidSeen msgid)
    (fun c hc => hm c (List.mem_of_mem_take hc)) (List.length_take_le _ _) he
  have hfile : msgidHeader ++ msgid ++ '\n' :: rest ≠ [] := by simp
  rw [← dropWhile_msgidSeen_eq]
  unfold firstMsgid
  rw [fileLines_of_ne (by decide) hfile, List.findSome?_cons, hline, hextract]
  split
  · next id hid =>
    split at hid
    · cases hid
    · cases hid
      exact ⟨Option.some.inj, congrArg some⟩
  · next hid =>
    split at hid
    · next hnil =>
      rw [hnil]
      refine iff_of_false ?_ (fun h => hne h.symm)
      -- a later line does not begin with white space, as this `MSGID` does
      intro hlater
      obtain ⟨l, -, hl⟩ := List.exists_of_findSome?_eq_some hlater
      have hhead := (extractFtnMsgidFromLine_some hl).2
      obtain ⟨c, t, rfl⟩ := List.exists_cons_of_ne_nil hne
      have hc : isSpace c = true := List.dropWhile_eq_nil_iff.mp hnil c List.mem_cons_self
      rw [hhead c rfl] at hc
      cases hc
    · cases hid

/-! ## The texts of an import -/

/-- The characters of numbers and of what separates them. -/
def IsNumberChar (c : Char) : Prop := c.isDigit = true ∨ c = '-' ∨ c = ':' ∨ c = '\n'

theorem firstMsgid_numbers {a : CString} (ha : ∀ c ∈ a, IsNumberChar c) : firstMsgid a = none := by
  refine firstMsgid_eq_none fun c hc => ?_
  rcases ha c hc with h | rfl | rfl | rfl
  · refine ⟨?_, ?_, ?_⟩ <;> (rintro rfl; cases h)
  all_goals decide

theorem isNumberChar_field {n : Int} {c : Char} (hc : c ∈ field n) : IsNumberChar c := by
  rw [field, List.mem_append, List.mem_singleton] at hc
  rcases hc with hc | rfl
  · exact (mem_decimal hc).imp_right Or.inl
  · exact Or.inr (Or.inr (Or.inl rfl))

theorem isNumberChar_decimal_line {n : Int} {c : Char} (hc : c ∈ decimal n ++ ['\n']) :
    IsNumberChar c := by
  rw [List.mem_append, List.mem_singleton] at hc
  rcases hc with hc | rfl
  · exact (mem_decimal hc).imp_right Or.inl
  · exact Or.inr (Or.inr (Or.inr rfl))

theorem isNumberChar_childLinks {imported : List Imported} {n : Int} {c : Char}
    (hc : c ∈ childLinks imported n) : IsNumberChar c := by
  unfold childLinks linkLine at hc
  obtain ⟨i, -, hi⟩ := List.mem_flatMap.mp hc
  rw [List.append_assoc, List.mem_append] at hi
  exact hi.elim isNumberChar_field isNumberChar_decimal_line

theorem scanInt_decimal (n : Int) {s : CString} (hs : NoDigit s) :
    scanInt (decimal n ++ s) = some (n, s) := by
  have hne : ¬ s = decimal n ++ s := by
    intro h
    have hlen := congrArg List.length h
    have hpos := List.length_pos_iff.mpr (decimal_ne_nil n)
    rw [List.length_append] at hlen
    omega
  rw [scanInt, strtol_decimal n hs, if_neg hne]

theorem scanChar_self (c : Char) (s : CString) : scanChar c (c :: s) = some s := if_pos rfl

theorem scanTextHeader_fields (n uid when com : Int) (s : CString) :
    scanTextHeader (field n ++ (field uid ++ (field when ++ (field com ++ s)))) =
      some (n, uid, when, com) := by
  have hcolon : ∀ t : CString, NoDigit (':' :: t) := fun t => noDigit_cons.mpr rfl
  simp only [scanTextHeader, field, List.append_assoc, List.cons_append, List.nil_append,
    scanInt_decimal _ (hcolon _), scanChar_self, Option.bind_eq_bind, Option.bind_some,
    Option.pure_def]

theorem stripEol_decimal (a : CString) (n : Int) : stripEol (a ++ decimal n) = a ++ decimal n := by
  have hne := decimal_ne_nil n
  have hlast : isEol ((decimal n).getLast hne) = false := by
    rcases mem_decimal (List.getLast_mem hne) with h | h
    · rw [Bool.eq_false_iff]
      intro he
      unfold isEol at he
      rw [Bool.or_eq_true, decide_eq_true_eq, decide_eq_true_eq] at he
      rcases he with he | he <;> (rw [he] at h; cases h)
    · rw [h]
      rfl
  refine trimEnd_eq_self fun c hc => ?_
  rw [List.getLast?_append, List.getLast?_eq_getLast_of_ne_nil hne] at hc
  cases hc
  exact hlast

/-- The author of a text whose number line is as `send_ftn` writes it. -/
theorem readSkomExportText_uid (n uid when com a b lines : Int) (rest : CString) :
    (readSkomExportText (field n ++ (field uid ++ (field when ++ (field com ++ (field a ++
      (field b ++ (decimal lines ++ ('\n' :: rest))))))))).map (·.uid) = some uid := by
  have hnl : '\n' ∉ field n ++ (field uid ++ (field when ++ (field com ++ (field a ++ (field b ++
      decimal lines))))) := by
    have hfield : ∀ k, '\n' ∉ field k := fun k h => by
      rw [field, List.mem_append, List.mem_singleton] at h
      rcases h with h | h
      · rcases mem_decimal h with h | h <;> cases h
      · cases h
    have hlines : '\n' ∉ decimal lines := fun h => by
      rcases mem_decimal h with h | h <;> cases h
    simp [hfield, hlines]
  have hstrip := stripEol_decimal
    (field n ++ (field uid ++ (field when ++ (field com ++ (field a ++ field b))))) lines
  simp only [List.append_assoc] at hstrip
  have hsplit : field n ++ (field uid ++ (field when ++ (field com ++ (field a ++ (field b ++
      (decimal lines ++ ('\n' :: rest))))))) = (field n ++ (field uid ++ (field when ++ (field com ++
        (field a ++ (field b ++ decimal lines)))))) ++ '\n' :: rest := by
    simp only [List.append_assoc]
  rw [hsplit]
  unfold readSkomExportText
  rw [strchr_append hnl]
  dsimp only
  rw [List.length_append, Nat.add_sub_cancel, List.take_left, hstrip, scanTextHeader_fields]
  rfl

/-- The number line of an imported text. -/
def importedMeta (env : FtnEnv) (i : Imported) : CString :=
  field i.textnum ++ (field 0 ++ (field (ftnTextTime env i.item.msg) ++ (field i.com ++ (field 0 ++
    (field 0 ++ (decimal (countBodyLines (buildFtnMbuf env.area i.item.msg i.reason)) ++ ['\n']))))))

theorem isNumberChar_importedMeta {env : FtnEnv} {i : Imported} {c : Char}
    (hc : c ∈ importedMeta env i) : IsNumberChar c := by
  unfold importedMeta at hc
  rw [List.mem_append, List.mem_append, List.mem_append, List.mem_append, List.mem_append,
    List.mem_append] at hc
  rcases hc with hc | hc | hc | hc | hc | hc | hc
  all_goals first
    | exact isNumberChar_field hc
    | exact isNumberChar_decimal_line hc

theorem wholeLines_importedMeta (env : FtnEnv) (i : Imported) : WholeLines (importedMeta env i) := by
  unfold importedMeta
  simp only [← List.append_assoc]
  exact .line _

/-- What stands in an imported text behind its `MSGID`. -/
def importedRest (msg : FidoMsg) (reason : CString) : CString :=
  optionalLine "FTN-REPLY: ".toList msg.reply ++ (optionalLine "FTN-CHRS: ".toList msg.chrs ++
    (optionalLine "FTN-Unsafe: ".toList reason ++ (['\n'] ++ wrapFtnBodyForSkom msg.cleanBody)))

theorem importedFile_eq (env : FtnEnv) {i : Imported} (hne : i.item.msg.msgid ≠ []) :
    importedFile env i = importedMeta env i ++ (i.item.msg.subject ++ ['\n'] ++
      ftnHeaderHead env.area i.item.msg ++ (msgidHeader ++ i.item.msg.msgid ++
        '\n' :: importedRest i.item.msg i.reason)) := by
  have hline : optionalLine "FTN-MSGID: ".toList i.item.msg.msgid =
      msgidHeader ++ i.item.msg.msgid ++ ['\n'] := if_neg hne
  simp only [importedFile, ftnTextFile, importedMeta, importedRest, buildFtnMbuf, hline,
    List.append_assoc, List.cons_append, List.nil_append]

theorem wholeLines_ftnHeaderHead (area : CString) (msg : FidoMsg) :
    WholeLines (ftnHeaderHead area msg) := by
  unfold ftnHeaderHead
  rw [← List.append_assoc]
  exact .line _

/-- What the scan makes of an imported text, whatever has been added to it. -/
theorem scanText_imported (confnum : Int) (aka : FtnAddress) (env : FtnEnv) {i : Imported}
    (hne : i.item.msg.msgid ≠ []) (hm : ∀ c ∈ i.item.msg.msgid, isEol c = false) (links : CString)
    (n : Int) : scanText confnum aka n (some (importedFile env i ++ links)) =
        some i.item.msg.msgid ↔ KeepsMsgid env.area i.item.msg := by
  have hfile : importedFile env i ++ links = importedMeta env i ++ (i.item.msg.subject ++ ['\n'] ++
      ftnHeaderHead env.area i.item.msg ++ (msgidHeader ++ i.item.msg.msgid ++
        '\n' :: (importedRest i.item.msg i.reason ++ links))) := by
    simp only [importedFile_eq env hne, List.append_assoc, List.cons_append]
  have hhead : WholeLines (i.item.msg.subject ++ ['\n'] ++ ftnHeaderHead env.area i.item.msg) :=
    (WholeLines.line _).append (wholeLines_ftnHeaderHead _ _)
  have hline := firstMsgid_msgidLine hne hm (importedRest i.item.msg i.reason ++ links)
  have hfirst : firstMsgid (importedFile env i ++ links) =
      (firstMsgid (i.item.msg.subject ++ ['\n'] ++ ftnHeaderHead env.area i.item.msg)).or
        (firstMsgid (msgidHeader ++ i.item.msg.msgid ++
          '\n' :: (importedRest i.item.msg i.reason ++ links))) := by
    rw [hfile, firstMsgid_append (wholeLines_importedMeta env i),
      firstMsgid_numbers fun c hc => isNumberChar_importedMeta hc, firstMsgid_append hhead]
    rfl
  have huid : (readSkomExportText (importedFile env i ++ links)).map (·.uid) = some 0 := by
    rw [hfile]
    simp only [importedMeta, List.append_assoc, List.cons_append, List.nil_append]
    exact readSkomExportText_uid _ 0 _ _ _ _ _ _
  unfold KeepsMsgid scanText
  rw [Option.bind_eq_bind, Option.bind_some, hfirst]
  cases hh : firstMsgid (i.item.msg.subject ++ ['\n'] ++ ftnHeaderHead env.area i.item.msg) with
  | some id => exact Option.some_inj
  | none =>
    rw [Option.none_or, ← hline]
    dsimp only
    cases hl : firstMsgid (msgidHeader ++ i.item.msg.msgid ++
      '\n' :: (importedRest i.item.msg i.reason ++ links)) with
    | some id => exact Iff.rfl
    | none =>
      obtain ⟨t, ht, hzero⟩ := Option.map_eq_some_iff.mp huid
      dsimp only
      rw [ht, Option.bind_eq_bind, Option.bind_some, hzero, if_neg (by decide)]

/-! ## The texts that were there before -/

theorem scanText_congr {confnum n : Int} {aka : FtnAddress} {file file' : CString}
    (hfirst : firstMsgid file = firstMsgid file')
    (huid : (readSkomExportText file).map (·.uid) = (readSkomExportText file').map (·.uid)) :
    scanText confnum aka n (some file) = scanText confnum aka n (some file') := by
  unfold scanText
  rw [Option.bind_eq_bind, Option.bind_some, Option.bind_eq_bind, Option.bind_some, hfirst]
  cases firstMsgid file' with
  | some id => rfl
  | none =>
    dsimp only
    cases h : readSkomExportText file with
    | none =>
      rw [h, Option.map_none, eq_comm, Option.map_eq_none_iff] at huid
      rw [huid]
    | some t =>
      rw [h, Option.map_some] at huid
      obtain ⟨t', ht', he⟩ := Option.map_eq_some_iff.mp huid.symm
      rw [ht', Option.bind_some, Option.bind_some, he]

/-- What is added to a text does not change its author. -/
theorem uid_append {a : CString} (ha : '\n' ∈ a) (b : CString) :
    (readSkomExportText (a ++ b)).map (·.uid) = (readSkomExportText a).map (·.uid) := by
  obtain ⟨x, r, rfl, hx⟩ : ∃ x r, a = x ++ '\n' :: r ∧ '\n' ∉ x := by
    cases hnl : strchr a '\n' with
    | none => exact absurd ha (notMem_of_strchr hnl)
    | some p =>
      obtain ⟨x, r, rfl, -, hx⟩ := strchr_split hnl
      exact ⟨x, r, rfl, hx⟩
  have hcut : ∀ r, (readSkomExportText (x ++ '\n' :: r)).map (·.uid) =
      (scanTextHeader (stripEol x)).map (·.2.1) := by
    intro r
    unfold readSkomExportText
    rw [strchr_append hx]
    dsimp only
    rw [List.length_append, Nat.add_sub_cancel, List.take_left]
    cases scanTextHeader (stripEol x) <;> rfl
  rw [List.append_assoc, List.cons_append, hcut, hcut]

/-- A line for a comment has too few numbers for a text. -/
theorem uid_childLinks (imported : List Imported) (n : Int) :
    (readSkomExportText (childLinks imported n)).map (·.uid) = none := by
  have hline : ∀ (k : Int) (r : CString), readSkomExportText (linkLine ⟨k, 0⟩ ++ r) = none := by
    intro k r
    have hnl : '\n' ∉ field k ++ decimal 0 := by
      rw [List.mem_append, not_or, field, List.mem_append, not_or]
      refine ⟨⟨fun h => ?_, by decide⟩, by decide⟩
      rcases mem_decimal h with h | h <;> cases h
    have hstrip := stripEol_decimal (field k) 0
    have hcolon : NoDigit (':' :: decimal 0) := noDigit_cons.mpr rfl
    have hzero : scanInt (decimal 0) = some (0, []) := by decide
    have hsplit : linkLine ⟨k, 0⟩ ++ r = (field k ++ decimal 0) ++ '\n' :: r := by
      simp only [linkLine, List.append_assoc, List.cons_append, List.nil_append]
    rw [hsplit]
    unfold readSkomExportText
    rw [strchr_append hnl]
    dsimp only
    rw [List.length_append, Nat.add_sub_cancel, List.take_left, hstrip]
    simp only [scanTextHeader, field, List.append_assoc, List.cons_append, List.nil_append,
      scanInt_decimal _ hcolon, scanChar_self, hzero, Option.bind_eq_bind, Option.bind_some]
    rfl
  unfold childLinks
  cases imported.filter fun i => i.com = n with
  | nil => rfl
  | cons i l => rw [List.flatMap_cons, hline, Option.map_none]

/-- The lines for new comments do not change what the scan makes of a text. -/
theorem scanText_childLinks (confnum : Int) (aka : FtnAddress) (k : Int) {t : Option CString}
    (ht : ∀ a ∈ t, WholeLines a) (imported : List Imported) (n : Int) :
    scanText confnum aka k (if childLinks imported n = [] then t
      else some (t.getD [] ++ childLinks imported n)) = scanText confnum aka k t := by
  have hlinks : firstMsgid (childLinks imported n) = none :=
    firstMsgid_numbers fun c hc => isNumberChar_childLinks hc
  have hempty : scanText confnum aka k (some (childLinks imported n)) = scanText confnum aka k (some []) :=
    scanText_congr hlinks (uid_childLinks imported n)
  split
  · rfl
  · cases t with
    | none => exact hempty
    | some a =>
      rw [Option.getD_some]
      by_cases hne : a = []
      · rw [hne]
        exact hempty
      · refine scanText_congr ?_ (uid_append ((ht a rfl).mem hne) _)
        rw [firstMsgid_append (ht a rfl), hlinks, Option.or_none]

/-! ## The index of a scan -/

theorem scanText_ne_nil {confnum n : Int} {aka : FtnAddress} {file : Option CString} {id : CString}
    (h : scanText confnum aka n file = some id) : id ≠ [] := by
  unfold scanText at h
  cases file with
  | none => cases h
  | some file =>
    rw [Option.bind_eq_bind, Option.bind_some] at h
    cases hf : firstMsgid file with
    | some id' =>
      rw [hf] at h
      cases h
      exact (firstMsgid_some hf).1
    | none =>
      rw [hf] at h
      dsimp only at h
      cases ht : readSkomExportText file with
      | none =>
        rw [ht] at h
        cases h
      | some t =>
        rw [ht, Option.bind_eq_bind, Option.bind_some] at h
        split at h
        · cases h
          rw [makeFtnMsgidForAka, strlcpy, ne_eq, List.take_eq_nil_iff]
          simp
        · cases h

theorem mem_foldl_scanStep (confnum : Int) (aka : FtnAddress) (texts : Int → Option CString)
    {ns : List Int} (hpos : ∀ n ∈ ns, 0 < n) (refs : List Skref) (r : Skref) :
    r ∈ ns.foldl (scanStep confnum aka texts) refs ↔
      r ∈ refs ∨ r.textnum ∈ ns ∧ scanText confnum aka r.textnum (texts r.textnum) = some r.msgid := by
  induction ns generalizing refs with
  | nil => simp
  | cons n ns ih =>
    obtain ⟨hn, hns⟩ := List.forall_mem_cons.mp hpos
    have hstep : r ∈ scanStep confnum aka texts refs n ↔
        r ∈ refs ∨ r.textnum = n ∧ scanText confnum aka n (texts n) = some r.msgid := by
      unfold scanStep
      cases hs : scanText confnum aka n (texts n) with
      | none => simp
      | some id =>
        dsimp only
        rw [addSkref, if_neg (by rw [not_or]; exact ⟨scanText_ne_nil hs, by omega⟩), List.mem_cons,
          or_comm, Option.some_inj]
        refine or_congr_right ⟨?_, ?_⟩
        · rintro rfl
          exact ⟨rfl, rfl⟩
        · rintro ⟨hnum, hid⟩
          cases r
          cases hnum
          cases hid
          rfl
    rw [List.foldl_cons, ih hns, hstep, List.mem_cons, or_assoc, or_and_right]
    refine or_congr_right (or_congr_left ⟨?_, ?_⟩)
    · rintro ⟨hnum, hs⟩
      exact ⟨hnum, hnum ▸ hs⟩
    · rintro ⟨hnum, hs⟩
      exact ⟨hnum, hnum ▸ hs⟩

theorem mem_scan (confnum : Int) (aka : FtnAddress) (conf : FtnConf) (r : Skref) :
    r ∈ scanExistingSklMsgids confnum aka conf ↔ 0 < r.textnum ∧ r.textnum ≤ conf.lastText ∧
      scanText confnum aka r.textnum (conf.texts r.textnum) = some r.msgid := by
  have hnums : ∀ n : Int, n ∈ (List.range conf.lastText.toNat).map (fun k : Nat => (k : Int) + 1) ↔
      0 < n ∧ n ≤ conf.lastText := by
    intro n
    rw [List.mem_map]
    constructor
    · rintro ⟨k, hk, rfl⟩
      rw [List.mem_range] at hk
      omega
    · rintro ⟨h0, hle⟩
      refine ⟨(n - 1).toNat, ?_, by omega⟩
      rw [List.mem_range]
      omega
  rw [scanExistingSklMsgids, mem_foldl_scanStep confnum aka conf.texts fun n hn => ((hnums n).mp hn).1,
    hnums, and_assoc]
  simp

theorem indexOf_scan (confnum : Int) (aka : FtnAddress) (conf : FtnConf) :
    IndexOf conf.lastText (scanExistingSklMsgids confnum aka conf) := by
  intro r hr
  obtain ⟨h0, hle, -⟩ := (mem_scan confnum aka conf r).mp hr
  exact ⟨h0, hle⟩

/-! ## The scan after an import -/

/-- Every imported message is found under its `MSGID` and number, and under nothing else, and
another import of the spool stores nothing. -/
structure Rescanned (confnum : Int) (aka : FtnAddress) (includeUnsafe : Bool) (items : List MsgItem)
    (s : ImportState) : Prop where
  found : ∀ i ∈ s.imported, ∀ msgid,
    ⟨msgid, i.textnum⟩ ∈ scanExistingSklMsgids confnum aka s.conf ↔ msgid = i.item.msg.msgid
  again : ∀ env n, 0 < n → importLoop env includeUnsafe items n
    (.start (scanExistingSklMsgids confnum aka s.conf) s.conf) =
      some (.start (scanExistingSklMsgids confnum aka s.conf) s.conf)

section Rescan

variable {env : FtnEnv} {includeUnsafe : Bool} {items : List MsgItem} {skrefs : List Skref}
  {conf : FtnConf} {confnum : Int} {aka : FtnAddress}

/-- What the scan makes of the texts after an import. -/
theorem scanText_importAfter (hlast : 0 ≤ conf.lastText) (hindex : IndexOf conf.lastText skrefs)
    (htexts : ∀ k t, conf.texts k = some t → WholeLines t)
    (hmsgid : ∀ m ∈ items, ∀ c ∈ m.msg.msgid, isEol c = false) {h : List MsgItem}
    (hg : Grows (imports env includeUnsafe items (.start skrefs conf)) items [] h) :
    let s := importAfter env includeUnsafe items (.start skrefs conf) h
    (∀ k, 0 < k → k ≤ conf.lastText →
      scanText confnum aka k (s.conf.texts k) = scanText confnum aka k (conf.texts k)) ∧
    ∀ i ∈ s.imported, scanText confnum aka i.textnum (s.conf.texts i.textnum) =
      some i.item.msg.msgid ↔ KeepsMsgid env.area i.item.msg := by
  have hst := stores_importAfter hlast hindex hg
  have hp := passed_of_grows hlast hg
  intro s
  refine ⟨fun k h0 hk => ?_, fun i hi => ?_⟩
  · rw [hst.old k h0 hk]
    exact scanText_childLinks confnum aka k (fun a ha => htexts k a ha) _ k
  · have hih : i.item ∈ h := hp.items_eq ▸ List.mem_map_of_mem hi
    rw [hst.new i hi]
    refine scanText_imported confnum aka env (hp.isNew _ hih).1 (hmsgid _ ?_) _ _
    exact (hg.mem hih).resolve_left List.not_mem_nil

theorem foldl_scanStep_congr {texts texts' : Int → Option CString} {ns : List Int}
    (heq : ∀ n ∈ ns, scanText confnum aka n (texts n) = scanText confnum aka n (texts' n))
    (refs : List Skref) :
    ns.foldl (scanStep confnum aka texts) refs = ns.foldl (scanStep confnum aka texts') refs := by
  induction ns generalizing refs with
  | nil => rfl
  | cons n ns ih =>
    obtain ⟨hn, hns⟩ := List.forall_mem_cons.mp heq
    rw [List.foldl_cons, List.foldl_cons, scanStep, scanStep, hn, ih hns]

/-- The scan goes through the new texts in the order of the import. -/
theorem foldl_scanStep_imported {texts : Int → Option CString} {imported : List Imported} {n : Int}
    (hnum : imported.map (·.textnum) = (List.range imported.length).map fun k : Nat => n + k)
    (hscan : ∀ i ∈ imported, scanText confnum aka i.textnum (texts i.textnum) = some i.item.msg.msgid)
    (refs : List Skref) : (imported.map (·.textnum)).foldl (scanStep confnum aka texts) refs =
      indexAfter refs n (imported.map (·.item)) := by
  induction imported generalizing n refs with
  | nil => rfl
  | cons i imported ih =>
    obtain ⟨hi, himported⟩ := List.forall_mem_cons.mp hscan
    rw [List.map_cons, List.length_cons, List.range_succ_eq_map, List.map_cons, List.map_map] at hnum
    obtain ⟨hhead, htail⟩ := List.cons.inj hnum
    have hhead : i.textnum = n := by simpa using hhead
    rw [List.map_cons, List.map_cons, List.foldl_cons, indexAfter, ← ih (n := n + 1) ?_ himported,
      scanStep, hi, hhead]
    rw [htail]
    refine List.map_congr_left fun k _ => ?_
    simp only [Function.comp_apply]
    push_cast
    omega

/-- When every message is found again, the scan comes to the index of the import. -/
theorem scan_importAfter (hlast : 0 ≤ conf.lastText)
    (htexts : ∀ k t, conf.texts k = some t → WholeLines t)
    (hmsgid : ∀ m ∈ items, ∀ c ∈ m.msg.msgid, isEol c = false) {h : List MsgItem}
    (hg : Grows (imports env includeUnsafe items
      (.start (scanExistingSklMsgids confnum aka conf) conf)) items [] h)
    (hkeeps : ∀ i ∈ (importAfter env includeUnsafe items
      (.start (scanExistingSklMsgids confnum aka conf) conf) h).imported, KeepsMsgid env.area i.item.msg) :
    scanExistingSklMsgids confnum aka (importAfter env includeUnsafe items
      (.start (scanExistingSklMsgids confnum aka conf) conf) h).conf =
      (importAfter env includeUnsafe items
        (.start (scanExistingSklMsgids confnum aka conf) conf) h).skrefs := by
  have hp := passed_of_grows hlast hg
  obtain ⟨hold, hnew⟩ := @scanText_importAfter _ _ _ _ _ confnum aka hlast
    (indexOf_scan confnum aka conf) htexts hmsgid _ hg
  set s := importAfter env includeUnsafe items (.start (scanExistingSklMsgids confnum aka conf) conf) h
  have hlen : s.imported.length = h.length := by rw [← hp.items_eq, List.length_map]
  have hnat : s.conf.lastText.toNat = conf.lastText.toNat + h.length := by
    rw [hp.lastText]
    omega
  have hnums : ((List.range h.length).map (conf.lastText.toNat + ·)).map (fun k : Nat => (k : Int) + 1) =
      s.imported.map (·.textnum) := by
    rw [hp.textnums, List.map_map]
    refine List.map_congr_left fun k _ => ?_
    simp only [Function.comp_apply]
    push_cast
    omega
  have hfirst : ((List.range conf.lastText.toNat).map fun k : Nat => (k : Int) + 1).foldl
      (scanStep confnum aka s.conf.texts) [] = scanExistingSklMsgids confnum aka conf := by
    refine foldl_scanStep_congr (fun n hn => ?_) []
    obtain ⟨k, hk, rfl⟩ := List.mem_map.mp hn
    rw [List.mem_range] at hk
    exact hold _ (by omega) (by omega)
  have hrest := foldl_scanStep_imported
    (by rw [hlen]; exact hp.textnums) (fun i hi => (hnew i hi).mpr (hkeeps i hi))
    (scanExistingSklMsgids confnum aka conf)
  rw [scanExistingSklMsgids, hnat, List.range_add, List.map_append, List.foldl_append, hfirst, hnums,
    hrest, hp.items_eq, hp.skrefs_eq]

theorem importPass_of_none {s : ImportState} {ms : List MsgItem}
    (hnone : ∀ m ∈ ms, importDecision includeUnsafe items s.skrefs m.msg = none) :
    importPass env includeUnsafe items ms s = some s := by
  induction ms with
  | nil => rfl
  | cons m ms ih =>
    obtain ⟨hm, hms⟩ := List.forall_mem_cons.mp hnone
    rw [importPass, hm]
    exact ih hms

end Rescan

/-- An import stores messages that the next scan finds again.  After it, the scan has an imported
message under its own `MSGID` and number, and nothing else there, exactly when nothing in front of the
line with the `MSGID` is taken for another one and the line does not lose any of it; and all of them
are found, so that the next import of the spool stores nothing, exactly when this holds of them all. -/
theorem importAllFtn_rescan_iff (env : FtnEnv) (confnum : Int) (aka : FtnAddress)
    (includeUnsafe : Bool) (items : List MsgItem) (conf : FtnConf) (hlast : 0 ≤ conf.lastText)
    (htexts : ∀ k t, conf.texts k = some t → WholeLines t)
    (hmsgid : ∀ m ∈ items, ∀ c ∈ m.msg.msgid, isEol c = false) :
    ∃ s, (∀ n, items.length < n → importLoop env includeUnsafe items n
        (.start (scanExistingSklMsgids confnum aka conf) conf) = some s) ∧
      (∀ i ∈ s.imported, (∀ msgid, ⟨msgid, i.textnum⟩ ∈ scanExistingSklMsgids confnum aka s.conf ↔
        msgid = i.item.msg.msgid) ↔ KeepsMsgid env.area i.item.msg) ∧
      (Rescanned confnum aka includeUnsafe items s ↔
        ∀ i ∈ s.imported, KeepsMsgid env.area i.item.msg) := by
  have hindex := indexOf_scan confnum aka conf
  obtain ⟨h, hg, hstable, -, hloop⟩ :=
    @importLoop_total env items (scanExistingSklMsgids confnum aka conf) conf hlast includeUnsafe
  have hp := passed_of_grows hlast hg
  have hst := stores_importAfter hlast hindex hg
  have hscan := (@scanText_importAfter _ _ _ _ _ confnum aka hlast hindex htexts hmsgid _ hg).2
  have hequal := scan_importAfter hlast htexts hmsgid hg
  refine ⟨_, hloop, ?_⟩
  set s := importAfter env includeUnsafe items (.start (scanExistingSklMsgids confnum aka conf) conf) h
  have hfound : ∀ i ∈ s.imported, (∀ msgid,
      ⟨msgid, i.textnum⟩ ∈ scanExistingSklMsgids confnum aka s.conf ↔ msgid = i.item.msg.msgid) ↔
        KeepsMsgid env.area i.item.msg := by
    intro i hi
    have hrange := hst.range i hi
    rw [← hscan i hi]
    simp only [mem_scan]
    constructor
    · intro hall
      exact ((hall i.item.msg.msgid).mpr rfl).2.2
    · intro hs msgid
      rw [hs]
      constructor
      · rintro ⟨-, -, he⟩
        exact (Option.some.inj he).symm
      · rintro rfl
        exact ⟨by omega, hrange.2.2, rfl⟩
  refine ⟨hfound, fun hr i hi => (hfound i hi).mp (hr.found i hi), fun hkeeps => ?_⟩
  refine ⟨fun i hi => (hfound i hi).mpr (hkeeps i hi), fun env' n hn => ?_⟩
  obtain ⟨n, rfl⟩ : ∃ k, n = k + 1 := ⟨n - 1, by omega⟩
  rw [hequal hkeeps, importLoop, importPass_of_none]
  · rfl
  · -- what is left of the spool is not imported with this index
    intro m hm
    have hf := hstable m hm
    unfold imports at hf
    rwa [Option.isSome_eq_false_iff, Option.isNone_iff_eq_none] at hf

def akaExample : FtnAddress := ⟨2, 201, 1, 0⟩

/-- A message, the answer to it in front of it, and the answer to that. -/
def answeredSpool : List MsgItem :=
  spool [spoolMsg "B" "A" "Re: hej", spoolMsg "A" "" "hej", spoolMsg "C" "B" "Re: hej"]

theorem importAllFtn_rescan_answered : ∃ s,
    importLoop ftnEnvExample false answeredSpool 4
      (.start (scanExistingSklMsgids 4 akaExample emptyFtnConf) emptyFtnConf) = some s ∧
    s.imported.map (·.item.msg.msgid) = ["A".toList, "B".toList, "C".toList] ∧
    Rescanned 4 akaExample false answeredSpool s := by
  have hall : answeredSpool.all (fun m => m.msg.msgid.all fun c => !isEol c) = true := by
    decide +kernel
  have hmsgid : ∀ m ∈ answeredSpool, ∀ c ∈ m.msg.msgid, isEol c = false := by simpa using hall
  obtain ⟨s, hloop, -, hiff⟩ := importAllFtn_rescan_iff ftnEnvExample 4 akaExample false answeredSpool
    emptyFtnConf (by decide) (by simp [emptyFtnConf]) hmsgid
  have hs := hloop 4 (by decide)
  have hrun : (importLoop ftnEnvExample false answeredSpool 4
      (.start (scanExistingSklMsgids 4 akaExample emptyFtnConf) emptyFtnConf)).map (fun s =>
        s.imported.map fun i => i.item.msg) =
      some [spoolMsg "A" "" "hej", spoolMsg "B" "A" "Re: hej", spoolMsg "C" "B" "Re: hej"] := by
    decide +kernel
  rw [hs] at hrun
  have himp : s.imported.map (fun i => i.item.msg) =
      [spoolMsg "A" "" "hej", spoolMsg "B" "A" "Re: hej", spoolMsg "C" "B" "Re: hej"] := Option.some.inj hrun
  refine ⟨s, hs, ?_, hiff.mpr fun i hi => ?_⟩
  · have hids := congrArg (List.map FidoMsg.msgid) himp
    rw [List.map_map] at hids
    exact hids
  · have hmem : i.item.msg ∈ s.imported.map fun i => i.item.msg := List.mem_map_of_mem hi
    rw [himp] at hmem
    have hkeeps : ∀ msg ∈ [spoolMsg "A" "" "hej", spoolMsg "B" "A" "Re: hej", spoolMsg "C" "B" "Re: hej"],
        firstMsgid (msg.subject ++ ['\n'] ++ ftnHeaderHead "SKLAFF".toList msg) = none ∧
          msg.msgid.length ≤ 147 ∧ msg.msgid.head?.all (!isSpace ·) = true := by decide +kernel
    obtain ⟨hnone, hlen, hhead⟩ := hkeeps i.item.msg hmem
    show KeepsMsgid "SKLAFF".toList i.item.msg
    unfold KeepsMsgid
    rw [hnone]
    refine ⟨hlen, fun c hc => ?_⟩
    rw [Option.mem_def.mp hc] at hhead
    simpa using hhead

/-- A message whose subject looks like a `MSGID` line. -/
def deceptiveSpool : List MsgItem := spool [spoolMsg "A" "" "FTN-MSGID: Z"]

theorem importAllFtn_rescan_misses : ∃ s,
    importLoop ftnEnvExample false deceptiveSpool 2
      (.start (scanExistingSklMsgids 4 akaExample emptyFtnConf) emptyFtnConf) = some s ∧
    ¬ Rescanned 4 akaExample false deceptiveSpool s := by
  have hrun : (importLoop ftnEnvExample false deceptiveSpool 2
      (.start (scanExistingSklMsgids 4 akaExample emptyFtnConf) emptyFtnConf)).map (fun s =>
        (s.imported.map fun i => (i.item.msg.msgid, i.textnum),
          scanExistingSklMsgids 4 akaExample s.conf)) =
      some ([("A".toList, 1)], [⟨"Z".toList, 1⟩]) := by decide +kernel
  obtain ⟨s, hs, hpair⟩ := Option.map_eq_some_iff.mp hrun
  obtain ⟨himp, hscan⟩ := Prod.mk.inj hpair
  refine ⟨s, hs, fun hr => ?_⟩
  have hmem : ("A".toList, (1 : Int)) ∈ s.imported.map fun i => (i.item.msg.msgid, i.textnum) :=
    himp ▸ List.mem_cons_self
  obtain ⟨i, hi, hie⟩ := List.mem_map.mp hmem
  obtain ⟨hid, hnum⟩ := Prod.mk.inj hie
  have hfound := (hr.found i hi i.item.msg.msgid).mpr rfl
  rw [hscan, hid, hnum, List.mem_singleton] at hfound
  revert hfound
  decide

end SklaffKom
