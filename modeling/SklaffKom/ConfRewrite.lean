import SklaffKom.MoreConf
import SklaffKom.Importer
import SklaffKom.Lib.Lists
import SklaffKom.Stdio

/-!
# The importer's copy of the conference list

`rewrite_conf_last_text` reads the list with `fgets` into a `LONG_LINE`, parses what it has read with
`parse_conf_line`, and prints the entry of the conference again.
-/

open CString

namespace SklaffKom

/-- The fields of `struct ftn_conf_info` -/
def ConfEntry.toInfo (ce : ConfEntry) : ConfEntry where
  num := toInt ce.num
  lastText := toLong ce.lastText
  creator := toInt ce.creator
  time := toLong ce.time
  type := toInt ce.type
  life := toInt ce.life
  comconf := toInt ce.comconf
  name := strlcpy lineLen ce.name

/-- `ce.last_text++` -/
def ConfEntry.next (ce : ConfEntry) : ConfEntry := { ce with lastText := ce.lastText + 1 }

/-- What the loop does with what `fgets` has read: the new number, if it is the line of the conference,
and what it prints; `none` is an overflow. -/
def rewritePiece (confid : Int) (line : CString) : Option (Option Int × CString) :=
  match (parseConfLine line).map ConfEntry.toInfo with
  | none => some (none, line)
  | some ce =>
    if ce.num = confid then
      if ce.lastText = 9223372036854775807 then none
      else some (some ce.next.lastText, stringifyConfStruct ce.next)
    else some (none, line)

/-- The loop: `*new_textnum` if it was set, and the temporary file. -/
def rewriteLoop (confid : Int) : List CString → Option (Option Int × CString)
  | [] => some (none, [])
  | line :: rest => do
    let r ← rewritePiece confid line
    let s ← rewriteLoop confid rest
    pure (s.1 <|> r.1, r.2 ++ s.2)

/-- The operations whose failure is noticed. -/
inductive ConfOp where
  | stat | openConf | openTmp | fixTmp | closeConf | closeTmp | rename

/-- `rewrite_conf_last_text`, with the operations that fail: the number if it returns 0, and the conference
list afterwards. -/
def rewriteConfLastText (fails : ConfOp → Bool) (confid : Int) (conf : CString) :
    Option (Option Int × CString) :=
  if fails .stat || fails .openConf || fails .openTmp || fails .fixTmp then some (none, conf)
  else do
    let r ← rewriteLoop confid (fileLines (longLineLen + 1) conf)
    if fails .closeConf || fails .closeTmp || r.1.isNone || fails .rename then return (none, conf)
    return r

/-- All entries that `get_conf_entry` reads from a file. -/
def readConfs (buf : CString) : Option (List ConfEntry) := allConfEntries (buf.length + 1) buf

/-! ## Entries in pieces -/

/-- The fields before the name. -/
def fieldsOf (e : ConfEntry) : CString :=
  field e.num ++ field e.lastText ++ field e.creator ++ field e.time ++ field e.type ++
    field e.life ++ field e.comconf

theorem stringify_fieldsOf (e : ConfEntry) : stringifyConfStruct e = fieldsOf e ++ (e.name ++ ['\n']) := by
  unfold stringifyConfStruct fieldsOf
  rw [List.append_assoc]

theorem parseConfLine_fieldsOf (e : ConfEntry) (s : CString) :
    parseConfLine (fieldsOf e ++ s) = some { e with name := s.takeWhile fun c => c ≠ '\r' ∧ c ≠ '\n' } := by
  unfold fieldsOf
  simp only [List.append_assoc, parseConfLine, nextField_field, atol_field, Option.bind_eq_bind,
    Option.bind_some, Option.pure_def]

/-- An entry as `struct CONF_ENTRY` holds it, with a name of at most 78 bytes. -/
structure ConfEntry.Stored (e : ConfEntry) : Prop where
  num : -2147483648 ≤ e.num ∧ e.num ≤ 2147483647
  lastText : -9223372036854775808 ≤ e.lastText ∧ e.lastText ≤ 9223372036854775807
  creator : -2147483648 ≤ e.creator ∧ e.creator ≤ 2147483647
  time : -9223372036854775808 ≤ e.time ∧ e.time ≤ 9223372036854775807
  type : -2147483648 ≤ e.type ∧ e.type ≤ 2147483647
  life : -2147483648 ≤ e.life ∧ e.life ≤ 2147483647
  comconf : -2147483648 ≤ e.comconf ∧ e.comconf ≤ 2147483647
  name : '\n' ∉ e.name ∧ e.name.length ≤ 78

theorem length_field_long {n : Int} (h : -9223372036854775808 ≤ n ∧ n ≤ 9223372036854775807) :
    (field n).length ≤ 21 := by
  have := length_decimal (n := n) (k := 19) (by decide) (by omega)
  rw [field, List.length_append, List.length_singleton]
  omega

section Stored

variable {e : ConfEntry}

/-- The name begins in the first piece. -/
theorem ConfEntry.Stored.fields (h : e.Stored) : (fieldsOf e).length ≤ 102 := by
  have h1 := length_field_int ⟨h.num.1, by have := h.num.2; omega⟩
  have h2 := length_field_long h.lastText
  have h3 := length_field_int ⟨h.creator.1, by have := h.creator.2; omega⟩
  have h4 := length_field_long h.time
  have h5 := length_field_int ⟨h.type.1, by have := h.type.2; omega⟩
  have h6 := length_field_int ⟨h.life.1, by have := h.life.2; omega⟩
  have h7 := length_field_int ⟨h.comconf.1, by have := h.comconf.2; omega⟩
  unfold fieldsOf
  simp only [List.length_append]
  omega

theorem ConfEntry.Stored.toInfo (h : e.Stored) {name : CString} (hname : name.length ≤ 78) :
    ({ e with name := name } : ConfEntry).toInfo = { e with name := name } := by
  have hcut : strlcpy lineLen name = name := List.take_of_length_le hname
  unfold ConfEntry.toInfo
  rw [toInt_of_range h.num, toLong_of_range h.lastText, toInt_of_range h.creator, toLong_of_range h.time,
    toInt_of_range h.type, toInt_of_range h.life, toInt_of_range h.comconf, hcut]

end Stored

/-- How `fgets` reads a line of the list. -/
def cutLine (l : CString) : List CString :=
  if l.length ≤ longLineLen then [l] else [l.take longLineLen, l.drop longLineLen]

theorem fileLines_stringify {e : ConfEntry} (h : e.Stored) (rest : CString) :
    fileLines (longLineLen + 1) (stringifyConfStruct e ++ rest) =
      cutLine (stringifyConfStruct e) ++ fileLines (longLineLen + 1) rest := by
  have hfields := h.fields
  have hlen : (stringifyConfStruct e).length = (fieldsOf e).length + e.name.length + 1 := by
    rw [stringify_fieldsOf, List.length_append, List.length_append, List.length_singleton]
    omega
  have hname := h.name.2
  obtain ⟨l, hl, hne, hnl⟩ := stringifyConfStruct_line h.name.1
  rw [hl, List.length_append, List.length_singleton] at hlen
  have hlong : longLineLen = 158 := rfl
  rw [hl, List.append_assoc, List.singleton_append]
  unfold cutLine
  rw [List.length_append, List.length_singleton]
  by_cases hfit : l.length + 1 ≤ longLineLen
  · rw [if_pos hfit, fileLines_line hnl (by omega)]
    rfl
  · have hdrop : (l ++ ['\n']).drop longLineLen = l.drop longLineLen ++ ['\n'] :=
      List.drop_append_of_le_length (by omega)
    have hrest : (l.drop longLineLen).length + 1 < longLineLen + 1 := by
      rw [List.length_drop]
      omega
    have hmem : '\n' ∉ l.drop longLineLen := fun hm => hnl (List.mem_of_mem_drop hm)
    rw [if_neg hfit, fileLines_of_ne (by omega) (by simp), fgets_cut hnl (by omega)]
    show l.take longLineLen :: fileLines _ (l.drop longLineLen ++ '\n' :: rest) = _
    rw [fileLines_line hmem hrest, List.take_append_of_le_length (by omega), hdrop]
    rfl

theorem rewriteLoop_append (confid : Int) (as bs : List CString) :
    rewriteLoop confid (as ++ bs) = (rewriteLoop confid as).bind fun r =>
      (rewriteLoop confid bs).map fun s => (s.1 <|> r.1, r.2 ++ s.2) := by
  induction as with
  | nil =>
    rw [List.nil_append, rewriteLoop, Option.bind_some]
    cases rewriteLoop confid bs with
    | none => rfl
    | some s =>
      rw [Option.map_some, List.nil_append]
      cases s with
      | mk num out => cases num <;> rfl
  | cons a as ih =>
    rw [List.cons_append, rewriteLoop, rewriteLoop, ih]
    cases rewritePiece confid a with
    | none => rfl
    | some r =>
      cases rewriteLoop confid as with
      | none => rfl
      | some s =>
        cases rewriteLoop confid bs with
        | none => rfl
        | some t =>
          show some (((t.1 <|> s.1) <|> r.1), r.2 ++ (s.2 ++ t.2)) =
            some ((t.1 <|> (s.1 <|> r.1)), (r.2 ++ s.2) ++ t.2)
          rw [List.append_assoc]
          cases t.1 <;> rfl

def rewriteEntry (confid : Int) (e : ConfEntry) : Option (Option Int × CString) :=
  rewriteLoop confid (cutLine (stringifyConfStruct e))

def rewriteList (confid : Int) (es : List ConfEntry) : Option (Option Int × CString) :=
  rewriteLoop confid (fileLines (longLineLen + 1) (confBytes es))

@[simp] theorem rewriteList_nil (confid : Int) : rewriteList confid [] = some (none, []) := rfl

theorem rewriteList_cons (confid : Int) {e : ConfEntry} (h : e.Stored) (es : List ConfEntry) :
    rewriteList confid (e :: es) = (rewriteEntry confid e).bind fun r =>
      (rewriteList confid es).map fun s => (s.1 <|> r.1, r.2 ++ s.2) := by
  unfold rewriteList rewriteEntry
  rw [confBytes_cons, fileLines_stringify h, rewriteLoop_append]

/-! ## One piece -/

/-- `parse_conf_line` takes the piece for a line of the conference. -/
def Belongs (confid : Int) (piece : CString) : Prop :=
  ∃ ce, parseConfLine piece = some ce ∧ toInt ce.num = confid

theorem parseConfLine_name {piece : CString} {ce : ConfEntry} (h : parseConfLine piece = some ce) :
    '\n' ∉ ce.name := by
  simp only [parseConfLine, Option.bind_eq_bind, Option.bind_eq_some_iff, Option.pure_def,
    Option.some.injEq] at h
  obtain ⟨p1, -, p2, -, p3, -, p4, -, p5, -, p6, -, p7, -, rfl⟩ := h
  intro hm
  have := List.mem_takeWhile_imp hm
  simp at this

theorem rewritePiece_other {confid : Int} {piece : CString} (h : ¬ Belongs confid piece) :
    rewritePiece confid piece = some (none, piece) := by
  unfold rewritePiece
  cases hp : parseConfLine piece with
  | none => rfl
  | some ce =>
    have hnum : ¬ ce.toInfo.num = confid := fun hnum => h ⟨ce, hp, hnum⟩
    exact if_neg hnum

theorem rewritePiece_belongs {confid : Int} {piece : CString} {ce : ConfEntry}
    (hp : parseConfLine piece = some ce) (hnum : toInt ce.num = confid) :
    rewritePiece confid piece =
      if ce.toInfo.lastText = 9223372036854775807 then none
      else some (some ce.toInfo.next.lastText, stringifyConfStruct ce.toInfo.next) := by
  have hinfo : ce.toInfo.num = confid := hnum
  unfold rewritePiece
  rw [hp]
  exact if_pos hinfo

theorem notMem_toInfo {ce : ConfEntry} (h : '\n' ∉ ce.name) : '\n' ∉ ce.toInfo.name :=
  fun hm => h (List.mem_of_mem_take hm)

theorem count_stringify {e : ConfEntry} (h : '\n' ∉ e.name) : (stringifyConfStruct e).count '\n' = 1 := by
  obtain ⟨l, hl, -, hnl⟩ := stringifyConfStruct_line h
  rw [hl, List.count_append, List.count_eq_zero_of_not_mem hnl]
  rfl

/-- A line that is printed again has another number in it. -/
theorem rewritePiece_ne {confid : Int} {piece : CString} {r : Option Int × CString}
    (h : Belongs confid piece) (hr : rewritePiece confid piece = some r) : r.2 ≠ piece := by
  obtain ⟨ce, hp, hnum⟩ := h
  rw [rewritePiece_belongs hp hnum] at hr
  split at hr
  · cases hr
  · next hmax =>
    cases hr
    intro heq
    change stringifyConfStruct ce.toInfo.next = piece at heq
    have hread := parseConfLine_stringify (e := ce.toInfo.next) (notMem_toInfo (parseConfLine_name hp))
    rw [heq, hp, Option.some.injEq] at hread
    have hlast := congrArg (fun ce => toLong ce.lastText) hread
    change toLong ce.lastText = toLong (toLong ce.lastText + 1) at hlast
    change ¬ toLong ce.lastText = 9223372036854775807 at hmax
    unfold toLong at hlast hmax
    omega

/-- No line end is lost. -/
theorem rewritePiece_count {confid : Int} {piece : CString} {r : Option Int × CString}
    (hcount : piece.count '\n' ≤ 1) (hr : rewritePiece confid piece = some r) :
    piece.count '\n' ≤ r.2.count '\n' := by
  by_cases h : Belongs confid piece
  · obtain ⟨ce, hp, hnum⟩ := h
    rw [rewritePiece_belongs hp hnum] at hr
    split at hr
    · cases hr
    · cases hr
      rw [count_stringify (e := ce.toInfo.next) (notMem_toInfo (parseConfLine_name hp))]
      exact hcount
  · rw [rewritePiece_other h] at hr
    cases hr
    exact Nat.le_refl _

theorem count_confBytes {es : List ConfEntry} (h : ∀ e ∈ es, '\n' ∉ e.name) :
    (confBytes es).count '\n' = es.length := by
  induction es with
  | nil => rfl
  | cons e es ih =>
    obtain ⟨he, hes⟩ := List.forall_mem_cons.mp h
    rw [confBytes_cons, List.count_append, count_stringify he, ih hes, List.length_cons, Nat.add_comm]

/-! ## One entry -/

section Entry

variable {e : ConfEntry} {confid : Int}

/-- What is left of a line when `fgets` has filled its buffer. -/
def restOf (e : ConfEntry) : CString := (stringifyConfStruct e).drop longLineLen

theorem not_belongs_nil : ¬ Belongs confid [] := by
  rintro ⟨ce, hp, -⟩
  cases hp

/-- The first piece of a long line. -/
theorem take_stringify (h : e.Stored) (hlong : longLineLen < (stringifyConfStruct e).length) :
    (stringifyConfStruct e).take longLineLen =
      fieldsOf e ++ e.name.take (longLineLen - (fieldsOf e).length) := by
  have hfields := h.fields
  have h158 : longLineLen = 158 := rfl
  rw [stringify_fieldsOf, List.length_append, List.length_append, List.length_singleton] at hlong
  rw [stringify_fieldsOf, List.take_append, List.take_of_length_le (by omega),
    List.take_append_of_le_length (by omega)]

theorem takeWhile_length_take {name : CString} (hname : name.length ≤ 78) (k : Nat) :
    ((name.take k).takeWhile fun c => c ≠ '\r' ∧ c ≠ '\n').length ≤ 78 :=
  ((List.takeWhile_sublist _).length_le.trans (List.take_sublist _ _).length_le).trans hname

/-- The entry is found in the first piece of its line. -/
theorem rewritePiece_fieldsOf (h : e.Stored) {s : CString}
    (hs : (s.takeWhile fun c => c ≠ '\r' ∧ c ≠ '\n').length ≤ 78) :
    rewritePiece confid (fieldsOf e ++ s) =
      if e.num = confid then
        if e.lastText = 9223372036854775807 then none
        else some (some (e.lastText + 1),
          stringifyConfStruct { e.next with name := s.takeWhile fun c => c ≠ '\r' ∧ c ≠ '\n' })
      else some (none, fieldsOf e ++ s) := by
  unfold rewritePiece
  rw [parseConfLine_fieldsOf, Option.map_some, h.toInfo hs]
  rfl

/-- A line that fits the buffer. -/
theorem rewriteEntry_short (h : e.Stored) (hshort : (stringifyConfStruct e).length ≤ longLineLen) :
    rewriteEntry confid e =
      if e.num = confid then
        if e.lastText = 9223372036854775807 then none
        else some (some (e.lastText + 1), stringifyConfStruct e.bumped)
      else some (none, stringifyConfStruct e) := by
  have hname : ((e.name ++ ['\n']).takeWhile fun c => c ≠ '\r' ∧ c ≠ '\n').length ≤ 78 := by
    rw [takeWhile_line h.name.1]
    exact (List.takeWhile_sublist _).length_le.trans h.name.2
  have hpiece := @rewritePiece_fieldsOf e confid h _ hname
  rw [← stringify_fieldsOf, takeWhile_line h.name.1] at hpiece
  unfold rewriteEntry cutLine
  rw [if_pos hshort, rewriteLoop, hpiece]
  by_cases hnum : e.num = confid
  · rw [if_pos hnum, if_pos hnum]
    by_cases hmax : e.lastText = 9223372036854775807
    · rw [if_pos hmax, if_pos hmax]
      rfl
    · rw [if_neg hmax, if_neg hmax]
      exact congrArg some (Prod.ext rfl (List.append_nil _))
  · rw [if_neg hnum, if_neg hnum]
    exact congrArg some (Prod.ext rfl (List.append_nil _))

/-- A line that is cut. -/
theorem rewriteEntry_long (hlong : longLineLen < (stringifyConfStruct e).length) :
    rewriteEntry confid e =
      (rewritePiece confid ((stringifyConfStruct e).take longLineLen)).bind fun r =>
        (rewritePiece confid (restOf e)).map fun s => (s.1 <|> r.1, r.2 ++ s.2) := by
  have hrest : (stringifyConfStruct e).drop longLineLen = restOf e := rfl
  unfold rewriteEntry cutLine
  rw [if_neg (by omega), rewriteLoop, rewriteLoop, rewriteLoop, hrest]
  generalize rewritePiece confid ((stringifyConfStruct e).take longLineLen) = first
  generalize rewritePiece confid (restOf e) = second
  cases first with
  | none => rfl
  | some r =>
    cases second with
    | none => rfl
    | some s =>
      show some ((none <|> s.1) <|> r.1, r.2 ++ (s.2 ++ [])) = some (s.1 <|> r.1, r.2 ++ s.2)
      rw [List.append_nil]
      rfl

theorem restOf_short (hshort : (stringifyConfStruct e).length ≤ longLineLen) : restOf e = [] :=
  List.drop_eq_nil_of_le hshort

/-- The first piece of a long line, of another conference. -/
theorem rewritePiece_first (h : e.Stored) (hlong : longLineLen < (stringifyConfStruct e).length)
    (hnum : e.num ≠ confid) : rewritePiece confid ((stringifyConfStruct e).take longLineLen) =
      some (none, (stringifyConfStruct e).take longLineLen) := by
  rw [take_stringify h hlong, rewritePiece_fieldsOf h (takeWhile_length_take h.name.2 _), if_neg hnum]

/-- An entry of another conference is copied. -/
theorem rewriteEntry_other (h : e.Stored) (hnum : e.num ≠ confid) (hrest : ¬ Belongs confid (restOf e)) :
    rewriteEntry confid e = some (none, stringifyConfStruct e) := by
  by_cases hshort : (stringifyConfStruct e).length ≤ longLineLen
  · rw [rewriteEntry_short h hshort, if_neg hnum]
  · rw [rewriteEntry_long (by omega), rewritePiece_first h (by omega) hnum, rewritePiece_other hrest]
    exact congrArg some (Prod.ext rfl (List.take_append_drop _ _))

theorem not_belongs_of_copied (h : e.Stored) (hnum : e.num ≠ confid) {r : Option Int × CString}
    (hr : rewriteEntry confid e = some r) (hcopy : r.2 = stringifyConfStruct e) :
    ¬ Belongs confid (restOf e) := by
  intro hrest
  by_cases hshort : (stringifyConfStruct e).length ≤ longLineLen
  · rw [restOf_short hshort] at hrest
    exact not_belongs_nil hrest
  · rw [rewriteEntry_long (by omega), rewritePiece_first h (by omega) hnum, Option.bind_some,
      Option.map_eq_some_iff] at hr
    obtain ⟨s, hs, rfl⟩ := hr
    have hsplit : (stringifyConfStruct e).take longLineLen ++ s.2 =
        (stringifyConfStruct e).take longLineLen ++ restOf e :=
      hcopy.trans (List.take_append_drop _ _).symm
    exact rewritePiece_ne hrest hs (List.append_cancel_left hsplit)

/-- The pieces of a long line have one line end. -/
theorem count_pieces (h : e.Stored) (hlong : longLineLen < (stringifyConfStruct e).length) :
    ((stringifyConfStruct e).take longLineLen).count '\n' = 0 ∧ (restOf e).count '\n' = 1 := by
  have hzero : ((stringifyConfStruct e).take longLineLen).count '\n' = 0 :=
    List.count_eq_zero_of_not_mem (notMem_take_stringify h.name.1 hlong)
  have hsum := count_stringify h.name.1
  rw [← List.take_append_drop longLineLen (stringifyConfStruct e), List.count_append, hzero,
    Nat.zero_add] at hsum
  exact ⟨hzero, hsum⟩

/-- Every entry is copied to at least a line, and a long one of the conference to two. -/
theorem rewriteEntry_count (h : e.Stored) {r : Option Int × CString} (hr : rewriteEntry confid e = some r) :
    1 ≤ r.2.count '\n' ∧
      (e.num = confid → longLineLen < (stringifyConfStruct e).length → 2 ≤ r.2.count '\n') := by
  by_cases hshort : (stringifyConfStruct e).length ≤ longLineLen
  · refine ⟨?_, fun _ hlong => absurd hlong (by omega)⟩
    rw [rewriteEntry_short h hshort] at hr
    split at hr
    · split at hr
      · cases hr
      · cases hr
        rw [count_stringify (notMem_bumped e)]
    · cases hr
      rw [count_stringify h.name.1]
  · obtain ⟨hzero, hone⟩ := count_pieces h (by omega)
    rw [rewriteEntry_long (by omega), Option.bind_eq_some_iff] at hr
    obtain ⟨r', hr', hr⟩ := hr
    obtain ⟨s, hs, rfl⟩ := Option.map_eq_some_iff.mp hr
    have hrest := rewritePiece_count (by rw [hone]) hs
    dsimp only
    rw [List.count_append]
    refine ⟨by omega, fun hnum hlong => ?_⟩
    rw [take_stringify h hlong, rewritePiece_fieldsOf h (takeWhile_length_take h.name.2 _),
      if_pos hnum] at hr'
    split at hr'
    · cases hr'
    · cases hr'
      rw [count_stringify]
      · omega
      · intro hm
        have := List.mem_takeWhile_imp hm
        simp at this

theorem getLast_stringify (e : ConfEntry) : (stringifyConfStruct e).getLast? = some '\n' := by
  unfold stringifyConfStruct
  exact List.getLast?_concat

theorem rewritePiece_getLast {piece : CString} {r : Option Int × CString}
    (hlast : piece.getLast? = some '\n') (hr : rewritePiece confid piece = some r) :
    r.2.getLast? = some '\n' := by
  by_cases h : Belongs confid piece
  · obtain ⟨ce, hp, hnum⟩ := h
    rw [rewritePiece_belongs hp hnum] at hr
    split at hr
    · cases hr
    · cases hr
      exact getLast_stringify _
  · rw [rewritePiece_other h] at hr
    cases hr
    exact hlast

theorem rewriteEntry_getLast (h : e.Stored) {r : Option Int × CString}
    (hr : rewriteEntry confid e = some r) : r.2.getLast? = some '\n' := by
  by_cases hshort : (stringifyConfStruct e).length ≤ longLineLen
  · rw [rewriteEntry_short h hshort] at hr
    split at hr
    · split at hr
      · cases hr
      · cases hr
        exact getLast_stringify _
    · cases hr
      exact getLast_stringify _
  · rw [rewriteEntry_long (by omega), Option.bind_eq_some_iff] at hr
    obtain ⟨r', -, hr⟩ := hr
    obtain ⟨s, hs, rfl⟩ := Option.map_eq_some_iff.mp hr
    have hlast : (restOf e).getLast? = some '\n' := by
      unfold restOf
      rw [List.getLast?_drop, if_neg (by omega)]
      exact getLast_stringify e
    dsimp only
    rw [List.getLast?_append, rewritePiece_getLast hlast hs]
    rfl

/-- A copy to one line. -/
theorem rewriteEntry_line (h : e.Stored) {r : Option Int × CString} (hr : rewriteEntry confid e = some r)
    (hone : r.2.count '\n' = 1) : ∃ l, r.2 = l ++ ['\n'] ∧ '\n' ∉ l := by
  obtain ⟨l, hl⟩ := List.getLast?_eq_some_iff.mp (rewriteEntry_getLast h hr)
  refine ⟨l, hl, ?_⟩
  rw [hl, List.count_append] at hone
  exact List.count_eq_zero.mp (Nat.succ.inj hone)

end Entry

/-! ## The list -/

section List

variable {confid : Int} {es as bs ds : List ConfEntry}

/-- Entries of other conferences are copied. -/
theorem rewriteList_append (has : ∀ a ∈ as, a.Stored)
    (hother : ∀ a ∈ as, a.num ≠ confid ∧ ¬ Belongs confid (restOf a)) :
    rewriteList confid (as ++ bs) = (rewriteList confid bs).map fun s => (s.1, confBytes as ++ s.2) := by
  induction as with
  | nil =>
    rw [List.nil_append]
    cases rewriteList confid bs <;> rfl
  | cons a as ih =>
    obtain ⟨ha, has⟩ := List.forall_mem_cons.mp has
    obtain ⟨⟨hnum, hrest⟩, hother⟩ := List.forall_mem_cons.mp hother
    rw [List.cons_append, rewriteList_cons confid ha, rewriteEntry_other ha hnum hrest, Option.bind_some,
      ih has hother]
    cases rewriteList confid bs with
    | none => rfl
    | some s =>
      obtain ⟨num, out⟩ := s
      refine congrArg some (Prod.ext ?_ ?_)
      · cases num <;> rfl
      · simp

theorem rewriteList_other (has : ∀ a ∈ as, a.Stored)
    (hother : ∀ a ∈ as, a.num ≠ confid ∧ ¬ Belongs confid (restOf a)) :
    rewriteList confid as = some (none, confBytes as) := by
  have happ := @rewriteList_append confid as [] has hother
  rw [List.append_nil, rewriteList_nil, Option.map_some, List.append_nil] at happ
  exact happ

theorem orElse_none {α : Type*} {a b : Option α} (h : (a <|> b) = none) : a = none ∧ b = none := by
  cases a with
  | none => exact ⟨rfl, h⟩
  | some x => cases h

/-- The copies of the entries one by one. -/
theorem rewriteList_results (hes : ∀ e ∈ es, e.Stored) {r : Option Int × CString}
    (hr : rewriteList confid es = some r) :
    ∃ rs, List.Forall₂ (fun e s => rewriteEntry confid e = some s) es rs ∧ r.2 = rs.flatMap (·.2) ∧
      (r.1 = none → ∀ s ∈ rs, s.1 = none) := by
  induction es generalizing r with
  | nil =>
    cases hr
    exact ⟨[], List.Forall₂.nil, rfl, by simp⟩
  | cons e es ih =>
    obtain ⟨he, hes⟩ := List.forall_mem_cons.mp hes
    rw [rewriteList_cons confid he, Option.bind_eq_some_iff] at hr
    obtain ⟨s, hs, hr⟩ := hr
    obtain ⟨t, ht, rfl⟩ := Option.map_eq_some_iff.mp hr
    obtain ⟨rs, hall, hout, hnone⟩ := ih hes ht
    refine ⟨s :: rs, List.Forall₂.cons hs hall, ?_, ?_⟩
    · rw [List.flatMap_cons, ← hout]
    · intro hst
      obtain ⟨htnone, hsnone⟩ := orElse_none hst
      exact List.forall_mem_cons.mpr ⟨hsnone, hnone htnone⟩

theorem length_le_count (hes : ∀ e ∈ es, e.Stored) {rs : List (Option Int × CString)}
    (hall : List.Forall₂ (fun e s => rewriteEntry confid e = some s) es rs) :
    es.length ≤ (rs.flatMap (·.2)).count '\n' := by
  induction hall with
  | nil => exact Nat.le_refl _
  | @cons e r es rs hr _ ih =>
    obtain ⟨he, hes⟩ := List.forall_mem_cons.mp hes
    have hone := (rewriteEntry_count he hr).1
    have hrest := ih hes
    rw [List.flatMap_cons, List.count_append, List.length_cons]
    omega

/-- A copy that is a list as long is made of the copies of its entries, each to one line. -/
theorem copied_lines (hes : ∀ e ∈ es, e.Stored) (hds : ∀ d ∈ ds, '\n' ∉ d.name)
    (hlen : ds.length = es.length) {rs : List (Option Int × CString)}
    (hall : List.Forall₂ (fun e s => rewriteEntry confid e = some s) es rs)
    (hout : rs.flatMap (·.2) = confBytes ds) :
    List.Forall₂ (fun e d => ∃ r, rewriteEntry confid e = some r ∧ r.2 = stringifyConfStruct d) es ds := by
  induction hall generalizing ds with
  | nil =>
    rw [List.length_eq_zero_iff.mp hlen]
    exact List.Forall₂.nil
  | @cons e r es rs hr hall ih =>
    obtain ⟨he, hes⟩ := List.forall_mem_cons.mp hes
    cases ds with
    | nil => cases hlen
    | cons d ds =>
      obtain ⟨hd, hds⟩ := List.forall_mem_cons.mp hds
      have hlen' : ds.length = es.length := Nat.succ.inj hlen
      rw [List.flatMap_cons, confBytes_cons] at hout
      have hcount := congrArg (List.count '\n') hout
      have hrest := length_le_count hes hall
      have hone := (rewriteEntry_count he hr).1
      rw [List.count_append, List.count_append, count_stringify hd, count_confBytes hds, hlen'] at hcount
      obtain ⟨l, hl, hnl⟩ := rewriteEntry_line he hr (by omega)
      obtain ⟨k, hk, -, hnk⟩ := stringifyConfStruct_line hd
      rw [hl, hk, List.append_assoc, List.append_assoc, List.singleton_append, List.singleton_append] at hout
      obtain ⟨hlk, hout⟩ := append_sep_inj hnl hnk hout
      refine List.Forall₂.cons ⟨r, hr, ?_⟩ (ih hes hds hlen' hout)
      rw [hl, hk, hlk]

end List

/-! ## Reading the copy -/

theorem nextField_suffix {s t : CString} (h : nextField s = some t) : t <:+ s := by
  obtain ⟨u, hu, rfl⟩ := Option.map_eq_some_iff.mp h
  exact (List.tail_suffix u).trans (strchr_suffix hu)

/-- Each entry is read up to a line end. -/
theorem getConfEntry_count {buf next : CString} {ce : ConfEntry} (h : getConfEntry buf = .entry ce next) :
    next.count '\n' + 1 ≤ buf.count '\n' := by
  rw [getConfEntry] at h
  split at h
  · cases h
  split at h
  · cases h
  next ce' next' hf =>
    cases h
    simp only [confFields, Option.bind_eq_bind, Option.bind_eq_some_iff, Option.pure_def,
      Option.some.injEq, Prod.mk.injEq] at hf
    obtain ⟨p1, h1, p2, h2, p3, h3, p4, h4, p5, h5, p6, h6, p7, h7, nl, hnl, -, rfl⟩ := hf
    have hsuffix : nl <:+ buf := (strchr_suffix hnl).trans <| (nextField_suffix h7).trans <|
      (nextField_suffix h6).trans <| (nextField_suffix h5).trans <| (nextField_suffix h4).trans <|
      (nextField_suffix h3).trans <| (nextField_suffix h2).trans (nextField_suffix h1)
    obtain ⟨r, rfl⟩ := strchr_eq_some hnl
    have hcount := hsuffix.sublist.count_le '\n'
    rwa [List.count_cons_self] at hcount

theorem allConfEntries_count {fuel : Nat} {buf : CString} {es : List ConfEntry}
    (h : allConfEntries fuel buf = some es) : es.length ≤ buf.count '\n' := by
  induction fuel generalizing buf es with
  | zero =>
    cases h
    exact Nat.zero_le _
  | succ fuel ih =>
    rw [allConfEntries] at h
    split at h
    · cases h
    · cases h
      exact Nat.zero_le _
    next ce next hscan =>
      obtain ⟨ds, hds, rfl⟩ := Option.map_eq_some_iff.mp h
      have hnext := getConfEntry_count hscan
      have hlen := ih hds
      rw [List.length_cons]
      omega

theorem readConfs_confBytes {es : List ConfEntry} (h : ∀ e ∈ es, '\n' ∉ e.name) :
    readConfs (confBytes es) = some es :=
  allConfEntries_bytes h _ ((length_le_confBytes es).trans (Nat.le_succ _))

/-- `replace_conf` on the first entry of its number. -/
theorem replaceConfSized_append {as bs : List ConfEntry} {old e : ConfEntry}
    (hlines : ∀ a ∈ as ++ [old], '\n' ∉ a.name) (has : ∀ a ∈ as, a.num ≠ e.num) (hnum : old.num = e.num)
    (hroom : (stringifyConfStruct e).length < (stringifyConfStruct old).length + lineLen) :
    replaceConfSized e (confBytes (as ++ old :: bs)) =
      some (some (confBytes as ++ ((stringifyConfStruct e).take longLineLen ++ confBytes bs))) := by
  have hlen := length_le_confBytes (as ++ old :: bs)
  rw [List.length_append] at hlen
  have hfind : confEntry e.num (confBytes (as ++ old :: bs)) = .entry old (confBytes bs) :=
    findConfEntry_append (fun a ha => ⟨hlines a (by simp [ha]), has a ha⟩) (hlines old (by simp)) hnum _
      (by rw [List.length_cons] at hlen; omega)
  have htake : ((stringifyConfStruct e).take longLineLen).length ≤ (stringifyConfStruct e).length :=
    (List.take_sublist _ _).length_le
  unfold replaceConfSized
  rw [hfind]
  dsimp only
  rw [take_lineStart_confBytes bs hlines, if_pos (by
    simp only [confBytes_append, confBytes_cons, List.length_append]
    omega), List.append_assoc]

/-! ## What is to be written -/

/-- `last_text` of one conference is one more, and nothing else in the file is different; reading it gives
what it gives after `replace_conf`. -/
def NextTaken (confid : Int) (es : List ConfEntry) (num : Int) (conf : CString) : Prop :=
  ∃ as e bs, es = as ++ e :: bs ∧ e.num = confid ∧ num = e.lastText + 1 ∧
    conf = confBytes (as ++ e.next :: bs) ∧
    ∃ nbuf, replaceConfSized e.next (confBytes es) = some (some nbuf) ∧ readConfs conf = readConfs nbuf

/-- What the call has to leave behind, whatever fails. -/
def RewriteRight (confid : Int) (es : List ConfEntry) : Prop :=
  ∀ fails, ∃ r, rewriteConfLastText fails confid (confBytes es) = some r ∧
    (r.1 = none → r.2 = confBytes es) ∧ ∀ num, r.1 = some num → NextTaken confid es num r.2

/-- The lists that the call copies as it should. -/
structure Rewritable (confid : Int) (es : List ConfEntry) : Prop where
  one : es.countP (·.num = confid) ≤ 1
  own : ∀ e ∈ es, e.num = confid → '\r' ∉ e.name ∧ e.lastText ≠ 9223372036854775807 ∧
    (stringifyConfStruct e).length ≤ longLineLen ∧ (stringifyConfStruct e.next).length ≤ longLineLen
  others : ∀ e ∈ es, e.num ≠ confid → ¬ Belongs confid (restOf e)

section Right

variable {confid : Int} {es as bs : List ConfEntry} {e : ConfEntry}

theorem rewriteConfLastText_eq (fails : ConfOp → Bool) (confid : Int) (es : List ConfEntry) :
    rewriteConfLastText fails confid (confBytes es) =
      if fails .stat || fails .openConf || fails .openTmp || fails .fixTmp then some (none, confBytes es)
      else (rewriteList confid es).map fun r =>
        if fails .closeConf || fails .closeTmp || r.1.isNone || fails .rename then (none, confBytes es)
        else r := by
  unfold rewriteConfLastText rewriteList
  split
  · rfl
  · cases rewriteLoop confid (fileLines (longLineLen + 1) (confBytes es)) with
    | none => rfl
    | some r =>
      show (if _ then some _ else some r) = some (if _ then _ else r)
      split <;> rfl

/-- It is enough to look at the copy. -/
theorem rewriteRight_iff : RewriteRight confid es ↔
    ∃ r, rewriteList confid es = some r ∧ ∀ num, r.1 = some num → NextTaken confid es num r.2 := by
  constructor
  · intro h
    obtain ⟨r, hr, -, hsome⟩ := h fun _ => false
    rw [rewriteConfLastText_eq, if_neg (by decide), Option.map_eq_some_iff] at hr
    obtain ⟨s, hs, hr⟩ := hr
    refine ⟨s, hs, fun num hnum => ?_⟩
    rw [if_neg (by simp [hnum])] at hr
    rw [hr] at hnum ⊢
    exact hsome num hnum
  · rintro ⟨r, hr, hright⟩ fails
    rw [rewriteConfLastText_eq, hr, Option.map_some]
    split
    · exact ⟨_, rfl, fun _ => rfl, fun num hnum => by cases hnum⟩
    · refine ⟨_, rfl, ?_, ?_⟩
      · split
        · exact fun _ => rfl
        · next hfails =>
          intro hnone
          rw [hnone] at hfails
          simp at hfails
      · split
        · intro num hnum
          cases hnum
        · exact hright

theorem bumped_eq_next (h : '\n' ∉ e.name) : e.bumped = e.next ↔ '\r' ∉ e.name := by
  have htake : (e.name.takeWhile fun c => c ≠ '\r' ∧ c ≠ '\n') = e.name ↔ '\r' ∉ e.name := by
    rw [List.takeWhile_eq_self_iff]
    constructor
    · intro hall hr
      have := hall _ hr
      simp at this
    · intro hr c hc
      rw [decide_eq_true_iff]
      constructor
      · rintro rfl
        exact hr hc
      · rintro rfl
        exact h hc
  rw [← htake]
  constructor
  · exact fun heq => congrArg ConfEntry.name heq
  · intro heq
    unfold ConfEntry.bumped ConfEntry.next
    rw [heq]

/-- The line of the next number leaves room in the buffer of `replace_conf`. -/
theorem ConfEntry.Stored.room (h : e.Stored) (hmax : e.lastText ≠ 9223372036854775807) :
    (stringifyConfStruct e.next).length < (stringifyConfStruct e).length + lineLen := by
  have hrange := h.lastText
  have hnext := length_field_long (n := e.lastText + 1) (by omega)
  unfold stringifyConfStruct lineLen ConfEntry.next
  simp only [List.length_append]
  omega

theorem notMem_next (h : '\n' ∉ e.name) : '\n' ∉ e.next.name := h

/-- The copy of a list with one line of the conference. -/
theorem rewriteList_own (hes : ∀ a ∈ as ++ e :: bs, a.Stored) (hnum : e.num = confid)
    (hshort : (stringifyConfStruct e).length ≤ longLineLen) (hmax : e.lastText ≠ 9223372036854775807)
    (has : ∀ a ∈ as, a.num ≠ confid ∧ ¬ Belongs confid (restOf a))
    (hbs : ∀ b ∈ bs, b.num ≠ confid ∧ ¬ Belongs confid (restOf b)) :
    rewriteList confid (as ++ e :: bs) = some (some (e.lastText + 1), confBytes (as ++ e.bumped :: bs)) := by
  have he := hes e (by simp)
  rw [rewriteList_append (fun a ha => hes a (List.mem_append_left _ ha)) has, rewriteList_cons confid he,
    rewriteEntry_short he hshort, if_pos hnum, if_neg hmax, Option.bind_some,
    rewriteList_other (fun b hb => hes b (by simp [hb])) hbs, confBytes_append, confBytes_cons]
  rfl

theorem rewriteRight_of_rewritable (hes : ∀ e ∈ es, e.Stored) (h : Rewritable confid es) :
    RewriteRight confid es := by
  rw [rewriteRight_iff]
  by_cases hlisted : ∃ e ∈ es, e.num = confid
  · obtain ⟨e, he, hnum⟩ := hlisted
    obtain ⟨as, bs, rfl⟩ := List.append_of_mem he
    have hone := h.one
    rw [List.countP_append, List.countP_cons_of_pos (by simpa using hnum)] at hone
    have hnone : ∀ ds : List ConfEntry, ds.countP (·.num = confid) = 0 → ∀ d ∈ ds, d.num ≠ confid :=
      fun ds hds d hd => by simpa using List.countP_eq_zero.mp hds d hd
    have has := hnone as (by omega)
    have hbs := hnone bs (by omega)
    obtain ⟨hcr, hmax, hshort, hnext⟩ := h.own e he hnum
    have hstored := hes e he
    have hcopy := rewriteList_own hes hnum hshort hmax
      (fun a ha => ⟨has a ha, h.others a (by simp [ha]) (has a ha)⟩)
      (fun b hb => ⟨hbs b hb, h.others b (by simp [hb]) (hbs b hb)⟩)
    rw [(bumped_eq_next hstored.name.1).mpr hcr] at hcopy
    refine ⟨_, hcopy, fun num hsome => ?_⟩
    cases hsome
    have hreplace := @replaceConfSized_append as bs e e.next
      (fun a ha => (hes a (by
        simp only [List.mem_append, List.mem_cons, List.not_mem_nil, or_false] at ha ⊢
        exact ha.imp_right Or.inl)).name.1)
      (fun a ha => by
        rw [show e.next.num = confid from hnum]
        exact has a ha) rfl (hstored.room hmax)
    refine ⟨as, e, bs, rfl, hnum, rfl, rfl, _, hreplace, ?_⟩
    rw [List.take_of_length_le hnext, confBytes_append, confBytes_cons]
  · have hother : ∀ a ∈ es, a.num ≠ confid := fun a ha hnum => hlisted ⟨a, ha, hnum⟩
    refine ⟨_, rewriteList_other hes fun a ha => ⟨hother a ha, h.others a ha (hother a ha)⟩, ?_⟩
    intro num hnum
    cases hnum

theorem stringify_inj {d : ConfEntry} (he : '\n' ∉ e.name) (hd : '\n' ∉ d.name)
    (h : stringifyConfStruct e = stringifyConfStruct d) : e = d := by
  have hread := getConfEntry_stringify he []
  rw [h, getConfEntry_stringify hd] at hread
  exact (ConfScan.entry.inj hread).1.symm

/-- The line of the conference is found. -/
theorem rewriteEntry_found (h : e.Stored) {r : Option Int × CString} (hr : rewriteEntry confid e = some r)
    (hnone : r.1 = none) : e.num ≠ confid ∧ ¬ Belongs confid (restOf e) := by
  by_cases hshort : (stringifyConfStruct e).length ≤ longLineLen
  · rw [restOf_short hshort]
    refine ⟨?_, not_belongs_nil⟩
    intro hnum
    rw [rewriteEntry_short h hshort, if_pos hnum] at hr
    split at hr
    · cases hr
    · cases hr
      cases hnone
  · rw [rewriteEntry_long (by omega), Option.bind_eq_some_iff] at hr
    obtain ⟨r', hr', hr⟩ := hr
    obtain ⟨s, hs, rfl⟩ := Option.map_eq_some_iff.mp hr
    obtain ⟨hsnone, hrnone⟩ := orElse_none hnone
    constructor
    · intro hnum
      rw [take_stringify h (by omega), rewritePiece_fieldsOf h (takeWhile_length_take h.name.2 _),
        if_pos hnum] at hr'
      split at hr'
      · cases hr'
      · cases hr'
        cases hrnone
    · rintro ⟨ce, hp, hnum⟩
      rw [rewritePiece_belongs hp hnum] at hs
      split at hs
      · cases hs
      · cases hs
        cases hsnone

/-- An entry that is copied to one line. -/
theorem short_of_copied (h : e.Stored) {d : ConfEntry} (hd : '\n' ∉ d.name) {r : Option Int × CString}
    (hr : rewriteEntry confid e = some r) (hcopy : r.2 = stringifyConfStruct d) (hnum : e.num = confid) :
    (stringifyConfStruct e).length ≤ longLineLen ∧ e.lastText ≠ 9223372036854775807 ∧ d = e.bumped := by
  have hshort : (stringifyConfStruct e).length ≤ longLineLen := by
    by_contra hlong
    have htwo := (rewriteEntry_count h hr).2 hnum (by omega)
    rw [hcopy, count_stringify hd] at htwo
    omega
  rw [rewriteEntry_short h hshort, if_pos hnum] at hr
  split at hr
  · cases hr
  · next hmax =>
    cases hr
    exact ⟨hshort, hmax, (stringify_inj (notMem_bumped e) hd hcopy).symm⟩

/-- An entry that is copied as it is. -/
theorem other_of_copied (h : e.Stored) {r : Option Int × CString} (hr : rewriteEntry confid e = some r)
    (hcopy : r.2 = stringifyConfStruct e) : e.num ≠ confid ∧ ¬ Belongs confid (restOf e) := by
  have hnum : e.num ≠ confid := by
    intro hnum
    obtain ⟨-, -, heq⟩ := short_of_copied h h.name.1 hr hcopy hnum
    have hlast := congrArg ConfEntry.lastText heq
    change e.lastText = e.lastText + 1 at hlast
    omega
  exact ⟨hnum, not_belongs_of_copied h hnum hr hcopy⟩

/-- The line of the next number fits the buffer of `replace_conf` if both files read alike. -/
theorem short_of_read (hes : ∀ a ∈ as ++ e :: bs, a.Stored) (has : ∀ a ∈ as, a.num ≠ e.num)
    (hmax : e.lastText ≠ 9223372036854775807) {nbuf : CString}
    (hreplace : replaceConfSized e.next (confBytes (as ++ e :: bs)) = some (some nbuf))
    (hread : readConfs (confBytes (as ++ e.next :: bs)) = readConfs nbuf) :
    (stringifyConfStruct e.next).length ≤ longLineLen := by
  have he := hes e (by simp)
  have hlines : ∀ a ∈ as ++ e :: bs, '\n' ∉ a.name := fun a ha => (hes a ha).name.1
  have hbefore : ∀ a ∈ as ++ [e], '\n' ∉ a.name := fun a ha => hlines a (by
    simp only [List.mem_append, List.mem_cons, List.not_mem_nil, or_false] at ha ⊢
    exact ha.imp_right Or.inl)
  have hnext : ∀ a ∈ as ++ e.next :: bs, '\n' ∉ a.name := by
    intro a ha
    rcases List.mem_append.mp ha with ha | ha
    · exact hlines a (by simp [ha])
    · rcases List.mem_cons.mp ha with rfl | ha
      · exact notMem_next he.name.1
      · exact hlines a (by simp [ha])
  rw [@replaceConfSized_append as bs e e.next hbefore has rfl (he.room hmax)] at hreplace
  cases hreplace
  by_contra hlong
  rw [readConfs_confBytes hnext] at hread
  -- a line end is missing
  have hcount := allConfEntries_count hread.symm
  rw [List.count_append, List.count_append, count_confBytes fun a ha => hlines a (by simp [ha]),
    List.count_eq_zero_of_not_mem (notMem_take_stringify (notMem_next he.name.1) (by omega)),
    count_confBytes fun b hb => hlines b (by simp [hb]), List.length_append, List.length_cons] at hcount
  omega

theorem rewritable_of_rewriteRight (hes : ∀ e ∈ es, e.Stored) (h : RewriteRight confid es) :
    Rewritable confid es := by
  obtain ⟨r, hr, hright⟩ := rewriteRight_iff.mp h
  obtain ⟨rs, hall, hout, hnone⟩ := rewriteList_results hes hr
  cases hnum : r.1 with
  | none =>
    have hother : ∀ e ∈ es, e.num ≠ confid ∧ ¬ Belongs confid (restOf e) := by
      intro e he
      obtain ⟨s, hs, hrewrite⟩ := Lists.forall₂_exists_mem hall e he
      exact rewriteEntry_found (hes e he) hrewrite (hnone hnum s hs)
    refine ⟨?_, fun e he hconf => absurd hconf (hother e he).1, fun e he _ => (hother e he).2⟩
    rw [List.countP_eq_zero.mpr fun e he => by simpa using (hother e he).1]
    exact Nat.zero_le 1
  | some num =>
    obtain ⟨as, e, bs, rfl, hconf, -, hcopy, nbuf, hreplace, hread⟩ := hright num hnum
    have he := hes e (by simp)
    have hlines : ∀ d ∈ as ++ e.next :: bs, '\n' ∉ d.name := by
      intro d hd
      rcases List.mem_append.mp hd with hd | hd
      · exact (hes d (by simp [hd])).name.1
      · rcases List.mem_cons.mp hd with rfl | hd
        · exact notMem_next he.name.1
        · exact (hes d (by simp [hd])).name.1
    have hpairs := copied_lines hes hlines (by simp) hall (hout.symm.trans hcopy)
    have hbefore := List.forall₂_take_append _ _ _ hpairs
    have hafter := List.forall₂_drop_append _ _ _ hpairs
    rw [List.take_left' rfl] at hbefore
    rw [List.drop_left' rfl] at hafter
    obtain ⟨⟨s, hs, hown⟩, hbs⟩ := List.forall₂_cons.mp hafter
    rw [List.forall₂_same] at hbefore hbs
    have hasother : ∀ a ∈ as, a.num ≠ confid ∧ ¬ Belongs confid (restOf a) := by
      intro a ha
      obtain ⟨t, ht, heq⟩ := hbefore a ha
      exact other_of_copied (hes a (by simp [ha])) ht heq
    have hbsother : ∀ b ∈ bs, b.num ≠ confid ∧ ¬ Belongs confid (restOf b) := by
      intro b hb
      obtain ⟨t, ht, heq⟩ := hbs b hb
      exact other_of_copied (hes b (by simp [hb])) ht heq
    obtain ⟨hshort, hmax, heq⟩ := short_of_copied he (notMem_next he.name.1) hs hown hconf
    have hcr := (bumped_eq_next he.name.1).mp heq.symm
    rw [hcopy] at hread
    have hfits := short_of_read hes (fun a ha => by rw [hconf]; exact (hasother a ha).1) hmax hreplace hread
    constructor
    · have hzero : ∀ ds : List ConfEntry, (∀ d ∈ ds, d.num ≠ confid ∧ ¬ Belongs confid (restOf d)) →
          ds.countP (·.num = confid) = 0 :=
        fun ds hds => List.countP_eq_zero.mpr fun d hd => by simpa using (hds d hd).1
      rw [List.countP_append, List.countP_cons_of_pos (by simpa using hconf), hzero as hasother,
        hzero bs hbsother]
    · intro d hd hdnum
      rcases List.mem_append.mp hd with hd | hd
      · exact absurd hdnum (hasother d hd).1
      · rcases List.mem_cons.mp hd with rfl | hd
        · exact ⟨hcr, hmax, hshort, hfits⟩
        · exact absurd hdnum (hbsother d hd).1
    · intro d hd hdnum
      rcases List.mem_append.mp hd with hd | hd
      · exact (hasother d hd).2
      · rcases List.mem_cons.mp hd with rfl | hd
        · exact absurd hconf hdnum
        · exact (hbsother d hd).2

/-- The importer takes the next number of a conference as the program does, and changes nothing else, if
and only if its line is the only one, has no carriage return in its name and fits the buffers, and what
`fgets` leaves of a longer line is not taken for a line of the conference. -/
theorem rewriteRight_iff_rewritable (hes : ∀ e ∈ es, e.Stored) (confid : Int) :
    RewriteRight confid es ↔ Rewritable confid es :=
  ⟨rewritable_of_rewriteRight hes, rewriteRight_of_rewritable hes⟩

end Right

theorem rewriteRight_iff_twoConfLines :
    RewriteRight 2 twoConfLines ↔ Rewritable 2 twoConfLines := by
  apply rewriteRight_iff_rewritable
  intro e he
  simp only [twoConfLines, List.mem_cons, List.not_mem_nil, or_false] at he
  rcases he with rfl | rfl
  · constructor <;> decide
  · constructor <;> decide

/-- A carriage return at the end of a name is lost. -/
theorem rewrite_loses_return :
    ∃ e : ConfEntry, e.Stored ∧ ¬ RewriteRight 1 [e] ∧
      rewriteConfLastText (fun _ => false) 1 (confBytes [e]) =
        some (some 6, confBytes [{ e.next with name := "Nyheter".toList }]) ∧
      e.name ≠ "Nyheter".toList := by
  have hstored : ConfEntry.Stored ⟨1, 5, 2, 0, 1, 0, 0, "Nyheter\r".toList⟩ := by
    constructor <;> decide
  refine ⟨⟨1, 5, 2, 0, 1, 0, 0, "Nyheter\r".toList⟩, hstored, ?_, by decide +kernel, by decide⟩
  intro h
  have hown := (rewritable_of_rewriteRight (by simpa using hstored) h).own
  exact (hown _ List.mem_cons_self rfl).1 (by decide)

end SklaffKom
