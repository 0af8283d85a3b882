import SklaffKom.FootNote
import SklaffKom.Posting

/-!
# The description and the likes of a conference

`confxtra` holds the lines `![desc]` and the description, and below `![hiss]` a line
`uid:text:time` for each like.  The commands find their lines each in a way of its own.
-/

open CString Runs

namespace SklaffKom

/-- `conf_is_external`: news and FTN conferences. -/
def confIsExternal (type : Int) : Bool :=
  type == 3 || type == 5 || type == 6 || type == 4 || type == 7 || type == 8

/-- The lines of `confxtra`, read into `char line[256]`. -/
def extraLines (file : CString) : List CString := fgetsLoop 256 (file.length + 1) file

def descHeader : CString := "![desc]".toList
def hissHeader : CString := "![hiss]".toList

/-- The loop of `get_conf_description`. -/
def descLine : List CString → Option CString
  | [] => none
  | line :: rest =>
    -- the value is the line after the first header
    if descHeader.isPrefixOf line then rest.head?.map rtrim else descLine rest

/-- `get_conf_description`; a file that does not exist is `none`. -/
def getConfDescription (file : Option CString) : Option CString :=
  file.bind fun buf => descLine (extraLines buf)

/-- The loop of `write_confxtra_section`: what it writes, and `found`. -/
def writeLines (value : CString) : List CString → CString × Bool
  | [] => ([], false)
  | line :: rest =>
    if descHeader.isPrefixOf line then
      -- the old value is skipped, the lines after it are copied
      (descHeader ++ '\n' :: (value ++ '\n' :: rest.tail.flatten), true)
    else
      let r := writeLines value rest
      (line ++ r.1, r.2)

def writeConfxtraSection (tag value : CString) (file : Option CString) : CString :=
  let r := writeLines value (extraLines (file.getD []))
  if r.2 then r.1
  else r.1 ++ '!' :: '[' :: (tag ++ ']' :: '\n' :: (value ++ ['\n']))

/-- The loop of `remove_confxtra_section`, with `skip`: what it writes, and `removed`. -/
def removeLines (tag : CString) : Nat → List CString → CString × Bool
  | _, [] => ([], false)
  | 0, line :: rest =>
    if ['!', '['].isPrefixOf line ∧ tag <:+: line then
      -- the header is dropped here and `skip` lines after it
      ((removeLines tag 2 rest).1, true)
    else
      let r := removeLines tag 0 rest
      (line ++ r.1, r.2)
  | skip + 1, _ :: rest => removeLines tag skip rest

/-- `remove_confxtra_section`: what it returns, and the file afterwards. -/
def removeConfxtraSection (tag : CString) : Option CString → Int × Option CString
  | none => (-1, none)
  | some buf =>
    let r := removeLines tag 0 (extraLines buf)
    (if r.2 then 0 else -1, some r.1)

/-- A call of `cmd_like` or `cmd_unlike`, with what it reads: the user, the conference list, the
texts of the conference, the last text shown, and the time.  The numbers fit a `long`. -/
structure Praise where
  uid : Int
  conffile : CString
  texts : Int → Option CString
  lastText : Int
  now : Int
  args : CString
  fits : uid.natAbs ≤ longMax ∧ lastText.natAbs ≤ longMax ∧ now.natAbs ≤ longMax ∧
    (atol args).natAbs ≤ longMax

/-- What the two commands tell the user. -/
inductive LikeReply where
  | notInMbox
  | praiseLocal
  | noTxtYet
  | noTxtValid
  | noTxt
  | noParseFile
  | praiseOwn
  | oneIsEnough
  | praised
  | notPraised
  | isRemoved
deriving DecidableEq, Repr

/-- The checks that `cmd_like` and `cmd_unlike` share: the number of the text. -/
def praiseText (conf : Int) (p : Praise) : Option (Except LikeReply Int) :=
  if conf ≤ 0 then some (.error .notInMbox)
  else match getConfStruct conf p.conffile with
    | none => none
    | some none => some (.error .praiseLocal)
    | some (some ce) =>
      if confIsExternal ce.type then some (.error .praiseLocal)
      else if p.args = [] then
        if p.lastText = 0 then some (.error .noTxtYet) else some (.ok p.lastText)
      else if atol p.args ≤ 0 then some (.error .noTxtValid)
      else some (.ok (atol p.args))

/-- The text that `cmd_like` is about: it exists and is not the user's own. -/
def likeText (conf : Int) (p : Praise) : Option (Except LikeReply Int) :=
  match praiseText conf p with
  | none => none
  | some (.error r) => some (.error r)
  | some (.ok textnum) =>
    match p.texts textnum with
    | none => some (.error .noTxt)
    | some file =>
      match getTextEntry file with
      | .crash => none
      | .null => some (.error .noParseFile)
      | .entry _ none => some (.error .noParseFile)
      | .entry te (some _) =>
        if te.th.author = p.uid then some (.error .praiseOwn) else some (.ok textnum)

/-- `"%d:%ld:"` -/
def likeMatch (uid textnum : Int) : CString := field uid ++ field textnum

/-- `"%d:%ld:%ld"` -/
def likeLine (uid textnum now : Int) : CString := likeMatch uid textnum ++ decimal now

/-- The loop of `cmd_like` over the lines before `hiss_end`. -/
def likeSeen (mtch hissEnd : CString) : Nat → CString → Bool
  | 0, _ => false
  | fuel + 1, p =>
    if p.length > hissEnd.length then
      if mtch.isPrefixOf p then true
      else
        -- to the end of the line, or of the section
        let q := p.drop ((p.take (p.length - hissEnd.length)).takeWhile (· ≠ '\n')).length
        likeSeen mtch hissEnd fuel (if q.head? = some '\n' then q.tail else q)
    else false

/-- `cmd_like` after its checks. -/
def addLike (uid textnum now : Int) (buf : CString) : LikeReply × CString :=
  match strstr buf hissHeader with
  | some hiss =>
    let hissStart := (hiss.drop 7).dropWhile fun c => c == '\r' || c == '\n'
    -- a section goes on to the next `"!["`, or to the end of the file
    let hissEnd := (strstr hissStart ['!', '[']).getD []
    if likeSeen (likeMatch uid textnum) hissEnd (hissStart.length + 1) hissStart then
      (.oneIsEnough, buf)
    else (.praised, buf ++ likeLine uid textnum now ++ ['\n'])
  | none => (.praised, buf ++ hissHeader ++ '\n' :: likeLine uid textnum now ++ ['\n'])

/-- `cmd_like`: the reply, and the file afterwards. -/
def cmdLike (conf : Int) (p : Praise) (file : Option CString) :
    Option (LikeReply × Option CString) :=
  match likeText conf p with
  | none => none
  | some (.error r) => some (r, file)
  | some (.ok textnum) =>
    let r := addLike p.uid textnum p.now (file.getD [])
    some (r.1, some r.2)

/-- The loop of `cmd_unlike`: the lines that it keeps, and `found`. -/
def dropLikes (mtch : CString) : Nat → CString → CString × Bool
  | 0, _ => ([], false)
  | fuel + 1, p =>
    if p = [] then ([], false)
    else
      match strchr p '\n' with
      -- the last line has no newline
      | none => if mtch.isPrefixOf p then ([], true) else (p, false)
      | some nl =>
        let line := p.take (p.length - nl.length)
        let r := dropLikes mtch fuel nl.tail
        if mtch.isPrefixOf line then (r.1, true) else (line ++ '\n' :: r.1, r.2)

/-- `cmd_unlike`: the reply, and the file afterwards. -/
def cmdUnlike (conf : Int) (p : Praise) (file : Option CString) :
    Option (LikeReply × Option CString) :=
  match praiseText conf p with
  | none => none
  | some (.error r) => some (r, file)
  | some (.ok textnum) =>
    let buf := file.getD []
    let r := dropLikes (likeMatch p.uid textnum) (buf.length + 1) buf
    if r.2 then some (.isRemoved, some r.1) else some (.notPraised, some buf)

/-- One conversion `"%ld"` of `sscanf`. -/
def scanNumber (s : CString) : Option (Int × CString) :=
  let r := strtol s
  if r.2 = s then none else some r

/-- `sscanf(line, "%d:%ld:%ld", &u, &tnum, &ts)` where it returns 3. -/
def scanLike (line : CString) : Option (Int × Int × Int) :=
  match scanNumber line with
  | some (u, ':' :: s1) =>
    match scanNumber s1 with
    | some (tnum, ':' :: s2) => (scanNumber s2).map fun r => (u, tnum, r.1)
    | _ => none
  | _ => none

/-- What `get_conf_likes` reads from each line: user, text and time. -/
def likeRecords (file : Option CString) : List (Int × Int × Int) :=
  match file with
  | none => []
  | some buf => (extraLines buf).filterMap fun line =>
      if hissHeader.isPrefixOf line then none else scanLike line

structure LikeEntry where
  confnum : Int
  textnum : Int
  timestamp : Int
deriving DecidableEq, Repr

/-- `get_conf_likes`: the nodes of its list do not hold the user. -/
def getConfLikes (confnum : Int) (file : Option CString) : List LikeEntry :=
  (likeRecords file).map fun r => ⟨confnum, r.2.1, r.2.2⟩

/-! ## Reading lines -/

/-- Lines that fit the buffer are read one by one. -/
theorem fgetsLoop_unlines {size : Nat} {ls : List CString}
    (h : ∀ l ∈ ls, '\n' ∉ l ∧ l.length + 1 < size) (fuel : Nat) (hf : ls.length < fuel) :
    fgetsLoop size fuel (unlines ls) = ls.map (· ++ ['\n']) := by
  induction ls generalizing fuel with
  | nil =>
    cases fuel with
    | zero => omega
    | succ fuel => rfl
  | cons l ls ih =>
    cases fuel with
    | zero => omega
    | succ fuel =>
      obtain ⟨hnl, hlen⟩ := h l List.mem_cons_self
      have hih := ih (fun a ha => h a (List.mem_cons_of_mem _ ha)) fuel
        (by rw [List.length_cons] at hf; omega)
      rw [unlines_cons, fgetsLoop, if_neg (by simp)]
      simp only [fgets_line hnl hlen, hih, List.map_cons]

theorem extraLines_unlines {ls : List CString} (h : ∀ l ∈ ls, '\n' ∉ l ∧ l.length < 255) :
    extraLines (unlines ls) = ls.map (· ++ ['\n']) := by
  apply fgetsLoop_unlines
  · intro l hl
    exact ⟨(h l hl).1, by have := (h l hl).2; omega⟩
  · have := length_le_unlines ls
    omega

/-! ## Numbers of a like -/

theorem notMem_fieldOf {n : Int} {c : Char} (hd : c.isDigit = false) (hm : c ≠ '-')
    (hc : c ≠ ':') : c ∉ field n := by
  unfold field
  rw [List.mem_append, not_or, List.mem_singleton]
  exact ⟨notMem_decimal hd hm, hc⟩

theorem notMem_likeMatch {uid textnum : Int} {c : Char} (hd : c.isDigit = false) (hm : c ≠ '-')
    (hc : c ≠ ':') : c ∉ likeMatch uid textnum := by
  unfold likeMatch
  rw [List.mem_append, not_or]
  exact ⟨notMem_fieldOf hd hm hc, notMem_fieldOf hd hm hc⟩

theorem notMem_likeLine {uid textnum now : Int} {c : Char} (hd : c.isDigit = false) (hm : c ≠ '-')
    (hc : c ≠ ':') : c ∉ likeLine uid textnum now := by
  unfold likeLine
  rw [List.mem_append, not_or]
  exact ⟨notMem_likeMatch hd hm hc, notMem_decimal hd hm⟩

theorem likeMatch_ne_nil (uid textnum : Int) : likeMatch uid textnum ≠ [] := by
  simp [likeMatch, field]

/-- A line of a like does not begin as a header does. -/
theorem not_isPrefixOf_likeLine (pat : CString) (uid textnum now : Int) (rest : CString) :
    ('!' :: pat).isPrefixOf (likeLine uid textnum now ++ rest) = false := by
  have hnot : '!' ∉ likeLine uid textnum now := notMem_likeLine rfl (by decide) (by decide)
  have hne : likeLine uid textnum now ≠ [] := by simp [likeLine, likeMatch, field]
  obtain ⟨c, s, hs⟩ := List.exists_cons_of_ne_nil hne
  rw [hs] at hnot ⊢
  have hc : '!' ≠ c := fun h => hnot (h ▸ List.mem_cons_self)
  rw [List.cons_append, List.isPrefixOf]
  simp [hc]

theorem field_prefix_field {m n : Int} {s t : CString} :
    field m ++ s <+: field n ++ t ↔ m = n ∧ s <+: t := by
  constructor
  · intro h
    obtain ⟨r, hr⟩ := h
    -- a number ends at its colon, so both fields read as the same number
    have hmn : m = n := by
      rw [← atol_field m (s ++ r), ← atol_field n t, ← hr, List.append_assoc]
    subst hmn
    rw [List.append_assoc] at hr
    exact ⟨rfl, r, List.append_cancel_left hr⟩
  · rintro ⟨rfl, h⟩
    rw [List.prefix_append_right_inj]
    exact h

/-- The search key of a like is the start of that like's lines only. -/
theorem likeMatch_prefix_likeLine {u t uid textnum now : Int} :
    likeMatch u t <+: likeLine uid textnum now ↔ u = uid ∧ t = textnum := by
  unfold likeLine likeMatch
  rw [List.append_assoc, field_prefix_field, ← List.append_nil (field t), field_prefix_field]
  simp

theorem scanNumber_decimal (n : Int) {c : Char} (s : CString) (hc : c.isDigit = false) :
    scanNumber (decimal n ++ c :: s) = some (n, c :: s) := by
  unfold scanNumber
  rw [strtol_decimal n (noDigit_cons.mpr hc)]
  apply if_neg
  intro h
  exact decimal_ne_nil n (List.self_eq_append_left.mp h)

theorem scanLike_likeLine (uid textnum now : Int) :
    scanLike (likeLine uid textnum now ++ ['\n']) = some (uid, textnum, now) := by
  have hline : likeLine uid textnum now ++ ['\n'] =
      decimal uid ++ ':' :: (decimal textnum ++ ':' :: (decimal now ++ ['\n'])) := by
    simp [likeLine, likeMatch, field]
  unfold scanLike
  rw [hline, scanNumber_decimal uid _ rfl]
  simp only [scanNumber_decimal textnum _ (show ':'.isDigit = false from rfl),
    scanNumber_decimal now _ (show '\n'.isDigit = false from rfl), Option.map_some]

/-! ## Files of the program -/

/-- A piece of the file: a description with its header, a header of likes, or a like. -/
inductive ExtraItem where
  | desc (d : CString)
  | hiss
  | like (uid textnum now : Int)

namespace ExtraItem

def lines : ExtraItem → List CString
  | desc d => [descHeader, d]
  | hiss => [hissHeader]
  | like uid textnum now => [likeLine uid textnum now]

def descText : ExtraItem → Option CString
  | desc d => some d
  | _ => none

def record : ExtraItem → Option (Int × Int × Int)
  | like uid textnum now => some (uid, textnum, now)
  | _ => none

/-- The user and the text of a like. -/
def pair (i : ExtraItem) : Option (Int × Int) := i.record.map fun r => (r.1, r.2.1)

/-- A description is one line that does not read as a like; the numbers of a like fit a `long`. -/
def Ok : ExtraItem → Prop
  | desc d => '\n' ∉ d ∧ d.length ≤ 79 ∧ scanLike (d ++ ['\n']) = none
  | hiss => True
  | like uid textnum now =>
    uid.natAbs ≤ longMax ∧ textnum.natAbs ≤ longMax ∧ now.natAbs ≤ longMax

/-- The lines as `fgets` reads them. -/
def read (i : ExtraItem) : List CString := i.lines.map (· ++ ['\n'])

theorem Ok.lines {i : ExtraItem} (h : i.Ok) : ∀ l ∈ i.lines, '\n' ∉ l ∧ l.length < 255 := by
  cases i with
  | desc d =>
    intro l hl
    simp only [ExtraItem.lines, List.mem_cons, List.not_mem_nil, or_false] at hl
    rcases hl with rfl | rfl
    · decide
    · exact ⟨h.1, by have := h.2.1; omega⟩
  | hiss =>
    intro l hl
    rw [List.mem_singleton.mp hl]
    decide
  | like uid textnum now =>
    intro l hl
    rw [List.mem_singleton.mp hl]
    constructor
    · exact notMem_likeLine rfl (by decide) (by decide)
    · have h1 := length_decimal_long h.1
      have h2 := length_decimal_long h.2.1
      have h3 := length_decimal_long h.2.2
      simp only [likeLine, likeMatch, field, List.length_append, List.length_cons,
        List.length_nil]
      omega

end ExtraItem

def extraBytes (items : List ExtraItem) : CString := unlines (items.flatMap ExtraItem.lines)

theorem extraBytes_eq (items : List ExtraItem) :
    extraBytes items = (items.flatMap ExtraItem.read).flatten := by
  induction items with
  | nil => rfl
  | cons i items ih =>
    rw [List.flatMap_cons, List.flatten_append, ← ih]
    show unlines ((i :: items).flatMap ExtraItem.lines) = _
    rw [List.flatMap_cons, unlines_append]
    rfl

@[simp] theorem extraBytes_nil : extraBytes [] = [] := rfl

theorem extraBytes_append (as bs : List ExtraItem) :
    extraBytes (as ++ bs) = extraBytes as ++ extraBytes bs := by
  rw [extraBytes, List.flatMap_append, unlines_append]
  rfl

theorem extraLines_bytes {items : List ExtraItem} (h : ∀ i ∈ items, i.Ok) :
    extraLines (extraBytes items) = items.flatMap ExtraItem.read := by
  unfold extraBytes
  rw [extraLines_unlines, List.map_flatMap]
  · rfl
  · intro l hl
    obtain ⟨i, hi, hli⟩ := List.mem_flatMap.mp hl
    exact (h i hi).lines l hli

/-! ## The readers -/

theorem descHeader_isPrefixOf_likeLine (uid textnum now : Int) :
    descHeader.isPrefixOf (likeLine uid textnum now ++ ['\n']) = false :=
  not_isPrefixOf_likeLine _ _ _ _ _

theorem hissHeader_isPrefixOf_likeLine (uid textnum now : Int) :
    hissHeader.isPrefixOf (likeLine uid textnum now ++ ['\n']) = false :=
  not_isPrefixOf_likeLine _ _ _ _ _

/-- No line of an item other than a description is its header. -/
theorem not_descHeader {i : ExtraItem} (h : i.descText = none) :
    ∃ line, i.read = [line] ∧ descHeader.isPrefixOf line = false := by
  cases i with
  | desc d => cases h
  | hiss => exact ⟨_, rfl, by decide⟩
  | like uid textnum now => exact ⟨_, rfl, descHeader_isPrefixOf_likeLine uid textnum now⟩

theorem rtrim_line (d : CString) : rtrim (d ++ ['\n']) = d ++ ['\n'] := by
  apply rtrim_of_noBlank
  rw [List.getLast?_append]
  show some '\n' ≠ some ' '
  decide

/-- `get_conf_description` finds the first description, with its line end. -/
theorem descLine_read (items : List ExtraItem) :
    descLine (items.flatMap ExtraItem.read) =
      (items.filterMap ExtraItem.descText).head?.map (· ++ ['\n']) := by
  induction items with
  | nil => rfl
  | cons i items ih =>
    rw [List.flatMap_cons]
    cases hi : i.descText with
    | none =>
      obtain ⟨line, hread, hline⟩ := not_descHeader hi
      rw [hread, List.singleton_append, descLine, hline, List.filterMap_cons_none hi]
      exact ih
    | some d =>
      cases i with
      | desc d' =>
        rw [List.filterMap_cons_some hi, ← Option.some.inj hi]
        show (some (rtrim (d' ++ ['\n'])) : Option CString) = some (d' ++ ['\n'])
        rw [rtrim_line]
      | hiss => cases hi
      | like uid textnum now => cases hi

theorem records_read {items : List ExtraItem} (h : ∀ i ∈ items, i.Ok) :
    ((items.flatMap ExtraItem.read).filterMap fun line =>
      if hissHeader.isPrefixOf line then none else scanLike line) =
      items.filterMap ExtraItem.record := by
  induction items with
  | nil => rfl
  | cons i items ih =>
    have hih := ih fun j hj => h j (List.mem_cons_of_mem _ hj)
    have hi := h i List.mem_cons_self
    rw [List.flatMap_cons, List.filterMap_append, hih]
    cases i with
    | desc d =>
      have h1 : scanLike (descHeader ++ ['\n']) = none := by decide
      have h2 : scanLike (d ++ ['\n']) = none := hi.2.2
      simp only [ExtraItem.read, ExtraItem.lines, List.map_cons, List.map_nil,
        List.filterMap_cons, List.filterMap_nil, h1, h2, ite_self, List.nil_append]
      rfl
    | hiss =>
      have h1 : hissHeader.isPrefixOf (hissHeader ++ ['\n']) = true := by decide
      simp only [ExtraItem.read, ExtraItem.lines, List.map_cons, List.map_nil,
        List.filterMap_cons, List.filterMap_nil, h1, if_true, List.nil_append]
      rfl
    | like uid textnum now =>
      have h1 := hissHeader_isPrefixOf_likeLine uid textnum now
      have h2 := scanLike_likeLine uid textnum now
      simp only [ExtraItem.read, ExtraItem.lines, ExtraItem.record, List.map_cons, List.map_nil,
        List.filterMap_cons, List.filterMap_nil, h1, h2, Bool.false_eq_true, if_false]
      rfl

/-- `get_conf_likes` reads the likes in their order. -/
theorem likeRecords_bytes {items : List ExtraItem} (h : ∀ i ∈ items, i.Ok) :
    likeRecords (some (extraBytes items)) = items.filterMap ExtraItem.record := by
  rw [← records_read h]
  simp only [likeRecords, extraLines_bytes h]

theorem getConfDescription_bytes {items : List ExtraItem} (h : ∀ i ∈ items, i.Ok) :
    getConfDescription (some (extraBytes items)) =
      (items.filterMap ExtraItem.descText).head?.map (· ++ ['\n']) := by
  rw [← descLine_read]
  simp only [getConfDescription, Option.bind_some, extraLines_bytes h]

/-! ## The writers of the description -/

section Writers

variable {as bs : List ExtraItem}

/-- The lines before the description are copied. -/
theorem writeLines_append (value : CString) (has : ∀ i ∈ as, i.descText = none)
    (rest : List CString) :
    writeLines value (as.flatMap ExtraItem.read ++ rest) =
      (extraBytes as ++ (writeLines value rest).1, (writeLines value rest).2) := by
  induction as with
  | nil => rfl
  | cons i as ih =>
    obtain ⟨line, hread, hline⟩ := not_descHeader (has i List.mem_cons_self)
    have hih := ih fun j hj => has j (List.mem_cons_of_mem _ hj)
    rw [extraBytes_eq, List.flatMap_cons, List.flatten_append, ← extraBytes_eq, hread,
      List.singleton_append, List.cons_append, writeLines, hline]
    simp only [hih, Bool.false_eq_true, if_false]
    simp

theorem writeLines_desc (value : CString) (has : ∀ i ∈ as, i.descText = none) (d : CString) :
    writeLines value ((as ++ .desc d :: bs).flatMap ExtraItem.read) =
      (extraBytes (as ++ .desc value :: bs), true) := by
  have hrest : writeLines value ((ExtraItem.desc d :: bs).flatMap ExtraItem.read) =
      (extraBytes (.desc value :: bs), true) := by
    rw [extraBytes_eq, List.flatMap_cons, List.flatMap_cons]
    show writeLines value ((descHeader ++ ['\n']) :: (d ++ ['\n']) ::
      bs.flatMap ExtraItem.read) = _
    rw [writeLines, if_pos (by decide)]
    simp [ExtraItem.read, ExtraItem.lines]
  rw [List.flatMap_append, writeLines_append value has, hrest, extraBytes_append]

theorem writeLines_none (value : CString) (has : ∀ i ∈ as, i.descText = none) :
    writeLines value (as.flatMap ExtraItem.read) = (extraBytes as, false) := by
  have h := writeLines_append value has []
  rw [List.append_nil] at h
  rw [h]
  simp [writeLines]

def descTag : CString := "desc".toList

/-- The lines of a file without a description are no header of it for
`remove_confxtra_section`. -/
theorem not_descSection {i : ExtraItem} (h : i.descText = none) :
    ∃ line, i.read = [line] ∧ ¬ (['!', '['].isPrefixOf line ∧ descTag <:+: line) := by
  cases i with
  | desc d => cases h
  | hiss => exact ⟨_, rfl, by decide⟩
  | like uid textnum now =>
    refine ⟨_, rfl, fun hline => ?_⟩
    have := not_isPrefixOf_likeLine ['['] uid textnum now ['\n']
    rw [hline.1] at this
    cases this

theorem removeLines_append (has : ∀ i ∈ as, i.descText = none) (rest : List CString) :
    removeLines descTag 0 (as.flatMap ExtraItem.read ++ rest) =
      (extraBytes as ++ (removeLines descTag 0 rest).1, (removeLines descTag 0 rest).2) := by
  induction as with
  | nil => rfl
  | cons i as ih =>
    obtain ⟨line, hread, hline⟩ := not_descSection (has i List.mem_cons_self)
    have hih := ih fun j hj => has j (List.mem_cons_of_mem _ hj)
    rw [extraBytes_eq, List.flatMap_cons, List.flatten_append, ← extraBytes_eq, hread,
      List.singleton_append, List.cons_append, removeLines, if_neg hline]
    simp only [hih]
    simp

theorem removeLines_none (has : ∀ i ∈ as, i.descText = none) :
    removeLines descTag 0 (as.flatMap ExtraItem.read) = (extraBytes as, false) := by
  have h := removeLines_append has []
  rw [List.append_nil] at h
  rw [h]
  simp [removeLines]

/-- The description is removed, and the line after it. -/
theorem removeLines_desc (has : ∀ i ∈ as, i.descText = none) (hbs : ∀ i ∈ bs, i.descText = none)
    (d : CString) :
    removeLines descTag 0 ((as ++ .desc d :: bs).flatMap ExtraItem.read) =
      (extraBytes (as ++ bs.tail), true) := by
  -- with `skip = 2` two lines go: the value and the one after it
  have hskip : removeLines descTag 1 (bs.flatMap ExtraItem.read) =
      removeLines descTag 0 (bs.tail.flatMap ExtraItem.read) := by
    cases bs with
    | nil => rfl
    | cons i bs =>
      obtain ⟨line, hread, -⟩ := not_descSection (hbs i List.mem_cons_self)
      rw [List.flatMap_cons, hread]
      rfl
  have hrest : removeLines descTag 0 ((ExtraItem.desc d :: bs).flatMap ExtraItem.read) =
      (extraBytes bs.tail, true) := by
    show removeLines descTag 0 ((descHeader ++ ['\n']) :: (d ++ ['\n']) ::
      bs.flatMap ExtraItem.read) = _
    rw [removeLines, if_pos (by decide)]
    show ((removeLines descTag 1 (bs.flatMap ExtraItem.read)).1, true) = _
    rw [hskip, removeLines_none fun i hi => hbs i (List.mem_of_mem_tail hi)]
  rw [List.flatMap_append, removeLines_append has, hrest, extraBytes_append]

end Writers

/-! ## The writers of the likes -/

/-- The lines that `cmd_unlike` keeps. -/
theorem dropLikes_unlines (mtch : CString) {ls : List CString} (h : ∀ l ∈ ls, '\n' ∉ l)
    (fuel : Nat) (hf : ls.length < fuel) :
    dropLikes mtch fuel (unlines ls) =
      (unlines (ls.filter fun l => !mtch.isPrefixOf l), ls.any fun l => mtch.isPrefixOf l) := by
  induction ls generalizing fuel with
  | nil =>
    cases fuel with
    | zero => omega
    | succ fuel => rfl
  | cons l ls ih =>
    cases fuel with
    | zero => omega
    | succ fuel =>
      have hih := ih (fun a ha => h a (List.mem_cons_of_mem _ ha)) fuel
        (by rw [List.length_cons] at hf; omega)
      rw [unlines_cons, dropLikes, if_neg (by simp), strchr_append (h l List.mem_cons_self)]
      simp only [take_before, List.tail_cons, hih]
      by_cases hm : mtch.isPrefixOf l = true
      · rw [if_pos hm]
        simp [hm]
      · rw [if_neg hm]
        simp [hm]

/-- The text between the first `![hiss]` and the next `![`, where `cmd_like` looks for the like. -/
def hissSection (buf : CString) : Option CString :=
  (strstr buf hissHeader).map fun hiss =>
    let hissStart := (hiss.drop 7).dropWhile fun c => c == '\r' || c == '\n'
    hissStart.take (hissStart.length - ((strstr hissStart ['!', '[']).getD []).length)

/-- A line of `s` begins with `key`. -/
def BeginsLine (key s : CString) : Prop :=
  ∃ pre post, s = pre ++ key ++ post ∧ (pre = [] ∨ ∃ a, pre = a ++ ['\n'])

theorem beginsLine_first {key s : CString} (h : key <+: s) : BeginsLine key s := by
  obtain ⟨post, rfl⟩ := h
  exact ⟨[], post, rfl, Or.inl rfl⟩

theorem not_beginsLine_nil {key : CString} (h : key ≠ []) : ¬ BeginsLine key [] := by
  rintro ⟨pre, post, hs, -⟩
  have := (List.append_eq_nil_iff.mp hs.symm).1
  exact h (List.append_eq_nil_iff.mp this).2

/-- The key begins the first line or a line after it. -/
theorem beginsLine_line {key l rest : CString} (hl : '\n' ∉ l) :
    BeginsLine key (l ++ '\n' :: rest) ↔ key <+: l ++ '\n' :: rest ∨ BeginsLine key rest := by
  constructor
  · rintro ⟨pre, post, hs, rfl | ⟨a, rfl⟩⟩
    · exact Or.inl ⟨post, by rw [hs, List.nil_append]⟩
    · right
      -- the line end before the key is the one after `l`, or comes later
      rw [List.append_assoc, List.append_assoc, List.singleton_append] at hs
      rcases List.append_eq_append_iff.mp hs with ⟨t, ht, hr⟩ | ⟨t, ht, hr⟩
      · cases t with
        | nil =>
          rw [List.nil_append] at hr
          exact ⟨[], post, by rw [List.nil_append, (List.cons.inj hr).2], Or.inl rfl⟩
        | cons c t =>
          rw [List.cons_append] at hr
          refine ⟨t ++ ['\n'], post, ?_, Or.inr ⟨t, rfl⟩⟩
          rw [(List.cons.inj hr).2]
          simp
      · cases t with
        | nil =>
          rw [List.nil_append] at hr
          exact ⟨[], post, by rw [List.nil_append, (List.cons.inj hr).2], Or.inl rfl⟩
        | cons c t =>
          exfalso
          apply hl
          rw [ht, (List.cons.inj hr).1]
          simp
  · rintro (h | ⟨pre, post, rfl, hpre⟩)
    · exact beginsLine_first h
    · refine ⟨l ++ '\n' :: pre, post, by simp, Or.inr ?_⟩
      rcases hpre with rfl | ⟨a, rfl⟩
      · exact ⟨l, by simp⟩
      · exact ⟨l ++ '\n' :: a, by simp⟩

theorem beginsLine_lastLine {key l : CString} (hl : '\n' ∉ l) :
    BeginsLine key l ↔ key <+: l := by
  constructor
  · rintro ⟨pre, post, hs, rfl | ⟨a, rfl⟩⟩
    · exact ⟨post, by rw [hs, List.nil_append]⟩
    · exfalso
      apply hl
      rw [hs]
      simp
  · exact beginsLine_first

/-- A key without `!` cannot reach into the next section. -/
theorem prefix_before_section {key sec e : CString} (hkey : '!' ∉ key)
    (he : e = [] ∨ ∃ r, e = '!' :: r) : key <+: sec ++ e ↔ key <+: sec := by
  constructor
  · rintro ⟨r, hr⟩
    rcases List.append_eq_append_iff.mp hr with ⟨t, ht, -⟩ | ⟨t, ht, hte⟩
    · exact ⟨t, ht.symm⟩
    · cases t with
      | nil => exact ⟨[], by simpa using ht⟩
      | cons c t =>
        exfalso
        rcases he with rfl | ⟨r', rfl⟩
        · cases hte
        · apply hkey
          rw [ht, (List.cons.inj hte).1]
          simp
  · intro h
    exact h.trans (List.prefix_append _ _)

/-- The loop of `cmd_like` looks at the start of every line of the section. -/
theorem likeSeen_iff {key e : CString} (hne : key ≠ []) (hbang : '!' ∉ key)
    (he : e = [] ∨ ∃ r, e = '!' :: r) (fuel : Nat) (sec : CString) (hf : sec.length < fuel) :
    likeSeen key e fuel (sec ++ e) = true ↔ BeginsLine key sec := by
  induction fuel generalizing sec with
  | zero => omega
  | succ fuel ih =>
    unfold likeSeen
    by_cases hsec : sec = []
    · subst hsec
      rw [List.nil_append, if_neg (by omega)]
      exact iff_of_false (by simp) (not_beginsLine_nil hne)
    · have hpos : 0 < sec.length := List.length_pos_iff.mpr hsec
      rw [if_pos (by rw [List.length_append]; omega), take_before]
      have hpre : key.isPrefixOf (sec ++ e) = true ↔ key <+: sec := by
        rw [List.isPrefixOf_iff_prefix, prefix_before_section hbang he]
      by_cases hk : key.isPrefixOf (sec ++ e) = true
      · rw [if_pos hk]
        exact iff_of_true rfl (beginsLine_first (hpre.mp hk))
      rw [if_neg hk]
      rw [hpre] at hk
      cases hs : strchr sec '\n' with
      | some nl =>
        -- a line end in the section: the next line
        obtain ⟨l, rest, rfl, rfl, hl⟩ := strchr_split hs
        have hl' : ∀ c ∈ l, decide (c ≠ '\n') = true := by
          intro c hc
          simpa using fun h : c = '\n' => hl (h ▸ hc)
        have htw : (l ++ '\n' :: rest).takeWhile (· ≠ '\n') = l := by
          rw [List.takeWhile_append_of_pos hl']
          simp
        have hq : (l ++ '\n' :: rest ++ e).drop l.length = '\n' :: (rest ++ e) := by
          rw [List.append_assoc, List.drop_left' rfl, List.cons_append]
        have hlen : rest.length < fuel := by
          rw [List.length_append, List.length_cons] at hf
          omega
        simp only [htw, hq, List.head?_cons, if_true, List.tail_cons]
        rw [ih rest hlen, beginsLine_line hl, or_iff_right hk]
      | none =>
        -- the last line of the section: the walk ends at its end
        have hl : '\n' ∉ sec := notMem_of_strchr hs
        have hl' : ∀ c ∈ sec, decide (c ≠ '\n') = true := by
          intro c hc
          simpa using fun h : c = '\n' => hl (h ▸ hc)
        have htw : sec.takeWhile (· ≠ '\n') = sec := List.takeWhile_eq_self_iff.mpr hl'
        have hhead : e.head? ≠ some '\n' := by
          rcases he with rfl | ⟨r, rfl⟩
          · simp
          · simp
        have hend : likeSeen key e fuel e = false := by
          cases fuel with
          | zero => rfl
          | succ fuel => rw [likeSeen, if_neg (by omega)]
        simp only [htw, List.drop_left' rfl, if_neg hhead, hend, Bool.false_eq_true, false_iff]
        rw [beginsLine_lastLine hl]
        exact hk

/-- `cmd_like` finds the like of the user in the file. -/
def SeenLike (buf : CString) (uid textnum : Int) : Prop :=
  ∃ sec, hissSection buf = some sec ∧ BeginsLine (likeMatch uid textnum) sec

/-- A like that is seen is refused, and another one is appended, with a header where the file has
none. -/
theorem addLike_file (uid textnum now : Int) (buf : CString) :
    (SeenLike buf uid textnum → (addLike uid textnum now buf).2 = buf) ∧
      (¬ SeenLike buf uid textnum → ∃ hdr : List ExtraItem, (∀ i ∈ hdr, i = .hiss) ∧
        (addLike uid textnum now buf).2 = buf ++ extraBytes (hdr ++ [.like uid textnum now])) := by
  unfold addLike SeenLike hissSection
  cases hs : strstr buf hissHeader with
  | none =>
    constructor
    · rintro ⟨sec, hsec, -⟩
      cases hsec
    · intro _
      refine ⟨[.hiss], by simp, ?_⟩
      simp [extraBytes, ExtraItem.lines]
  | some hiss =>
    set start := (hiss.drop 7).dropWhile fun c => c == '\r' || c == '\n' with hstart
    set e := (strstr start ['!', '[']).getD [] with he
    have hsplit : start = start.take (start.length - e.length) ++ e ∧
        (e = [] ∨ ∃ r, e = '!' :: r) := by
      cases ht : strstr start ['!', '['] with
      | none =>
        have he' : e = [] := by rw [he, ht]; rfl
        rw [he']
        simp
      | some t =>
        have he' : e = t := by rw [he, ht]; rfl
        obtain ⟨⟨r, hr⟩, a, ha⟩ := strstr_eq_some ht
        rw [he']
        constructor
        · conv_lhs => rw [ha]
          rw [ha, take_before]
        · exact Or.inr ⟨_, hr.symm⟩
    have hseen : likeSeen (likeMatch uid textnum) e (start.length + 1) start = true ↔
        BeginsLine (likeMatch uid textnum) (start.take (start.length - e.length)) := by
      conv_lhs => rw [hsplit.1]
      apply likeSeen_iff (likeMatch_ne_nil _ _) (notMem_likeMatch rfl (by decide) (by decide))
        hsplit.2
      rw [← hsplit.1, List.length_take]
      omega
    simp only [Option.map_some, Option.some.injEq, exists_eq_left']
    rw [← hseen]
    constructor
    · intro h
      rw [if_pos h]
    · intro h
      refine ⟨[], by simp, ?_⟩
      rw [if_neg h]
      simp [extraBytes, ExtraItem.lines]

theorem likeMatch_isPrefixOf_header (uid textnum : Int) (s : CString) :
    (likeMatch uid textnum).isPrefixOf ('!' :: s) = false := by
  have hnot : '!' ∉ likeMatch uid textnum := notMem_likeMatch rfl (by decide) (by decide)
  obtain ⟨c, m, hm⟩ := List.exists_cons_of_ne_nil (likeMatch_ne_nil uid textnum)
  rw [hm] at hnot ⊢
  have hc : c ≠ '!' := fun h => hnot (h ▸ List.mem_cons_self)
  rw [List.isPrefixOf]
  simp [hc]

/-- `cmd_unlike` keeps the items other than the likes of the text, unless a description begins as
such a like does. -/
theorem filter_lines {items : List ExtraItem} {uid textnum : Int}
    (hdesc : ∀ d, .desc d ∈ items → ¬ likeMatch uid textnum <+: d) :
    ((items.flatMap ExtraItem.lines).filter fun l => !(likeMatch uid textnum).isPrefixOf l) =
      (items.filter fun i => i.pair ≠ some (uid, textnum)).flatMap ExtraItem.lines := by
  induction items with
  | nil => rfl
  | cons i items ih =>
    have hih := ih fun d hd => hdesc d (List.mem_cons_of_mem _ hd)
    rw [List.flatMap_cons, List.filter_append, hih]
    cases i with
    | desc d =>
      have h1 : (likeMatch uid textnum).isPrefixOf descHeader = false :=
        likeMatch_isPrefixOf_header _ _ _
      have h2 : (likeMatch uid textnum).isPrefixOf d = false := by
        rw [← Bool.not_eq_true, List.isPrefixOf_iff_prefix]
        exact hdesc d List.mem_cons_self
      simp [ExtraItem.lines, ExtraItem.pair, ExtraItem.record, h1, h2]
    | hiss =>
      have h1 : (likeMatch uid textnum).isPrefixOf hissHeader = false :=
        likeMatch_isPrefixOf_header _ _ _
      simp [ExtraItem.lines, ExtraItem.pair, ExtraItem.record, h1]
    | like u t now =>
      have hiff : (likeMatch uid textnum).isPrefixOf (likeLine u t now) = true ↔
          (u, t) = (uid, textnum) := by
        rw [List.isPrefixOf_iff_prefix, likeMatch_prefix_likeLine, Prod.mk.injEq, eq_comm,
          eq_comm (a := textnum)]
      by_cases hp : (u, t) = (uid, textnum)
      · simp [ExtraItem.lines, ExtraItem.pair, ExtraItem.record, hiff.mpr hp, hp]
      · have h1 : (likeMatch uid textnum).isPrefixOf (likeLine u t now) = false := by
          rw [← Bool.not_eq_true, hiff]
          exact hp
        simp only [ExtraItem.lines, ExtraItem.pair, ExtraItem.record, Option.map_some, h1,
          List.filter_cons, ne_eq, Option.some.injEq, hp, not_false_eq_true, decide_true,
          Bool.not_false, if_true, List.filter_nil, List.flatMap_cons]

/-! ## Runs of the four writers -/

/-- A description: one line of at most 79 characters. -/
abbrev ConfDesc := { d : CString // '\n' ∉ d ∧ d.length ≤ 79 }

/-- The file, the description that was set and not removed, and the users' likes that stand. -/
structure ExtraState where
  file : Option CString
  desc : Option CString
  likes : List (Int × Int)
deriving DecidableEq

inductive ExtraEvent where
  | setDesc (d : ConfDesc)
  | removeDesc
  | like (p : Praise)
  | unlike (p : Praise)

/-- The like that a command is about, when it passes its checks. -/
def targetPair (uid : Int) : Option (Except LikeReply Int) → Option (Int × Int)
  | some (.ok textnum) => some (uid, textnum)
  | _ => none

def extraStep (conf : Int) (s : ExtraState) : ExtraEvent → Option ExtraState
  | .setDesc d =>
    some { s with file := some (writeConfxtraSection descTag d.val s.file), desc := some d.val }
  | .removeDesc =>
    some { s with file := (removeConfxtraSection descTag s.file).2, desc := none }
  | .like p =>
    (cmdLike conf p s.file).map fun r =>
      { s with file := r.2,
               likes := match targetPair p.uid (likeText conf p) with
                 | some x => if x ∈ s.likes then s.likes else s.likes ++ [x]
                 | none => s.likes }
  | .unlike p =>
    (cmdUnlike conf p s.file).map fun r =>
      { s with file := r.2,
               likes := match targetPair p.uid (praiseText conf p) with
                 | some x => s.likes.filter (· ≠ x)
                 | none => s.likes }

def ExtraState.start : ExtraState := ⟨none, none, []⟩

/-- The readers agree with what the commands did: `get_conf_description` returns the description
with the line end that it is stored with, `get_conf_likes` reads each like once. -/
structure ExtraKept (conf : Int) (s : ExtraState) : Prop where
  desc : getConfDescription s.file = s.desc.map (· ++ ['\n'])
  likes : ((likeRecords s.file).map fun r => (r.1, r.2.1)).Perm s.likes
  once : s.likes.Nodup
  listed : ((getConfLikes conf s.file).map (·.textnum)).Perm (s.likes.map Prod.snd)

/-- The line after the value of the description. -/
def lineAfterDesc : List CString → Option CString
  | [] => none
  | line :: rest => if descHeader.isPrefixOf line then rest.tail.head? else lineAfterDesc rest

/-- When a command keeps to its own lines: a new description does not read as a like, no like
follows a description that is removed, `cmd_like` sees a like of the text exactly when there is
one, and no description begins as a like that is removed. -/
def ExtraSafe (conf : Int) (s : ExtraState) : ExtraEvent → Prop
  | .setDesc d => scanLike (d.val ++ ['\n']) = none
  | .removeDesc => ∀ line, lineAfterDesc (extraLines (s.file.getD [])) = some line →
      scanLike line = none
  | .like p => ∀ textnum, likeText conf p = some (.ok textnum) →
      (SeenLike (s.file.getD []) p.uid textnum ↔ (p.uid, textnum) ∈ s.likes)
  | .unlike p => ∀ textnum, praiseText conf p = some (.ok textnum) →
      ∀ d, s.desc = some d → ¬ likeMatch p.uid textnum <+: d

structure ExtraInv (s : ExtraState) : Prop where
  items : ∃ items : List ExtraItem, s.file.getD [] = extraBytes items ∧ (∀ i ∈ items, i.Ok) ∧
    items.filterMap ExtraItem.descText = s.desc.toList ∧
    items.filterMap ExtraItem.pair = s.likes
  once : s.likes.Nodup

theorem extraBytes_eq_nil {items : List ExtraItem} (h : extraBytes items = []) : items = [] := by
  cases items with
  | nil => rfl
  | cons i items => cases i <;> simp [extraBytes, ExtraItem.lines] at h

theorem filterMap_pair (items : List ExtraItem) :
    items.filterMap ExtraItem.pair =
      (items.filterMap ExtraItem.record).map fun r => (r.1, r.2.1) := by
  rw [List.map_filterMap]
  rfl

/-- What the readers return in a state of the invariant. -/
theorem ExtraInv.kept {conf : Int} {s : ExtraState} (h : ExtraInv s) : ExtraKept conf s := by
  obtain ⟨⟨items, hfile, hok, hdesc, hlikes⟩, honce⟩ := h
  cases hf : s.file with
  | none =>
    rw [hf] at hfile
    obtain rfl := extraBytes_eq_nil hfile.symm
    have hd : s.desc = none := by
      cases hs : s.desc with
      | none => rfl
      | some d =>
        rw [hs] at hdesc
        cases hdesc
    have hl : s.likes = [] := hlikes.symm
    constructor
    · rw [hf, hd]
      rfl
    · rw [hf, hl]
      exact .refl _
    · exact honce
    · rw [hf, hl]
      exact .refl _
  | some buf =>
    rw [hf] at hfile
    have hbuf : buf = extraBytes items := hfile
    subst hbuf
    have hrec := likeRecords_bytes hok
    have hpairs : ((likeRecords s.file).map fun r => (r.1, r.2.1)) = s.likes := by
      rw [hf, hrec, ← filterMap_pair, hlikes]
    constructor
    · rw [hf, getConfDescription_bytes hok, hdesc]
      cases s.desc <;> rfl
    · rw [hpairs]
    · exact honce
    · rw [← hpairs, getConfLikes, List.map_map, List.map_map]
      exact .refl _

section Steps

variable {conf : Int} {s s' : ExtraState}

theorem desc_split {items : List ExtraItem} {d : CString}
    (h : items.filterMap ExtraItem.descText = [d]) :
    ∃ as bs, items = as ++ .desc d :: bs ∧ (∀ i ∈ as, i.descText = none) ∧
      ∀ i ∈ bs, i.descText = none := by
  obtain ⟨as, i, bs, rfl, has, hi, hbs⟩ := List.filterMap_eq_cons_iff.mp h
  cases i with
  | desc d' =>
    obtain rfl := Option.some.inj hi
    exact ⟨as, bs, rfl, has, List.filterMap_eq_nil_iff.mp hbs⟩
  | hiss => cases hi
  | like uid textnum now => cases hi

theorem filterMap_pair_desc (as bs : List ExtraItem) (d : CString) :
    (as ++ .desc d :: bs).filterMap ExtraItem.pair = (as ++ bs).filterMap ExtraItem.pair := by
  rw [List.filterMap_append, List.filterMap_append]
  rfl

theorem filterMap_desc_append {as bs : List ExtraItem} (has : ∀ i ∈ as, i.descText = none)
    (hbs : ∀ i ∈ bs, i.descText = none) (d : CString) :
    (as ++ .desc d :: bs).filterMap ExtraItem.descText = [d] := by
  have h : ∀ is : List ExtraItem, (∀ i ∈ is, i.descText = none) →
      is.filterMap ExtraItem.descText = [] := fun is => List.filterMap_eq_nil_iff.mpr
  rw [List.filterMap_append, List.filterMap_cons, h as has, h bs hbs]
  rfl

theorem extraBytes_desc (v : CString) :
    extraBytes [.desc v] = descHeader ++ '\n' :: (v ++ ['\n']) := by
  show unlines [descHeader, v] = _
  rw [unlines_cons, unlines_cons, unlines_nil]

theorem extraInv_setDesc (h : ExtraInv s) (d : ConfDesc) (hd : scanLike (d.val ++ ['\n']) = none) :
    ExtraInv { s with file := some (writeConfxtraSection descTag d.val s.file),
                      desc := some d.val } := by
  obtain ⟨⟨items, hfile, hok, hdesc, hlikes⟩, honce⟩ := h
  have hnew : (ExtraItem.desc d.val).Ok := ⟨d.property.1, d.property.2, hd⟩
  refine ⟨?_, honce⟩
  have hlines : extraLines (s.file.getD []) = items.flatMap ExtraItem.read := by
    rw [hfile, extraLines_bytes hok]
  cases hs : s.desc with
  | none =>
    rw [hs] at hdesc
    have hnone : ∀ i ∈ items, i.descText = none := List.filterMap_eq_nil_iff.mp hdesc
    -- the file had no description: the new one comes last
    refine ⟨items ++ [.desc d.val], ?_, ?_, ?_, ?_⟩
    · show writeConfxtraSection descTag d.val s.file = _
      unfold writeConfxtraSection
      rw [hlines, writeLines_none d.val hnone, extraBytes_append, extraBytes_desc]
      rfl
    · intro i hi
      rcases List.mem_append.mp hi with hi | hi
      · exact hok i hi
      · rw [List.mem_singleton.mp hi]
        exact hnew
    · exact filterMap_desc_append hnone (by simp) d.val
    · rw [filterMap_pair_desc, List.append_nil]
      exact hlikes
  | some old =>
    rw [hs] at hdesc
    obtain ⟨as, bs, rfl, has, hbs⟩ := desc_split hdesc
    -- the new description takes the place of the old one
    refine ⟨as ++ .desc d.val :: bs, ?_, ?_, ?_, ?_⟩
    · show writeConfxtraSection descTag d.val s.file = _
      unfold writeConfxtraSection
      rw [hlines, writeLines_desc d.val has]
      rfl
    · intro i hi
      simp only [List.mem_append, List.mem_cons] at hi
      rcases hi with hi | rfl | hi
      · exact hok i (by simp [hi])
      · exact hnew
      · exact hok i (by simp [hi])
    · exact filterMap_desc_append has hbs d.val
    · rw [filterMap_pair_desc, ← hlikes, filterMap_pair_desc]

theorem lineAfterDesc_read {as bs : List ExtraItem} (has : ∀ i ∈ as, i.descText = none)
    (d : CString) :
    lineAfterDesc ((as ++ .desc d :: bs).flatMap ExtraItem.read) =
      (bs.flatMap ExtraItem.read).head? := by
  induction as with
  | nil =>
    show lineAfterDesc ((descHeader ++ ['\n']) :: (d ++ ['\n']) ::
      bs.flatMap ExtraItem.read) = _
    rw [lineAfterDesc, if_pos (by decide)]
    rfl
  | cons i as ih =>
    obtain ⟨line, hread, hline⟩ := not_descHeader (has i List.mem_cons_self)
    rw [List.cons_append, List.flatMap_cons, hread, List.singleton_append, lineAfterDesc, hline]
    exact ih fun j hj => has j (List.mem_cons_of_mem _ hj)

theorem extraInv_removeDesc (h : ExtraInv s) (hsafe : ExtraSafe conf s .removeDesc) :
    ExtraInv { s with file := (removeConfxtraSection descTag s.file).2, desc := none } := by
  obtain ⟨⟨items, hfile, hok, hdesc, hlikes⟩, honce⟩ := h
  refine ⟨?_, honce⟩
  have hlines : extraLines (s.file.getD []) = items.flatMap ExtraItem.read := by
    rw [hfile, extraLines_bytes hok]
  have hremoved : ((removeConfxtraSection descTag s.file).2).getD [] =
      (removeLines descTag 0 (items.flatMap ExtraItem.read)).1 := by
    cases hf : s.file with
    | none =>
      rw [hf] at hfile
      obtain rfl := extraBytes_eq_nil hfile.symm
      rfl
    | some buf =>
      rw [hf] at hlines
      rw [← hlines]
      rfl
  cases hs : s.desc with
  | none =>
    rw [hs] at hdesc
    have hnone : ∀ i ∈ items, i.descText = none := List.filterMap_eq_nil_iff.mp hdesc
    refine ⟨items, ?_, hok, hdesc, hlikes⟩
    rw [hremoved, removeLines_none hnone]
  | some old =>
    rw [hs] at hdesc
    obtain ⟨as, bs, rfl, has, hbs⟩ := desc_split hdesc
    have htail : bs.tail.filterMap ExtraItem.pair = bs.filterMap ExtraItem.pair := by
      cases bs with
      | nil => rfl
      | cons i bs =>
        cases i with
        | desc d => rfl
        | hiss => rfl
        | like uid textnum now =>
          -- the line that is lost is no like
          have hline := hsafe (likeLine uid textnum now ++ ['\n']) (by
            rw [hlines, lineAfterDesc_read has]
            rfl)
          rw [scanLike_likeLine] at hline
          cases hline
    refine ⟨as ++ bs.tail, ?_, ?_, ?_, ?_⟩
    · rw [hremoved, removeLines_desc has hbs]
    · intro i hi
      apply hok
      rcases List.mem_append.mp hi with hi | hi
      · exact List.mem_append_left _ hi
      · exact List.mem_append_right _ (List.mem_cons_of_mem _ (List.mem_of_mem_tail hi))
    · rw [List.filterMap_eq_nil_iff.mpr]
      · rfl
      · intro i hi
        rcases List.mem_append.mp hi with hi | hi
        · exact has i hi
        · exact hbs i (List.mem_of_mem_tail hi)
    · rw [List.filterMap_append, htail, ← hlikes, filterMap_pair_desc, List.filterMap_append]

theorem praiseText_fits {p : Praise} {textnum : Int}
    (h : praiseText conf p = some (.ok textnum)) : textnum.natAbs ≤ longMax := by
  obtain ⟨-, hlast, -, hargs⟩ := p.fits
  unfold praiseText at h
  split at h
  · cases h
  · split at h
    · cases h
    · cases h
    · split at h
      · cases h
      · split at h
        · split at h
          · cases h
          · cases h
            exact hlast
        · split at h
          · cases h
          · cases h
            exact hargs

theorem praiseText_of_likeText {p : Praise} {textnum : Int}
    (h : likeText conf p = some (.ok textnum)) : praiseText conf p = some (.ok textnum) := by
  unfold likeText at h
  split at h
  · cases h
  · cases h
  · rename_i n hn
    split at h
    · cases h
    · split at h
      · cases h
      · cases h
      · cases h
      · split at h
        · cases h
        · cases h
          exact hn

/-- A like that `cmd_like` does not see is a new one. -/
theorem extraInv_like {p : Praise} (h : ExtraInv s) (hsafe : ExtraSafe conf s (.like p))
    (hrun : extraStep conf s (.like p) = some s') : ExtraInv s' := by
  obtain ⟨r, hr, rfl⟩ := Option.map_eq_some_iff.mp hrun
  unfold cmdLike at hr
  cases ht : likeText conf p with
  | none =>
    rw [ht] at hr
    cases hr
  | some t =>
    rw [ht] at hr
    cases t with
    | error reply =>
      cases hr
      exact h
    | ok textnum =>
      cases hr
      obtain ⟨hseen, hnew⟩ := addLike_file p.uid textnum p.now (s.file.getD [])
      have hiff := hsafe textnum ht
      show ExtraInv { s with file := some (addLike p.uid textnum p.now (s.file.getD [])).2,
                             likes := if (p.uid, textnum) ∈ s.likes then s.likes
                               else s.likes ++ [(p.uid, textnum)] }
      obtain ⟨⟨items, hfile, hok, hdesc, hlikes⟩, honce⟩ := h
      by_cases hl : (p.uid, textnum) ∈ s.likes
      · rw [if_pos hl, hseen (hiff.mpr hl)]
        exact ⟨⟨items, hfile, hok, hdesc, hlikes⟩, honce⟩
      · rw [if_neg hl]
        -- the like is appended, and its header where there was none
        obtain ⟨hdr, hhdr, hbuf⟩ := hnew fun hs => hl (hiff.mp hs)
        have hdr1 : hdr.filterMap ExtraItem.descText = [] := by
          rw [List.filterMap_eq_nil_iff]
          intro i hi
          rw [hhdr i hi]
          rfl
        have hdr2 : hdr.filterMap ExtraItem.pair = [] := by
          rw [List.filterMap_eq_nil_iff]
          intro i hi
          rw [hhdr i hi]
          rfl
        refine ⟨⟨items ++ (hdr ++ [.like p.uid textnum p.now]), ?_, ?_, ?_, ?_⟩, ?_⟩
        · show (addLike p.uid textnum p.now (s.file.getD [])).2 = _
          rw [hbuf, hfile, ← extraBytes_append]
        · intro i hi
          simp only [List.mem_append, List.mem_singleton] at hi
          rcases hi with hi | hi | rfl
          · exact hok i hi
          · rw [hhdr i hi]
            trivial
          · exact ⟨p.fits.1, praiseText_fits (praiseText_of_likeText ht), p.fits.2.2.1⟩
        · rw [List.filterMap_append, List.filterMap_append, hdesc, hdr1]
          exact List.append_nil _
        · rw [List.filterMap_append, List.filterMap_append, hlikes, hdr2]
          rfl
        · rw [List.nodup_append]
          refine ⟨honce, by simp, ?_⟩
          intro x hx y hy he
          rw [he, List.mem_singleton.mp hy] at hx
          exact hl hx

/-- `cmd_unlike` removes the like and nothing else. -/
theorem extraInv_unlike {p : Praise} (h : ExtraInv s) (hsafe : ExtraSafe conf s (.unlike p))
    (hrun : extraStep conf s (.unlike p) = some s') : ExtraInv s' := by
  obtain ⟨r, hr, rfl⟩ := Option.map_eq_some_iff.mp hrun
  unfold cmdUnlike at hr
  cases ht : praiseText conf p with
  | none =>
    rw [ht] at hr
    cases hr
  | some t =>
    rw [ht] at hr
    cases t with
    | error reply =>
      cases hr
      exact h
    | ok textnum =>
      obtain ⟨⟨items, hfile, hok, hdesc, hlikes⟩, honce⟩ := h
      have hne : ∀ d, .desc d ∈ items → ¬ likeMatch p.uid textnum <+: d := by
        intro d hd
        apply hsafe textnum ht d
        have hmem : d ∈ items.filterMap ExtraItem.descText :=
          List.mem_filterMap.mpr ⟨_, hd, rfl⟩
        rw [hdesc] at hmem
        exact Option.mem_toList.mp hmem
      set kept := items.filter fun i => i.pair ≠ some (p.uid, textnum) with hkept
      have hdrop : dropLikes (likeMatch p.uid textnum) ((s.file.getD []).length + 1)
          (s.file.getD []) = (extraBytes kept, (items.flatMap ExtraItem.lines).any fun l =>
            (likeMatch p.uid textnum).isPrefixOf l) := by
        rw [hfile]
        unfold extraBytes
        rw [dropLikes_unlines, filter_lines hne]
        · intro l hl
          obtain ⟨i, hi, hli⟩ := List.mem_flatMap.mp hl
          exact ((hok i hi).lines l hli).1
        · have := length_le_unlines (items.flatMap ExtraItem.lines)
          omega
      -- without a line to remove the file is the same anyway
      have hbuf : r.2.getD [] = extraBytes kept := by
        simp only [hdrop] at hr
        split at hr
        · cases hr
          rfl
        · rename_i hany
          cases hr
          have hself : ((items.flatMap ExtraItem.lines).filter fun l =>
              !(likeMatch p.uid textnum).isPrefixOf l) = items.flatMap ExtraItem.lines := by
            rw [List.filter_eq_self]
            intro l hl
            rw [Bool.not_eq_true, List.any_eq_false] at hany
            rw [Bool.eq_false_iff.mpr (hany l hl)]
            rfl
          rw [filter_lines hne] at hself
          show s.file.getD [] = _
          rw [hfile]
          unfold extraBytes
          rw [hkept, hself]
      show ExtraInv { s with file := r.2,
                             likes := s.likes.filter (· ≠ (p.uid, textnum)) }
      refine ⟨⟨kept, hbuf, ?_, ?_, ?_⟩, honce.filter _⟩
      · intro i hi
        exact hok i (List.mem_of_mem_filter hi)
      · rw [hkept, List.filterMap_filter, ← hdesc]
        apply List.filterMap_congr
        intro i _
        cases i <;> simp [ExtraItem.pair, ExtraItem.record, ExtraItem.descText]
      · show kept.filterMap ExtraItem.pair = s.likes.filter (· ≠ (p.uid, textnum))
        rw [hkept, ← hlikes, List.filterMap_filter, List.filter_filterMap]
        apply List.filterMap_congr
        intro i _
        cases hp : i.pair with
        | none => simp
        | some x => by_cases hx : x = (p.uid, textnum) <;> simp [hx, Option.filter]

/-- In a run from no file in which every command keeps to its own lines, the readers return the
description and each like once after every command. -/
theorem extra_store_of_safe (conf : Int) (events : List ExtraEvent)
    (h : AllSteps (extraStep conf) (fun s e _ => ExtraSafe conf s e) .start events) :
    AllSteps (extraStep conf) (fun _ _ s' => ExtraKept conf s') .start events := by
  apply AllSteps.imp (I := ExtraInv) (P := fun _ _ s' => ExtraKept conf s') ?_ ?_ h
  · intro s e s' hI hrun hsafe
    have hI' : ExtraInv s' := by
      cases e with
      | setDesc d =>
        cases hrun
        exact extraInv_setDesc hI d hsafe
      | removeDesc =>
        cases hrun
        exact extraInv_removeDesc hI hsafe
      | like p => exact extraInv_like hI hsafe hrun
      | unlike p => exact extraInv_unlike hI hsafe hrun
    exact ⟨hI', hI'.kept⟩
  · exact ⟨⟨[], rfl, by simp, rfl, rfl⟩, List.nodup_nil⟩

end Steps

/-- User 7 on text 1 or 2, which user 5 wrote. -/
def praiseOf (textnum : Fin 3) : Praise where
  uid := 7
  conffile := "1:2:2:0:0:0:0:Talk\n".toList
  texts n := if n = 1 ∨ n = 2 then some "1:5:1000:0:0:0:1:0\nHi\nA line\n".toList else none
  lastText := textnum
  now := 1000
  args := []
  fits := by
    have htext : (textnum : Int).natAbs ≤ 2 := by omega
    exact ⟨by decide, htext.trans (by decide), by decide, by decide⟩

def talkDesc : ConfDesc := ⟨"About talk".toList, by decide⟩

theorem extra_store_of_safe_praiseOf :
    AllSteps (extraStep 1) (fun _ _ s' => ExtraKept 1 s') .start
      [.like (praiseOf 1), .setDesc talkDesc, .removeDesc, .unlike (praiseOf 1)] := by
  apply extra_store_of_safe
  refine ⟨⟨some "![hiss]\n7:1:1000\n".toList, none, [(7, 1)]⟩, by decide +kernel, ?_,
    ⟨some "![hiss]\n7:1:1000\n![desc]\nAbout talk\n".toList, some talkDesc.val, [(7, 1)]⟩,
    by decide +kernel, ?_, ⟨some "![hiss]\n7:1:1000\n".toList, none, [(7, 1)]⟩,
    by decide +kernel, ?_, ⟨some "![hiss]\n".toList, none, []⟩, by decide +kernel, ?_, trivial⟩
  · intro textnum _
    apply iff_of_false
    · rintro ⟨sec, hsec, -⟩
      cases hsec
    · exact List.not_mem_nil
  · show scanLike (talkDesc.val ++ ['\n']) = none
    decide
  · intro line (hline : lineAfterDesc (extraLines
        "![hiss]\n7:1:1000\n![desc]\nAbout talk\n".toList) = some line)
    rw [show lineAfterDesc (extraLines
      "![hiss]\n7:1:1000\n![desc]\nAbout talk\n".toList) = none by decide +kernel] at hline
    cases hline
  · intro textnum _ d hd
    cases hd

/-- Removing the description takes the like after it along. -/
theorem removal_loses_like :
    (Runs.run (extraStep 1) .start [.like (praiseOf 1), .setDesc talkDesc, .like (praiseOf 2),
        .removeDesc]).map (fun s => (s.likes, (likeRecords s.file).map fun r => (r.1, r.2.1))) =
      some ([(7, 1), (7, 2)], [(7, 1)]) := by
  decide +kernel

end SklaffKom
