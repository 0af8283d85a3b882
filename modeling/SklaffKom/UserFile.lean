import SklaffKom.Lib.Runs
import SklaffKom.Stdio
import SklaffKom.TextFile

/-!
# The user file

`etc/user` holds one line `uid:last_session:name` for each user.  A new user's line is appended,
`exec_logout` walks back from the end of a line to find where it begins, and `set_sklaff_user_name`
looks at one line after the other.
-/

open CString Runs

namespace SklaffKom

structure UserEntry where
  num : Int
  lastSession : Int
  name : CString
deriving DecidableEq, Repr

/-- What a call of `get_user_entry` does.  On `NULL` it leaves `ue->num` zero. -/
inductive UserScan where
  | crash
  | null
  | entry (ue : UserEntry) (next : CString)
deriving DecidableEq

/-- The fields of an entry and the position after its line. -/
def userFields (num : Int) (buf : CString) : Option (UserEntry × CString) := do
  let p1 ← nextField buf
  let p2 ← nextField p1
  let nl ← strchr p2 '\n'
  pure ({ num, lastSession := atol p1, name := rtrim (p2.take (p2.length - nl.length)) }, nl.tail)

def getUserEntry (buf : CString) : UserScan :=
  let r := strtol buf
  if r.2 = buf then .null
  else match userFields r.1 buf with
    | none => .crash
    | some (ue, next) => .entry ue next

def stringifyUserStruct (ue : UserEntry) : CString :=
  field ue.num ++ field ue.lastSession ++ ue.name ++ ['\n']

/-! ## The writers -/

/-- `while (buf) { buf = get_user_entry(buf, &ue); if (ue.num == Uid) break; }` -/
def findUserEntry (uid : Int) : Nat → CString → UserScan
  | 0, _ => .null
  | fuel + 1, buf =>
    match getUserEntry buf with
    | .crash => .crash
    | .null => .null
    | .entry ue next => if ue.num = uid then .entry ue next else findUserEntry uid fuel next

/-- What `exec_logout` writes to the user file; without an entry only root matches.  The new line is
taken to fit its `LONG_LINE`. -/
def logoutUserFile (uid time : Int) (oldbuf : CString) : Option CString :=
  match findUserEntry uid (oldbuf.length + 1) oldbuf with
  | .crash => none
  | .null => if uid = 0 then none else some oldbuf
  | .entry ue next =>
    some (oldbuf.take (lineStart oldbuf (oldbuf.length - next.length)) ++
      stringifyUserStruct { ue with lastSession := time } ++ next)

/-- `LINE_LEN + 1` -/
def userNameSize : Nat := 80

def realnameValid (name : CString) : Bool :=
  name ≠ [] && name.length < userNameSize && name.all (fun c => c ≠ ':' && !isEol c) &&
    name.any fun c => !isSpace c

/-- `errno = 0; n = strtoll(s, &end, 10)`: `none` where `errno` is set. -/
def strtollChecked (s : CString) : Option Int × CString :=
  let (n, rest) := strtol s
  (if -(longMax : Int) ≤ n ∧ n < longMax then some n else none, rest)

/-- The test of a line in `set_sklaff_user_name`, on the rest of the file: `strtol` does not stop at
the end of a line. -/
def isLineOfUser (uid : Int) (line : CString) : Bool :=
  let (n, rest) := strtollChecked line
  n = some uid && rest ≠ line && rest.head? = some ':'

/-- The time in a line of a user. -/
def sessionOfLine (line : CString) : Option Int :=
  let sessionStart := (strtol line).2.tail
  match strtollChecked sessionStart with
  | (some n, rest) => if rest ≠ sessionStart ∧ rest.head? = some ':' then some n else none
  | (none, _) => none

/-- The lines before the first one that passes the test, that line, and the lines after it. -/
def lineOfUser (uid : Int) : List CString → Option (List CString × CString × List CString)
  | [] => none
  | line :: suffix =>
    if isLineOfUser uid (line ++ suffix.flatten) then some ([], line, suffix)
    else (lineOfUser uid suffix).map fun (front, target, suffix) => (line :: front, target, suffix)

/-- `set_sklaff_user_name`: the new file, `none` where it fails. -/
def setSklaffUserName (uid : Int) (name buf : CString) : Option CString :=
  if uid ≤ 0 ∨ realnameValid name = false then none
  else
    match lineOfUser uid (getlines buf) with
    | none => none
    | some (front, target, suffix) =>
      match sessionOfLine (target ++ suffix.flatten) with
      | none => none
      | some lastSession =>
        let newEntry := stringifyUserStruct ⟨uid, lastSession, name⟩
        -- exactly one line of the user
        if (lineOfUser uid suffix).isSome then none
        else if newEntry.length ≥ 512 then none
        else some (front.flatten ++ newEntry ++ suffix.flatten)

/-- The name in a passwd line: up to the first comma. -/
def gecosName (gecos : CString) : CString := gecos.takeWhile (· ≠ ',')

/-- What `setup_new_user` writes to the user file. -/
def appendNewUser (uid : Int) (gecos buf : CString) : CString :=
  buf ++ stringifyUserStruct ⟨uid, 0, gecosName gecos⟩

/-! ## Sessions -/

abbrev UserUid : Type := { uid : Int // 0 < uid ∧ uid < 2147483648 }

/-- The result of `time(0)`. -/
abbrev SessionTime : Type := { t : Int // -(longMax : Int) ≤ t ∧ t < longMax }

/-- `pw_gecos`, which fits the member `name`. -/
abbrev Gecos : Type := { s : CString // '\n' ∉ s ∧ s.length < userNameSize }

inductive UserEvent where
  /-- `setup_new_user` -/
  | setup (uid : UserUid) (gecos : Gecos)
  /-- `exec_logout` -/
  | logout (uid : UserUid) (time : SessionTime)
  /-- `set_sklaff_user_name` -/
  | setName (uid : UserUid) (name : CString)

/-- The user file, and the users with a home directory. -/
structure UserSystem where
  userfile : CString
  homes : List Int
deriving DecidableEq

def UserSystem.init : UserSystem := ⟨[], []⟩

/-- A locked step; `none` is a crash. -/
def userStep (s : UserSystem) : UserEvent → Option UserSystem
  | .setup uid gecos =>
    -- `mkdir(Home)` fails for a user that exists
    if uid.val ∈ s.homes then some s
    else some ⟨appendNewUser uid.val gecos.val s.userfile, uid.val :: s.homes⟩
  | .logout uid time =>
    (logoutUserFile uid.val time.val s.userfile).map fun userfile => { s with userfile }
  | .setName uid name =>
    some { s with userfile := (setSklaffUserName uid.val name s.userfile).getD s.userfile }

/-! ## Lines that the program wrote -/

/-- A user whose members fit. -/
structure UserEntry.Fits (e : UserEntry) : Prop where
  num : 0 < e.num ∧ e.num < 2147483648
  lastSession : -(longMax : Int) ≤ e.lastSession ∧ e.lastSession < longMax
  oneLine : '\n' ∉ e.name
  short : e.name.length < userNameSize

/-- An entry as it is read. -/
def UserEntry.trimmed (e : UserEntry) : UserEntry := { e with name := rtrim e.name }

@[simp] theorem UserEntry.trimmed_num (e : UserEntry) : e.trimmed.num = e.num := rfl

@[simp] theorem UserEntry.trimmed_lastSession (e : UserEntry) : e.trimmed.lastSession = e.lastSession := rfl

def userLine (e : UserEntry) : CString := field e.num ++ field e.lastSession ++ e.name

theorem stringifyUserStruct_eq (e : UserEntry) : stringifyUserStruct e = userLine e ++ ['\n'] := rfl

theorem notMem_userLine {e : UserEntry} (h : '\n' ∉ e.name) : '\n' ∉ userLine e := by
  unfold userLine
  simp [notMem_field, h]

theorem userLine_ne_nil (e : UserEntry) : userLine e ≠ [] := by
  unfold userLine field
  simp

/-- `strtol` at the start of a line. -/
theorem strtol_field (n : Int) (s : CString) : strtol (field n ++ s) = (n, ':' :: s) := by
  rw [field, List.append_assoc, List.singleton_append]
  exact strtol_decimal n (noDigit_cons.mpr rfl)

/-- A number was read. -/
theorem field_moved (n : Int) (s : CString) : ':' :: s ≠ field n ++ s := by
  intro h
  have hlen := congrArg List.length h
  have hpos := List.length_pos_iff.mpr (decimal_ne_nil n)
  simp only [field, List.length_cons, List.length_append, List.length_nil] at hlen
  omega

/-- `get_user_entry` reads back the entry at the head of the buffer. -/
theorem getUserEntry_line {e : UserEntry} (h : '\n' ∉ e.name) (rest : CString) :
    getUserEntry (userLine e ++ '\n' :: rest) = .entry e.trimmed rest := by
  have hb : userLine e ++ '\n' :: rest =
      field e.num ++ (field e.lastSession ++ (e.name ++ '\n' :: rest)) := by
    simp [userLine]
  have hnl : strchr (e.name ++ '\n' :: rest) '\n' = some ('\n' :: rest) := strchr_append h
  unfold getUserEntry userFields
  rw [hb, strtol_field]
  dsimp only
  rw [if_neg (field_moved _ _), nextField_field]
  dsimp only [Option.bind_eq_bind, Option.bind_some]
  rw [nextField_field]
  dsimp only [Option.bind_some]
  rw [hnl]
  dsimp only [Option.bind_some, pure]
  rw [take_before, atol_field]
  rfl

def userBytes (es : List UserEntry) : CString := es.flatMap stringifyUserStruct

theorem userBytes_cons (e : UserEntry) (es : List UserEntry) :
    userBytes (e :: es) = userLine e ++ '\n' :: userBytes es := by
  rw [userBytes, List.flatMap_cons, stringifyUserStruct_eq, List.append_assoc]
  rfl

theorem userBytes_append (as bs : List UserEntry) : userBytes (as ++ bs) = userBytes as ++ userBytes bs :=
  List.flatMap_append

theorem userBytes_eq_unlines (es : List UserEntry) : userBytes es = unlines (es.map userLine) := by
  unfold userBytes unlines
  rw [List.flatMap_map]
  rfl

theorem length_le_userBytes (es : List UserEntry) : es.length ≤ (userBytes es).length := by
  induction es with
  | nil => exact Nat.le_refl 0
  | cons e es ih =>
    rw [userBytes_cons, List.length_append, List.length_cons, List.length_cons]
    omega

theorem endsLine_userBytes (es : List UserEntry) : EndsLine (userBytes es) := by
  induction es with
  | nil => exact Or.inl rfl
  | cons e es ih =>
    have hline : userLine e ++ '\n' :: userBytes es = (userLine e ++ ['\n']) ++ userBytes es := by simp
    rw [userBytes_cons, hline]
    exact (EndsLine.line (userLine_ne_nil e)).append ih

theorem getlines_userBytes {es : List UserEntry} (hes : ∀ e ∈ es, '\n' ∉ e.name) :
    getlines (userBytes es) = es.map stringifyUserStruct := by
  induction es with
  | nil => rfl
  | cons e es ih =>
    obtain ⟨he, hes'⟩ := List.forall_mem_cons.mp hes
    rw [userBytes_cons, getlines_line (notMem_userLine he), ih hes', List.map_cons]
    rfl

theorem flatten_stringify (es : List UserEntry) :
    (es.map stringifyUserStruct).flatten = userBytes es := by
  rw [userBytes, List.flatMap_def]

/-! ## Finding a line -/

section Find

variable {uid : Int} {as bs : List UserEntry} {e : UserEntry}

theorem findUserEntry_append (has : ∀ a ∈ as, '\n' ∉ a.name ∧ a.num ≠ uid) (he : '\n' ∉ e.name)
    (hnum : e.num = uid) (fuel : Nat) (hf : as.length < fuel) :
    findUserEntry uid fuel (userBytes (as ++ e :: bs)) = .entry e.trimmed (userBytes bs) := by
  induction as generalizing fuel with
  | nil =>
    obtain ⟨fuel, rfl⟩ : ∃ k, fuel = k + 1 := ⟨fuel - 1, by simp at hf; omega⟩
    rw [List.nil_append, userBytes_cons, findUserEntry, getUserEntry_line he]
    exact if_pos hnum
  | cons a as ih =>
    obtain ⟨fuel, rfl⟩ : ∃ k, fuel = k + 1 := ⟨fuel - 1, by simp at hf; omega⟩
    obtain ⟨⟨haline, hanum⟩, has⟩ := List.forall_mem_cons.mp has
    rw [List.cons_append, userBytes_cons, findUserEntry, getUserEntry_line haline]
    dsimp only
    rw [UserEntry.trimmed_num, if_neg hanum]
    exact ih has fuel (by simp at hf; omega)

theorem findUserEntry_none {es : List UserEntry} (hes : ∀ a ∈ es, '\n' ∉ a.name ∧ a.num ≠ uid)
    (fuel : Nat) : findUserEntry uid fuel (userBytes es) = .null := by
  induction es generalizing fuel with
  | nil => cases fuel <;> rfl
  | cons a es ih =>
    cases fuel with
    | zero => rfl
    | succ fuel =>
      obtain ⟨⟨haline, hanum⟩, hes⟩ := List.forall_mem_cons.mp hes
      rw [userBytes_cons, findUserEntry, getUserEntry_line haline]
      dsimp only
      rw [UserEntry.trimmed_num, if_neg hanum]
      exact ih hes fuel

/-- `strtoll` at the start of a line. -/
theorem strtollChecked_field {n : Int} (hn : -(longMax : Int) ≤ n ∧ n < longMax) (s : CString) :
    strtollChecked (field n ++ s) = (some n, ':' :: s) := by
  unfold strtollChecked
  rw [strtol_field]
  dsimp only
  rw [if_pos hn]

theorem isLineOfUser_stringify (h : e.Fits) (s : CString) :
    isLineOfUser uid (stringifyUserStruct e ++ s) = (e.num == uid) := by
  have hnum : -(longMax : Int) ≤ e.num ∧ e.num < longMax := by
    have h64 : (longMax : Int) = 9223372036854775808 := rfl
    have := h.num
    omega
  have hb : stringifyUserStruct e ++ s =
      field e.num ++ (field e.lastSession ++ (e.name ++ '\n' :: s)) := by
    simp [stringifyUserStruct]
  unfold isLineOfUser
  rw [hb, strtollChecked_field hnum]
  dsimp only
  rw [decide_eq_true (field_moved _ _)]
  simp [beq_eq_decide]

theorem sessionOfLine_stringify (h : e.Fits) (s : CString) :
    sessionOfLine (stringifyUserStruct e ++ s) = some e.lastSession := by
  have hb : stringifyUserStruct e ++ s =
      field e.num ++ (field e.lastSession ++ (e.name ++ '\n' :: s)) := by
    simp [stringifyUserStruct]
  unfold sessionOfLine
  rw [hb, strtol_field]
  dsimp only [List.tail_cons]
  rw [strtollChecked_field h.lastSession]
  dsimp only
  rw [if_pos ⟨field_moved _ _, rfl⟩]

end Find

/-- The entry fits `new_entry`. -/
theorem length_stringifyUserStruct {e : UserEntry} (hnum : -(longMax : Int) ≤ e.num ∧ e.num < longMax)
    (hsession : -(longMax : Int) ≤ e.lastSession ∧ e.lastSession < longMax)
    (hname : e.name.length < userNameSize) : (stringifyUserStruct e).length < 512 := by
  have h1 : (decimal e.num).length ≤ 20 := length_decimal_long (by omega)
  have h2 : (decimal e.lastSession).length ≤ 20 := length_decimal_long (by omega)
  have h3 : e.name.length < 80 := hname
  simp only [stringifyUserStruct, field, List.length_append, List.length_singleton]
  omega

/-! ## What the writers do to a list of users -/

/-- Another entry for a user. -/
def updateUser (uid : Int) (f : UserEntry → UserEntry) (es : List UserEntry) : List UserEntry :=
  es.map fun e => if e.num = uid then f e else e

/-- Users that fit, none of them twice. -/
structure UserList (es : List UserEntry) : Prop where
  fits : ∀ e ∈ es, e.Fits
  nodup : (es.map (·.num)).Nodup

section Update

variable {uid : Int} {f : UserEntry → UserEntry} {as bs es : List UserEntry} {e : UserEntry}

theorem updateUser_of_notMem (h : ∀ a ∈ es, a.num ≠ uid) : updateUser uid f es = es := by
  conv_rhs => rw [← List.map_id es]
  apply List.map_congr_left
  intro a ha
  rw [if_neg (h a ha)]
  rfl

theorem UserList.split (h : UserList (as ++ e :: bs)) :
    (∀ a ∈ as, a.num ≠ e.num) ∧ ∀ b ∈ bs, b.num ≠ e.num := by
  have hnd := h.nodup
  rw [List.map_append, List.map_cons, List.nodup_append, List.nodup_cons] at hnd
  constructor
  · exact fun a ha => hnd.2.2 _ (List.mem_map_of_mem ha) _ List.mem_cons_self
  · exact fun b hb heq => hnd.2.1.1 (heq ▸ List.mem_map_of_mem hb)

theorem UserList.updateUser_split (h : UserList (as ++ e :: bs)) :
    updateUser e.num f (as ++ e :: bs) = as ++ f e :: bs := by
  have has := @updateUser_of_notMem e.num f as h.split.1
  have hbs := @updateUser_of_notMem e.num f bs h.split.2
  unfold updateUser at has hbs ⊢
  rw [List.map_append, List.map_cons, has, hbs, if_pos rfl]

theorem nums_updateUser (hnum : ∀ e, (f e).num = e.num) :
    (updateUser uid f es).map (·.num) = es.map (·.num) := by
  unfold updateUser
  rw [List.map_map]
  apply List.map_congr_left
  intro e _
  simp only [Function.comp]
  split
  · exact hnum e
  · rfl

theorem UserList.update (h : UserList es) (hnum : ∀ e, (f e).num = e.num)
    (hfits : ∀ e ∈ es, e.num = uid → (f e).Fits) : UserList (updateUser uid f es) where
  fits := by
    intro d hd
    obtain ⟨e, he, rfl⟩ := List.mem_map.mp hd
    split
    · next hu => exact hfits e he hu
    · exact h.fits e he
  nodup := by
    rw [nums_updateUser hnum]
    exact h.nodup

/-- The user's entry, or none. -/
theorem UserList.find (uid : Int) (es : List UserEntry) :
    (∀ a ∈ es, a.num ≠ uid) ∨ ∃ as e bs, es = as ++ e :: bs ∧ e.num = uid := by
  by_cases h : ∃ e ∈ es, e.num = uid
  · obtain ⟨e, he, hnum⟩ := h
    obtain ⟨as, bs, rfl⟩ := List.append_of_mem he
    exact Or.inr ⟨as, e, bs, rfl, hnum⟩
  · exact Or.inl fun a ha hnum => h ⟨a, ha, hnum⟩

/-- `exec_logout` replaces the line of the user. -/
theorem logoutUserFile_bytes (h : UserList es) (hpos : 0 < uid) (time : Int) :
    logoutUserFile uid time (userBytes es) = some (userBytes
      (updateUser uid (fun e => { e.trimmed with lastSession := time }) es)) := by
  have hlines : ∀ a ∈ es, '\n' ∉ a.name := fun a ha => (h.fits a ha).oneLine
  rcases UserList.find uid es with hnone | ⟨as, e, bs, rfl, rfl⟩
  · unfold logoutUserFile
    rw [findUserEntry_none fun a ha => ⟨hlines a ha, hnone a ha⟩, updateUser_of_notMem hnone]
    exact if_neg (by omega)
  · have hlen := length_le_userBytes (as ++ e :: bs)
    have hfind := @findUserEntry_append e.num as bs e
      (fun a ha => ⟨hlines a (List.mem_append_left _ ha), h.split.1 a ha⟩)
      (hlines e (List.mem_append_right _ List.mem_cons_self)) rfl
      ((userBytes (as ++ e :: bs)).length + 1) (by rw [List.length_append] at hlen; omega)
    have hb : userBytes (as ++ e :: bs) = userBytes as ++ userLine e ++ '\n' :: userBytes bs := by
      rw [userBytes_append, userBytes_cons, List.append_assoc]
    have hstart : (userBytes (as ++ e :: bs)).length - (userBytes bs).length =
        (userBytes as).length + (userLine e).length + 1 := by
      rw [hb, List.length_append, List.length_append, List.length_cons]
      omega
    unfold logoutUserFile
    rw [hfind, h.updateUser_split]
    dsimp only
    rw [hstart, hb, lineStart_append (endsLine_userBytes as) (userLine_ne_nil e)
      (notMem_userLine (hlines e (List.mem_append_right _ List.mem_cons_self))), List.append_assoc,
      List.append_assoc, List.take_left' rfl, userBytes_append, userBytes_cons, stringifyUserStruct_eq,
      List.append_assoc]
    rfl

/-- Lines of other users are passed over. -/
theorem lineOfUser_stringify (has : ∀ a ∈ as, a.Fits ∧ a.num ≠ uid) (ls : List CString) :
    lineOfUser uid (as.map stringifyUserStruct ++ ls) = (lineOfUser uid ls).map
      fun (front, target, suffix) => (as.map stringifyUserStruct ++ front, target, suffix) := by
  induction as with
  | nil => simp
  | cons a as ih =>
    rw [List.forall_mem_cons] at has
    rw [List.map_cons, List.cons_append, lineOfUser, isLineOfUser_stringify has.1.1,
      if_neg (by simpa using has.1.2), ih has.2, Option.map_map]
    rfl

/-- `set_sklaff_user_name` replaces the line of a user, or there is none. -/
theorem setSklaffUserName_bytes (h : UserList es) (hpos : 0 < uid) {name : CString}
    (hname : realnameValid name = true) (hfits : ∀ e ∈ es, e.num = uid → UserEntry.Fits { e with name := name }) :
    (setSklaffUserName uid name (userBytes es)).getD (userBytes es) =
      userBytes (updateUser uid (fun e => { e with name := name }) es) := by
  have hlines : ∀ a ∈ es, '\n' ∉ a.name := fun a ha => (h.fits a ha).oneLine
  have hvalid : ¬ (uid ≤ 0 ∨ realnameValid name = false) := by
    rw [hname]
    simpa using hpos
  unfold setSklaffUserName
  rw [if_neg hvalid, getlines_userBytes hlines]
  dsimp only
  rcases UserList.find uid es with hnone | ⟨as, e, bs, rfl, rfl⟩
  · have hpass := lineOfUser_stringify (fun a ha => ⟨h.fits a ha, hnone a ha⟩) []
    rw [List.append_nil] at hpass
    rw [hpass, updateUser_of_notMem hnone]
    rfl
  · have he := h.fits e (List.mem_append_right _ List.mem_cons_self)
    have hpass := lineOfUser_stringify
      (fun a ha => ⟨h.fits a (List.mem_append_left _ ha), h.split.1 a ha⟩)
      ((e :: bs).map stringifyUserStruct)
    have hself : lineOfUser e.num ((e :: bs).map stringifyUserStruct) =
        some ([], stringifyUserStruct e, bs.map stringifyUserStruct) := by
      rw [List.map_cons, lineOfUser, isLineOfUser_stringify he, if_pos (beq_self_eq_true _)]
    have hother : lineOfUser e.num (bs.map stringifyUserStruct) = none := by
      have hbs : ∀ b ∈ bs, b.Fits ∧ b.num ≠ e.num := fun b hb =>
        ⟨h.fits b (List.mem_append_right _ (List.mem_cons_of_mem _ hb)), h.split.2 b hb⟩
      have hrest := lineOfUser_stringify hbs []
      rw [List.append_nil] at hrest
      exact hrest
    have hshort : ¬ (stringifyUserStruct ⟨e.num, e.lastSession, name⟩).length ≥ 512 := by
      have hnew := hfits e (List.mem_append_right _ List.mem_cons_self) rfl
      have hnum : -(longMax : Int) ≤ e.num ∧ e.num < longMax := by
        have h64 : (longMax : Int) = 9223372036854775808 := rfl
        have := he.num
        omega
      exact Nat.not_le.mpr (length_stringifyUserStruct hnum he.lastSession hnew.short)
    rw [List.map_append, hpass, hself, Option.map_some]
    dsimp only
    rw [sessionOfLine_stringify he]
    dsimp only
    rw [hother, if_neg (by decide), if_neg hshort, List.append_nil, flatten_stringify, flatten_stringify,
      h.updateUser_split, stringifyUserStruct_eq, Option.getD_some, userBytes_append, userBytes_cons,
      List.append_assoc, List.append_assoc]
    rfl

end Update

/-! ## What the file is for -/

/-- What the users have done: who was created, when each was last logged out and how each is called. -/
def userSpec (us : List UserEntry) : UserEvent → List UserEntry
  | .setup uid gecos =>
    if uid.val ∈ us.map (·.num) then us else us ++ [⟨uid.val, 0, gecosName gecos.val⟩]
  | .logout uid time => updateUser uid.val (fun u => { u with lastSession := time.val }) us
  | .setName uid name =>
    if realnameValid name then updateUser uid.val (fun u => { u with name := name }) us else us

/-- The users after a list of events. -/
def userRecords (events : List UserEvent) : List UserEntry := events.foldl userSpec []

/-- The file has a line for each user, in their order, which is read as the user with the blanks at the
end of the name removed. -/
def UserLines (us : List UserEntry) (userfile : CString) : Prop :=
  ∃ lines, userfile = unlines lines ∧ List.Forall₂ (fun (l : CString) (u : UserEntry) =>
    '\n' ∉ l ∧ ∀ rest, getUserEntry (l ++ '\n' :: rest) =
      .entry { u with name := trimEnd (· = ' ') u.name } rest) lines us

/-- The lines of the other users stay as they are. -/
def OthersKept (us : List UserEntry) (uid : Int) (userfile userfile' : CString) : Prop :=
  ∃ lines lines' : List CString, userfile = unlines lines ∧ userfile' = unlines lines' ∧
    (∀ l ∈ lines, '\n' ∉ l) ∧ (∀ l ∈ lines', '\n' ∉ l) ∧ lines.length = us.length ∧
    ∀ i : Nat, ∀ u ∈ us[i]?, u.num ≠ uid → lines'[i]? = lines[i]?

/-- The user of an event. -/
def UserEvent.uid : UserEvent → Int
  | .setup uid _ => uid.val
  | .logout uid _ => uid.val
  | .setName uid _ => uid.val

/-- A name that does not only consist of blanks, or an empty one. -/
def NotBlank (name : CString) : Prop := name = [] ∨ ∃ c ∈ name, c ≠ ' '

instance (name : CString) : Decidable (NotBlank name) := inferInstanceAs (Decidable (_ ∨ _))

/-- The name of a new user is not made of blanks. -/
def UserEvent.NamesNotBlank : UserEvent → Prop
  | .setup _ gecos => NotBlank (gecosName gecos.val)
  | _ => True

/-! ## Runs -/

/-- The names of which `rtrim` removes all blanks at the end. -/
theorem rtrim_of_notBlank {s : CString} (h : NotBlank s) : rtrim s = trimEnd (· = ' ') s := by
  cases s with
  | nil => rfl
  | cons c s =>
    obtain ⟨x, hx, hne⟩ : ∃ x ∈ c :: s, x ≠ ' ' := by
      rcases h with hnil | hex
      · cases hnil
      · exact hex
    unfold trimEnd
    rw [rtrim, List.reverse_cons, List.dropWhile_append]
    split
    · next hempty =>
      -- behind the first character there are only blanks
      have hnil := List.isEmpty_iff.mp hempty
      have hc : c ≠ ' ' := by
        rcases List.mem_cons.mp hx with rfl | hx
        · exact hne
        · exact absurd (of_decide_eq_true (List.dropWhile_eq_nil_iff.mp hnil x (List.mem_reverse.mpr hx))) hne
      rw [hnil, List.dropWhile_cons_of_neg (by simpa using hc)]
      rfl
    · rw [List.reverse_append]
      rfl

theorem notBlank_realname {name : CString} (h : realnameValid name = true) : NotBlank name := by
  unfold realnameValid at h
  simp only [Bool.and_eq_true, List.any_eq_true] at h
  obtain ⟨-, c, hc, hsp⟩ := h
  refine Or.inr ⟨c, hc, ?_⟩
  rintro rfl
  cases hsp

theorem oneLine_realname {name : CString} (h : realnameValid name = true) :
    '\n' ∉ name ∧ name.length < userNameSize := by
  unfold realnameValid at h
  simp only [Bool.and_eq_true, decide_eq_true_eq, List.all_eq_true] at h
  obtain ⟨⟨⟨-, hlen⟩, hall⟩, -⟩ := h
  refine ⟨fun hmem => ?_, hlen⟩
  have hn := (hall _ hmem).2
  cases hn

structure UserInv (us : List UserEntry) (s : UserSystem) : Prop where
  stored : ∃ es, s.userfile = userBytes es ∧ UserList es ∧
    es.map (·.trimmed) = us.map (·.trimmed)
  homes : ∀ u, u ∈ s.homes ↔ u ∈ us.map (·.num)
  names : ∀ u ∈ us, NotBlank u.name

theorem nums_of_trimmed {es us : List UserEntry} (h : es.map (·.trimmed) = us.map (·.trimmed)) :
    es.map (·.num) = us.map (·.num) := by
  have hnum : ∀ l : List UserEntry, l.map (·.num) = (l.map (·.trimmed)).map (·.num) := by
    intro l
    rw [List.map_map]
    rfl
  rw [hnum, h, ← hnum]

/-- The same change on both sides. -/
theorem trimmed_updateUser {es us : List UserEntry} (h : es.map (·.trimmed) = us.map (·.trimmed))
    {uid : Int} {f g : UserEntry → UserEntry} (hfg : ∀ e u : UserEntry, e.trimmed = u.trimmed →
      (f e).trimmed = (g u).trimmed) :
    (updateUser uid f es).map (·.trimmed) = (updateUser uid g us).map (·.trimmed) := by
  induction es generalizing us with
  | nil =>
    cases us with
    | nil => rfl
    | cons u us => cases h
  | cons e es ih =>
    cases us with
    | nil => cases h
    | cons u us =>
      obtain ⟨heu, hrest⟩ := List.cons.inj h
      have htrim : e.trimmed = u.trimmed := heu
      have hnum : e.trimmed.num = u.trimmed.num := by rw [htrim]
      rw [UserEntry.trimmed_num, UserEntry.trimmed_num] at hnum
      unfold updateUser at ih ⊢
      rw [List.map_cons, List.map_cons, List.map_cons, List.map_cons, ih hrest, hnum]
      congr 1
      split
      · exact hfg e u htrim
      · exact heu

theorem lines_of_trimmed {es us : List UserEntry} (h : es.map (·.trimmed) = us.map (·.trimmed))
    (hes : ∀ e ∈ es, '\n' ∉ e.name) (hus : ∀ u ∈ us, NotBlank u.name) :
    List.Forall₂ (fun (l : CString) (u : UserEntry) => '\n' ∉ l ∧ ∀ rest, getUserEntry (l ++ '\n' :: rest) =
      .entry { u with name := trimEnd (· = ' ') u.name } rest) (es.map userLine) us := by
  induction es generalizing us with
  | nil =>
    cases us with
    | nil => exact List.Forall₂.nil
    | cons u us => cases h
  | cons e es ih =>
    cases us with
    | nil => cases h
    | cons u us =>
      obtain ⟨heu, hrest⟩ := List.cons.inj h
      obtain ⟨he, hes'⟩ := List.forall_mem_cons.mp hes
      obtain ⟨hu, hus'⟩ := List.forall_mem_cons.mp hus
      have htrim : e.trimmed = u.trimmed := heu
      refine List.Forall₂.cons ⟨notMem_userLine he, fun rest => ?_⟩ (ih hrest hes' hus')
      rw [getUserEntry_line he, htrim, ← rtrim_of_notBlank hu]
      rfl

theorem UserInv.lines {us : List UserEntry} {s : UserSystem} (h : UserInv us s) :
    UserLines us s.userfile := by
  obtain ⟨es, hfile, hes, htrim⟩ := h.stored
  refine ⟨es.map userLine, by rw [hfile, userBytes_eq_unlines], ?_⟩
  exact lines_of_trimmed htrim (fun e he => (hes.fits e he).oneLine) h.names

theorem notMem_lines {es : List UserEntry} (h : UserList es) : ∀ l ∈ es.map userLine, '\n' ∉ l := by
  intro l hl
  obtain ⟨e, he, rfl⟩ := List.mem_map.mp hl
  exact notMem_userLine (h.fits e he).oneLine

/-- Another entry for a user leaves the other lines. -/
theorem othersKept_update {es us : List UserEntry} (hes : UserList es) {uid : Int}
    {f : UserEntry → UserEntry} (hes' : UserList (updateUser uid f es))
    (hnums : es.map (·.num) = us.map (·.num)) :
    OthersKept us uid (userBytes es) (userBytes (updateUser uid f es)) := by
  have hlen : es.length = us.length := by
    have hl := congrArg List.length hnums
    rwa [List.length_map, List.length_map] at hl
  refine ⟨es.map userLine, (updateUser uid f es).map userLine, userBytes_eq_unlines _,
    userBytes_eq_unlines _, notMem_lines hes, notMem_lines hes', by rw [List.length_map, hlen], ?_⟩
  intro i u hu hne
  have hnum : (es.map (·.num))[i]? = some u.num := by
    rw [hnums, List.getElem?_map, hu]
    rfl
  rw [List.getElem?_map] at hnum
  obtain ⟨e, he, heq⟩ := Option.map_eq_some_iff.mp hnum
  unfold updateUser
  rw [List.getElem?_map, List.getElem?_map, List.getElem?_map, he, Option.map_some, if_neg (by rw [heq]; exact hne)]

theorem othersKept_refl {us : List UserEntry} {s : UserSystem} (h : UserInv us s) (uid : Int) :
    OthersKept us uid s.userfile s.userfile := by
  obtain ⟨es, hfile, hes, htrim⟩ := h.stored
  have hlen : es.length = us.length := by
    have hl := congrArg List.length htrim
    rwa [List.length_map, List.length_map] at hl
  refine ⟨es.map userLine, es.map userLine, ?_, ?_, notMem_lines hes, notMem_lines hes,
    by rw [List.length_map, hlen], fun _ _ _ _ => rfl⟩
  · rw [hfile, userBytes_eq_unlines]
  · rw [hfile, userBytes_eq_unlines]

/-- Each step does what the event says and leaves the other lines as they are. -/
theorem userInv_step {us : List UserEntry} {s : UserSystem} (h : UserInv us s) (e : UserEvent)
    (hname : e.NamesNotBlank) :
    ∃ s', userStep s e = some s' ∧ UserInv (userSpec us e) s' ∧
      OthersKept us e.uid s.userfile s'.userfile := by
  obtain ⟨es, hfile, hes, htrim⟩ := h.stored
  have hnums := nums_of_trimmed htrim
  cases e with
  | setup uid gecos =>
    by_cases hmem : uid.val ∈ s.homes
    · refine ⟨s, if_pos hmem, ?_, othersKept_refl h _⟩
      rw [userSpec, if_pos ((h.homes _).mp hmem)]
      exact h
    · have hnew : uid.val ∉ us.map (·.num) := fun hin => hmem ((h.homes _).mpr hin)
      set u : UserEntry := ⟨uid.val, 0, gecosName gecos.val⟩
      have hu : u.Fits := by
        have h64 : (longMax : Int) = 9223372036854775808 := rfl
        refine ⟨uid.property, ⟨?_, ?_⟩, fun hin => ?_, ?_⟩
        · show -(longMax : Int) ≤ 0
          omega
        · show 0 < (longMax : Int)
          omega
        · exact gecos.property.1 ((List.takeWhile_prefix _).subset hin)
        · exact Nat.lt_of_le_of_lt (List.takeWhile_prefix _).length_le gecos.property.2
      have hes' : UserList (es ++ [u]) := by
        constructor
        · intro e he
          rcases List.mem_append.mp he with he | he
          · exact hes.fits e he
          · rw [List.mem_singleton] at he
            exact he ▸ hu
        · rw [List.map_append, List.nodup_append]
          refine ⟨hes.nodup, by simp, ?_⟩
          intro a ha b hb heq
          rw [hnums] at ha
          rw [List.map_singleton, List.mem_singleton] at hb
          rw [heq, hb] at ha
          exact hnew ha
      have hbytes : appendNewUser uid.val gecos.val s.userfile = userBytes (es ++ [u]) := by
        unfold appendNewUser
        rw [hfile, userBytes_append]
        simp [userBytes, u]
      refine ⟨_, if_neg hmem, ?_, ?_⟩
      · rw [userSpec, if_neg hnew]
        refine ⟨⟨es ++ [u], hbytes, hes', ?_⟩, ?_, ?_⟩
        · rw [List.map_append, List.map_append, htrim]
        · intro v
          rw [List.mem_cons, h.homes, List.map_append, List.mem_append, List.map_singleton,
            List.mem_singleton, or_comm]
        · intro v hv
          rcases List.mem_append.mp hv with hv | hv
          · exact h.names v hv
          · rw [List.mem_singleton] at hv
            exact hv ▸ hname
      · have hlen : es.length = us.length := by
          have hl := congrArg List.length htrim
          rwa [List.length_map, List.length_map] at hl
        refine ⟨es.map userLine, (es ++ [u]).map userLine, ?_, ?_, notMem_lines hes, notMem_lines hes',
          by rw [List.length_map, hlen], ?_⟩
        · rw [hfile, userBytes_eq_unlines]
        · rw [hbytes, userBytes_eq_unlines]
        · intro i v hv _
          have hi : i < (es.map userLine).length := by
            rw [List.length_map, hlen]
            exact (List.getElem?_eq_some_iff.mp hv).1
          rw [List.map_append, List.getElem?_append_left hi]
  | logout uid time =>
    have hes' : UserList (updateUser uid.val (fun e => { e.trimmed with lastSession := time.val }) es) := by
      refine hes.update (fun _ => rfl) fun e he _ => ?_
      have hfits := hes.fits e he
      refine ⟨hfits.num, time.property, fun hin => hfits.oneLine (mem_rtrim hin), ?_⟩
      exact Nat.lt_of_le_of_lt (length_rtrim_le e.name) hfits.short
    have hwrite := logoutUserFile_bytes hes uid.property.1 time.val
    refine ⟨_, by rw [userStep, hfile, hwrite]; rfl, ?_, ?_⟩
    · refine ⟨⟨_, rfl, hes', ?_⟩, ?_, ?_⟩
      · exact trimmed_updateUser htrim fun e u heu => by
          have hname := congrArg UserEntry.name heu
          have hnum := congrArg UserEntry.num heu
          simp only [UserEntry.trimmed] at hname hnum ⊢
          rw [rtrim_rtrim, hname, hnum]
      · intro v
        have hsame := @nums_updateUser uid.val (fun u => { u with lastSession := time.val }) us fun _ => rfl
        rw [h.homes, userSpec, hsame]
      · intro v hv
        obtain ⟨u, hu, rfl⟩ := List.mem_map.mp hv
        split
        · exact h.names u hu
        · exact h.names u hu
    · rw [hfile]
      exact othersKept_update hes hes' hnums
  | setName uid name =>
    by_cases hvalid : realnameValid name = true
    · obtain ⟨hline, hshort⟩ := oneLine_realname hvalid
      have hfits : ∀ e ∈ es, e.num = uid.val → UserEntry.Fits { e with name := name } := fun e he _ =>
        ⟨(hes.fits e he).num, (hes.fits e he).lastSession, hline, hshort⟩
      have hes' : UserList (updateUser uid.val (fun e => { e with name := name }) es) :=
        hes.update (fun _ => rfl) hfits
      have hwrite := setSklaffUserName_bytes hes uid.property.1 hvalid hfits
      refine ⟨_, by rw [userStep, hfile, hwrite], ?_, ?_⟩
      · rw [userSpec, if_pos hvalid]
        refine ⟨⟨_, rfl, hes', ?_⟩, ?_, ?_⟩
        · exact trimmed_updateUser htrim fun e u heu => by
            have hsession := congrArg UserEntry.lastSession heu
            have hnum := congrArg UserEntry.num heu
            simp only [UserEntry.trimmed] at hsession hnum ⊢
            rw [hsession, hnum]
        · intro v
          have hsame := @nums_updateUser uid.val (fun u => { u with name := name }) us fun _ => rfl
          rw [h.homes, hsame]
        · intro v hv
          obtain ⟨u, hu, rfl⟩ := List.mem_map.mp hv
          split
          · exact notBlank_realname hvalid
          · exact h.names u hu
      · rw [hfile]
        exact othersKept_update hes hes' hnums
    · refine ⟨s, ?_, ?_, othersKept_refl h _⟩
      · rw [userStep]
        unfold setSklaffUserName
        rw [if_pos (Or.inr (Bool.not_eq_true _ ▸ hvalid))]
        rfl
      · rw [userSpec, if_neg hvalid]
        exact h

theorem userInv_init : UserInv [] UserSystem.init where
  stored := ⟨[], rfl, ⟨by simp, List.nodup_nil⟩, rfl⟩
  homes u := by simp [UserSystem.init]
  names := by simp

theorem userInv_run {us : List UserEntry} {s : UserSystem} (hs : UserInv us s) {events : List UserEvent}
    (h : ∀ e ∈ events, e.NamesNotBlank) :
    ∃ s', run userStep s events = some s' ∧ UserInv (events.foldl userSpec us) s' := by
  induction events generalizing us s with
  | nil => exact ⟨s, rfl, hs⟩
  | cons e events ih =>
    obtain ⟨he, hevents⟩ := List.forall_mem_cons.mp h
    obtain ⟨t, ht, hinv, -⟩ := userInv_step hs e he
    obtain ⟨s', hs', hinv'⟩ := ih hinv hevents
    refine ⟨s', ?_, hinv'⟩
    unfold run at hs' ⊢
    rw [List.foldlM_cons, ht, Option.bind_eq_bind, Option.bind_some]
    exact hs'

/-- After every list of events the file has one line for each user, which is read as that user, and
the next event leaves the lines of the other users as they are. -/
theorem user_file_lines (events : List UserEvent) (e : UserEvent)
    (h : ∀ d ∈ events ++ [e], d.NamesNotBlank) :
    ∃ s s', run userStep UserSystem.init events = some s ∧ userStep s e = some s' ∧
      UserLines (userRecords events) s.userfile ∧ UserLines (userRecords (events ++ [e])) s'.userfile ∧
      OthersKept (userRecords events) e.uid s.userfile s'.userfile := by
  obtain ⟨s, hs, hinv⟩ := userInv_run userInv_init fun d hd => h d (List.mem_append_left _ hd)
  obtain ⟨s', hs', hinv', hothers⟩ := userInv_step hinv e (h e (by simp))
  have hspec : userRecords (events ++ [e]) = userSpec (userRecords events) e := by
    unfold userRecords
    rw [List.foldl_append]
    rfl
  refine ⟨s, s', hs, hs', hinv.lines, ?_, hothers⟩
  rw [hspec]
  exact hinv'.lines

/-- Two users; the first one logs out and is called by another name then. -/
theorem user_file_lines_example :
    ∃ s s', run userStep UserSystem.init
        [.setup ⟨7, by decide⟩ ⟨"Eva Ek,room 2".toList, by decide⟩,
          .setup ⟨8, by decide⟩ ⟨"Bo".toList, by decide⟩,
          .logout ⟨7, by decide⟩ ⟨100, by decide⟩] = some s ∧
      userStep s (.setName ⟨7, by decide⟩ "Eva B ".toList) = some s' ∧
      UserLines [⟨7, 100, "Eva Ek".toList⟩, ⟨8, 0, "Bo".toList⟩] s.userfile ∧
      UserLines [⟨7, 100, "Eva B ".toList⟩, ⟨8, 0, "Bo".toList⟩] s'.userfile ∧
      OthersKept [⟨7, 100, "Eva Ek".toList⟩, ⟨8, 0, "Bo".toList⟩] 7 s.userfile s'.userfile :=
  user_file_lines _ (.setName ⟨7, by decide⟩ "Eva B ".toList) (by
    intro d hd
    simp only [List.cons_append, List.nil_append, List.mem_cons, List.not_mem_nil, or_false] at hd
    rcases hd with rfl | rfl | rfl | rfl
    · exact Or.inr ⟨'E', by decide, by decide⟩
    · exact Or.inr ⟨'B', by decide, by decide⟩
    · trivial
    · trivial)

/-- `rtrim` leaves one of the blanks of a name that is made of blanks. -/
theorem blank_name_kept : ∃ (e : UserEvent) (s : UserSystem), userStep UserSystem.init e = some s ∧
    ¬ UserLines (userRecords [e]) s.userfile := by
  refine ⟨.setup ⟨7, by decide⟩ ⟨"  ".toList, by decide⟩, ⟨"7:0:  \n".toList, [7]⟩, by decide, ?_⟩
  intro h
  obtain ⟨lines, hfile, hread⟩ := h
  have hus : userRecords [.setup ⟨7, by decide⟩ ⟨"  ".toList, by decide⟩] = [⟨7, 0, "  ".toList⟩] := by
    decide
  rw [hus] at hread
  cases hread with
  | cons hl hrest =>
    cases hrest
    have hentry := hl.2 []
    rw [unlines, List.flatMap_cons, List.flatMap_nil, List.append_nil] at hfile
    rw [← hfile] at hentry
    exact absurd hentry (by decide)

end SklaffKom
