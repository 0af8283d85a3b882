import SklaffKom.Sklaffrc
import SklaffKom.TextFile
import SklaffKom.Lib.Substrings

/-!
# The flags of a user

A session keeps the flags of its user in global variables.  `set_flags` sets them from the preferences at login,
`turn_flag` and `select_charset` change them and save all of them, and other sessions read them with `check_flag`.
Here the preferences and the sessions of a user are compared with a record of the flags that were saved last.
-/

open CString Runs

namespace SklaffKom

inductive Flag where
  | say | shout | present | ibm | iso8859 | mac | subjectChange | endDefault | space | copy | author | date | beep
  | clear | header | special | presbeep | oldWho | ansiOutput | utf8 | forceSf7 | alternateIntro | rookieMode
  | startMailbox | ibolLogout
deriving DecidableEq, Repr

namespace Flag

/-- The name in the preferences. -/
def name : Flag → CString
  | say => "say".toList
  | shout => "shout".toList
  | present => "present".toList
  | ibm => "ibm".toList
  | iso8859 => "iso8859".toList
  | mac => "mac".toList
  | subjectChange => "subject_change".toList
  | endDefault => "end_default".toList
  | space => "space".toList
  | copy => "copy".toList
  | author => "author".toList
  | date => "date".toList
  | beep => "beep".toList
  | clear => "clear".toList
  | header => "header".toList
  | special => "strip".toList
  | presbeep => "presbeep".toList
  | oldWho => "oldwho".toList
  | ansiOutput => "ansi".toList
  | utf8 => "utf8".toList
  | forceSf7 => "force_sf7".toList
  | alternateIntro => "alternate_intro".toList
  | rookieMode => "rookie_mode".toList
  | startMailbox => "start_mailbox".toList
  | ibolLogout => "ibol_logout".toList

/-- The value where the preferences have none, `IBOL_LOGOUT_COUNT` being 0. -/
def initial : Flag → Int
  | shout | say | present | subjectChange | copy | beep | rookieMode => 1
  | _ => 0

end Flag

abbrev Flags := Flag → Int

/-- The order in which `set_flags` reads. -/
def readOrder : List Flag :=
  [.shout, .say, .present, .ibm, .iso8859, .mac, .subjectChange, .endDefault, .space, .copy, .author, .date,
    .beep, .clear, .header, .presbeep, .special, .oldWho, .ansiOutput, .utf8, .forceSf7, .alternateIntro,
    .rookieMode, .startMailbox, .ibolLogout]

/-- The order in which `save_flags` prints. -/
def saveOrder : List Flag :=
  [.say, .shout, .present, .ibm, .iso8859, .mac, .subjectChange, .endDefault, .space, .copy, .author, .date,
    .beep, .clear, .header, .special, .presbeep, .oldWho, .ansiOutput, .utf8, .forceSf7, .alternateIntro,
    .rookieMode, .startMailbox, .ibolLogout]

/-- The number after the `'='` that follows a name, or `missing`.  Without a `'='` the program reads at
`NULL + 1`. -/
def flagNumber (flags name : CString) (missing : Int) : Option Int :=
  match strstr flags name with
  | some p => (strchr p '=').map fun i => atol i.tail
  | none => some missing

/-- `set_flags`: the new values of the variables. -/
def setFlags (flags : CString) (s : Flags) : Option Flags :=
  if flags.length > 0 then
    readOrder.foldlM (fun s f => (flagNumber flags f.name f.initial).map (Function.update s f)) s
  else
    some (readOrder.foldl (fun s f => Function.update s f f.initial) s)

def checkFlag (flags flag : CString) : Option Int := flagNumber flags flag (-1)

/-- The test of `send_msg`: whether a user with these flags takes messages of a kind. -/
def takesMessages (flags kind : CString) : Option Bool := do
  let res ← checkFlag flags kind
  some ((if res = -1 then 1 else res) ≠ 0)

/-- One line of the flags: `"%s = %d\n"`. -/
def flagLine (s : Flags) (f : Flag) : CString := f.name ++ ' ' :: '=' :: ' ' :: (decimal (s f) ++ ['\n'])

def flagsText (s : Flags) : CString := saveOrder.flatMap (flagLine s)

/-- `save_flags`: the user's file and the result.  `creates` is whether the file can be created. -/
def saveFlags (globalrc : CString) (rc : RcFile) (creates : Bool) (s : Flags) : RcFile × Int :=
  let (kaffer, numlines) := readSklaffrc globalrc rc.userrc rc.numlines
  -- the buffer of `struct SKLAFFRC` has 400 characters
  if 400 ≤ (flagsText s).length ∨ creates = false then
    ({ rc with numlines }, -1)
  else
    (⟨writeSklaffrc (Function.update kaffer .flags (flagsText s)), numlines⟩, 0)

/-! ## Flags by name -/

/-- A flag as the user calls it: `MSG_FLAG`, the least length of an abbreviation, and the flags that have to be off
before it is turned on. -/
structure FlagName where
  flag : Flag
  name : CString
  least : Nat
  rivals : List Flag

/-- The tests of `turn_flag`, in order.  The one for `ibol_logout` is never true, `IBOL_LOGOUT_COUNT` being 0. -/
def flagNames : List FlagName :=
  [⟨.ibm, "ibm-pc".toList, 2, [.iso8859, .utf8, .mac]⟩,
    ⟨.iso8859, "iso 8859-1".toList, 2, [.ibm, .utf8, .mac]⟩,
    ⟨.mac, "mac".toList, 2, [.ibm, .utf8, .iso8859]⟩,
    -- here the length has to exceed `MSG_FLAG3N`
    ⟨.present, "n\x7brvaro".toList, 2, []⟩,
    ⟨.shout, "skrik".toList, 2, []⟩,
    ⟨.endDefault, "sluta".toList, 2, []⟩,
    ⟨.say, "s\x7bg".toList, 2, []⟩,
    ⟨.subjectChange, "\x7brende\x7bndring".toList, 1, []⟩,
    ⟨.space, "mellanslag".toList, 1, []⟩,
    ⟨.copy, "kopia".toList, 3, []⟩,
    ⟨.author, "f|rfattare".toList, 1, []⟩,
    ⟨.date, "datum".toList, 1, []⟩,
    ⟨.beep, "pip".toList, 1, []⟩,
    ⟨.clear, "rensa".toList, 1, []⟩,
    ⟨.header, "header".toList, 1, []⟩,
    ⟨.special, "kompatibilitet".toList, 3, []⟩,
    ⟨.presbeep, "bell".toList, 1, []⟩,
    ⟨.oldWho, "gammal".toList, 1, []⟩,
    ⟨.ansiOutput, "ansi".toList, 2, []⟩,
    ⟨.utf8, "utf8".toList, 1, [.ibm, .mac, .iso8859]⟩,
    ⟨.alternateIntro, "alternativ".toList, 2, []⟩,
    ⟨.rookieMode, "rookie".toList, 2, []⟩,
    ⟨.startMailbox, "brevl\x7ddan".toList, 3, []⟩]

/-- The test for one name: `flag` begins it and is long enough. -/
def FlagName.accepts (row : FlagName) (flag : CString) : Bool :=
  flag.isPrefixOf row.name && decide (row.least ≤ flag.length)

/-- What `turn_flag` comes to: no name, an unknown name, another character set that is on, or a flag to save. -/
inductive Turned where
  | noFlag
  | badFlag
  | rival (f : Flag)
  | changed (row : FlagName)

/-- `turn_flag` up to the save: the outcome and the variables. -/
def turnFlag (mode : Bool) (flag : CString) (s : Flags) : Turned × Flags :=
  if flag = [] then (.noFlag, s)
  else
    match flagNames.find? (·.accepts (downString flag)) with
    | none => (.badFlag, s)
    | some row =>
      match if mode then row.rivals.find? (s · ≠ 0) else none with
      | some f => (.rival f, s)
      | none =>
        let s' := Function.update s row.flag (if mode then 1 else 0)
        -- a character set that is turned on takes the place of plain SF7
        (.changed row, if mode ∧ row.rivals ≠ [] then Function.update s' .forceSf7 0 else s')

/-! ## The choice of a character set -/

def resetCharsetFlags (s : Flags) : Flags :=
  [.utf8, .ibm, .iso8859, .mac, .forceSf7].foldl (fun s f => Function.update s f 0) s

def setCharsetChoice (choice : Nat) (s : Flags) : Flags :=
  match choice with
  | 1 => Function.update (resetCharsetFlags s) .utf8 1
  | 2 => Function.update (resetCharsetFlags s) .ibm 1
  | 3 => Function.update (resetCharsetFlags s) .iso8859 1
  | 4 => Function.update (resetCharsetFlags s) .forceSf7 1
  | _ => resetCharsetFlags s

/-- `first_answer_char`, `none` being the end of the answer. -/
def firstAnswerChar (answer : CString) : Option Char := ((answer.dropWhile isSpace).head?).map Char.toLower

/-- The choice in an answer to the menu. -/
def charsetChoice (answer : CString) : Option Nat :=
  match firstAnswerChar answer with
  | none => some 1
  | some c => if '1' ≤ c ∧ c ≤ '4' then some (c.toNat - '0'.toNat) else none

/-- The loops of `select_charset` over the answers: before a choice is made, and after it.  The variables at its
end, `none` where it waits for another answer. -/
def charsetLoop : List CString → Bool → Flags → Option Flags
  | [], _, _ => none
  | answer :: answers, false, s =>
    match charsetChoice answer with
    | none => charsetLoop answers false s
    | some choice => charsetLoop answers true (setCharsetChoice choice s)
  | answer :: answers, true, s =>
    match firstAnswerChar answer with
    | some 'j' | some 'y' => some s
    | some 'n' => charsetLoop answers false (resetCharsetFlags s)
    | _ => charsetLoop answers true s

/-- `select_charset` up to the save -/
def selectCharset (answers : List CString) (s : Flags) : Option Flags :=
  charsetLoop answers false (resetCharsetFlags s)

/-! ## Sessions -/

/-- The variables of a session that depend on the preferences. -/
structure FlagSession where
  flags : Flags
  numlines : Int

/-- The preferences of a user and the user's sessions by their process. -/
structure FlagSystem where
  userrc : CString
  sessions : Nat → Option FlagSession

/-- What happens to the preferences of a user. -/
inductive FlagEvent where
  /-- A login, with the answers to the menu of the character sets. -/
  | login (pid : Nat) (numlines : Int) (answers : List CString) (creates : Bool)
  /-- The commands that turn a flag on or off. -/
  | turn (pid : Nat) (mode : Bool) (flag : CString) (creates : Bool)
  /-- The command that changes the character set. -/
  | charset (pid : Nat) (args : CString) (answers : List CString) (creates : Bool)
  /-- Another command that changes the preferences. -/
  | change (pid : Nat) (c : RcChange)
  | logout (pid : Nat)

/-- The test of `display_welcome` for a user without a character set. -/
def noCharset (s : Flags) : Bool :=
  decide (s .utf8 = 0 ∧ s .ibm = 0 ∧ s .iso8859 = 0 ∧ s .mac = 0 ∧ s .forceSf7 = 0)

/-- A change by another command leaves the flags alone. -/
def RcChange.setsFlags : RcChange → Bool
  | .field .flags _ => true
  | _ => false

section System

variable (globalrc : CString)

/-- A session that has called `save_flags`. -/
def FlagSystem.save (k : FlagSystem) (pid : Nat) (numlines : Int) (creates : Bool) (s : Flags) : FlagSystem :=
  let (rc, _) := saveFlags globalrc ⟨k.userrc, numlines⟩ creates s
  ⟨rc.userrc, Function.update k.sessions pid (some ⟨s, rc.numlines⟩)⟩

/-- One event, a command being done before the next one begins. -/
def flagStep (k : FlagSystem) : FlagEvent → Option FlagSystem
  | .login pid numlines answers creates => do
    -- `display_welcome`
    let (rc, numlines) := readSklaffrc globalrc k.userrc numlines
    let s ← setFlags (rc .flags) fun _ => 0
    if noCharset s then
      let s ← selectCharset answers s
      some (k.save globalrc pid numlines creates s)
    else
      some { k with sessions := Function.update k.sessions pid (some ⟨s, numlines⟩) }
  | .turn pid mode flag creates => do
    let session ← k.sessions pid
    match turnFlag mode flag session.flags with
    | (.changed _, s) => some (k.save globalrc pid session.numlines creates s)
    | _ => some k
  | .charset pid args answers creates => do
    let session ← k.sessions pid
    -- `cmd_change_charset` takes no arguments
    if args ≠ [] then some k
    else
      let s ← selectCharset answers session.flags
      some (k.save globalrc pid session.numlines creates s)
  | .change pid c => do
    let session ← k.sessions pid
    if c.setsFlags then none
    else
      let rc ← rcStep globalrc ⟨k.userrc, session.numlines⟩ c
      some ⟨rc.userrc, Function.update k.sessions pid (some ⟨session.flags, rc.numlines⟩)⟩
  | .logout pid => some { k with sessions := Function.update k.sessions pid none }

def userFlags (userrc : CString) : CString := (RcFile.mk userrc 0).read globalrc .flags

end System

/-! ## The record of flags -/

/-- The flags that were saved last and those of the sessions. -/
structure FlagRecord where
  saved : Flags
  sessions : Nat → Option Flags

def FlagRecord.save (r : FlagRecord) (pid : Nat) (creates : Bool) (s : Flags) : FlagRecord :=
  ⟨if creates then s else r.saved, Function.update r.sessions pid (some s)⟩

/-- One event on the record: a login takes what was saved last, and there is no text. -/
def recordStep (r : FlagRecord) : FlagEvent → Option FlagRecord
  | .login pid _ answers creates =>
    if noCharset r.saved then do
      let s ← selectCharset answers r.saved
      some (r.save pid creates s)
    else
      some { r with sessions := Function.update r.sessions pid (some r.saved) }
  | .turn pid mode flag creates => do
    match turnFlag mode flag (← r.sessions pid) with
    | (.changed _, s) => some (r.save pid creates s)
    | _ => some r
  | .charset pid args answers creates => do
    let s ← r.sessions pid
    if args ≠ [] then some r
    else
      let s ← selectCharset answers s
      some (r.save pid creates s)
  | .change pid c => do
    let _ ← r.sessions pid
    if c.setsFlags then none else some r
  | .logout pid => some { r with sessions := Function.update r.sessions pid none }

/-- Every flag is on or off. -/
def OnOff (s : Flags) : Prop := ∀ f, s f = 0 ∨ s f = 1

def charsets : List Flag := [.utf8, .ibm, .iso8859, .mac, .forceSf7]

/-- Not two character sets are on. -/
def OneCharset (s : Flags) : Prop := ∀ f ∈ charsets, ∀ g ∈ charsets, s f ≠ 0 → s g ≠ 0 → f = g

/-! ## The text of the flags -/

namespace Flag

theorem name_ok (f : Flag) : f.name ≠ [] ∧ ' ' ∉ f.name ∧ '\n' ∉ f.name ∧ '=' ∉ f.name ∧
    f.name.head?.all (fun c => !c.isDigit && c != '-') = true := by
  cases f <;> decide +kernel

theorem mem_readOrder (f : Flag) : f ∈ readOrder := by
  cases f <;> decide

theorem mem_saveOrder (f : Flag) : f ∈ saveOrder := by
  cases f <;> decide

end Flag

/-- No name is a part of one that is printed before it. -/
theorem saveOrder_names : saveOrder.Pairwise fun g f => ¬ f.name <:+: g.name := by
  decide +kernel

/-- The number on the line of the flag itself. -/
theorem flagNumber_line (s : Flags) (f : Flag) (rest : CString) (missing : Int) :
    flagNumber (flagLine s f ++ rest) f.name missing = some (s f) := by
  have hline : flagLine s f ++ rest =
      (f.name ++ [' ']) ++ '=' :: (' ' :: (decimal (s f) ++ '\n' :: rest)) := by
    simp [flagLine]
  have hstart : f.name <+: flagLine s f ++ rest := by
    rw [hline, List.append_assoc]
    exact List.prefix_append _ _
  have hsign : '=' ∉ f.name ++ [' '] := by
    rw [List.mem_append, not_or]
    exact ⟨f.name_ok.2.2.2.1, by decide⟩
  unfold flagNumber
  rw [strstr_at_start hstart]
  show (strchr (flagLine s f ++ rest) '=').map _ = _
  rw [hline, strchr_append hsign, Option.map_some, List.tail_cons, atol_blank rfl, atol_decimal _ (by simp)]

/-- The line of a flag is passed over where another name is searched. -/
theorem strstr_flagLine (s : Flags) {f g : Flag} (hfg : ¬ f.name <:+: g.name) (rest : CString) :
    strstr (flagLine s g ++ rest) f.name = strstr rest f.name := by
  obtain ⟨hne, hblank, hnl, hsign, hhead⟩ := f.name_ok
  have hstart : ∀ c ∈ f.name.head?, c ∉ decimal (s g) := by
    intro c hc
    rw [Option.mem_def.mp hc, Option.all_some, Bool.and_eq_true, Bool.not_eq_true', bne_iff_ne] at hhead
    exact notMem_decimal hhead.1 hhead.2
  have hline : flagLine s g ++ rest = g.name ++ ' ' :: (['='] ++ ' ' :: (decimal (s g) ++ '\n' :: rest)) := by
    simp [flagLine]
  have hsign' : strstr ['='] f.name = none := by
    apply strstr_none
    intro hinfix
    obtain ⟨c, name, hname⟩ := List.exists_cons_of_ne_nil hne
    have hc : c ∈ ['='] := hinfix.subset (by rw [hname]; exact List.mem_cons_self)
    rw [List.mem_singleton.mp hc] at hname
    exact hsign (by rw [hname]; exact List.mem_cons_self)
  have hnumber : strstr (decimal (s g)) f.name = none := by
    have hskip := @strstr_append_of_notMem (decimal (s g)) [] f.name hstart hne
    rwa [List.append_nil, strstr_nil hne] at hskip
  rw [hline, strstr_append_sep hblank hne (strstr_none hfg), strstr_append_sep hblank hne hsign',
    strstr_append_sep hnl hne hnumber]

theorem flagNumber_lines (s : Flags) {fs : List Flag} (hfs : fs.Pairwise fun g f => ¬ f.name <:+: g.name)
    {f : Flag} (hf : f ∈ fs) (missing : Int) :
    flagNumber (fs.flatMap (flagLine s)) f.name missing = some (s f) := by
  induction fs with
  | nil => cases hf
  | cons g fs ih =>
    obtain ⟨hg, hfs⟩ := List.pairwise_cons.mp hfs
    rw [List.flatMap_cons]
    by_cases hfg : f = g
    · subst hfg
      exact flagNumber_line s f _ missing
    · have hmem : f ∈ fs := (List.mem_cons.mp hf).resolve_left hfg
      rw [← ih hfs hmem]
      unfold flagNumber
      rw [strstr_flagLine s (hg f hmem)]

/-- Every flag is found in what `save_flags` prints. -/
theorem flagNumber_flagsText (s : Flags) (f : Flag) (missing : Int) :
    flagNumber (flagsText s) f.name missing = some (s f) :=
  flagNumber_lines s saveOrder_names f.mem_saveOrder missing

theorem foldlM_update {v : Flags} {text : CString} {fs : List Flag}
    (hv : ∀ f ∈ fs, flagNumber text f.name f.initial = some (v f)) (s : Flags) :
    fs.foldlM (fun s f => (flagNumber text f.name f.initial).map (Function.update s f)) s =
      some fun f => if f ∈ fs then v f else s f := by
  induction fs generalizing s with
  | nil => simp
  | cons f fs ih =>
    obtain ⟨hf, hfs⟩ := List.forall_mem_cons.mp hv
    rw [List.foldlM_cons, hf]
    show (fs.foldlM _ (Function.update s f (v f))) = _
    rw [ih hfs, Option.some.injEq]
    ext g
    by_cases hg : g = f
    · subst hg
      simp
    · simp [hg]

theorem flagNumber_nil (f : Flag) : flagNumber [] f.name f.initial = some f.initial := by
  unfold flagNumber
  rw [strstr_nil f.name_ok.1]

theorem foldl_update (v : Flags) (fs : List Flag) (s : Flags) :
    fs.foldl (fun s f => Function.update s f (v f)) s = fun f => if f ∈ fs then v f else s f := by
  induction fs generalizing s with
  | nil => simp
  | cons f fs ih =>
    rw [List.foldl_cons, ih]
    ext g
    by_cases hg : g = f
    · subst hg
      simp
    · simp [hg]

/-- `set_flags` gives every flag the number that the text has for it. -/
theorem setFlags_of_numbers {v : Flags} {text : CString}
    (hv : ∀ f : Flag, flagNumber text f.name f.initial = some (v f)) (s : Flags) :
    setFlags text s = some v := by
  unfold setFlags
  split
  · rw [foldlM_update (fun f _ => hv f), Option.some.injEq]
    ext f
    exact if_pos f.mem_readOrder
  · rename_i hlen
    have htext : text = [] := by
      simpa using hlen
    rw [foldl_update, Option.some.injEq]
    ext f
    rw [if_pos f.mem_readOrder]
    have hf := hv f
    rw [htext, flagNumber_nil] at hf
    exact Option.some.inj hf

theorem flagNumber_of_foldlM {v s : Flags} {text : CString} {fs : List Flag} (hfs : fs.Nodup)
    (h : fs.foldlM (fun s f => (flagNumber text f.name f.initial).map (Function.update s f)) s = some v) :
    (∀ f ∉ fs, v f = s f) ∧ ∀ f ∈ fs, flagNumber text f.name f.initial = some (v f) := by
  induction fs generalizing s with
  | nil =>
    cases h
    exact ⟨fun _ _ => rfl, fun _ hf => absurd hf List.not_mem_nil⟩
  | cons f fs ih =>
    obtain ⟨hfresh, hfs⟩ := List.nodup_cons.mp hfs
    rw [List.foldlM_cons, Option.bind_eq_bind, Option.bind_eq_some_iff] at h
    obtain ⟨s', hs', h⟩ := h
    obtain ⟨n, hn, rfl⟩ := Option.map_eq_some_iff.mp hs'
    obtain ⟨hrest, hin⟩ := ih hfs h
    constructor
    · intro g hg
      obtain ⟨hgf, hg⟩ := not_or.mp fun hm => hg (List.mem_cons.mpr hm)
      rw [hrest g hg, Function.update_of_ne hgf]
    · intro g hg
      rcases List.mem_cons.mp hg with rfl | hg
      · rw [hn, hrest g hfresh, Function.update_self]
      · exact hin g hg

/-- Where `set_flags` comes to an end the text has a number for every flag. -/
theorem flagNumber_of_setFlags {v s : Flags} {text : CString} (h : setFlags text s = some v) (f : Flag) :
    flagNumber text f.name f.initial = some (v f) := by
  unfold setFlags at h
  split at h
  · exact (flagNumber_of_foldlM (by decide) h).2 f f.mem_readOrder
  · rename_i hlen
    have htext : text = [] := by
      simpa using hlen
    rw [foldl_update, Option.some.injEq] at h
    rw [htext, flagNumber_nil, ← h]
    exact congrArg some (if_pos f.mem_readOrder).symm

/-- What `save_flags` prints reads back. -/
theorem setFlags_flagsText (s s₀ : Flags) : setFlags (flagsText s) s₀ = some s :=
  setFlags_of_numbers (fun f => flagNumber_flagsText s f f.initial) s₀

/-- A flag that is on or off decides which messages are taken. -/
theorem takesMessages_of_setFlags {v s : Flags} {text : CString} (h : setFlags text s = some v) {f : Flag}
    (hinit : f.initial = 1) (hf : v f = 0 ∨ v f = 1) :
    takesMessages text f.name = some (decide (v f ≠ 0)) := by
  have hnumber := flagNumber_of_setFlags h f
  unfold takesMessages checkFlag
  unfold flagNumber at hnumber ⊢
  cases hp : strstr text f.name with
  | none =>
    rw [hp] at hnumber
    rw [← Option.some.inj hnumber, hinit]
    rfl
  | some p =>
    rw [hp] at hnumber
    dsimp only at hnumber ⊢
    rw [hnumber]
    rcases hf with hf | hf <;> rw [hf] <;> rfl

/-! ## Values that the commands give -/

/-- The flags of a session: on or off, and one character set at most. -/
structure Sound (s : Flags) : Prop where
  onOff : OnOff s
  oneCharset : OneCharset s

theorem OnOff.update {s : Flags} (h : OnOff s) (f : Flag) {n : Int} (hn : n = 0 ∨ n = 1) :
    OnOff (Function.update s f n) := by
  intro g
  by_cases hg : g = f
  · rw [hg, Function.update_self]
    exact hn
  · rw [Function.update_of_ne hg]
    exact h g

/-- A flag that is no character set, or is turned off, does not matter to the others. -/
theorem OneCharset.update {s : Flags} (h : OneCharset s) {f : Flag} {n : Int} (hf : f ∉ charsets ∨ n = 0) :
    OneCharset (Function.update s f n) := by
  have hold : ∀ g ∈ charsets, Function.update s f n g ≠ 0 → s g ≠ 0 := by
    intro g hg hne
    by_cases hgf : g = f
    · subst hgf
      rw [Function.update_self] at hne
      exact absurd (hf.resolve_left fun hf => hf hg) hne
    · rwa [Function.update_of_ne hgf] at hne
  intro f hf g hg hfs hgs
  exact h f hf g hg (hold f hf hfs) (hold g hg hgs)

/-- A character set may be turned on where the others are off. -/
theorem oneCharset_update {s : Flags} {f : Flag} (hs : ∀ g ∈ charsets, g ≠ f → s g = 0) (n : Int) :
    OneCharset (Function.update s f n) := by
  have hself : ∀ g ∈ charsets, Function.update s f n g ≠ 0 → g = f := by
    intro g hg hne
    by_contra hgf
    rw [Function.update_of_ne hgf] at hne
    exact hne (hs g hg hgf)
  intro g hg h hh hgs hhs
  rw [hself g hg hgs, hself h hh hhs]

theorem resetCharsetFlags_eq (s : Flags) : resetCharsetFlags s = fun f => if f ∈ charsets then 0 else s f :=
  foldl_update (fun _ => 0) charsets s

theorem OnOff.reset {s : Flags} (h : OnOff s) : OnOff (resetCharsetFlags s) := by
  intro f
  rw [resetCharsetFlags_eq]
  dsimp only
  split
  · exact Or.inl rfl
  · exact h f

theorem reset_charset (s : Flags) {f : Flag} (hf : f ∈ charsets) : resetCharsetFlags s f = 0 := by
  rw [resetCharsetFlags_eq]
  exact if_pos hf

theorem sound_reset {s : Flags} (h : OnOff s) : Sound (resetCharsetFlags s) where
  onOff := h.reset
  oneCharset := fun _ hf _ _ hfs _ => absurd (reset_charset s hf) hfs

theorem sound_setCharsetChoice {s : Flags} (h : OnOff s) (choice : Nat) : Sound (setCharsetChoice choice s) := by
  have hone (f : Flag) : Sound (Function.update (resetCharsetFlags s) f 1) :=
    ⟨h.reset.update f (Or.inr rfl), oneCharset_update (fun g hg _ => reset_charset s hg) 1⟩
  unfold setCharsetChoice
  split
  all_goals first | exact hone _ | exact sound_reset h

theorem sound_charsetLoop {answers : List CString} {chosen : Bool} {s s' : Flags} (h : Sound s)
    (hs : charsetLoop answers chosen s = some s') : Sound s' := by
  induction answers generalizing chosen s with
  | nil => cases hs
  | cons answer answers ih =>
    cases chosen with
    | false =>
      rw [charsetLoop] at hs
      cases hc : charsetChoice answer with
      | none =>
        rw [hc] at hs
        exact ih h hs
      | some choice =>
        rw [hc] at hs
        exact ih (sound_setCharsetChoice h.onOff choice) hs
    | true =>
      rw [charsetLoop] at hs
      split at hs
      · cases hs
        exact h
      · cases hs
        exact h
      · exact ih (sound_reset h.onOff) hs
      · exact ih h hs

theorem sound_selectCharset {answers : List CString} {s s' : Flags} (h : OnOff s)
    (hs : selectCharset answers s = some s') : Sound s' :=
  sound_charsetLoop (sound_reset h) hs

/-- The rivals of a character set are all the others but plain SF7, and no other flag has any. -/
theorem flagNames_rivals : ∀ row ∈ flagNames, row.flag ≠ .forceSf7 ∧
    if row.rivals = [] then row.flag ∉ charsets
    else ∀ g ∈ charsets, g = row.flag ∨ g = .forceSf7 ∨ g ∈ row.rivals := by
  decide +kernel

/-- A character set whose rivals are off is the only one when plain SF7 is off too. -/
theorem oneCharset_turnOn {row : FlagName} (hrow : row ∈ flagNames) (hne : row.rivals ≠ []) {s : Flags}
    (hoff : row.rivals.find? (s · ≠ 0) = none) (n : Int) :
    OneCharset (Function.update (Function.update s row.flag n) .forceSf7 0) := by
  obtain ⟨hsf7, hrivals⟩ := flagNames_rivals row hrow
  rw [if_neg hne] at hrivals
  rw [Function.update_comm hsf7]
  apply oneCharset_update
  intro g hg hgrow
  rcases hrivals g hg with hgf | hgf | hgf
  · exact absurd hgf hgrow
  · rw [hgf, Function.update_self]
  · have hg0 := List.find?_eq_none.mp hoff g hgf
    by_cases hgs : g = .forceSf7
    · rw [hgs, Function.update_self]
    · rw [Function.update_of_ne hgs]
      simpa using hg0

theorem sound_turnFlag {mode : Bool} {flag : CString} {s : Flags} (h : Sound s) :
    Sound (turnFlag mode flag s).2 := by
  have hmode : (if mode then 1 else 0 : Int) = 0 ∨ (if mode then 1 else 0 : Int) = 1 := by
    cases mode
    · exact Or.inl rfl
    · exact Or.inr rfl
  unfold turnFlag
  split
  · exact h
  cases hfind : flagNames.find? (·.accepts (downString flag)) with
  | none => exact h
  | some row =>
    have hrow := List.mem_of_find?_eq_some hfind
    dsimp only
    split
    -- a rival is on
    · exact h
    · rename_i hoff
      split
      · rename_i hon
        obtain ⟨rfl, hne⟩ := hon
        rw [if_pos rfl] at hoff
        exact ⟨(h.onOff.update _ hmode).update _ (Or.inl rfl), oneCharset_turnOn hrow hne hoff _⟩
      · rename_i hon
        refine ⟨h.onOff.update _ hmode, h.oneCharset.update ?_⟩
        cases mode with
        | false => exact Or.inr rfl
        | true =>
          have hplain := (flagNames_rivals row hrow).2
          rw [if_pos (by simpa using hon)] at hplain
          exact Or.inl hplain

/-! ## The size of the buffer -/

theorem flagLine_length {s : Flags} (h : OnOff s) (f : Flag) : (flagLine s f).length = f.name.length + 5 := by
  have hdigit : (decimal (s f)).length = 1 := by
    rcases h f with hf | hf <;> rw [hf] <;> rfl
  unfold flagLine
  rw [List.length_append, List.length_cons, List.length_cons, List.length_cons, List.length_append, hdigit]
  rfl

/-- Flags that are on or off fit the buffer of `struct SKLAFFRC`. -/
theorem flagsText_length {s : Flags} (h : OnOff s) : (flagsText s).length = 298 := by
  unfold flagsText
  rw [List.length_flatMap]
  have hlines : saveOrder.map (fun f => (flagLine s f).length) = saveOrder.map fun f => f.name.length + 5 :=
    List.map_congr_left fun f _ => flagLine_length h f
  rw [hlines]
  decide +kernel

theorem notMem_flagsText (s : Flags) : '!' ∉ flagsText s := by
  intro h
  obtain ⟨f, -, hf⟩ := List.mem_flatMap.mp h
  have hname : '!' ∉ f.name := by
    cases f <;> decide
  unfold flagLine at hf
  simp [hname] at hf
  exact notMem_decimal (by decide) (by decide) hf

/-- The text of the flags as a value of the preferences. -/
def flagsValue (s : Flags) : NewValue :=
  ⟨flagsText s, by
    unfold flagsText saveOrder
    rw [List.flatMap_cons]
    exact List.append_ne_nil_of_left_ne_nil (List.append_ne_nil_of_right_ne_nil _ (List.cons_ne_nil _ _)) _, by
    intro hi
    have hmem : '!' ∈ '\n' :: flagsText s := hi.subset (by simp)
    exact notMem_flagsText s ((List.mem_cons.mp hmem).resolve_left (by decide))⟩

/-! ## The preferences show the record -/

/-- The preferences of a user, and the flags that they stand for. -/
structure FileShows (globalrc userrc : CString) (saved : Flags) : Prop where
  /-- The user's file consists of sections, every heading at most once. -/
  sections : RcInv ⟨userrc, 0⟩
  /-- The user does not hide flags of the global file by none at all. -/
  shadows : userFlags globalrc userrc = [] → (readSklaffrc globalrc [] 0).1 .flags = []
  /-- A login sets the flags that were saved. -/
  reads : ∀ s, setFlags (userFlags globalrc userrc) s = some saved
  /-- Other sessions find the flags that were saved. -/
  messages : ∀ f : Flag, f.initial = 1 →
    takesMessages (userFlags globalrc userrc) f.name = some (decide (saved f ≠ 0))
  sound : Sound saved

/-- The preferences and the sessions of a user, and the record of flags. -/
structure FlagsShown (globalrc : CString) (k : FlagSystem) (r : FlagRecord) : Prop where
  file : FileShows globalrc k.userrc r.saved
  sessions : ∀ pid, (k.sessions pid).map FlagSession.flags = r.sessions pid
  sound : ∀ pid s, r.sessions pid = some s → Sound s

section

variable {globalrc userrc : CString}

/-- What is read of the flags does not depend on the terminal height. -/
theorem read_flags (globalrc : CString) (rc : RcFile) :
    rc.read globalrc .flags = userFlags globalrc rc.userrc := by
  unfold userFlags RcFile.read
  rw [readSklaffrc_field, readSklaffrc_field]

theorem fileShows_of_reads {saved s : Flags} (hsections : RcInv ⟨userrc, 0⟩)
    (hshadows : userFlags globalrc userrc = [] → (readSklaffrc globalrc [] 0).1 .flags = [])
    (hreads : setFlags (userFlags globalrc userrc) s = some saved) (hsound : Sound saved) :
    FileShows globalrc userrc saved where
  sections := hsections
  shadows := hshadows
  reads := setFlags_of_numbers (flagNumber_of_setFlags hreads)
  messages := fun f hf => takesMessages_of_setFlags hreads hf (hsound.onOff f)
  sound := hsound

/-- The flags after a change of a member, which takes those of the global file where the user has none. -/
theorem userFlags_field {rc rc' : RcFile} {f : Field} {v : NewValue}
    (hs : rcStep globalrc rc (.field f v) = some rc') : userFlags globalrc rc'.userrc =
      if f = .flags then v.val
      else if userFlags globalrc rc.userrc = [] then (readSklaffrc globalrc [] 0).1 .flags
      else userFlags globalrc rc.userrc := by
  set kaffer := (readSklaffrc globalrc rc.userrc rc.numlines).1 with hk
  have hflags : kaffer .flags = userFlags globalrc rc.userrc := read_flags globalrc rc
  have hclean := update_clean (readSklaffrc_clean globalrc rc.userrc rc.numlines) f v
  have hrc : rc' = ⟨writeSklaffrc (Function.update kaffer f v.val),
      (readSklaffrc globalrc rc.userrc rc.numlines).2⟩ := (Option.some.inj hs).symm
  rw [← read_flags, hrc, writeSklaffrc_read hclean]
  by_cases hf : f = .flags
  · subst hf
    rw [Function.update_self, if_neg v.property.1, if_pos rfl]
  · rw [Function.update_of_ne (Ne.symm hf), if_neg hf, ← hk, hflags]

/-- A change of another member leaves the flags as they are. -/
theorem userFlags_rcStep {n : Int} {c : RcChange} {rc : RcFile} {saved : Flags}
    (h : FileShows globalrc userrc saved) (hc : c.setsFlags = false)
    (hs : rcStep globalrc ⟨userrc, n⟩ c = some rc) :
    RcInv rc ∧ userFlags globalrc rc.userrc = userFlags globalrc userrc := by
  cases c with
  | field f v =>
    refine ⟨(rcStep_field hs).1, ?_⟩
    have hf : f ≠ .flags := by
      intro hf
      rw [hf] at hc
      cases hc
    rw [userFlags_field hs, if_neg hf]
    split
    · rename_i hnil
      exact (h.shadows hnil).trans hnil.symm
    · rfl
  | numlines m =>
    obtain ⟨hinv, hkept⟩ := rcStep_numlines (s := ⟨userrc, n⟩) h.sections hs
    refine ⟨hinv, ?_⟩
    rw [← read_flags, hkept.1, read_flags]

theorem FileShows.change {n : Int} {c : RcChange} {rc : RcFile} {saved : Flags}
    (h : FileShows globalrc userrc saved) (hc : c.setsFlags = false)
    (hs : rcStep globalrc ⟨userrc, n⟩ c = some rc) : FileShows globalrc rc.userrc saved := by
  obtain ⟨hinv, hflags⟩ := userFlags_rcStep h hc hs
  apply @fileShows_of_reads globalrc rc.userrc saved (fun _ => 0) hinv _ _ h.sound
  · rw [hflags]
    exact h.shadows
  · rw [hflags]
    exact h.reads _

/-- A save is a change of the flags, and never fails for want of room. -/
theorem saveFlags_eq {s : Flags} (h : OnOff s) (rc : RcFile) :
    rcStep globalrc rc (.field .flags (flagsValue s)) = some (saveFlags globalrc rc true s).1 := by
  have hroom : ¬ (400 ≤ (flagsText s).length ∨ true = false) := by
    rw [flagsText_length h]
    simp
  unfold saveFlags
  dsimp only
  rw [if_neg hroom]
  rfl

theorem FileShows.save {n : Int} {saved s : Flags} (h : FileShows globalrc userrc saved) (hs : Sound s)
    (creates : Bool) : FileShows globalrc (saveFlags globalrc ⟨userrc, n⟩ creates s).1.userrc
      (if creates then s else saved) := by
  cases creates with
  | false =>
    have hfail : (saveFlags globalrc ⟨userrc, n⟩ false s).1.userrc = userrc := by
      unfold saveFlags
      dsimp only
      rw [if_pos (Or.inr rfl)]
    rw [hfail]
    exact h
  | true =>
    have hstep := @saveFlags_eq globalrc s hs.onOff ⟨userrc, n⟩
    generalize (saveFlags globalrc ⟨userrc, n⟩ true s).1 = rc at hstep ⊢
    have hflags : userFlags globalrc rc.userrc = flagsText s := by
      rw [userFlags_field hstep, if_pos rfl]
      rfl
    apply @fileShows_of_reads globalrc rc.userrc s (fun _ => 0) (rcStep_field hstep).1 _ _ hs
    · rw [hflags]
      exact fun hnil => absurd hnil (flagsValue s).property.1
    · rw [hflags]
      exact setFlags_flagsText s _

variable {k : FlagSystem} {r : FlagRecord}

/-- One session gets other flags, or ends. -/
theorem sessions_update (h : FlagsShown globalrc k r) (pid : Nat) (x : Option FlagSession)
    (hx : ∀ s ∈ x.map FlagSession.flags, Sound s) :
    (∀ p, (Function.update k.sessions pid x p).map FlagSession.flags =
      Function.update r.sessions pid (x.map FlagSession.flags) p) ∧
    ∀ p s, Function.update r.sessions pid (x.map FlagSession.flags) p = some s → Sound s := by
  constructor
  · intro p
    by_cases hp : p = pid
    · rw [hp, Function.update_self, Function.update_self]
    · rw [Function.update_of_ne hp, Function.update_of_ne hp]
      exact h.sessions p
  · intro p s hs
    by_cases hp : p = pid
    · rw [hp, Function.update_self] at hs
      exact hx s hs
    · rw [Function.update_of_ne hp] at hs
      exact h.sound p s hs

theorem FlagsShown.save (h : FlagsShown globalrc k r) {s : Flags} (hs : Sound s) (pid : Nat) (numlines : Int)
    (creates : Bool) : FlagsShown globalrc (k.save globalrc pid numlines creates s) (r.save pid creates s) := by
  have hnew := sessions_update h pid
    (some ⟨s, (saveFlags globalrc ⟨k.userrc, numlines⟩ creates s).1.numlines⟩) (by
      intro s' hs'
      cases hs'
      exact hs)
  exact ⟨h.file.save hs creates, hnew.1, hnew.2⟩

/-- A session stands on both sides, or on none. -/
theorem FlagsShown.session (h : FlagsShown globalrc k r) (pid : Nat) :
    (k.sessions pid = none ∧ r.sessions pid = none) ∨
      ∃ x, k.sessions pid = some x ∧ r.sessions pid = some x.flags ∧ Sound x.flags := by
  have hpid := h.sessions pid
  cases hk : k.sessions pid with
  | none =>
    rw [hk] at hpid
    exact Or.inl ⟨rfl, hpid.symm⟩
  | some x =>
    rw [hk] at hpid
    exact Or.inr ⟨x, rfl, hpid.symm, h.sound pid _ hpid.symm⟩

/-- A dialog about the character set ends with a save, or not at all. -/
theorem FlagsShown.select (h : FlagsShown globalrc k r) {s : Flags} (hs : OnOff s) (answers : List CString)
    (pid : Nat) (numlines : Int) (creates : Bool) : Option.Rel (FlagsShown globalrc)
      ((selectCharset answers s).bind fun s => some (k.save globalrc pid numlines creates s))
      ((selectCharset answers s).bind fun s => some (r.save pid creates s)) := by
  cases hc : selectCharset answers s with
  | none => exact .none
  | some s' => exact .some (h.save (sound_selectCharset hs hc) pid numlines creates)

/-- Every event does the same to the record as to the preferences and the sessions. -/
theorem shows_step (h : FlagsShown globalrc k r) (e : FlagEvent) :
    Option.Rel (FlagsShown globalrc) (flagStep globalrc k e) (recordStep r e) := by
  cases e with
  | login pid numlines answers creates =>
    have hread : setFlags ((readSklaffrc globalrc k.userrc numlines).1 .flags) (fun _ => 0) = some r.saved := by
      have hflags := read_flags globalrc ⟨k.userrc, numlines⟩
      exact (congrArg (setFlags · fun _ => 0) hflags).trans (h.file.reads _)
    simp only [flagStep, recordStep, hread, Option.bind_eq_bind, Option.bind_some]
    split
    · exact h.select h.file.sound.onOff answers pid _ creates
    · have hnew := sessions_update h pid (some ⟨r.saved, (readSklaffrc globalrc k.userrc numlines).2⟩) (by
        intro s hs
        cases hs
        exact h.file.sound)
      exact .some ⟨h.file, hnew.1, hnew.2⟩
  | turn pid mode flag creates =>
    simp only [flagStep, recordStep]
    rcases h.session pid with ⟨hk, hr⟩ | ⟨x, hk, hr, hx⟩
    · rw [hk, hr]
      exact .none
    · rw [hk, hr]
      have hsound := @sound_turnFlag mode flag x.flags hx
      simp only [Option.bind_eq_bind, Option.bind_some]
      generalize turnFlag mode flag x.flags = t at hsound
      obtain ⟨t, s⟩ := t
      cases t with
      | changed row => exact .some (h.save hsound pid x.numlines creates)
      | _ => exact .some h
  | charset pid args answers creates =>
    simp only [flagStep, recordStep]
    rcases h.session pid with ⟨hk, hr⟩ | ⟨x, hk, hr, hx⟩
    · rw [hk, hr]
      exact .none
    · rw [hk, hr]
      simp only [Option.bind_eq_bind, Option.bind_some]
      split
      · exact .some h
      · exact h.select hx.onOff answers pid x.numlines creates
  | change pid c =>
    simp only [flagStep, recordStep]
    rcases h.session pid with ⟨hk, hr⟩ | ⟨x, hk, hr, hx⟩
    · rw [hk, hr]
      exact .none
    · rw [hk, hr]
      simp only [Option.bind_eq_bind, Option.bind_some]
      cases hc : c.setsFlags with
      | true => exact .none
      | false =>
        rw [if_neg Bool.false_ne_true, if_neg Bool.false_ne_true]
        obtain ⟨rc, hrc⟩ : ∃ rc, rcStep globalrc ⟨k.userrc, x.numlines⟩ c = some rc := by
          cases c <;> exact ⟨_, rfl⟩
        rw [hrc, Option.bind_some]
        have hnew := sessions_update h pid (some ⟨x.flags, rc.numlines⟩) (by
          intro s hs
          cases hs
          exact hx)
        have hself : Function.update r.sessions pid (some x.flags) = r.sessions := by
          rw [← hr]
          exact Function.update_eq_self pid r.sessions
        rw [Option.map_some, hself] at hnew
        exact .some ⟨h.file.change hc hrc, hnew.1, hnew.2⟩
  | logout pid =>
    have hnew := sessions_update h pid none (by simp)
    exact .some ⟨h.file, hnew.1, hnew.2⟩

end

/-- The preferences of a user who takes no messages and has chosen UTF-8. -/
def quietSections : List Section := [fieldSection .flags "say = 0\nutf8 = 1".toList (by decide)]

def quietFlags : Flags := Function.update (Function.update Flag.initial .say 0) .utf8 1

theorem userFlags_quiet : userFlags [] (sectionsText quietSections) = "say = 0\nutf8 = 1".toList := by
  decide +kernel

theorem flagNumber_quiet (f : Flag) :
    flagNumber "say = 0\nutf8 = 1".toList f.name f.initial = some (quietFlags f) := by
  cases f <;> decide +kernel

end SklaffKom
