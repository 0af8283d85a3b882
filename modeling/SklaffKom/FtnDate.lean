import SklaffKom.NetmailExport
import SklaffKom.UsenetDate

/-!
# The date of a message

`make_fido_date` writes the year with two digits.  `ftn_date_to_timestamp` and `parse_fido_msg_date` take them
for a year from 1970 to 2069.
-/

open CString

namespace SklaffKom

variable {tm : Tm} {n : Int} {r t : CString}

/-- A time as `localtime` returns it. -/
structure LocalTime (tm : Tm) : Prop where
  year : 1900 ≤ tm.year
  mon : tm.mon < 12
  mday : 1 ≤ tm.mday ∧ tm.mday ≤ 31
  hour : 0 ≤ tm.hour ∧ tm.hour ≤ 23
  min : 0 ≤ tm.min ∧ tm.min ≤ 59
  -- 60 is a leap second
  sec : 0 ≤ tm.sec ∧ tm.sec ≤ 60

/-- The year that the readers find. -/
def fidoYear (year : Int) : Int := 1970 + (year - 1970) % 100

/-- The time that the readers find. -/
def fidoTime (tm : Tm) : Tm := { tm with year := fidoYear tm.year }

/-! ## Numbers of two digits -/

theorem numeral_pad2 (h : 0 ≤ n) : Numeral (pad2 n) n := by
  have hdec : decimal n = Nat.toDigits 10 n.toNat := by
    obtain ⟨m, rfl⟩ := Int.eq_ofNat_of_zero_le h
    rfl
  have hall : (Nat.toDigits 10 n.toNat).all Char.isDigit = true :=
    List.all_eq_true.mpr fun c hc => isDigit_of_mem_toDigits hc
  have hne : Nat.toDigits 10 n.toNat ≠ [] := by
    rw [← hdec]
    exact decimal_ne_nil n
  have hval : (Nat.ofDigitChars 10 (Nat.toDigits 10 n.toNat) 0 : Int) = n := by
    rw [Nat.ofDigitChars_toDigits (by decide) (by decide)]
    omega
  unfold pad2
  rw [hdec]
  split
  · have hzero : Nat.ofDigitChars 10 ('0' :: Nat.toDigits 10 n.toNat) 0 =
        Nat.ofDigitChars 10 (Nat.toDigits 10 n.toNat) 0 := rfl
    have hnum := @Numeral.mk [] [] ('0' :: Nat.toDigits 10 n.toNat) 1 rfl .absent (List.cons_ne_nil _ _)
      (by rw [List.all_cons, hall]; rfl)
    rw [hzero, Int.one_mul, hval] at hnum
    exact hnum
  · have hnum := @Numeral.mk [] [] (Nat.toDigits 10 n.toNat) 1 rfl .absent hne hall
    rw [Int.one_mul, hval] at hnum
    exact hnum

theorem numeral_blank (h : Numeral t n) {c : Char} (hc : isSpace c = true) : Numeral (c :: t) n := by
  cases h with
  | @mk ws sg ds e hws hsg hne hds =>
    exact @Numeral.mk (c :: ws) sg ds e (by rw [List.all_cons, hc, hws]; rfl) hsg hne hds

theorem length_pad2 (h : 0 ≤ n) (h100 : n < 100) : (pad2 n).length = 2 := by
  obtain ⟨m, rfl⟩ := Int.eq_ofNat_of_zero_le h
  have hm : m < 100 := by omega
  clear h h100
  revert m
  decide

/-! ## The months -/

/-- A month is found by its name, whichever of the two readers cuts the name. -/
theorem findIdx_monthsOut {m : Nat} (h : m < 12) :
    months.findIdx? (· = (monthsOut.getD m []).map Char.toLower) = some m ∧
      (monthsOut.getD m []).length = 3 ∧ (monthsOut.getD m []).all (fun c => !isSpace c) = true := by
  revert m
  decide

theorem scanWord_month {w : CString} {width : Nat} (hwidth : w.length ≤ width) (hne : w ≠ [])
    (hw : w.all (fun c => !isSpace c) = true) :
    scanWord width (' ' :: (w ++ ' ' :: r)) = some (w, ' ' :: r) := by
  have hdrop : (' ' :: (w ++ ' ' :: r)).dropWhile isSpace = w ++ ' ' :: r := by
    rw [List.dropWhile_cons_of_pos (by decide)]
    cases w with
    | nil => exact absurd rfl hne
    | cons c w =>
      rw [List.all_cons, Bool.and_eq_true, Bool.not_eq_true'] at hw
      exact List.dropWhile_cons_of_neg (by simp [hw.1])
  have htake : (w ++ ' ' :: r).takeWhile (fun c => !isSpace c) = w := by
    rw [List.takeWhile_append_of_pos (List.all_eq_true.mp hw), List.takeWhile_cons_of_neg (by decide),
      List.append_nil]
  unfold scanWord
  dsimp only
  rw [hdrop, htake, List.take_of_length_le hwidth, if_neg hne, List.drop_left]

/-! ## A date that was written -/

section Written

variable (h : LocalTime tm)
include h

/-- The date has its 19 characters and fits its field. -/
theorem LocalTime.whole : trimEnd isSpace (fixedText 20 (makeFidoDate tm)) =
    pad2 tm.mday ++ ' ' :: (monthsOut.getD tm.mon [] ++ ' ' :: (pad2 ((tm.year - 1900) % 100) ++
      ' ' :: ' ' :: (pad2 tm.hour ++ ':' :: (pad2 tm.min ++ ':' :: pad2 tm.sec)))) := by
  have hyear : (tm.year - 1900).tmod 100 = (tm.year - 1900) % 100 :=
    Int.tmod_eq_emod_of_nonneg (by have := h.year; omega)
  obtain ⟨-, hmon, -⟩ := findIdx_monthsOut h.mon
  have hmday := h.mday
  have hhour := h.hour
  have hmin := h.min
  have hsec := h.sec
  have hlast : ∀ c ∈ (pad2 tm.sec).getLast?, isSpace c = false := by
    intro c hc
    obtain ⟨ds, hds⟩ : ∃ ds : CString, ds = pad2 tm.sec ∧ ds.all Char.isDigit = true := by
      refine ⟨_, rfl, ?_⟩
      obtain ⟨m, hm⟩ := Int.eq_ofNat_of_zero_le hsec.1
      have hm61 : m < 61 := by omega
      rw [hm]
      clear hm
      revert m
      decide
    rw [← hds.1] at hc
    exact isSpace_of_isDigit (List.all_eq_true.mp hds.2 c (List.mem_of_getLast? hc))
  generalize hdate :
    pad2 tm.mday ++ ' ' :: (monthsOut.getD tm.mon [] ++ ' ' :: (pad2 ((tm.year - 1900) % 100) ++
      ' ' :: ' ' :: (pad2 tm.hour ++ ':' :: (pad2 tm.min ++ ':' :: pad2 tm.sec)))) = date
  have hlen : date.length = 19 := by
    rw [← hdate]
    simp only [List.length_append, List.length_cons, hmon, length_pad2 (n := tm.mday) (by omega) (by omega),
      length_pad2 (n := (tm.year - 1900) % 100) (by omega) (by omega),
      length_pad2 (n := tm.hour) (by omega) (by omega), length_pad2 (n := tm.min) (by omega) (by omega),
      length_pad2 (n := tm.sec) (by omega) (by omega)]
  have hmake : makeFidoDate tm = date := by
    unfold makeFidoDate
    rw [hyear, hdate]
    exact List.take_of_length_le (by omega)
  rw [hmake, fixedText, if_pos (by omega), List.take_length, trimEnd_eq_self]
  intro c hc
  rw [← hdate] at hc
  have hne : pad2 tm.sec ≠ [] := (numeral_pad2 hsec.1).ne_nil
  obtain ⟨ds, d, hds⟩ := (List.eq_nil_or_concat (pad2 tm.sec)).resolve_left hne
  refine hlast c ?_
  rw [hds]
  rw [hds] at hc
  simpa [List.getLast?_append, List.getLast?_cons] using hc

/-- Both readers find the day, the month and the time; the century is theirs. -/
theorem LocalTime.scanned {width : Nat} (hwidth : 3 ≤ width) :
    scanFtnDate width (trimEnd isSpace (fixedText 20 (makeFidoDate tm))) =
      some (fidoTime tm) := by
  obtain ⟨hfind, hmon, hword⟩ := findIdx_monthsOut h.mon
  have hmday := h.mday
  have hhour := h.hour
  have hmin := h.min
  have hsec := h.sec
  have hyear := h.year
  have hcolon (s : CString) : NoDigit (':' :: s) := noDigit_cons.mpr rfl
  have hblank (s : CString) : NoDigit (' ' :: s) := noDigit_cons.mpr rfl
  have hsp : isSpace ' ' = true := rfl
  have hne : monthsOut.getD tm.mon [] ≠ [] := List.ne_nil_of_length_eq_add_one hmon
  have h1 := fun s => scanInt_numeral (numeral_pad2 (n := tm.mday) (by omega)) (hblank s)
  have h2 := fun s => scanInt_numeral (numeral_blank (numeral_pad2 (n := (tm.year - 1900) % 100)
    (by omega)) hsp) (hblank s)
  have h3 := fun s => scanInt_numeral (numeral_blank (numeral_blank (numeral_pad2 hhour.1) hsp) hsp) (hcolon s)
  have h4 := fun s => scanInt_numeral (numeral_pad2 hmin.1) (hcolon s)
  have h5 := scanInt_numeral (numeral_pad2 hsec.1) noDigit_nil
  rw [List.append_nil] at h5
  have hread (s : CString) : scanWord width (' ' :: (monthsOut.getD tm.mon [] ++ ' ' :: s)) =
      some (monthsOut.getD tm.mon [], ' ' :: s) := scanWord_month (by omega) hne hword
  rw [h.whole]
  simp only [List.cons_append] at h2 h3
  simp only [scanFtnDate, h1, hread, h2, h3, scanChar_self, h4, h5, hfind, Option.bind_eq_bind,
    Option.bind_some]
  rw [if_neg (by omega)]
  have hcentury : (if (tm.year - 1900) % 100 < 70 then (tm.year - 1900) % 100 + 2000
      else if (tm.year - 1900) % 100 < 100 then (tm.year - 1900) % 100 + 1900 else (tm.year - 1900) % 100) =
        fidoYear tm.year := by
    unfold fidoYear
    split
    · omega
    · rw [if_pos (by omega)]
      omega
  rw [hcentury]
  rfl

end Written

theorem fidoYear_eq_iff {year : Int} : fidoYear year = year ↔ 1970 ≤ year ∧ year ≤ 2069 := by
  unfold fidoYear
  omega

/-! ## The date in a message -/

theorem parseKludge_date (msg : FidoMsg) (line : CString) : (parseKludge msg line).date = msg.date := by
  unfold parseKludge
  split
  · repeat' split
    all_goals rfl
  · rfl

/-- No line of the body changes the date. -/
theorem bodyLine_date (msg : FidoMsg) (line : CString) : (bodyLine msg line).date = msg.date := by
  unfold bodyLine
  dsimp only
  split <;> exact parseKludge_date msg line

theorem foldl_bodyLine_date (ls : List CString) (msg : FidoMsg) : (ls.foldl bodyLine msg).date = msg.date := by
  induction ls generalizing msg with
  | nil => rfl
  | cons l ls ih => rw [List.foldl_cons, ih, bodyLine_date]

/-- A file of one of the two writers at a time, the strings being without a NUL. -/
inductive WritesMsg (site : Site) (clock : Clock) (file : List Char) : Prop where
  | echomail {orig dest : FtnAddress} {fromName toName subject body reply msgid : CString}
    (hfrom : '\x00' ∉ fromName) (hto : '\x00' ∉ toName) (hsubject : '\x00' ∉ subject)
    (h : writeFidoMsgOut site clock orig dest fromName toName subject body reply msgid = some file)
  | netmail {orig dest : FtnAddress} {job : NetmailJob} {fromName msgid : CString}
    (hfrom : '\x00' ∉ fromName) (hto : '\x00' ∉ job.toname) (hsubject : '\x00' ∉ job.subject)
    (h : writeFidoNetmailOut site clock job fromName orig dest msgid = some file)

variable {site : Site} {clock : Clock} {file : List Char}

/-- The field of the date is read whatever stands behind the header. -/
theorem readFidoMsg_date (h : WritesMsg site clock file) : ∃ msg, readFidoMsg (some file) = some msg ∧
    msg.date = trimEnd isSpace (fixedText 20 (makeFidoDate clock.tm)) := by
  have hdate : '\x00' ∉ makeFidoDate clock.tm := notMem_makeFidoDate rfl (by decide) rfl _
  cases h with
  | echomail hfrom hto hsubject h =>
    unfold writeFidoMsgOut at h
    split at h
    · cases h
    · rw [Option.some.injEq] at h
      simp only [List.append_assoc] at h
      rw [← h, readFidoMsg_header hfrom hto hsubject hdate]
      exact ⟨_, rfl, foldl_bodyLine_date _ _⟩
  | netmail hfrom hto hsubject h =>
    unfold writeFidoNetmailOut at h
    split at h
    · cases h
    · rw [Option.some.injEq] at h
      simp only [List.append_assoc] at h
      rw [← h, readFidoMsg_header hfrom (nul_notMem_sf7ToUtf8 hto) (nul_notMem_sf7ToUtf8 hsubject) hdate]
      exact ⟨_, rfl, foldl_bodyLine_date _ _⟩

/-- The time at which a message is written is read back by both programs to the second, whatever else is in the
message, when the year is from 1970 to 2069; other years are taken for the one of these with the same last two
digits. -/
theorem date_arrives (htime : LocalTime clock.tm) (h : WritesMsg site clock file) :
    ∃ msg, readFidoMsg (some file) = some msg ∧
      (∀ width ∈ [3, 7], scanFtnDate width msg.date = some (fidoTime clock.tm)) ∧
      (fidoTime clock.tm = clock.tm ↔ 1970 ≤ clock.tm.year ∧ clock.tm.year ≤ 2069) := by
  obtain ⟨msg, hread, hdate⟩ := readFidoMsg_date h
  refine ⟨msg, hread, ?_, ?_⟩
  · intro width hwidth
    have hthree : 3 ≤ width := by
      simp only [List.mem_cons, List.not_mem_nil, or_false] at hwidth
      omega
    rw [hdate, htime.scanned hthree]
  · rw [← fidoYear_eq_iff]
    constructor
    · intro heq
      exact congrArg Tm.year heq
    · intro hyear
      unfold fidoTime
      rw [hyear]

def midsummer : Clock := ⟨⟨2026, 5, 20, 23, 59, 60⟩, "+0200".toList⟩

def someSite : Site := ⟨"2.0".toList, "KOM".toList, "Lund".toList⟩

/-- An echomail of one line in the last second of a day. -/
theorem date_arrives_midsummer : ∃ file msg,
    writeFidoMsgOut someSite midsummer ⟨2, 201, 1, 0⟩ ⟨2, 201, 2, 0⟩ "Ada".toList "All".toList "Hej".toList
      "hej\n".toList [] "2:201/1 1".toList = some file ∧
      readFidoMsg (some file) = some msg ∧
      (∀ width ∈ [3, 7], scanFtnDate width msg.date = some (fidoTime midsummer.tm)) ∧
      (fidoTime midsummer.tm = midsummer.tm ↔ 1970 ≤ midsummer.tm.year ∧ midsummer.tm.year ≤ 2069) := by
  have htime : LocalTime midsummer.tm := by
    constructor <;> decide
  obtain ⟨file, hfile⟩ : ∃ file, writeFidoMsgOut someSite midsummer ⟨2, 201, 1, 0⟩ ⟨2, 201, 2, 0⟩
      "Ada".toList "All".toList "Hej".toList "hej\n".toList [] "2:201/1 1".toList = some file :=
    ⟨_, if_neg (by decide)⟩
  obtain ⟨msg, hmsg⟩ := date_arrives htime (.echomail (by decide) (by decide) (by decide) hfile)
  exact ⟨file, msg, hfile, hmsg⟩

end SklaffKom
