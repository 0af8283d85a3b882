import SklaffKom.FtnMsg
import SklaffKom.Lib.Calendar
import SklaffKom.Lib.Numerals

/-!
# Dates of Usenet articles

`parse_usenet_date_utc` takes the `Date:` line of an article apart: an optional weekday, the day, the
month, the year, the time, and the zone, which is subtracted at the end.
-/

open CString Calendar

namespace SklaffKom

def parseTzToken (p : CString) : Option Int :=
  if p = [] then some 0
  else if hasPrefixCase "GMT".toList p || hasPrefixCase "UTC".toList p then some 0
  else
    match p with
    | c :: h₁ :: h₂ :: m₁ :: m₂ :: _ =>
      if (c = '+' ∨ c = '-') ∧ h₁.isDigit ∧ h₂.isDigit ∧ m₁.isDigit ∧ m₂.isDigit then
        let sign : Int := if c = '-' then -1 else 1
        let hh := (h₁.toNat - '0'.toNat) * 10 + (h₂.toNat - '0'.toNat)
        let mm := (m₁.toNat - '0'.toNat) * 10 + (m₂.toNat - '0'.toNat)
        some (sign * ((hh * 3600 + mm * 60 : Nat) : Int))
      else if c = '(' then some 0
      else none
    -- things like "-0000 (UTC)"
    | c :: _ => if c = '(' then some 0 else none
    | [] => none

def month3ToNum (m : CString) : Nat :=
  match months.findIdx? (· = (m.take 3).map Char.toLower) with
  | some i => i + 1
  | none => 0

/-- Without `Date:` and the blanks behind it. -/
def afterDate (dateLine : CString) : CString :=
  (if hasPrefixCase "Date:".toList dateLine then dateLine.drop 5 else dateLine).dropWhile isBlank

/-- Without the weekday, whose comma is among the first characters. -/
def afterWeekday (p : CString) : CString :=
  match cutAt ',' p with
  | some (day, rest) => if day.length ≤ 10 then rest.dropWhile isBlank else p
  | none => p

/-- `:SS`, if it is there. -/
def scanSeconds (p : CString) : Option (Int × CString) :=
  match p with
  | ':' :: p => scanInt p
  | p => some (0, p)

def timegmCompat (t : Tm) : Int :=
  dayNumber t.year t.mon t.mday * 86400 + t.hour * 3600 + t.min * 60 + t.sec

/-- `parse_usenet_date_utc`; where it returns 0 there is no result. -/
def parseUsenetDateUtc (dateLine : CString) : Option Int := do
  let (day, p) ← scanInt (afterWeekday (afterDate dateLine))
  guard (1 ≤ day ∧ day ≤ 31)
  let p := p.dropWhile isBlank
  guard ((p.take 3).length = 3 ∧ (p.take 3).all Char.isAlpha)
  let mon := month3ToNum p
  guard (mon ≠ 0)
  let (year, p) ← scanInt ((p.drop 3).dropWhile isBlank)
  let year := toLong year
  let year := if year < 100 then year + (if year < 70 then 2000 else 1900) else year
  let (hh, p) ← scanInt (p.dropWhile isBlank)
  let p ← scanChar ':' p
  let (mm, p) ← scanInt p
  let (ss, p) ← scanSeconds p
  let tzsec ← parseTzToken (p.dropWhile isBlank)
  -- `toInt` cuts to the `long` that `strtol` returns and then to an `int`; `(int)year - 1900` has no
  -- value where it leaves that range
  guard (-2147483648 ≤ toInt year - 1900)
  let asIfUtc := timegmCompat ⟨toInt year, mon - 1, toInt day, toInt hh, toInt mm, toInt ss⟩
  if asIfUtc = -1 then none else some (asIfUtc - tzsec)

/-! ## What is expected -/

def dayNames : List CString :=
  ["Sun", "Mon", "Tue", "Wed", "Thu", "Fri", "Sat"].map String.toList

def monthNames : List CString :=
  ["Jan", "Feb", "Mar", "Apr", "May", "Jun", "Jul", "Aug", "Sep", "Oct", "Nov", "Dec"].map
    String.toList

def twoDigits (n : Nat) : CString :=
  if n < 10 then '0' :: decimal n else decimal n

def Blanks (s : CString) : Prop := s.all isBlank = true

/-- What RFC 5322 leaves open. -/
structure DateLayout where
  field : Bool
  weekday : Bool
  /-- The day with two digits always. -/
  padded : Bool
  /-- The seconds also when they are zero. -/
  seconds : Bool
  comment : Option CString
  start : CString
  afterDay : CString
  beforeMonth : CString
  beforeYear : CString
  beforeTime : CString
  beforeZone : CString
  beforeComment : CString
  start_blanks : Blanks start
  afterDay_blanks : Blanks afterDay
  beforeMonth_blanks : Blanks beforeMonth ∧ beforeMonth ≠ []
  beforeYear_blanks : Blanks beforeYear ∧ beforeYear ≠ []
  beforeTime_blanks : Blanks beforeTime ∧ beforeTime ≠ []
  beforeZone_blanks : Blanks beforeZone ∧ beforeZone ≠ []
  beforeComment_blanks : Blanks beforeComment

def renderZone (z : Int) : CString :=
  (if z < 0 then '-' else '+') :: (twoDigits (z.natAbs / 60) ++ twoDigits (z.natAbs % 60))

def renderDay (d : Date) (l : DateLayout) : CString :=
  if l.padded then twoDigits d.mday else decimal d.mday

def renderSeconds (d : DateTime) (l : DateLayout) : CString :=
  if l.seconds ∨ d.sec ≠ 0 then ':' :: twoDigits d.sec else []

def renderComment (l : DateLayout) : CString :=
  match l.comment with
  | some text => l.beforeComment ++ '(' :: (text ++ [')'])
  | none => l.beforeComment

def renderTime (d : DateTime) (z : Int) (l : DateLayout) : CString :=
  twoDigits d.hour ++ (':' :: (twoDigits d.min ++ (renderSeconds d l ++ (l.beforeZone ++
    (renderZone z ++ renderComment l)))))

def renderFields (d : DateTime) (z : Int) (l : DateLayout) : CString :=
  renderDay d.toDate l ++ (l.beforeMonth ++ (monthNames.getD d.mon [] ++ (l.beforeYear ++
    (decimal d.year ++ (l.beforeTime ++ renderTime d z l)))))

def renderWeekday (d : Date) (l : DateLayout) : CString :=
  if l.weekday then dayNames.getD d.weekday [] ++ ',' :: l.afterDay else []

def renderDate (d : DateTime) (z : Int) (l : DateLayout) : CString :=
  (if l.field then "Date:".toList else []) ++ (l.start ++ (renderWeekday d.toDate l ++ renderFields d z l))

/-- The instant `t` is read from each of its renderings in the zone `z`. -/
def DateParsed (t z : Int) : Prop :=
  ∀ (d : DateTime) (l : DateLayout), d.seconds = t + z * 60 →
    parseUsenetDateUtc (renderDate d z l) = some t

/-! ## Names and digits -/

section Fields

variable {p rest : CString} {n : Nat} {mon z : Int}

/-- What the fields behind a gap begin with. -/
def NoBlank (s : CString) : Prop := ∀ c ∈ s.head?, isBlank c = false

theorem noBlank_cons {c : Char} {s : CString} : NoBlank (c :: s) ↔ isBlank c = false := by
  simp [NoBlank]

theorem Blanks.dropWhile {b : CString} (hb : Blanks b) (hp : NoBlank p) :
    (b ++ p).dropWhile isBlank = p := by
  rw [List.dropWhile_append_of_pos (List.all_eq_true.mp hb)]
  cases p with
  | nil => rfl
  | cons c p => exact List.dropWhile_cons_of_neg (by simp [hp c rfl])

theorem isDigit_of_isBlank {c : Char} (h : isBlank c = true) : c.isDigit = false := by
  simp only [isBlank, Bool.or_eq_true, decide_eq_true_eq] at h
  rcases h with rfl | rfl <;> rfl

theorem Blanks.notMem {b : CString} (hb : Blanks b) {c : Char} (hc : isBlank c = false) : c ∉ b := by
  intro hm
  rw [List.all_eq_true.mp hb c hm] at hc
  cases hc

theorem scanInt_numeral {t r : CString} {v : Int} (ht : Numeral t v) (hr : NoDigit r) :
    scanInt (t ++ r) = some (v, r) := by
  obtain ⟨h, hne⟩ := strtol_iff.mpr ⟨t, rfl, ht, hr⟩
  rw [scanInt, h, if_neg hne]

theorem twoDigits_eq (hn : n < 100) : twoDigits n = [Nat.digitChar (n / 10), Nat.digitChar (n % 10)] := by
  have hall : ∀ n < 100, twoDigits n = [Nat.digitChar (n / 10), Nat.digitChar (n % 10)] := by
    decide +kernel
  exact hall n hn

theorem digitChar_spec (hn : n < 10) :
    (Nat.digitChar n).isDigit = true ∧ (Nat.digitChar n).toNat - '0'.toNat = n := by
  have hall : ∀ n < 10, (Nat.digitChar n).isDigit = true ∧ (Nat.digitChar n).toNat - '0'.toNat = n := by
    decide
  exact hall n hn

theorem numeral_twoDigits (hn : n < 100) : Numeral (twoDigits n) n := by
  obtain ⟨h₁, hv₁⟩ := digitChar_spec (n := n / 10) (by omega)
  obtain ⟨h₂, hv₂⟩ := digitChar_spec (n := n % 10) (by omega)
  have hval : Nat.ofDigitChars 10 (twoDigits n) 0 = n := by
    rw [twoDigits_eq hn, Nat.ofDigitChars_cons, Nat.ofDigitChars_cons, Nat.ofDigitChars_nil, hv₁, hv₂]
    omega
  have h := Numeral.mk (show [].all isSpace = true from rfl) .absent
    (show twoDigits n ≠ [] by simp [twoDigits_eq hn])
    (show (twoDigits n).all Char.isDigit = true by simp [twoDigits_eq hn, h₁, h₂])
  rw [hval, Int.one_mul] at h
  exact h

theorem monthNames_spec {m : Nat} (hm : m < 12) :
    (monthNames.getD m []).length = 3 ∧ (monthNames.getD m []).all Char.isAlpha = true ∧
      month3ToNum (monthNames.getD m []) = m + 1 := by
  have hall : ∀ m < 12, (monthNames.getD m []).length = 3 ∧
      (monthNames.getD m []).all Char.isAlpha = true ∧ month3ToNum (monthNames.getD m []) = m + 1 := by
    decide +kernel
  exact hall m hm

theorem dayNames_spec {k : Nat} (hk : k < 7) :
    (dayNames.getD k []).length = 3 ∧ ',' ∉ dayNames.getD k [] ∧
      ∃ c s, dayNames.getD k [] = c :: s ∧ isBlank c = false ∧ c.toLower ≠ 'd' := by
  have hall : ∀ k < 7, (dayNames.getD k []).length = 3 ∧ ',' ∉ dayNames.getD k [] ∧
      ((dayNames.getD k []).head?.any fun c => !isBlank c && c.toLower ≠ 'd') = true := by
    decide +kernel
  obtain ⟨hlen, hcomma, hfirst⟩ := hall k hk
  refine ⟨hlen, hcomma, ?_⟩
  cases h : dayNames.getD k [] with
  | nil =>
    rw [h] at hlen
    cases hlen
  | cons c s =>
    rw [h, List.head?_cons, Option.any_some, Bool.and_eq_true, decide_eq_true_eq] at hfirst
    exact ⟨c, s, rfl, by simpa using hfirst.1, hfirst.2⟩

theorem month3ToNum_append {name : CString} (h : name.length = 3) (rest : CString) :
    month3ToNum (name ++ rest) = month3ToNum name := by
  rw [month3ToNum, month3ToNum, List.take_append_of_le_length (by omega)]

/-- The zone is read with its sign. -/
theorem parseTzToken_renderZone (hz : z.natAbs ≤ 1439) (rest : CString) :
    parseTzToken (renderZone z ++ rest) = some (z * 60) := by
  obtain ⟨h₁, hv₁⟩ := digitChar_spec (n := z.natAbs / 60 / 10) (by omega)
  obtain ⟨h₂, hv₂⟩ := digitChar_spec (n := z.natAbs / 60 % 10) (by omega)
  obtain ⟨h₃, hv₃⟩ := digitChar_spec (n := z.natAbs % 60 / 10) (by omega)
  obtain ⟨h₄, hv₄⟩ := digitChar_spec (n := z.natAbs % 60 % 10) (by omega)
  have hne : ∀ {c : Char} {s : CString}, c = '+' ∨ c = '-' →
      (hasPrefixCase "GMT".toList (c :: s) || hasPrefixCase "UTC".toList (c :: s)) = false := by
    rintro c s (rfl | rfl) <;> rfl
  rw [renderZone, twoDigits_eq (by omega), twoDigits_eq (by omega)]
  by_cases hneg : z < 0
  · rw [if_pos hneg]
    show parseTzToken ('-' :: _ :: _ :: _ :: _ :: rest) = _
    rw [parseTzToken, if_neg (List.cons_ne_nil _ _), hne (.inr rfl), if_neg Bool.false_ne_true]
    simp only [h₁, h₂, h₃, h₄, hv₁, hv₂, hv₃, hv₄]
    rw [if_pos ⟨.inr trivial, trivial, trivial, trivial, trivial⟩, if_pos trivial]
    congr 1
    omega
  · rw [if_neg hneg]
    show parseTzToken ('+' :: _ :: _ :: _ :: _ :: rest) = _
    rw [parseTzToken, if_neg (List.cons_ne_nil _ _), hne (.inl rfl), if_neg Bool.false_ne_true]
    simp only [h₁, h₂, h₃, h₄, hv₁, hv₂, hv₃, hv₄]
    rw [if_pos ⟨.inl trivial, trivial, trivial, trivial, trivial⟩, if_neg (by decide)]
    congr 1
    omega

end Fields

/-! ## The way through the line -/

section Line

variable {d : DateTime} {z : Int} {l : DateLayout} {r : CString}

theorem mday_le (d : Date) : d.mday ≤ 31 := by
  have h := d.mday_le
  unfold monthLength at h
  split at h
  · split at h <;> omega
  · split at h <;> omega

theorem numeral_renderDay (d : Date) (l : DateLayout) : Numeral (renderDay d l) d.mday := by
  rw [renderDay]
  split
  · have h := mday_le d
    exact numeral_twoDigits (by omega)
  · exact numeral_decimal _

/-- The day of the month begins with a digit. -/
theorem renderDay_head (d : Date) (l : DateLayout) :
    ∃ c s, renderDay d l = c :: s ∧ c.isDigit = true := by
  have hall : ∀ c ∈ renderDay d l, c.isDigit = true := by
    intro c hc
    rw [renderDay] at hc
    split at hc
    · have h := mday_le d
      rw [twoDigits_eq (by omega)] at hc
      simp only [List.mem_cons, List.not_mem_nil, or_false] at hc
      rcases hc with rfl | rfl
      · exact (digitChar_spec (by omega)).1
      · exact (digitChar_spec (by omega)).1
    · exact mem_decimal_of_nonneg (Int.natCast_nonneg _) hc
  cases h : renderDay d l with
  | nil => exact absurd h (numeral_renderDay d l).ne_nil
  | cons c s => exact ⟨c, s, rfl, hall c (by rw [h]; exact List.mem_cons_self)⟩

theorem isBlank_of_isDigit {c : Char} (h : c.isDigit = true) : isBlank c = false := by
  cases hb : isBlank c with
  | false => rfl
  | true =>
    rw [isDigit_of_isBlank hb] at h
    cases h

theorem noBlank_of_isDigit {c : Char} {s : CString} (h : c.isDigit = true) : NoBlank (c :: s) :=
  noBlank_cons.mpr (isBlank_of_isDigit h)

theorem noBlank_twoDigits {n : Nat} (hn : n < 100) : NoBlank (twoDigits n ++ r) := by
  rw [twoDigits_eq hn]
  exact noBlank_of_isDigit (digitChar_spec (by omega)).1

theorem noBlank_renderZone : NoBlank (renderZone z ++ r) := by
  rw [renderZone, List.cons_append, noBlank_cons]
  split <;> rfl

theorem noBlank_monthName (d : Date) : NoBlank (monthNames.getD d.mon [] ++ r) := by
  obtain ⟨hlen, hall, -⟩ := monthNames_spec d.mon_lt
  cases h : monthNames.getD d.mon [] with
  | nil =>
    rw [h] at hlen
    cases hlen
  | cons c s =>
    rw [h, List.all_cons, Bool.and_eq_true] at hall
    rw [List.cons_append, noBlank_cons]
    cases hb : isBlank c with
    | false => rfl
    | true =>
      simp only [isBlank, Bool.or_eq_true, decide_eq_true_eq] at hb
      rcases hb with rfl | rfl
      · exact absurd hall.1 (by decide)
      · exact absurd hall.1 (by decide)

theorem noBlank_decimal {n : Int} (hn : 0 ≤ n) : NoBlank (decimal n ++ r) := by
  cases h : decimal n with
  | nil => exact absurd h (decimal_ne_nil n)
  | cons c s =>
    exact noBlank_of_isDigit (mem_decimal_of_nonneg hn (by rw [h]; exact List.mem_cons_self))

theorem Blanks.noDigit_of_ne {b : CString} (hb : Blanks b ∧ b ≠ []) : NoDigit (b ++ r) := by
  obtain ⟨hall, hne⟩ := hb
  cases b with
  | nil => exact absurd rfl hne
  | cons c b =>
    rw [List.cons_append, noDigit_cons]
    exact isDigit_of_isBlank (List.all_eq_true.mp hall c List.mem_cons_self)

/-- The seconds, or what stands for them. -/
theorem scanSeconds_render (d : DateTime) (l : DateLayout) (r : CString) :
    NoDigit (renderSeconds d l ++ (l.beforeZone ++ r)) ∧
      scanSeconds (renderSeconds d l ++ (l.beforeZone ++ r)) =
        some ((d.sec : Int), l.beforeZone ++ r) := by
  have hzone : NoDigit (l.beforeZone ++ r) := Blanks.noDigit_of_ne l.beforeZone_blanks
  have hsec := d.sec_lt
  by_cases h : l.seconds ∨ d.sec ≠ 0
  · rw [renderSeconds, if_pos h]
    refine ⟨noDigit_cons.mpr rfl, ?_⟩
    exact scanInt_numeral (numeral_twoDigits (by omega)) hzone
  · rw [renderSeconds, if_neg h]
    refine ⟨hzone, ?_⟩
    have hzero : d.sec = 0 := by
      by_contra hne
      exact h (.inr hne)
    obtain ⟨hall, hne⟩ := l.beforeZone_blanks
    cases hb : l.beforeZone with
    | nil => exact absurd hb hne
    | cons c b =>
      have hc : c ≠ ':' := by
        rintro rfl
        rw [hb] at hall
        cases hall
      rw [hzero]
      show scanSeconds (c :: (b ++ r)) = _
      rw [scanSeconds]
      · rfl
      · intro p hp
        exact hc (List.cons.inj hp).1

/-- What the fields give. -/
theorem parseUsenetDateUtc_fields {s : CString} (hs : afterWeekday (afterDate s) = renderFields d z l)
    (hz : z.natAbs ≤ 1439) (hyear : 100 ≤ d.year) (hlong : d.year ≤ 9223372036854775807) :
    parseUsenetDateUtc s =
      if -2147483648 ≤ toInt d.year - 1900 then
        if timegmCompat ⟨toInt d.year, d.mon, d.mday, d.hour, d.min, d.sec⟩ = -1 then none
        else some (timegmCompat ⟨toInt d.year, d.mon, d.mday, d.hour, d.min, d.sec⟩ - z * 60)
      else none := by
  have hmday := mday_le d.toDate
  have hpos := d.mday_pos
  have hhour := d.hour_lt
  have hmin := d.min_lt
  have hsec := d.sec_lt
  obtain ⟨hlen, halpha, hmon⟩ := monthNames_spec d.mon_lt
  obtain ⟨hsecdig, hsecs⟩ := scanSeconds_render d l (renderZone z ++ renderComment l)
  -- the fields one after another
  have hday := scanInt_numeral (numeral_renderDay d.toDate l) (Blanks.noDigit_of_ne
    (r := monthNames.getD d.mon [] ++ (l.beforeYear ++ (decimal d.year ++ (l.beforeTime ++
      renderTime d z l)))) l.beforeMonth_blanks)
  have hgap₁ := l.beforeMonth_blanks.1.dropWhile (noBlank_monthName (r := l.beforeYear ++
    (decimal d.year ++ (l.beforeTime ++ renderTime d z l))) d.toDate)
  have hgap₂ := l.beforeYear_blanks.1.dropWhile (noBlank_decimal (r := l.beforeTime ++
    renderTime d z l) (show 0 ≤ d.year by omega))
  have hyr := scanInt_numeral (numeral_decimal d.year)
    (Blanks.noDigit_of_ne (r := renderTime d z l) l.beforeTime_blanks)
  have hgap₃ : (l.beforeTime ++ renderTime d z l).dropWhile isBlank = renderTime d z l :=
    l.beforeTime_blanks.1.dropWhile (noBlank_twoDigits (by omega))
  have hhh := scanInt_numeral (numeral_twoDigits (show d.hour < 100 by omega)) (noDigit_cons.mpr rfl)
    (r := ':' :: (twoDigits d.min ++ (renderSeconds d l ++ (l.beforeZone ++ (renderZone z ++
      renderComment l)))))
  have hmm := scanInt_numeral (numeral_twoDigits (show d.min < 100 by omega)) hsecdig
  have hgap₄ := l.beforeZone_blanks.1.dropWhile (noBlank_renderZone (z := z) (r := renderComment l))
  have htake : ∀ t, ((monthNames.getD d.mon [] ++ t).take 3) = monthNames.getD d.mon [] := fun t =>
    List.take_left' hlen
  have hdrop : ∀ t, ((monthNames.getD d.mon [] ++ t).drop 3) = t := fun t => List.drop_left' hlen
  have hchar : ∀ t, scanChar ':' (':' :: t) = some t := fun t => by rw [scanChar, if_pos rfl]
  -- the numbers fit
  have htwo : toLong d.year = d.year := toLong_of_range (by omega)
  have hguard : ∀ {p : Prop} [Decidable p], p → (guard p : Option Unit) = some () := fun hp => if_pos hp
  rw [parseUsenetDateUtc, hs, renderFields, hday]
  simp only [Option.bind_eq_bind, Option.bind_some]
  rw [hgap₁, htake, hdrop, month3ToNum_append hlen, hmon, hguard ⟨by omega, by omega⟩,
    hguard ⟨hlen, halpha⟩, hguard (Nat.succ_ne_zero _), hgap₂, hyr]
  simp only [Option.bind_some]
  rw [hgap₃, renderTime, hhh]
  simp only [Option.bind_some]
  rw [hchar]
  simp only [Option.bind_some]
  rw [hmm]
  simp only [Option.bind_some]
  rw [hsecs]
  simp only [Option.bind_some]
  rw [hgap₄, parseTzToken_renderZone hz, htwo, if_neg (by omega), Option.bind_some, Nat.add_sub_cancel]
  rw [toInt_of_range (n := (d.mday : Int)) (by omega), toInt_of_range (n := (d.hour : Int)) (by omega),
    toInt_of_range (n := (d.min : Int)) (by omega), toInt_of_range (n := (d.sec : Int)) (by omega)]
  by_cases hover : -2147483648 ≤ toInt d.year - 1900
  · rw [if_pos hover, hguard hover]
    rfl
  · have hnone : (guard (-2147483648 ≤ toInt d.year - 1900) : Option Unit) = none := if_neg hover
    rw [if_neg hover, hnone]
    rfl

/-- The weekday or the day begins with neither a blank nor a `D`. -/
theorem render_head (d : DateTime) (z : Int) (l : DateLayout) :
    ∃ c s, renderWeekday d.toDate l ++ renderFields d z l = c :: s ∧ isBlank c = false ∧
      c.toLower ≠ 'd' := by
  by_cases h : l.weekday
  · have hk : d.toDate.weekday < 7 := by
      unfold Date.weekday
      omega
    obtain ⟨-, -, c, s, hname, hb, hd⟩ := dayNames_spec hk
    refine ⟨c, s ++ (',' :: l.afterDay ++ renderFields d z l), ?_, hb, hd⟩
    rw [renderWeekday, if_pos h, hname]
    simp
  · obtain ⟨c, s, hday, hc⟩ := renderDay_head d.toDate l
    refine ⟨c, s ++ (l.beforeMonth ++ (monthNames.getD d.mon [] ++ (l.beforeYear ++ (decimal d.year ++
      (l.beforeTime ++ renderTime d z l))))), ?_, isBlank_of_isDigit hc, ?_⟩
    · rw [renderWeekday, if_neg h, renderFields, hday]
      rfl
    · intro hd
      have hlow : c.toLower = c := by
        have hle : c.toNat ≤ 57 := by
          simp only [Char.isDigit, Bool.and_eq_true, decide_eq_true_eq] at hc
          exact hc.2
        refine dif_neg fun hupper => ?_
        have h65 : 65 ≤ c.toNat := hupper.1
        omega
      rw [← hlow, hd] at hc
      cases hc

theorem afterDate_render (d : DateTime) (z : Int) (l : DateLayout) :
    afterDate (renderDate d z l) = renderWeekday d.toDate l ++ renderFields d z l := by
  obtain ⟨c, s, hbody, hb, hd⟩ := render_head d z l
  have hskip : (l.start ++ c :: s).dropWhile isBlank = c :: s :=
    Blanks.dropWhile l.start_blanks (noBlank_cons.mpr hb)
  have hcase : ∀ {c' : Char} {t : CString}, c'.toLower ≠ 'd' →
      hasPrefixCase "Date:".toList (c' :: t) = false := by
    intro c' t hne
    show (('d' == c'.toLower) && _) = false
    rw [beq_eq_false_iff_ne.mpr hne.symm, Bool.false_and]
  rw [renderDate, hbody]
  by_cases hfield : l.field
  · rw [if_pos hfield, afterDate]
    have hyes : hasPrefixCase "Date:".toList ("Date:".toList ++ (l.start ++ c :: s)) = true := by
      simp [hasPrefixCase]
    rw [hyes, if_pos rfl]
    exact hskip
  · rw [if_neg hfield, List.nil_append, afterDate]
    have hno : hasPrefixCase "Date:".toList (l.start ++ c :: s) = false := by
      cases hstart : l.start with
      | nil => exact hcase hd
      | cons b t =>
        have hblank : isBlank b = true :=
          List.all_eq_true.mp l.start_blanks b (by rw [hstart]; exact List.mem_cons_self)
        refine hcase ?_
        simp only [isBlank, Bool.or_eq_true, decide_eq_true_eq] at hblank
        rcases hblank with rfl | rfl <;> decide
    rw [hno, if_neg Bool.false_ne_true]
    exact hskip

/-- A comma far away is no weekday's. -/
theorem afterWeekday_far {a : CString} (ha : ',' ∉ a) (hlen : 10 < a.length) (r : CString) :
    afterWeekday (a ++ r) = a ++ r := by
  by_cases hcomma : ',' ∈ r
  · obtain ⟨mid, tail, rfl, hmid⟩ := List.eq_append_cons_of_mem hcomma
    have hno : ',' ∉ a ++ mid := by simp [ha, hmid]
    rw [← List.append_assoc, afterWeekday, cutAt_append hno]
    show (if (a ++ mid).length ≤ 10 then _ else _) = _
    rw [if_neg (by rw [List.length_append]; omega)]
  · have hno : ',' ∉ a ++ r := by simp [ha, hcomma]
    rw [afterWeekday, cutAt_none hno]

theorem notMem_numeral {t : CString} {n : Int} (h : Numeral t n) : ',' ∉ t :=
  h.notMem rfl (by decide) (by decide) rfl

theorem notMem_monthName (d : Date) : ',' ∉ monthNames.getD d.mon [] := by
  intro hmem
  have halpha := List.all_eq_true.mp (monthNames_spec d.mon_lt).2.1 _ hmem
  cases halpha

theorem afterWeekday_render (d : DateTime) (z : Int) (l : DateLayout) :
    afterWeekday (renderWeekday d.toDate l ++ renderFields d z l) = renderFields d z l := by
  obtain ⟨c, s, hday, hc⟩ := renderDay_head d.toDate l
  by_cases h : l.weekday
  · have hk : d.toDate.weekday < 7 := by
      unfold Date.weekday
      omega
    obtain ⟨hlen, hcomma, -⟩ := dayNames_spec hk
    have hblank : NoBlank (renderFields d z l) := by
      rw [renderFields, hday]
      exact noBlank_of_isDigit hc
    rw [renderWeekday, if_pos h, List.append_assoc, List.cons_append, afterWeekday, cutAt_append hcomma]
    show (if (dayNames.getD d.toDate.weekday []).length ≤ 10 then _ else _) = _
    rw [if_pos (by omega)]
    exact Blanks.dropWhile l.afterDay_blanks hblank
  · have hhour := d.hour_lt
    have hmin := d.min_lt
    have hcomma : isBlank ',' = false := rfl
    have hsplit : renderFields d z l = (renderDay d.toDate l ++ l.beforeMonth ++
        monthNames.getD d.mon [] ++ l.beforeYear ++ decimal d.year ++ l.beforeTime ++
        twoDigits d.hour ++ ':' :: twoDigits d.min) ++
        (renderSeconds d l ++ (l.beforeZone ++ (renderZone z ++ renderComment l))) := by
      simp [renderFields, renderTime]
    rw [renderWeekday, if_neg h, List.nil_append, hsplit]
    refine afterWeekday_far ?_ ?_ _
    · simp only [List.mem_append, List.mem_cons, not_or]
      exact ⟨⟨⟨⟨⟨⟨⟨notMem_numeral (numeral_renderDay _ _), l.beforeMonth_blanks.1.notMem hcomma⟩,
        notMem_monthName _⟩, l.beforeYear_blanks.1.notMem hcomma⟩, notMem_numeral (numeral_decimal _)⟩,
        l.beforeTime_blanks.1.notMem hcomma⟩, notMem_numeral (numeral_twoDigits (by omega))⟩,
        by decide, notMem_numeral (numeral_twoDigits (by omega))⟩
    · have hmonth := (monthNames_spec d.mon_lt).1
      have h₁ := List.length_pos_iff.mpr (numeral_renderDay d.toDate l).ne_nil
      have h₂ := List.length_pos_iff.mpr l.beforeMonth_blanks.2
      have h₃ := List.length_pos_iff.mpr l.beforeYear_blanks.2
      have h₄ := List.length_pos_iff.mpr (decimal_ne_nil d.year)
      have h₅ := List.length_pos_iff.mpr l.beforeTime_blanks.2
      have h₆ : (twoDigits d.hour).length = 2 := by rw [twoDigits_eq (by omega)]; rfl
      have h₇ : (twoDigits d.min).length = 2 := by rw [twoDigits_eq (by omega)]; rfl
      simp only [List.length_append, List.length_cons]
      omega

end Line

/-! ## Results -/

/-- The first second of the first year that is no `int`. -/
def intYearsEnd : Int := yearStart 2147483648 * 86400

theorem toInt_lt (n : Int) : toInt n < 2147483648 := by
  unfold toInt
  have h := Int.bmod_lt (x := toLong n) (m := 2 ^ 32) (by decide)
  omega

/-- What is read from a rendering. -/
theorem parse_renderDate {d : DateTime} {z : Int} (l : DateLayout) (hz : z.natAbs ≤ 1439)
    (hyear : 100 ≤ d.year) (hlong : d.year ≤ 9223372036854775807) :
    parseUsenetDateUtc (renderDate d z l) =
      if -2147483648 ≤ toInt d.year - 1900 then
        if timegmCompat ⟨toInt d.year, d.mon, d.mday, d.hour, d.min, d.sec⟩ = -1 then none
        else some (timegmCompat ⟨toInt d.year, d.mon, d.mday, d.hour, d.min, d.sec⟩ - z * 60)
      else none :=
  parseUsenetDateUtc_fields ((congrArg afterWeekday (afterDate_render d z l)).trans
    (afterWeekday_render d z l)) hz hyear hlong

/-- The years of a 64-bit `time_t`, in any zone. -/
theorem year_bounds {d : DateTime} {t z : Int} (hd : d.seconds = t + z * 60) (ht : 0 ≤ t)
    (hmax : t < 9223372036854775808) (hz : z.natAbs ≤ 1439) :
    1969 ≤ d.year ∧ d.year ≤ 9223372036854775807 := by
  constructor
  · by_contra h
    have hlt := (d.year_lt_iff 1969).mp (by omega)
    have hstart : yearStart 1969 = -365 := by decide
    omega
  · by_contra h
    have hge := mt (d.year_lt_iff 9223372036854775807).mpr (by omega)
    have hstart : 9223372036854775807 ≤ yearStart 9223372036854775807 := by decide
    omega

/-- A year that is no `int` is taken for an earlier one, or for none. -/
theorem parse_far {d : DateTime} {z : Int} (l : DateLayout) (hz : z.natAbs ≤ 1439)
    (hyear : 2147483648 ≤ d.year) (hlong : d.year ≤ 9223372036854775807) :
    parseUsenetDateUtc (renderDate d z l) ≠ some (d.seconds - z * 60) := by
  have hearlier : toInt d.year < d.year := by
    have h := toInt_lt d.year
    omega
  have hday := dayNumber_lt hearlier d.mon d.mday
  have hne : timegmCompat ⟨toInt d.year, d.mon, d.mday, d.hour, d.min, d.sec⟩ ≠ d.seconds := by
    unfold timegmCompat DateTime.seconds Date.day
    dsimp only
    omega
  rw [parse_renderDate l hz (by omega) hlong]
  split
  · split
    · exact nofun
    · intro heq
      have hval := Option.some.inj heq
      omega
  · exact nofun

theorem parse_near {d : DateTime} {z : Int} (l : DateLayout) (hz : z.natAbs ≤ 1439)
    (hyear : 1969 ≤ d.year) (hint : d.year < 2147483648) :
    parseUsenetDateUtc (renderDate d z l) =
      if d.seconds = -1 then none else some (d.seconds - z * 60) := by
  have hint : toInt d.year = d.year := toInt_of_range (by omega)
  have hval : timegmCompat ⟨toInt d.year, d.mon, d.mday, d.hour, d.min, d.sec⟩ = d.seconds := by
    rw [hint]
    rfl
  rw [parse_renderDate l hz (by omega) (by omega), hval, if_pos (by omega)]

/-- Everything that may be left out is left out. -/
def shortLayout : DateLayout where
  field := false
  weekday := false
  padded := false
  seconds := false
  comment := none
  start := []
  afterDay := []
  beforeMonth := [' ']
  beforeYear := [' ']
  beforeTime := [' ']
  beforeZone := [' ']
  beforeComment := []
  start_blanks := rfl
  afterDay_blanks := rfl
  beforeMonth_blanks := ⟨rfl, List.cons_ne_nil _ _⟩
  beforeYear_blanks := ⟨rfl, List.cons_ne_nil _ _⟩
  beforeTime_blanks := ⟨rfl, List.cons_ne_nil _ _⟩
  beforeZone_blanks := ⟨rfl, List.cons_ne_nil _ _⟩
  beforeComment_blanks := rfl

/-- Each rendering of an instant is read as this instant, exactly where the local time is not one second
before 1970 and its year is an `int`. -/
theorem dateParsed_iff {t z : Int} (ht : 0 ≤ t) (hmax : t < 9223372036854775808)
    (hz : z.natAbs ≤ 1439) :
    DateParsed t z ↔ t + z * 60 ≠ -1 ∧ t + z * 60 < intYearsEnd := by
  constructor
  · intro h
    obtain ⟨d, hd⟩ := exists_dateTime (t + z * 60)
    obtain ⟨hlow, hhigh⟩ := year_bounds hd ht hmax hz
    have hread := h d shortLayout hd
    by_cases hint : d.year < 2147483648
    · have hend := (d.year_lt_iff 2147483648).mp hint
      refine ⟨fun hneg => ?_, hd ▸ hend⟩
      rw [parse_near shortLayout hz hlow hint, if_pos (hd.trans hneg)] at hread
      cases hread
    · have hval : d.seconds - z * 60 = t := by omega
      have hfar := parse_far shortLayout hz (by omega) hhigh
      rw [hval] at hfar
      exact absurd hread hfar
  · rintro ⟨hne, hend⟩ d l hd
    obtain ⟨hlow, -⟩ := year_bounds hd ht hmax hz
    have hint : d.year < 2147483648 := (d.year_lt_iff 2147483648).mpr (hd ▸ hend)
    rw [parse_near l hz hlow hint, if_neg (hd ▸ hne)]
    congr 1
    omega

theorem dateParsed_stockholm : DateParsed 1781467200 120 :=
  (dateParsed_iff (by decide) (by decide) (by decide)).mpr ⟨by decide, by decide⟩

example : parseUsenetDateUtc "Date: Sun, 14 Jun 2026 22:00 +0200 (CEST, summer)".toList =
    some 1781467200 := by decide +kernel

/-- 1969-12-31 23:59:59, one hour behind UTC. -/
def lastSecond : DateTime where
  year := 1969
  mon := 11
  mday := 31
  mon_lt := by decide
  mday_pos := by decide
  mday_le := by decide
  hour := 23
  min := 59
  sec := 59
  hour_lt := by decide
  min_lt := by decide
  sec_lt := by decide

/-- One second before 1970 in a zone to the west is refused. -/
theorem parseUsenetDateUtc_lastSecond :
    renderDate lastSecond (-60) shortLayout = "31 Dec 1969 23:59:59 -0100".toList ∧
      ¬DateParsed 3599 (-60) := by
  refine ⟨by decide +kernel, fun h => ?_⟩
  have hread := h lastSecond shortLayout (by decide)
  exact absurd hread (by decide +kernel)

end SklaffKom
