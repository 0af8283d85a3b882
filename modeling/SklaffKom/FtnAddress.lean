import SklaffKom.Lib.Numerals
import SklaffKom.Stdio

/-!
# FTN addresses

`ftn_address_parse` of the configuration, and the chain of `strtol` calls it shares with the parsers
of netmail addresses.
-/

open CString

namespace SklaffKom

structure FtnAddress where
  zone : Int
  net : Int
  node : Int
  point : Int
deriving DecidableEq

/-- `parse_number`: the value and `*text`.  `strtol` does not overflow into the range. -/
def parseNumber (text : CString) : Option (Int × CString) :=
  let (n, e) := strtol text
  if e = text ∨ n < 0 ∨ 65535 < n then none else some (n, e)

/-- `*p++ != c` -/
def skipChar (c : Char) : CString → Option CString
  | d :: p => if d = c then some p else none
  | [] => none

/-- `point` and `end` -/
def pointNumber : CString → Option (Int × CString)
  | '.' :: p => parseNumber p
  | p => some (0, p)

/-- The numbers of an address and what stands behind them. -/
def addressNumbers (text : CString) : Option (FtnAddress × CString) := do
  let (zone, p) ← parseNumber text
  let p ← skipChar ':' p
  let (net, p) ← parseNumber p
  let p ← skipChar '/' p
  let (node, p) ← parseNumber p
  let (point, p) ← pointNumber p
  some (⟨zone, net, node, point⟩, p)

def ftnAddressParse (text : CString) : Option FtnAddress := do
  let (address, p) ← addressNumbers text
  if p = [] then some address else none

/-- What the format strings print. -/
def addressText (a : FtnAddress) : CString :=
  let addr := decimal a.zone ++ ':' :: (decimal a.net ++ '/' :: decimal a.node)
  if a.point = 0 then addr else addr ++ '.' :: decimal a.point

/-- `ftn_address_format` into `outsz` bytes. -/
def ftnAddressFormat (a : FtnAddress) (outsz : Nat) : CString := strlcpy outsz (addressText a)

/-! ## The grammar -/

/-- A number as `strtol` reads it, in the range of an address. -/
def Component (t : CString) (n : Int) : Prop := Numeral t n ∧ 0 ≤ n ∧ n ≤ 65535

/-- `t` is a spelling of the address. -/
inductive Spells : CString → FtnAddress → Prop
  | node {z n d : CString} {zone net node : Int} (hz : Component z zone) (hn : Component n net)
      (hd : Component d node) : Spells (z ++ ':' :: (n ++ '/' :: d)) ⟨zone, net, node, 0⟩
  | point {z n d p : CString} {zone net node point : Int} (hz : Component z zone)
      (hn : Component n net) (hd : Component d node) (hp : Component p point) :
      Spells (z ++ ':' :: (n ++ '/' :: (d ++ '.' :: p))) ⟨zone, net, node, point⟩

variable {s t r p : CString} {n : Int} {a : FtnAddress} {c : Char}

theorem parseNumber_iff :
    parseNumber s = some (n, r) ↔ ∃ t, s = t ++ r ∧ Component t n ∧ NoDigit r := by
  have hread : parseNumber s = some (n, r) ↔ (strtol s = (n, r) ∧ r ≠ s) ∧ 0 ≤ n ∧ n ≤ 65535 := by
    unfold parseNumber
    generalize strtol s = q
    obtain ⟨m, e⟩ := q
    show (if e = s ∨ m < 0 ∨ 65535 < m then none else some (m, e)) = some (n, r) ↔ _
    by_cases hbad : e = s ∨ m < 0 ∨ 65535 < m
    · rw [if_pos hbad]
      constructor
      · intro h
        cases h
      · rintro ⟨⟨heq, hne⟩, h0, h1⟩
        cases heq
        rcases hbad with h | h | h
        · exact absurd h hne
        · omega
        · omega
    · rw [if_neg hbad]
      constructor
      · intro h
        cases h
        exact ⟨⟨rfl, fun h => hbad (.inl h)⟩, by omega, by omega⟩
      · rintro ⟨⟨heq, -⟩, -⟩
        rw [heq]
  rw [hread, strtol_iff]
  constructor
  · rintro ⟨⟨t, hs, ht, hr⟩, hrange⟩
    exact ⟨t, hs, ⟨ht, hrange⟩, hr⟩
  · rintro ⟨t, hs, ⟨ht, hrange⟩, hr⟩
    exact ⟨⟨t, hs, ht, hr⟩, hrange⟩

theorem skipChar_iff : skipChar c s = some r ↔ s = c :: r := by
  cases s with
  | nil => simp [skipChar]
  | cons d s =>
    by_cases hd : d = c
    · simp [skipChar, hd]
    · simp [skipChar, hd]

/-- What may follow an address: the end, or a domain. -/
def EndsAddress (r : CString) : Prop := ∀ c ∈ r.head?, c = '@'

theorem EndsAddress.noDigit (h : EndsAddress r) : NoDigit r := by
  intro c hc
  rw [h c hc]
  rfl

theorem parseNumber_append {t : CString} (h : Component t n) (hr : NoDigit r) :
    parseNumber (t ++ r) = some (n, r) := parseNumber_iff.mpr ⟨t, rfl, h, hr⟩

theorem pointNumber_iff (hr : EndsAddress r) : pointNumber s = some (n, r) ↔
    (s = r ∧ n = 0) ∨ ∃ t, s = '.' :: (t ++ r) ∧ Component t n := by
  by_cases hs : s.head? = some '.'
  · obtain ⟨p, rfl⟩ := List.head?_eq_some_iff.mp hs
    show parseNumber p = some (n, r) ↔ _
    rw [parseNumber_iff]
    constructor
    · rintro ⟨t, rfl, ht, -⟩
      exact .inr ⟨t, rfl, ht⟩
    · rintro (⟨rfl, -⟩ | ⟨t, heq, ht⟩)
      · exact absurd (hr '.' rfl) (by decide)
      · exact ⟨t, (List.cons.inj heq).2, ht, hr.noDigit⟩
  · have hplain : pointNumber s = some (0, s) := by
      unfold pointNumber
      split
      · exact absurd rfl hs
      · rfl
    rw [hplain]
    constructor
    · intro h
      cases h
      exact .inl ⟨rfl, rfl⟩
    · rintro (⟨rfl, rfl⟩ | ⟨t, rfl, -⟩)
      · rfl
      · exact absurd rfl hs

theorem addressNumbers_iff (hr : EndsAddress r) :
    addressNumbers s = some (a, r) ↔ ∃ t, s = t ++ r ∧ Spells t a := by
  constructor
  · intro h
    simp only [addressNumbers, bind, Option.bind_eq_some_iff, Prod.exists, Option.some.injEq,
      Prod.mk.injEq] at h
    obtain ⟨zone, p1, h1, p2, h2, net, p3, h3, p4, h4, node, p5, h5, point, p6, h6, rfl, rfl⟩ := h
    obtain ⟨z, rfl, hz, -⟩ := parseNumber_iff.mp h1
    obtain ⟨n, rfl, hn, -⟩ := parseNumber_iff.mp h3
    obtain ⟨d, rfl, hd, -⟩ := parseNumber_iff.mp h5
    rw [skipChar_iff] at h2 h4
    rw [h2, h4]
    rcases (pointNumber_iff hr).mp h6 with ⟨rfl, rfl⟩ | ⟨q, rfl, hq⟩
    · exact ⟨_, by simp, .node hz hn hd⟩
    · exact ⟨_, by simp, .point hz hn hd hq⟩
  · rintro ⟨t, rfl, ht⟩
    have hcolon : ∀ u, NoDigit (':' :: u) := fun u => noDigit_cons.mpr rfl
    have hslash : ∀ u, NoDigit ('/' :: u) := fun u => noDigit_cons.mpr rfl
    cases ht with
    | node hz hn hd =>
      simp only [addressNumbers, List.append_assoc, List.cons_append,
        parseNumber_append hz (hcolon _), parseNumber_append hn (hslash _),
        parseNumber_append hd hr.noDigit, skipChar_iff.mpr rfl, bind, Option.bind_some,
        (pointNumber_iff hr).mpr (.inl ⟨rfl, rfl⟩)]
    | point hz hn hd hp =>
      have hdot : ∀ u, NoDigit ('.' :: u) := fun u => noDigit_cons.mpr rfl
      simp only [addressNumbers, List.append_assoc, List.cons_append,
        parseNumber_append hz (hcolon _), parseNumber_append hn (hslash _),
        parseNumber_append hd (hdot _), skipChar_iff.mpr rfl, bind, Option.bind_some,
        (pointNumber_iff hr).mpr (.inr ⟨_, rfl, hp⟩)]

theorem ftnAddressParse_eq_some : ftnAddressParse s = some a ↔ addressNumbers s = some (a, []) := by
  unfold ftnAddressParse
  cases addressNumbers s with
  | none => simp
  | some q =>
    obtain ⟨b, e⟩ := q
    by_cases he : e = []
    · simp [he]
    · simp [he]

/-! ## Addresses as they are printed -/

/-- The range every parser checks. -/
structure FtnAddress.InRange (a : FtnAddress) : Prop where
  zone : 0 ≤ a.zone ∧ a.zone ≤ 65535
  net : 0 ≤ a.net ∧ a.net ≤ 65535
  node : 0 ≤ a.node ∧ a.node ≤ 65535
  point : 0 ≤ a.point ∧ a.point ≤ 65535

theorem Spells.inRange {t : CString} (h : Spells t a) : a.InRange := by
  cases h with
  | node hz hn hd => exact ⟨hz.2, hn.2, hd.2, show (0 : Int) ≤ 0 ∧ (0 : Int) ≤ 65535 by decide⟩
  | point hz hn hd hp => exact ⟨hz.2, hn.2, hd.2, hp.2⟩

theorem spells_addressText (h : a.InRange) : Spells (addressText a) a := by
  obtain ⟨zone, net, node, point⟩ := a
  have hz : Component (decimal zone) zone := ⟨numeral_decimal zone, h.zone⟩
  have hn : Component (decimal net) net := ⟨numeral_decimal net, h.net⟩
  have hd : Component (decimal node) node := ⟨numeral_decimal node, h.node⟩
  unfold addressText
  by_cases hp : point = 0
  · rw [if_pos hp, hp]
    exact .node hz hn hd
  · rw [if_neg hp]
    have hpoint : Component (decimal point) point := ⟨numeral_decimal point, h.point⟩
    simpa using Spells.point hz hn hd hpoint

/-- No spelling is shorter than the printed address. -/
theorem Spells.length_addressText_le {t : CString} (h : Spells t a) :
    (addressText a).length ≤ t.length := by
  cases h with
  | node hz hn hd =>
    have hz' := hz.1.length_decimal_le hz.2.1
    have hn' := hn.1.length_decimal_le hn.2.1
    have hd' := hd.1.length_decimal_le hd.2.1
    simp only [addressText, if_true, List.length_append, List.length_cons]
    omega
  | @point z n d p zone net node point hz hn hd hp =>
    have hz' := hz.1.length_decimal_le hz.2.1
    have hn' := hn.1.length_decimal_le hn.2.1
    have hd' := hd.1.length_decimal_le hd.2.1
    have hp' := hp.1.length_decimal_le hp.2.1
    simp only [addressText]
    by_cases h0 : point = 0
    · simp only [if_pos h0, List.length_append, List.length_cons]
      omega
    · simp only [if_neg h0, List.length_append, List.length_cons]
      omega

theorem Spells.at_notMem {t : CString} (h : Spells t a) : '@' ∉ t := by
  have hno : ∀ {t n}, Component t n → '@' ∉ t := fun h =>
    h.1.notMem (by decide) (by decide) (by decide) (by decide)
  cases h with
  | node hz hn hd => simp [hno hz, hno hn, hno hd]
  | point hz hn hd hp => simp [hno hz, hno hn, hno hd, hno hp]

theorem Spells.colon_mem {t : CString} (h : Spells t a) : ':' ∈ t := by
  cases h with
  | node hz hn hd => simp
  | point hz hn hd hp => simp

/-- Exactly the spellings of an address are parsed, and what is printed is one of them. -/
theorem ftnAddressParse_iff :
    (∀ s a, ftnAddressParse s = some a ↔ Spells s a) ∧
      ∀ (a : FtnAddress) (outsz : Nat), a.InRange → (addressText a).length < outsz →
        ftnAddressParse (ftnAddressFormat a outsz) = some a := by
  have hiff : ∀ s a, ftnAddressParse s = some a ↔ Spells s a := by
    intro s a
    have hend : EndsAddress [] := fun c hc => by cases hc
    rw [ftnAddressParse_eq_some, addressNumbers_iff hend]
    simp
  refine ⟨hiff, fun a outsz hrange hfit => ?_⟩
  have hwhole : ftnAddressFormat a outsz = addressText a := List.take_of_length_le (by omega)
  rw [hiff, hwhole]
  exact spells_addressText hrange

theorem ftnAddressParse_iff_point :
    ftnAddressParse (ftnAddressFormat ⟨2, 201, 329, 4⟩ 64) = some ⟨2, 201, 329, 4⟩ :=
  ftnAddressParse_iff.2 ⟨2, 201, 329, 4⟩ 64
    ⟨by decide, by decide, by decide, by decide⟩ (by decide)

/-- Blanks and signs are taken for a part of the number. -/
theorem ftnAddressParse_blank :
    ftnAddressParse " 1:+2/3".toList = some ⟨1, 2, 3, 0⟩ ∧
      ¬ ∀ c ∈ " 1:+2/3".toList, c.isDigit = true ∨ c ∈ [':', '/', '.'] := by
  refine ⟨by decide +kernel, fun h => ?_⟩
  have hblank := h ' ' (by decide +kernel)
  revert hblank
  decide

end SklaffKom
