import SklaffKom.FtnAddress

/-!
# Addresses of netmail

The same address is parsed twice: `parse_ftn_address` checks it when the message is queued, and
`parse_ftn_addr_5d` reads what was queued when it is exported.
-/

open CString

namespace SklaffKom

/-- `isalnum` in the C locale, and the characters that are allowed besides. -/
def domainChar (c : Char) : Bool := c.isAlphanum || c == '.' || c == '-' || c == '_'

structure NetmailDestination where
  address : FtnAddress
  domain : Option CString
deriving DecidableEq

/-! ## When it is queued -/

/-- The address in `buf` before the domain. -/
def queuedNumbers (buf : CString) (domain : Option CString) : Option NetmailDestination := do
  let (address, p) ← addressNumbers buf
  if p = [] then some ⟨address, domain⟩ else none

/-- What `parse_ftn_address` has read before it prints. -/
def queuedDestination (s : CString) : Option NetmailDestination :=
  if s = [] ∨ 128 ≤ s.length then none
  else
    match cutAt '@' s with
    | none => queuedNumbers s none
    | some (buf, domain) =>
      if domain = [] ∨ '@' ∈ domain ∨ domain.all domainChar = false then none
      else queuedNumbers buf (some domain)

/-- What the format strings print. -/
def destinationText (d : NetmailDestination) : CString :=
  match d.domain with
  | none => addressText d.address
  | some domain => addressText d.address ++ '@' :: domain

/-- `parse_ftn_address`: `out`, of `outsz` bytes -/
def parseFtnAddress (s : CString) (outsz : Nat) : Option CString :=
  if outsz = 0 then none
  else (queuedDestination s).bind fun d =>
    let out := strlcpy outsz (destinationText d)
    if out = [] then none else some out

/-- `name` without the blanks around it. -/
def trimBlanks (name : CString) : CString := trimEnd isBlank (name.dropWhile isBlank)

/-- The loop over the `@` of `s`: `name` stands before `at`. -/
def separatorLoop (namesz addrsz : Nat) : CString → CString → Option (CString × CString)
  | _, [] => none
  | name, c :: s =>
    if c = '@' ∧ name ≠ [] ∧ s ≠ [] then
      match parseFtnAddress s addrsz with
      | some addr =>
        if namesz ≤ name.length ∨ trimBlanks name = [] then none
        else some (trimBlanks name, addr)
      | none => separatorLoop namesz addrsz (name ++ [c]) s
    else separatorLoop namesz addrsz (name ++ [c]) s

/-- `parse_ftn_netmail_recipient`: `name` and `addr`, which stay empty when it fails -/
def parseFtnNetmailRecipient (s : CString) (namesz addrsz : Nat) : Option (CString × CString) :=
  if namesz = 0 ∨ addrsz = 0 then none else separatorLoop namesz addrsz [] s

/-! ## When it is exported -/

/-- `parse_ftn_addr_5d` -/
def parseFtnAddr5d (addr : CString) : Option NetmailDestination := do
  let (address, p) ← addressNumbers addr
  match p with
  | '@' :: domain =>
    if domain = [] ∨ 64 ≤ domain.length ∨ domain.all domainChar = false then none
    else some ⟨address, some domain⟩
  | [] => some ⟨address, none⟩
  | _ => none

/-! ## The grammar -/

/-- An address with a domain behind it. -/
inductive Denotes : CString → NetmailDestination → Prop
  | plain {t : CString} {a : FtnAddress} (ht : Spells t a) : Denotes t ⟨a, none⟩
  | domain {t domain : CString} {a : FtnAddress} (ht : Spells t a) (hne : domain ≠ [])
      (hall : domain.all domainChar = true) : Denotes (t ++ '@' :: domain) ⟨a, some domain⟩

/-- What `destination->domain` holds. -/
def NetmailDestination.FitsDomain (d : NetmailDestination) : Prop :=
  ∀ domain ∈ d.domain, domain.length < 64

variable {s t domain : CString} {a : FtnAddress} {d : NetmailDestination} {outsz : Nat}

theorem at_notMem_domain (h : domain.all domainChar = true) : '@' ∉ domain := by
  intro hc
  have hat := List.all_eq_true.mp h '@' hc
  revert hat
  decide

theorem colon_notMem_domain (h : domain.all domainChar = true) : ':' ∉ domain := by
  intro hc
  have hcolon := List.all_eq_true.mp h ':' hc
  revert hcolon
  decide

theorem endsAddress_nil : EndsAddress [] := fun c hc => by cases hc

theorem endsAddress_at : EndsAddress ('@' :: s) := by
  intro c hc
  exact (Option.some.inj hc).symm

theorem queuedNumbers_iff {dom : Option CString} :
    queuedNumbers s dom = some d ↔ Spells s d.address ∧ d.domain = dom := by
  obtain ⟨address, domain⟩ := d
  have hnumbers : queuedNumbers s dom = some ⟨address, domain⟩ ↔
      addressNumbers s = some (address, []) ∧ domain = dom := by
    unfold queuedNumbers
    cases addressNumbers s with
    | none => simp
    | some q =>
      obtain ⟨b, e⟩ := q
      by_cases he : e = []
      · simp [he, eq_comm]
      · simp [he]
  rw [hnumbers, addressNumbers_iff endsAddress_nil]
  simp

theorem denotes_plain_iff (h : '@' ∉ s) : Denotes s d ↔ Spells s d.address ∧ d.domain = none := by
  constructor
  · intro hd
    cases hd with
    | plain ht => exact ⟨ht, rfl⟩
    | domain ht hne hall => exact absurd (List.mem_append_right _ List.mem_cons_self) h
  · obtain ⟨address, dom⟩ := d
    rintro ⟨ht, hdom⟩
    cases hdom
    exact .plain ht

theorem denotes_domain_iff (h : '@' ∉ t) : Denotes (t ++ '@' :: domain) d ↔
    Spells t d.address ∧ d.domain = some domain ∧ domain ≠ [] ∧ domain.all domainChar = true := by
  constructor
  · intro hd
    generalize heq : t ++ '@' :: domain = u at hd
    cases hd with
    | plain ht =>
      subst heq
      exact absurd (List.mem_append_right _ List.mem_cons_self) ht.at_notMem
    | domain ht hne hall =>
      obtain ⟨rfl, rfl⟩ := append_sep_inj h ht.at_notMem heq
      exact ⟨ht, rfl, hne, hall⟩
  · obtain ⟨address, dom⟩ := d
    rintro ⟨ht, hdom, hne, hall⟩
    cases hdom
    exact .domain ht hne hall

theorem Denotes.ne_nil (h : Denotes s d) : s ≠ [] := by
  cases h with
  | plain ht => exact List.ne_nil_of_mem ht.colon_mem
  | domain ht => simp

theorem Denotes.colon_mem (h : Denotes s d) : ':' ∈ s := by
  cases h with
  | plain ht => exact ht.colon_mem
  | domain ht => exact List.mem_append_left _ ht.colon_mem

theorem queuedDestination_iff (hs : s.length < 128) :
    queuedDestination s = some d ↔ Denotes s d := by
  unfold queuedDestination
  by_cases hnil : s = []
  · rw [if_pos (.inl hnil)]
    constructor
    · intro h
      cases h
    · intro h
      exact absurd hnil h.ne_nil
  rw [if_neg (by simp [hnil, hs])]
  by_cases hat : '@' ∈ s
  · obtain ⟨t, domain, rfl, ht⟩ := List.eq_append_cons_of_mem hat
    rw [cutAt_append ht, denotes_domain_iff ht]
    dsimp only
    by_cases hbad : domain = [] ∨ '@' ∈ domain ∨ domain.all domainChar = false
    · rw [if_pos hbad]
      constructor
      · intro h
        cases h
      · rintro ⟨-, -, hne, hall⟩
        rcases hbad with h | h | h
        · exact absurd h hne
        · exact absurd h (at_notMem_domain hall)
        · rw [hall] at h
          cases h
    · rw [if_neg hbad, queuedNumbers_iff]
      simp only [not_or, Bool.not_eq_false] at hbad
      constructor
      · rintro ⟨hspell, hdom⟩
        exact ⟨hspell, hdom, hbad.1, hbad.2.2⟩
      · rintro ⟨hspell, hdom, -⟩
        exact ⟨hspell, hdom⟩
  · rw [cutAt_none hat, denotes_plain_iff hat]
    exact queuedNumbers_iff

theorem parseFtnAddr5d_iff : parseFtnAddr5d s = some d ↔ Denotes s d ∧ d.FitsDomain := by
  constructor
  · intro hparse
    unfold parseFtnAddr5d at hparse
    obtain ⟨⟨address, p⟩, hp, h⟩ := Option.bind_eq_some_iff.mp hparse
    clear hparse
    dsimp only at h
    split at h
    · rename_i domain
      obtain ⟨t, rfl, ht⟩ := (addressNumbers_iff endsAddress_at).mp hp
      split at h
      · cases h
      · rename_i hbad
        simp only [not_or, Bool.not_eq_false] at hbad
        cases h
        refine ⟨.domain ht hbad.1 hbad.2.2, fun u hu => ?_⟩
        cases hu
        omega
    · obtain ⟨t, rfl, ht⟩ := (addressNumbers_iff endsAddress_nil).mp hp
      cases h
      rw [List.append_nil]
      exact ⟨.plain ht, fun u hu => by cases hu⟩
    · cases h
  · rintro ⟨h, hfits⟩
    unfold parseFtnAddr5d
    cases h with
    | plain ht =>
      rw [(addressNumbers_iff endsAddress_nil).mpr ⟨s, (List.append_nil s).symm, ht⟩]
      rfl
    | @domain t domain a ht hne hall =>
      have hlen : ¬ 64 ≤ domain.length := Nat.not_le.mpr (hfits domain rfl)
      rw [(addressNumbers_iff endsAddress_at).mpr ⟨t, rfl, ht⟩]
      show (if domain = [] ∨ 64 ≤ domain.length ∨ domain.all domainChar = false then none
        else some (⟨a, some domain⟩ : NetmailDestination)) = some ⟨a, some domain⟩
      rw [if_neg (by simp [hne, hlen, hall])]

/-! ## Both parsers -/

theorem Spells.unique {a' : FtnAddress} (h : Spells t a) (h' : Spells t a') : a = a' := by
  have hread : ∀ {b}, Spells t b → addressNumbers t = some (b, []) := fun hb =>
    (addressNumbers_iff endsAddress_nil).mpr ⟨t, (List.append_nil t).symm, hb⟩
  have heq := (hread h).symm.trans (hread h')
  cases heq
  rfl

theorem denotes_destinationText (h : Denotes s d) : Denotes (destinationText d) d := by
  cases h with
  | plain ht => exact .plain (spells_addressText ht.inRange)
  | domain ht hne hall => exact .domain (spells_addressText ht.inRange) hne hall

theorem Denotes.length_destinationText_le (h : Denotes s d) :
    (destinationText d).length ≤ s.length := by
  cases h with
  | plain ht => exact ht.length_addressText_le
  | domain ht hne hall =>
    have hlen := ht.length_addressText_le
    simp only [destinationText, List.length_append, List.length_cons]
    omega

theorem parseFtnAddress_of_denotes (hs : s.length < 128) (h : Denotes s d)
    (hout : (destinationText d).length < outsz) :
    parseFtnAddress s outsz = some (destinationText d) := by
  have hwhole : strlcpy outsz (destinationText d) = destinationText d :=
    List.take_of_length_le (by omega)
  unfold parseFtnAddress
  rw [if_neg (by omega), (queuedDestination_iff hs).mpr h, Option.bind_some]
  dsimp only
  rw [hwhole, if_neg (denotes_destinationText h).ne_nil]

/-- `parse_ftn_addr_5d` reads what `parse_ftn_address` has read, from `s` and from what is printed.
The buffer `cmd_mail` passes is as large as its line. -/
theorem parseFtnAddress_agrees (hs : s.length < 128) (hout : s.length < outsz) :
    parseFtnAddress s outsz = (queuedDestination s).map destinationText ∧
      (∀ d, parseFtnAddr5d s = some d ↔ queuedDestination s = some d ∧ d.FitsDomain) ∧
      ∀ d, queuedDestination s = some d → d.FitsDomain →
        parseFtnAddr5d (destinationText d) = some d := by
  refine ⟨?_, fun d => ?_, fun d hd hfits => ?_⟩
  · cases hq : queuedDestination s with
    | none =>
      unfold parseFtnAddress
      rw [hq, Option.bind_none]
      exact ite_self none
    | some d =>
      have hd := (queuedDestination_iff hs).mp hq
      have hlen := hd.length_destinationText_le
      exact parseFtnAddress_of_denotes hs hd (by omega)
  · rw [parseFtnAddr5d_iff, queuedDestination_iff hs]
  · exact parseFtnAddr5d_iff.mpr
      ⟨denotes_destinationText ((queuedDestination_iff hs).mp hd), hfits⟩

theorem parseFtnAddress_agrees_fidonet :
    parseFtnAddr5d "2:201/329@fidonet".toList = some ⟨⟨2, 201, 329, 0⟩, some "fidonet".toList⟩ :=
  have h := parseFtnAddress_agrees (s := " 02:201/+329.0@fidonet".toList) (by decide +kernel)
    (show " 02:201/+329.0@fidonet".toList.length < 80 by decide +kernel)
  h.2.2 ⟨⟨2, 201, 329, 0⟩, some "fidonet".toList⟩ (by decide +kernel) (by
    intro u hu
    cases hu
    decide +kernel)

/-! ## Recipients -/

variable {name written : CString} {namesz addrsz : Nat}

/-- What stands behind an earlier `@` has a `:` or another `@` in its domain. -/
theorem not_denotes_append {d' : NetmailDestination} (h : Denotes written d) (u : CString) :
    ¬ Denotes (u ++ '@' :: written) d' := by
  intro hd
  by_cases hu : '@' ∈ u
  · obtain ⟨t, u', rfl, ht⟩ := List.eq_append_cons_of_mem hu
    rw [List.append_assoc, List.cons_append, denotes_domain_iff ht] at hd
    exact at_notMem_domain hd.2.2.2 (List.mem_append_right _ List.mem_cons_self)
  · rw [denotes_domain_iff hu] at hd
    exact colon_notMem_domain hd.2.2.2 h.colon_mem

theorem parseFtnAddress_none (h : Denotes written d) (u : CString) :
    parseFtnAddress (u ++ '@' :: written) outsz = none := by
  have hnone : queuedDestination (u ++ '@' :: written) = none := by
    by_cases hlong : 128 ≤ (u ++ '@' :: written).length
    · unfold queuedDestination
      rw [if_pos (.inr hlong)]
    · cases hq : queuedDestination (u ++ '@' :: written) with
      | none => rfl
      | some d' =>
        exact absurd ((queuedDestination_iff (by omega)).mp hq) (not_denotes_append h u)
  unfold parseFtnAddress
  rw [hnone, Option.bind_none]
  exact ite_self none

theorem separatorLoop_name (h : Denotes written d) (pre : CString) :
    separatorLoop namesz addrsz pre (name ++ '@' :: written) =
      separatorLoop namesz addrsz (pre ++ name) ('@' :: written) := by
  induction name generalizing pre with
  | nil => rw [List.append_nil, List.nil_append]
  | cons c name ih =>
    rw [List.cons_append, separatorLoop]
    split
    · rw [parseFtnAddress_none h, ih]
      simp
    · rw [ih]
      simp

/-- The address is the one behind the last `@` but the one of its domain. -/
theorem parseFtnNetmailRecipient_name (hname : trimBlanks name ≠ []) (hfits : name.length < namesz)
    (hw : Denotes written d) (hlen : written.length < 128)
    (haddr : (destinationText d).length < addrsz) :
    parseFtnNetmailRecipient (name ++ '@' :: written) namesz addrsz =
      some (trimBlanks name, destinationText d) := by
  have hne : name ≠ [] := by
    intro hnil
    rw [hnil] at hname
    exact hname rfl
  unfold parseFtnNetmailRecipient
  rw [if_neg (by omega), separatorLoop_name hw, List.nil_append, separatorLoop,
    if_pos ⟨rfl, hne, hw.ne_nil⟩, parseFtnAddress_of_denotes hlen hw haddr]
  dsimp only
  rw [if_neg (by simp [hname, hfits])]

theorem parseFtnNetmailRecipient_name_odd :
    parseFtnNetmailRecipient " 1:2/3@x@y @2:201/329.0@fidonet".toList 80 80 =
      some ("1:2/3@x@y".toList, "2:201/329@fidonet".toList) := by
  have haddress : Spells "2:201/329.0".toList ⟨2, 201, 329, 0⟩ :=
    .point ⟨numeral_decimal 2, by decide⟩ ⟨numeral_decimal 201, by decide⟩
      ⟨numeral_decimal 329, by decide⟩ ⟨numeral_decimal 0, by decide⟩
  have hw : Denotes "2:201/329.0@fidonet".toList
      ⟨⟨2, 201, 329, 0⟩, some "fidonet".toList⟩ :=
    .domain haddress (by decide) (by decide +kernel)
  have h : parseFtnNetmailRecipient (" 1:2/3@x@y ".toList ++ '@' :: "2:201/329.0@fidonet".toList) 80 80 =
      some (trimBlanks " 1:2/3@x@y ".toList, destinationText ⟨⟨2, 201, 329, 0⟩, some "fidonet".toList⟩) :=
    parseFtnNetmailRecipient_name (by decide +kernel) (by decide +kernel) hw (by decide +kernel)
      (by decide +kernel)
  exact h

end SklaffKom
