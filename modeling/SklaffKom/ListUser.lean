import Mathlib.Data.List.Sort
import SklaffKom.Lib.Numerals
import SklaffKom.UserFile

/-!
# The list of the last sessions

`list_user` with type 2 prints the times of the last sessions to strings, sorts them with `strcmp`, and
goes through the sorted array from its end.
-/

open CString

namespace SklaffKom

/-! ## The list -/

def inetGroup : Int := 60

def modemGroup : Int := 50

structure Uet where
  lastSession : CString
  name : CString
deriving DecidableEq

/-- The users of a group, of the groups besides `INET_GROUP` and `MODEM_GROUP`, or all users; `gid` is what
`getpwuid` says. -/
def userSelected (gid : Int → Int) (grp uid : Int) : Bool :=
  if grp = 0 then true
  else if grp = -1 then gid uid ≠ inetGroup ∧ gid uid ≠ modemGroup
  else gid uid = grp

/-- The linked list of the users; nothing when `get_user_entry` crashes. -/
def userList (gid : Int → Int) (grp : Int) : Nat → CString → Option (List UserEntry)
  | 0, _ => some []
  | fuel + 1, buf =>
    match getUserEntry buf with
    | .crash => none
    | .null => some []
    | .entry ue next =>
      (userList gid grp fuel next).map fun ueList =>
        if userSelected gid grp ue.num then ue :: ueList else ueList

/-- An element of the array `timelist`. -/
def timeEntry (ue : UserEntry) : Uet := ⟨decimal ue.lastSession, ue.name⟩

/-- The elements from the last one on. -/
def walkBack (timelist : List Uet) : List Uet :=
  (List.range timelist.length).filterMap fun x => timelist[timelist.length - 1 - x]?

/-- The line of an element: its time, which `time_string` prints, and the name. -/
def timeLine (u : Uet) : Option (Int × CString) :=
  let realtime := atol u.lastSession
  if realtime ≠ 0 then some (realtime, u.name) else none

/-- `list_user` with type 2 and what `qsort` does to the array: the lines of an output that is not
stopped. -/
def listUserTimes (qsort : List Uet → List Uet) (gid : Int → Int) (grp : Int) (buf : CString) :
    Option (List (Int × CString)) :=
  (userList gid grp (buf.length + 1) buf).map fun ueList =>
    (walkBack (qsort (ueList.map timeEntry))).filterMap timeLine

/-! ## What is expected -/

/-- What stands in the user file: a name that fits and a time. -/
structure UserEntry.Timed (e : UserEntry) : Prop where
  oneLine : '\n' ∉ e.name
  short : e.name.length < userNameSize
  lastSession : 0 ≤ e.lastSession ∧ e.lastSession < longMax

/-- The users with a last session. -/
def sessionsOf (gid : Int → Int) (grp : Int) (es : List UserEntry) : List (Int × CString) :=
  ((es.filter fun e => userSelected gid grp e.num).filter fun e => e.lastSession ≠ 0).map
    fun e => (e.lastSession, rtrim e.name)

/-- The printed times compare like the times. -/
def SameOrder (times : List Int) : Prop :=
  ∀ x ∈ times, ∀ y ∈ times, x < y → strcmpLe (decimal x) (decimal y) = true

/-! ## The walk -/

variable {gid : Int → Int} {grp : Int} {es : List UserEntry} {times : List Int} {s t : CString}

theorem walkBack_eq (l : List Uet) : walkBack l = l.reverse := by
  have hget : ∀ n ≤ l.length,
      (List.range n).filterMap (fun x => l[l.length - 1 - x]?) = l.reverse.take n := by
    intro n hn
    induction n with
    | zero => simp
    | succ n ih =>
      have hlt : n < l.reverse.length := by
        rw [List.length_reverse]
        omega
      have hidx : l.length - 1 - n < l.length := by omega
      rw [List.range_succ, List.filterMap_append, ih (by omega), ← List.take_append_getElem hlt,
        List.getElem_reverse]
      simp [hidx]
  rw [walkBack, hget l.length le_rfl, List.take_of_length_le (List.length_reverse).le]

theorem userList_userBytes (gid : Int → Int) (grp : Int) (hes : ∀ e ∈ es, '\n' ∉ e.name) {fuel : Nat}
    (hfuel : es.length < fuel) : userList gid grp fuel (userBytes es) =
      some ((es.filter fun e => userSelected gid grp e.num).map UserEntry.trimmed) := by
  induction es generalizing fuel with
  | nil =>
    cases fuel with
    | zero => omega
    | succ fuel => rfl
  | cons e es ih =>
    cases fuel with
    | zero => omega
    | succ fuel =>
      rw [List.forall_mem_cons] at hes
      rw [List.length_cons] at hfuel
      rw [userList, userBytes_cons, getUserEntry_line hes.1]
      dsimp only
      rw [ih hes.2 (by omega), Option.map_some, UserEntry.trimmed_num]
      by_cases hsel : userSelected gid grp e.num = true
      · rw [if_pos hsel, List.filter_cons_of_pos (by exact hsel), List.map_cons]
      · rw [if_neg hsel, List.filter_cons_of_neg (by exact hsel)]

theorem timeLine_timeEntry (e : UserEntry) : timeLine (timeEntry e) =
    if e.lastSession ≠ 0 then some (e.lastSession, e.name) else none := by
  have hatol : atol (decimal e.lastSession) = e.lastSession := by
    have h := atol_decimal e.lastSession noDigit_nil
    rwa [List.append_nil] at h
  unfold timeLine timeEntry
  dsimp only
  rw [hatol]

theorem filterMap_timeLine (es : List UserEntry) :
    ((es.filter fun e => userSelected gid grp e.num).map UserEntry.trimmed |>.map timeEntry).filterMap
      timeLine = sessionsOf gid grp es := by
  unfold sessionsOf
  rw [List.map_map, List.filterMap_map]
  induction es.filter fun e => userSelected gid grp e.num with
  | nil => rfl
  | cons e es ih =>
    have hline : (timeLine ∘ timeEntry ∘ UserEntry.trimmed) e =
        if e.lastSession ≠ 0 then some (e.lastSession, rtrim e.name) else none :=
      timeLine_timeEntry e.trimmed
    by_cases hzero : e.lastSession = 0
    · rw [List.filterMap_cons_none (by rw [hline, if_neg (by simpa using hzero)]), ih,
        List.filter_cons_of_neg (by simpa using hzero)]
    · rw [List.filterMap_cons_some (by rw [hline, if_pos hzero]), ih,
        List.filter_cons_of_pos (by simpa using hzero), List.map_cons]

/-- A printed line has the time that its element was sorted by. -/
theorem timeLine_some {us : List UserEntry} {u : Uet} (hu : u ∈ us.map timeEntry) {l : Int × CString}
    (h : timeLine u = some l) : u.lastSession = decimal l.1 := by
  obtain ⟨e, -, rfl⟩ := List.mem_map.mp hu
  rw [timeLine_timeEntry] at h
  split at h
  · cases h
    rfl
  · cases h

/-! ## The order -/

/-- Numbers with the same number of digits compare like their digits. -/
theorem strcmpLe_of_digits (hs : s.all Char.isDigit = true) (ht : t.all Char.isDigit = true)
    (hlen : s.length = t.length) (h : Nat.ofDigitChars 10 s 0 ≤ Nat.ofDigitChars 10 t 0) :
    strcmpLe s t = true := by
  induction s generalizing t with
  | nil => rfl
  | cons c s ih =>
    cases t with
    | nil => cases hlen
    | cons d t =>
      rw [List.all_cons, Bool.and_eq_true] at hs ht
      rw [List.length_cons, List.length_cons, Nat.add_right_cancel_iff] at hlen
      rw [Nat.ofDigitChars_cons, Nat.ofDigitChars_cons, Nat.ofDigitChars_eq_ofDigitChars_zero (l := s),
        Nat.ofDigitChars_eq_ofDigitChars_zero (l := t), hlen] at h
      have hc : 48 ≤ c.toNat := by
        have hdigit := hs.1
        rw [Char.isDigit, Bool.and_eq_true, decide_eq_true_eq] at hdigit
        exact hdigit.1
      have hd : 48 ≤ d.toNat := by
        have hdigit := ht.1
        rw [Char.isDigit, Bool.and_eq_true, decide_eq_true_eq] at hdigit
        exact hdigit.1
      have hzero : '0'.toNat = 48 := rfl
      have hlt := ofDigitChars_lt ht.2
      simp only [Nat.mul_zero, Nat.zero_add, hzero] at h
      simp only [strcmpLe, Bool.or_eq_true, Bool.and_eq_true, decide_eq_true_eq]
      rcases Nat.lt_trichotomy c.toNat d.toNat with hcd | hcd | hcd
      · exact Or.inl hcd
      · obtain rfl : c = d := Char.toNat_inj.mp hcd
        exact Or.inr ⟨rfl, ih hs.2 ht.2 hlen (by omega)⟩
      · -- a greater digit in front makes the number greater
        have hmul := Nat.mul_le_mul_left (10 ^ t.length) (show d.toNat - 48 + 1 ≤ c.toNat - 48 by omega)
        rw [Nat.mul_add, Nat.mul_one] at hmul
        omega

/-- Times with the same number of digits, such as all those from 2001 to 2286, are in order. -/
theorem sameOrder_of_length {n : Nat} (h0 : ∀ x ∈ times, 0 ≤ x)
    (hlen : ∀ x ∈ times, (decimal x).length = n) : SameOrder times := by
  intro x hx y hy hlt
  obtain ⟨i, rfl⟩ := Int.eq_ofNat_of_zero_le (h0 x hx)
  obtain ⟨j, rfl⟩ := Int.eq_ofNat_of_zero_le (h0 y hy)
  have hdigits (k : Nat) : (Nat.toDigits 10 k).all Char.isDigit = true :=
    List.all_eq_true.mpr fun c hc =>
      Nat.isDigit_of_mem_toDigits (b := 10) (n := k) (by decide) (by decide) hc
  refine strcmpLe_of_digits (hdigits i) (hdigits j) ((hlen _ hx).trans (hlen _ hy).symm) ?_
  show Nat.ofDigitChars 10 (Nat.toDigits 10 i) 0 ≤ Nat.ofDigitChars 10 (Nat.toDigits 10 j) 0
  rw [Nat.ofDigitChars_ten_toDigits, Nat.ofDigitChars_ten_toDigits]
  omega

theorem decimal_injective {x y : Int} (h : decimal x = decimal y) : x = y := by
  have hx := atol_decimal x noDigit_nil
  have hy := atol_decimal y noDigit_nil
  rw [h] at hx
  exact hx.symm.trans hy

/-- For every user file of names that fit, and every sort: each selected user with a last session is listed
exactly once, the latest ones first, exactly when the printed times compare like the times. -/
theorem listUserTimes_iff {qsort : List Uet → List Uet} (hperm : ∀ l, (qsort l).Perm l)
    (hsorted : ∀ l, (qsort l).Pairwise fun u v => strcmpLe u.lastSession v.lastSession = true)
    (gid : Int → Int) (grp : Int) (hes : ∀ e ∈ es, e.Timed) :
    (∃ lines, listUserTimes qsort gid grp (userBytes es) = some lines ∧
      lines.Perm (sessionsOf gid grp es) ∧ lines.Pairwise fun a b => b.1 ≤ a.1) ↔
      SameOrder ((sessionsOf gid grp es).map (·.1)) := by
  have hfuel : es.length < (userBytes es).length + 1 := Nat.lt_succ_of_le (length_le_userBytes es)
  have hlist := userList_userBytes gid grp (fun e he => (hes e he).oneLine) hfuel
  let us := (es.filter fun e => userSelected gid grp e.num).map UserEntry.trimmed
  -- the sorted array from its end
  let sorted := (qsort (us.map timeEntry)).reverse
  have hrun : listUserTimes qsort gid grp (userBytes es) = some (sorted.filterMap timeLine) := by
    rw [listUserTimes, hlist, Option.map_some, walkBack_eq]
  have hmem : ∀ u ∈ sorted, u ∈ us.map timeEntry := by
    intro u hu
    exact (hperm _).mem_iff.mp (List.mem_reverse.mp hu)
  have hlines : (sorted.filterMap timeLine).Perm (sessionsOf gid grp es) := by
    rw [← filterMap_timeLine]
    exact ((List.reverse_perm _).trans (hperm (us.map timeEntry))).filterMap timeLine
  have hdown : (sorted.filterMap timeLine).Pairwise
      fun a b => strcmpLe (decimal b.1) (decimal a.1) = true := by
    rw [List.pairwise_filterMap]
    have hrev : sorted.Pairwise fun u v => strcmpLe v.lastSession u.lastSession = true :=
      List.pairwise_reverse.mpr (hsorted _)
    refine hrev.imp_of_mem fun {u v} hu hv huv a ha b hb => ?_
    rwa [timeLine_some (hmem u hu) ha, timeLine_some (hmem v hv) hb] at huv
  have htimes : ∀ x, x ∈ (sessionsOf gid grp es).map (·.1) ↔ ∃ a ∈ sorted.filterMap timeLine, a.1 = x := by
    intro x
    rw [List.mem_map]
    exact exists_congr fun a => and_congr_left fun _ => hlines.symm.mem_iff
  constructor
  · rintro ⟨lines, hres, -, hordered⟩ x hx y hy hlt
    rw [hrun, Option.some.injEq] at hres
    subst hres
    obtain ⟨a, ha, rfl⟩ := (htimes x).mp hx
    obtain ⟨b, hb, rfl⟩ := (htimes y).mp hy
    -- the later one stands first
    have hboth := hordered.and hdown
    have hget := List.pairwise_iff_getElem.mp hboth
    obtain ⟨i, hi, rfl⟩ := List.getElem_of_mem ha
    obtain ⟨j, hj, rfl⟩ := List.getElem_of_mem hb
    rcases Nat.lt_trichotomy i j with hij | rfl | hij
    · exact absurd (hget i j hi hj hij).1 (by omega)
    · omega
    · exact (hget j i hj hi hij).2
  · intro hsame
    refine ⟨_, hrun, hlines, hdown.imp_of_mem fun {a b} ha hb hab => ?_⟩
    by_contra hlt
    have hle := hsame a.1 ((htimes _).mpr ⟨a, ha, rfl⟩) b.1 ((htimes _).mpr ⟨b, hb, rfl⟩) (by omega)
    have heq := decimal_injective (strcmpLe_antisymm hle hab)
    omega

def TimeLe (u v : Uet) : Prop := strcmpLe u.lastSession v.lastSession = true

instance : DecidableRel TimeLe := fun _ _ => inferInstanceAs (Decidable (strcmpLe _ _ = true))

instance : Std.Total TimeLe where
  total u v := by simpa [TimeLe] using strcmpLe_total u.lastSession v.lastSession

instance : IsTrans Uet TimeLe where
  trans _ _ _ := strcmpLe_trans

theorem listUserTimes_two :
    ∃ lines, listUserTimes (List.insertionSort TimeLe) (fun _ => modemGroup) 0 (userBytes
        [⟨1, 1700000000, "Bo".toList⟩, ⟨2, 1800000000, "Eva".toList⟩]) = some lines ∧
      lines.Perm (sessionsOf (fun _ => modemGroup) 0
        [⟨1, 1700000000, "Bo".toList⟩, ⟨2, 1800000000, "Eva".toList⟩]) ∧
      lines.Pairwise fun a b => b.1 ≤ a.1 := by
  refine (listUserTimes_iff (List.perm_insertionSort TimeLe) (List.pairwise_insertionSort TimeLe)
    (fun _ => modemGroup) 0 ?_).mpr ?_
  · simp only [List.forall_mem_cons, List.not_mem_nil, false_imp_iff, forall_true_iff, and_true]
    exact ⟨⟨by decide, by decide, by decide⟩, ⟨by decide, by decide, by decide⟩⟩
  · exact sameOrder_of_length (n := 10) (by decide) (by decide)

/-- A session of September 2001 is listed before a later one. -/
theorem listUserTimes_digits :
    ∃ lines, listUserTimes (List.insertionSort TimeLe) (fun _ => modemGroup) 0 (userBytes
        [⟨1, 999999999, "Bo".toList⟩, ⟨2, 1000000000, "Eva".toList⟩]) = some lines ∧
      ¬ lines.Pairwise fun a b => b.1 ≤ a.1 := by
  refine ⟨[(999999999, "Bo".toList), (1000000000, "Eva".toList)], ?_, by decide⟩
  decide +kernel

end SklaffKom
