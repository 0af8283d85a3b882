import SklaffKom.Stdio

/-!
# The files of a spool directory

An outgoing message is written to a new file of the directory of its area: behind the largest number there.
-/

open CString

namespace SklaffKom

def maxLong : Int := 9223372036854775807

/-- The number of a message file, as `next_msg_path` reads it; `none` is a name that is passed over. -/
def msgFileNumber (name : CString) : Option Int :=
  if name.head? = some '.' then none
  else
    let (n, endp) := strtol name
    -- no digits, or `ERANGE`
    if endp = name ∨ maxLong < n ∨ n < -maxLong - 1 then none
    else if endp = ".msg".toList ∨ endp = ".MSG".toList then some n
    else none

def countMsgFile (maxnum : Int) (name : CString) : Int :=
  match msgFileNumber name with
  | some n => if maxnum < n then n else maxnum
  | none => maxnum

/-- `maxnum` behind the loop. -/
def maxMsgNumber (names : List CString) : Int := names.foldl countMsgFile 1

def msgFileName (n : Int) : CString := decimal n ++ ".msg".toList

def pathMax : Nat := 4096

/-- `next_msg_path`: the path and the number; `none` for `names` is a directory that cannot be read. -/
def nextMsgPath (spooldir : CString) (names : Option (List CString)) : Option (CString × Int) := do
  if spooldir = [] then none else
  let maxnum := maxMsgNumber (← names)
  -- the next number is no `long`
  if maxnum = maxLong then none else
  let path := spooldir ++ '/' :: msgFileName (maxnum + 1)
  if pathMax ≤ path.length then none else some (path, maxnum + 1)

theorem msgFileNumber_name {n : Int} (h : 0 ≤ n) (hmax : n ≤ maxLong) :
    msgFileNumber (msgFileName n) = some n := by
  obtain ⟨c, t, hct⟩ : ∃ c t, decimal n = c :: t := List.exists_cons_of_ne_nil fun hnil => by
    cases n with
    | ofNat n => exact Nat.toDigits_ne_nil hnil
    | negSucc n => cases hnil
  have hdigit : c.isDigit = true := mem_decimal_of_nonneg h (by rw [hct]; exact List.mem_cons_self)
  have hhead : (msgFileName n).head? ≠ some '.' := by
    unfold msgFileName
    rw [hct]
    intro hdot
    cases hdot
    revert hdigit
    decide
  have hstrtol : strtol (msgFileName n) = (n, ".msg".toList) := strtol_decimal n (noDigit_cons.mpr rfl)
  unfold msgFileNumber
  rw [if_neg hhead, hstrtol]
  dsimp only
  rw [if_neg, if_pos (Or.inl rfl)]
  rintro (hsame | hlarge | hsmall)
  · have hlen := congrArg List.length hsame
    unfold msgFileName at hlen
    rw [hct, List.length_append, List.length_cons] at hlen
    omega
  · omega
  · unfold maxLong at hsmall
    omega

theorem le_maxLong_of_msgFileNumber {name : CString} {n : Int} (h : msgFileNumber name = some n) :
    n ≤ maxLong := by
  unfold msgFileNumber at h
  split at h
  · cases h
  · dsimp only at h
    split at h
    · cases h
    · rename_i hrange
      split at h
      · cases h
        omega
      · cases h

/-- The largest number, from any start of the count. -/
theorem foldl_maxMsgNumber (names : List CString) (start : Int) :
    start ≤ names.foldl countMsgFile start ∧
      (∀ name ∈ names, ∀ n ∈ msgFileNumber name, n ≤ names.foldl countMsgFile start) ∧
      (names.foldl countMsgFile start = start ∨
        ∃ name ∈ names, msgFileNumber name = some (names.foldl countMsgFile start)) := by
  induction names generalizing start with
  | nil => simp
  | cons name names ih =>
    rw [List.foldl_cons]
    cases hname : msgFileNumber name with
    | none =>
      rw [show countMsgFile start name = start by rw [countMsgFile, hname]]
      obtain ⟨hle, hall, hsome⟩ := ih start
      refine ⟨hle, ?_, ?_⟩
      · intro other hother n hn
        rcases List.mem_cons.mp hother with rfl | hother
        · rw [hname] at hn
          cases hn
        · exact hall other hother n hn
      · rcases hsome with h | ⟨other, hother, h⟩
        · exact Or.inl h
        · exact Or.inr ⟨other, List.mem_cons_of_mem _ hother, h⟩
    | some k =>
      rw [show countMsgFile start name = if start < k then k else start by rw [countMsgFile, hname]]
      obtain ⟨hle, hall, hsome⟩ := ih (if start < k then k else start)
      have hstart : start ≤ (if start < k then k else start) ∧ k ≤ (if start < k then k else start) := by
        split <;> omega
      refine ⟨Int.le_trans hstart.1 hle, ?_, ?_⟩
      · intro other hother n hn
        rcases List.mem_cons.mp hother with rfl | hother
        · rw [hname] at hn
          cases hn
          exact Int.le_trans hstart.2 hle
        · exact hall other hother n hn
      · rcases hsome with h | ⟨other, hother, h⟩
        · by_cases hk : start < k
          · rw [if_pos hk] at h ⊢
            exact Or.inr ⟨name, List.mem_cons_self, hname.trans (congrArg some h.symm)⟩
          · rw [if_neg hk] at h ⊢
            exact Or.inl h
        · exact Or.inr ⟨other, List.mem_cons_of_mem _ hother, h⟩

/-- The name that is chosen is new. -/
theorem nextMsgPath_fresh {spooldir path : CString} {names : List CString} {n : Int}
    (h : nextMsgPath spooldir (some names) = some (path, n)) :
    path = spooldir ++ '/' :: msgFileName n ∧ msgFileName n ∉ names ∧ 2 ≤ n ∧ n ≤ maxLong := by
  obtain ⟨hle, hall, hsome⟩ := foldl_maxMsgNumber names 1
  change 1 ≤ maxMsgNumber names at hle
  change ∀ name ∈ names, ∀ n ∈ msgFileNumber name, n ≤ maxMsgNumber names at hall
  change maxMsgNumber names = 1 ∨ ∃ name ∈ names, msgFileNumber name = some (maxMsgNumber names) at hsome
  unfold nextMsgPath at h
  split at h
  · cases h
  · change (if maxMsgNumber names = maxLong then none else _) = _ at h
    split at h
    · cases h
    · rename_i hne
      split at h
      · cases h
      · cases h
        have hmax : maxMsgNumber names + 1 ≤ maxLong := by
          rcases hsome with h1 | ⟨name, hname, hnum⟩
          · rw [h1]
            decide
          · have hn := le_maxLong_of_msgFileNumber hnum
            omega
        refine ⟨rfl, fun hmem => ?_, by omega, hmax⟩
        have hn := hall _ hmem _ (msgFileNumber_name (by omega) hmax)
        omega

end SklaffKom
