import SklaffKom.UserFile
import SklaffKom.Lib.Strtol

/-!
# Changing a name

`set_sklaff_user_name` replaces the line of a user if there is just one.  Its numbers are read by
`strtol` and `strtoll`, which go on to the next lines where a line, or the rest of it, is blank.
-/

open CString

namespace SklaffKom

def newUserLine (uid session : Int) (name : CString) : CString :=
  stringifyUserStruct ⟨uid, session, name⟩

/-- `target` is the only line of the user. -/
structure OnlyLine (uid : Int) (lines front : List CString) (target : CString)
    (suffix : List CString) : Prop where
  eq : lines = front ++ target :: suffix
  isLine : isLineOfUser uid target = true
  others : ∀ l ∈ front ++ suffix, isLineOfUser uid l = false

/-- Either the only line of the user has the old time and the new name, `get_user_entry` reads them
back, and all other bytes are the same, or there is a reason to leave the file as it is. -/
def AllOrNothing (uid : Int) (name buf : CString) : Option CString → Prop
  | some buf' => ∃ front target suffix session, OnlyLine uid (getlines buf) front target suffix ∧
      sessionOfLine target = some session ∧ buf = front.flatten ++ target ++ suffix.flatten ∧
      buf' = front.flatten ++ newUserLine uid session name ++ suffix.flatten ∧
      getUserEntry (newUserLine uid session name ++ suffix.flatten) =
        .entry ⟨uid, session, rtrim name⟩ suffix.flatten
  | none => uid ≤ 0 ∨ realnameValid name = false ∨ (getlines buf).countP (isLineOfUser uid) ≠ 1 ∨
      ∃ target ∈ getlines buf, isLineOfUser uid target = true ∧ sessionOfLine target = none

/-- The last of the lines is blank. -/
def BlankLast (front : List CString) : Prop := ∃ l ∈ front.getLast?, l.all isSpace = true

/-- The condition on the only line of the user: a good line does not follow a blank one, and where its
time is missing, the next lines give none. -/
def OneLineFits (uid : Int) (buf : CString) : Prop :=
  ∀ front target suffix, OnlyLine uid (getlines buf) front target suffix →
    if (sessionOfLine target).isSome then ¬ BlankLast front
    else BlankLast front ∨ sessionOfLine (target ++ suffix.flatten) = none

/-! ## Lines -/

/-- Every line but the last ends with a newline, and has no other. -/
def AreLines : List CString → Prop
  | [] => True
  | l :: ls => ((∃ x, '\n' ∉ x ∧ l = x ++ ['\n']) ∨ ls = [] ∧ '\n' ∉ l) ∧ AreLines ls

theorem areLines_getlines (s : CString) : AreLines (getlines s) := by
  induction s with
  | nil => trivial
  | cons c s ih =>
    rw [getlines]
    split
    · exact ⟨Or.inl ⟨[], List.not_mem_nil, rfl⟩, ih⟩
    · rename_i hc
      have hc' : ∀ x : CString, '\n' ∉ x → '\n' ∉ c :: x := by
        intro x hx hn
        rcases List.mem_cons.mp hn with hn | hn
        · exact hc hn.symm
        · exact hx hn
      split
      · exact ⟨Or.inr ⟨rfl, hc' [] List.not_mem_nil⟩, trivial⟩
      · rename_i l ls hls
        rw [hls] at ih
        refine ⟨?_, ih.2⟩
        rcases ih.1 with ⟨x, hx, rfl⟩ | ⟨hnil, hl⟩
        · exact Or.inl ⟨c :: x, hc' x hx, rfl⟩
        · exact Or.inr ⟨hnil, hc' l hl⟩

/-! ## Numbers at the beginning of a line -/

section Numbers

variable {uid : Int} {s t tail l : CString} {ls : List CString}

/-- What a number test of `set_sklaff_user_name` accepts: a number in range and a colon. -/
def colonNumber : Option (Int × CString) → Option Int
  | some (n, r) =>
    if (-(longMax : Int) ≤ n ∧ n < longMax) ∧ r.head? = some ':' then some n else none
  | none => none

/-- The rest of a file behind a part of a line. -/
def LineRest (tail : CString) : Prop := tail = [] ∨ ∃ t, tail = '\n' :: t

theorem LineRest.stops (h : LineRest tail) : Stops tail := by
  rcases h with rfl | ⟨t, rfl⟩
  · exact stops_nil
  · exact stops_newline t

theorem colonNumber_append (h : LineRest tail) (r : Option (Int × CString)) :
    colonNumber (r.map fun r => (r.1, r.2 ++ tail)) = colonNumber r := by
  cases r with
  | none => rfl
  | some r =>
    obtain ⟨n, r⟩ := r
    have hhead : (r ++ tail).head? = some ':' ↔ r.head? = some ':' := by
      cases r with
      | nil =>
        rw [List.nil_append]
        rcases h with rfl | ⟨t, rfl⟩
        · rfl
        · exact iff_of_false (by simp) (by simp)
      | cons c r => rfl
    simp only [Option.map_some, colonNumber, hhead]

/-- The tests in the words of the scan: the rest is shorter where a number is found. -/
theorem strtollChecked_scan {n : Int} {r : CString} (h : scanSigned (s.dropWhile isSpace) = some (n, r)) :
    strtollChecked s = (if -(longMax : Int) ≤ n ∧ n < longMax then some n else none, r) ∧ r ≠ s := by
  constructor
  · rw [strtollChecked, strtol_eq, h]
    rfl
  · rintro rfl
    have h1 := scanSigned_length h
    have h2 := (List.dropWhile_suffix (l := r) isSpace).length_le
    omega

theorem strtollChecked_none (h : scanSigned (s.dropWhile isSpace) = none) : (strtollChecked s).2 = s := by
  rw [strtollChecked, strtol_eq, h]
  rfl

theorem isLineOfUser_eq (uid : Int) (s : CString) :
    isLineOfUser uid s = decide (colonNumber (scanSigned (s.dropWhile isSpace)) = some uid) := by
  cases h : scanSigned (s.dropWhile isSpace) with
  | none =>
    have hrest := strtollChecked_none h
    rw [isLineOfUser]
    simp [hrest, colonNumber]
  | some r =>
    obtain ⟨n, r⟩ := r
    obtain ⟨heq, hne⟩ := strtollChecked_scan h
    rw [isLineOfUser, heq, colonNumber]
    by_cases hrange : -(longMax : Int) ≤ n ∧ n < longMax
    · by_cases hhead : r.head? = some ':'
      · simp [hrange, hhead, hne]
      · simp [hhead]
    · simp [hrange]

theorem isLineOfUser_append (hs : s.all isSpace = false) (h : LineRest tail) (uid : Int) :
    isLineOfUser uid (s ++ tail) = isLineOfUser uid s := by
  rw [isLineOfUser_eq, isLineOfUser_eq, dropWhile_line hs, scanSigned_append h.stops,
    colonNumber_append h]

theorem isLineOfUser_blank (hs : s.all isSpace = true) (uid : Int) (t : CString) :
    isLineOfUser uid (s ++ t) = isLineOfUser uid t := by
  rw [isLineOfUser_eq, isLineOfUser_eq, dropWhile_blank hs]

/-- A blank line is no line of a user. -/
theorem not_isLineOfUser_blank (hs : s.all isSpace = true) (uid : Int) : isLineOfUser uid s = false := by
  have h := isLineOfUser_blank hs uid []
  have hnil : isLineOfUser uid [] = false := by
    rw [isLineOfUser_eq]
    exact decide_eq_false nofun
  rw [List.append_nil] at h
  rw [h, hnil]

/-- A line is read through only if it is blank. -/
theorem isLineOfUser_line (h : AreLines (l :: ls)) (uid : Int) :
    isLineOfUser uid (l ++ ls.flatten) =
      if l.all isSpace then isLineOfUser uid ls.flatten else isLineOfUser uid l := by
  split
  · rename_i hl
    exact isLineOfUser_blank hl uid _
  · rename_i hl
    rcases h.1 with ⟨x, -, rfl⟩ | ⟨rfl, -⟩
    · have hx : x.all isSpace = false := by
        rw [List.all_append, Bool.and_eq_true, not_and_or, Bool.not_eq_true] at hl
        exact hl.resolve_right (by decide)
      rw [List.append_assoc, List.singleton_append, isLineOfUser_append hx (Or.inr ⟨_, rfl⟩),
        isLineOfUser_append hx (Or.inr ⟨_, rfl⟩)]
    · rw [List.flatten_nil, List.append_nil]

/-- The time of a line whose number has been read. -/
theorem sessionOfLine_eq {n : Int} (h : scanSigned (s.dropWhile isSpace) = some (n, ':' :: t)) :
    sessionOfLine s = colonNumber (scanSigned (t.dropWhile isSpace)) := by
  have hs : (strtol s).2.tail = t := by
    rw [strtol_eq, h]
    rfl
  unfold sessionOfLine
  rw [hs]
  dsimp only
  cases ht : scanSigned (t.dropWhile isSpace) with
  | none =>
    have hrest := strtollChecked_none ht
    cases hck : strtollChecked t with
    | mk k r =>
      rw [hck] at hrest
      cases k with
      | none => rfl
      | some k => exact if_neg fun hne : r ≠ t ∧ _ => hne.1 hrest
  | some r =>
    obtain ⟨k, r⟩ := r
    obtain ⟨heq, hne⟩ := strtollChecked_scan ht
    rw [heq, colonNumber]
    by_cases hrange : -(longMax : Int) ≤ k ∧ k < longMax
    · simp [hrange, hne]
    · simp [hrange]

theorem colonNumber_some {r : Option (Int × CString)} {n : Int} (h : colonNumber r = some n) :
    (-(longMax : Int) ≤ n ∧ n < longMax) ∧ ∃ t, r = some (n, ':' :: t) := by
  cases r with
  | none => cases h
  | some r =>
    obtain ⟨k, r⟩ := r
    rw [colonNumber] at h
    split at h
    · rename_i hk
      cases h
      obtain ⟨t, ht⟩ := List.head?_eq_some_iff.mp hk.2
      exact ⟨hk.1, t, by rw [ht]⟩
    · cases h

/-- A line of the user is found, whatever follows it. -/
theorem isLineOfUser_flatten (h : AreLines (l :: ls)) (hl : isLineOfUser uid l = true) :
    isLineOfUser uid (l ++ ls.flatten) = true := by
  have hblank : ¬ l.all isSpace = true := by
    intro hblank
    rw [not_isLineOfUser_blank hblank] at hl
    cases hl
  rw [isLineOfUser_line h, if_neg hblank, hl]

/-- A good time is read from the line alone. -/
theorem sessionOfLine_line {session : Int} (h : AreLines (l :: ls)) (hl : isLineOfUser uid l = true)
    (hsession : sessionOfLine l = some session) : sessionOfLine (l ++ ls.flatten) = some session := by
  rcases h.1 with ⟨x, -, rfl⟩ | ⟨rfl, -⟩
  · have hx : x.all isSpace = false := by
      rw [← Bool.not_eq_true]
      intro hx
      have hblank : (x ++ ['\n']).all isSpace = true := by
        rw [List.all_append, hx]
        rfl
      rw [not_isLineOfUser_blank hblank] at hl
      cases hl
    -- the number of the user, and the rest `y` of the line behind it
    rw [isLineOfUser_append hx (Or.inr ⟨[], rfl⟩), isLineOfUser_eq, decide_eq_true_eq] at hl
    obtain ⟨-, y, hy⟩ := colonNumber_some hl
    have hscan : ∀ t, scanSigned ((x ++ '\n' :: t).dropWhile isSpace) =
        some (uid, ':' :: (y ++ '\n' :: t)) := by
      intro t
      rw [dropWhile_line hx, scanSigned_append (stops_newline t), hy]
      rfl
    rw [sessionOfLine_eq (hscan [])] at hsession
    have hyne : y.all isSpace = false := by
      rw [← Bool.not_eq_true]
      intro hyb
      rw [dropWhile_blank hyb] at hsession
      cases hsession
    rw [List.append_assoc, List.singleton_append, sessionOfLine_eq (hscan _)]
    rw [dropWhile_line hyne, scanSigned_append (stops_newline _),
      colonNumber_append (Or.inr ⟨_, rfl⟩)] at hsession ⊢
    exact hsession
  · rw [List.flatten_nil, List.append_nil]
    exact hsession

theorem sessionOfLine_bounds {session : Int} (hl : isLineOfUser uid l = true)
    (hsession : sessionOfLine l = some session) :
    (-(longMax : Int) ≤ uid ∧ uid < longMax) ∧ -(longMax : Int) ≤ session ∧ session < longMax := by
  rw [isLineOfUser_eq, decide_eq_true_eq] at hl
  obtain ⟨huid, y, hy⟩ := colonNumber_some hl
  rw [sessionOfLine_eq hy] at hsession
  exact ⟨huid, (colonNumber_some hsession).1⟩

end Numbers

/-! ## The line of the user -/

section Search

variable {uid : Int} {ls front suffix : List CString} {l target : CString}

theorem AreLines.behind (h : AreLines (front ++ ls)) : AreLines ls := by
  induction front with
  | nil => exact h
  | cons l front ih => exact ih h.2

theorem lineOfUser_none (h : AreLines ls) (hls : ∀ l ∈ ls, isLineOfUser uid l = false) :
    isLineOfUser uid ls.flatten = false ∧ lineOfUser uid ls = none := by
  induction ls with
  | nil => exact ⟨not_isLineOfUser_blank rfl uid, rfl⟩
  | cons l ls ih =>
    obtain ⟨hl, hls⟩ := List.forall_mem_cons.mp hls
    have ih := ih h.2 hls
    have hfirst : isLineOfUser uid (l ++ ls.flatten) = false := by
      rw [isLineOfUser_line h, hl, ih.1, ite_self]
    rw [List.flatten_cons, lineOfUser, hfirst, ih.2]
    exact ⟨rfl, rfl⟩

theorem lineOfUser_isSome (h : AreLines ls) (hl : l ∈ ls) (huser : isLineOfUser uid l = true) :
    (lineOfUser uid ls).isSome = true := by
  induction ls with
  | nil => cases hl
  | cons x ls ih =>
    rw [lineOfUser]
    split
    · rfl
    · rename_i hx
      rw [Option.isSome_map]
      apply ih h.2
      apply List.mem_of_ne_of_mem _ hl
      rintro rfl
      exact hx (isLineOfUser_flatten h huser)

/-- The test finds the line, and no line of the user is before it. -/
theorem lineOfUser_some (h : AreLines ls) (hfind : lineOfUser uid ls = some (front, target, suffix)) :
    ls = front ++ target :: suffix ∧ (∀ l ∈ front, isLineOfUser uid l = false) ∧
      isLineOfUser uid (target ++ suffix.flatten) = true := by
  induction ls generalizing front with
  | nil => cases hfind
  | cons x ls ih =>
    rw [lineOfUser] at hfind
    split at hfind
    · rename_i hx
      cases hfind
      exact ⟨rfl, List.forall_mem_nil _, hx⟩
    · rename_i hx
      obtain ⟨⟨front, target, suffix⟩, hrest, heq⟩ := Option.map_eq_some_iff.mp hfind
      cases heq
      obtain ⟨rfl, hfront, htarget⟩ := ih h.2 hrest
      have huser : isLineOfUser uid x = false :=
        Bool.eq_false_iff.mpr fun huser => hx (isLineOfUser_flatten h huser)
      exact ⟨rfl, List.forall_mem_cons.mpr ⟨huser, hfront⟩, htarget⟩

theorem blankLast_cons (hne : front ≠ []) : BlankLast (l :: front) ↔ BlankLast front := by
  cases front with
  | nil => exact absurd rfl hne
  | cons x front => rw [BlankLast, BlankLast, List.getLast?_cons_cons]

/-- Lines of others hide what follows, if the last of them is not blank. -/
theorem front_hides (h : AreLines (front ++ ls)) (hne : front ≠ []) (hblank : ¬ BlankLast front)
    (hfront : ∀ l ∈ front, isLineOfUser uid l = false) :
    isLineOfUser uid (front ++ ls).flatten = false := by
  induction front with
  | nil => exact absurd rfl hne
  | cons l front ih =>
    obtain ⟨hl, hfront⟩ := List.forall_mem_cons.mp hfront
    rw [List.cons_append] at h
    rw [List.cons_append, List.flatten_cons, isLineOfUser_line h, hl]
    split
    · rename_i hspace
      have hmore : front ≠ [] := by
        rintro rfl
        exact hblank ⟨l, rfl, hspace⟩
      exact ih h.2 hmore (fun hb => hblank ((blankLast_cons hmore).mpr hb)) hfront
    · rfl

/-- Behind a line that is not blank the only line of the user is found, once. -/
theorem OnlyLine.found (h : OnlyLine uid ls front target suffix) (hls : AreLines ls)
    (hblank : ¬ BlankLast front) :
    lineOfUser uid ls = some (front, target, suffix) ∧ lineOfUser uid suffix = none := by
  refine ⟨?_, (lineOfUser_none (h.eq ▸ hls).behind.2 fun l hl =>
    h.others l (List.mem_append_right _ hl)).2⟩
  have htarget := isLineOfUser_flatten (h.eq ▸ hls).behind h.isLine
  obtain ⟨rfl, -, hothers⟩ := h
  have hfront : ∀ l ∈ front, isLineOfUser uid l = false := fun l hl =>
    hothers l (List.mem_append_left _ hl)
  clear hothers
  induction front with
  | nil =>
    rw [List.nil_append, lineOfUser, htarget]
    rfl
  | cons l front ih =>
    have hfirst : isLineOfUser uid (l ++ (front ++ target :: suffix).flatten) = false :=
      front_hides hls (List.cons_ne_nil _ _) hblank hfront
    have hrest : ¬ BlankLast front := by
      rintro ⟨x, hx, hspace⟩
      have hne : front ≠ [] := by
        rintro rfl
        cases hx
      exact hblank ((blankLast_cons hne).mpr ⟨x, hx, hspace⟩)
    rw [List.cons_append, lineOfUser, hfirst, ih hrest hls.2 (List.forall_mem_cons.mp hfront).2]
    rfl

/-- Behind a blank line it is found twice: `strtol` reads it from the blank line too. -/
theorem OnlyLine.found_twice (h : OnlyLine uid ls front target suffix) (hls : AreLines ls)
    (hblank : BlankLast front) :
    ∃ front' target' suffix', lineOfUser uid ls = some (front', target', suffix') ∧
      (lineOfUser uid suffix').isSome = true := by
  have htarget := isLineOfUser_flatten (h.eq ▸ hls).behind h.isLine
  obtain ⟨rfl, huser, -⟩ := h
  have hmem : ∀ xs, target ∈ xs ++ target :: suffix := fun xs =>
    List.mem_append_right _ List.mem_cons_self
  induction front with
  | nil =>
    obtain ⟨x, hx, -⟩ := hblank
    cases hx
  | cons l front ih =>
    rw [List.cons_append, lineOfUser]
    by_cases hfirst : isLineOfUser uid (l ++ (front ++ target :: suffix).flatten) = true
    · rw [if_pos hfirst]
      exact ⟨_, _, _, rfl, lineOfUser_isSome hls.2 (hmem front) huser⟩
    · rw [if_neg hfirst]
      have hne : front ≠ [] := by
        rintro rfl
        obtain ⟨x, hx, hspace⟩ := hblank
        cases hx
        apply hfirst
        rw [isLineOfUser_blank (s := l) hspace]
        exact htarget
      obtain ⟨front', target', suffix', hfind, hmore⟩ := ih ((blankLast_cons hne).mp hblank) hls.2
      rw [hfind]
      exact ⟨_, _, _, rfl, hmore⟩

theorem onlyLine_of_count (h : ls.countP (isLineOfUser uid) = 1) :
    ∃ front target suffix, OnlyLine uid ls front target suffix := by
  induction ls with
  | nil => cases h
  | cons l ls ih =>
    by_cases hl : isLineOfUser uid l = true
    · rw [List.countP_cons_of_pos hl, Nat.add_eq_right, List.countP_eq_zero] at h
      exact ⟨[], l, ls, rfl, hl, fun x hx => Bool.eq_false_iff.mpr (h x hx)⟩
    · rw [List.countP_cons_of_neg hl] at h
      obtain ⟨front, target, suffix, rfl, htarget, hothers⟩ := ih h
      exact ⟨l :: front, target, suffix, rfl, htarget,
        List.forall_mem_cons.mpr ⟨Bool.eq_false_iff.mpr hl, hothers⟩⟩

theorem OnlyLine.count (h : OnlyLine uid ls front target suffix) :
    ls.countP (isLineOfUser uid) = 1 := by
  obtain ⟨rfl, htarget, hothers⟩ := h
  have hzero : ∀ xs : List CString, (∀ x ∈ xs, x ∈ front ++ suffix) →
      xs.countP (isLineOfUser uid) = 0 := by
    intro xs hxs
    rw [List.countP_eq_zero]
    intro x hx
    rw [hothers x (hxs x hx)]
    decide
  rw [List.countP_append, List.countP_cons_of_pos htarget,
    hzero front fun _ hx => List.mem_append_left _ hx,
    hzero suffix fun _ hx => List.mem_append_right _ hx]

/-- There is one such line at most. -/
theorem OnlyLine.unique {front' suffix' : List CString} {target' : CString}
    (h : OnlyLine uid ls front target suffix) (h' : OnlyLine uid ls front' target' suffix') :
    front' = front ∧ target' = target ∧ suffix' = suffix := by
  obtain ⟨rfl, htarget, hothers⟩ := h
  obtain ⟨heq, htarget', hothers'⟩ := h'
  induction front generalizing front' with
  | nil =>
    cases front' with
    | nil =>
      cases heq
      exact ⟨rfl, rfl, rfl⟩
    | cons l front' =>
      cases heq
      rw [hothers' target List.mem_cons_self] at htarget
      cases htarget
  | cons l front ih =>
    cases front' with
    | nil =>
      cases heq
      rw [hothers _ List.mem_cons_self] at htarget'
      cases htarget'
    | cons l' front' =>
      obtain ⟨rfl, hrest⟩ := List.cons.inj heq
      obtain ⟨rfl, rfl, rfl⟩ := ih (fun x hx => hothers x (List.mem_cons_of_mem _ hx)) hrest
        fun x hx => hothers' x (List.mem_cons_of_mem _ hx)
      exact ⟨rfl, rfl, rfl⟩

end Search

/-! ## The new line -/

section NewLine

variable {uid session : Int} {name buf target : CString} {front suffix : List CString}

/-- `get_user_entry` reads the new line back. -/
theorem getUserEntry_newUserLine (hname : realnameValid name = true) (rest : CString) :
    getUserEntry (newUserLine uid session name ++ rest) = .entry ⟨uid, session, rtrim name⟩ rest := by
  have hline := getUserEntry_line (e := ⟨uid, session, name⟩) (oneLine_realname hname).1 rest
  rw [newUserLine, stringifyUserStruct_eq, List.append_assoc]
  exact hline

/-- The name is changed where the line is found once and a time is read. -/
theorem setSklaffUserName_eq (huid : 0 < uid) (hname : realnameValid name = true)
    (h : OnlyLine uid (getlines buf) front target suffix) (hblank : ¬ BlankLast front) :
    setSklaffUserName uid name buf = (sessionOfLine (target ++ suffix.flatten)).map fun session =>
      front.flatten ++ newUserLine uid session name ++ suffix.flatten := by
  have hlines := areLines_getlines buf
  obtain ⟨hfind, hmore⟩ := h.found hlines hblank
  rw [h.eq] at hlines
  unfold setSklaffUserName
  rw [if_neg (by simp [hname, huid]), hfind]
  dsimp only
  cases hsession : sessionOfLine (target ++ suffix.flatten) with
  | none => rfl
  | some session =>
    have hbounds := sessionOfLine_bounds (isLineOfUser_flatten hlines.behind h.isLine) hsession
    have hlen : (stringifyUserStruct ⟨uid, session, name⟩).length < 512 :=
      length_stringifyUserStruct hbounds.1 hbounds.2 (oneLine_realname hname).2
    dsimp only
    rw [hmore, if_neg (by decide), if_neg (Nat.not_le.mpr hlen)]
    rfl

/-- A line that is found twice stays. -/
theorem setSklaffUserName_twice
    (hfind : lineOfUser uid (getlines buf) = some (front, target, suffix))
    (hmore : (lineOfUser uid suffix).isSome = true) : setSklaffUserName uid name buf = none := by
  unfold setSklaffUserName
  rw [hfind]
  split
  · rfl
  · dsimp only
    cases sessionOfLine (target ++ suffix.flatten) with
    | none => rfl
    | some session => exact if_pos hmore

/-- Without a line of the user, or with several, the file stays. -/
theorem setSklaffUserName_count (h : (getlines buf).countP (isLineOfUser uid) ≠ 1) :
    setSklaffUserName uid name buf = none := by
  have hlines := areLines_getlines buf
  cases hfind : lineOfUser uid (getlines buf) with
  | none =>
    unfold setSklaffUserName
    rw [hfind, ite_self]
  | some r =>
    obtain ⟨front, target, suffix⟩ := r
    obtain ⟨hsplit, hfront, htarget⟩ := lineOfUser_some hlines hfind
    rw [hsplit] at hlines
    apply setSklaffUserName_twice hfind
    by_contra hmore
    have hsuffix : ∀ l ∈ suffix, isLineOfUser uid l = false := fun l hl =>
      Bool.eq_false_iff.mpr fun huser => hmore (lineOfUser_isSome hlines.behind.2 hl huser)
    rw [isLineOfUser_line hlines.behind, (lineOfUser_none hlines.behind.2 hsuffix).1] at htarget
    split at htarget
    · cases htarget
    · apply h
      apply OnlyLine.count ⟨hsplit, htarget, _⟩
      intro l hl
      exact (List.mem_append.mp hl).elim (hfront l) (hsuffix l)

theorem oneLineFits_iff (h : OnlyLine uid (getlines buf) front target suffix) :
    OneLineFits uid buf ↔ if (sessionOfLine target).isSome then ¬ BlankLast front
      else BlankLast front ∨ sessionOfLine (target ++ suffix.flatten) = none := by
  refine ⟨fun hfits => hfits front target suffix h, fun hfits front' target' suffix' h' => ?_⟩
  obtain ⟨rfl, rfl, rfl⟩ := h.unique h'
  exact hfits

/-- The file stays for a reason where the time of the line is no good. -/
theorem allOrNothing_none_iff (huid : 0 < uid) (hname : realnameValid name = true)
    (h : OnlyLine uid (getlines buf) front target suffix) :
    AllOrNothing uid name buf none ↔ sessionOfLine target = none := by
  have hmem : target ∈ getlines buf := by
    rw [h.eq]
    exact List.mem_append_right _ List.mem_cons_self
  constructor
  · rintro (hle | hbad | hcount | ⟨l, hl, huser, hsession⟩)
    · omega
    · rw [hname] at hbad
      cases hbad
    · exact absurd h.count hcount
    · have heq : l = target := by
        rw [h.eq, List.mem_append, List.mem_cons] at hl
        by_contra hne
        rw [h.others l (List.mem_append.mpr (hl.imp_right fun hl => hl.resolve_left hne))] at huser
        cases huser
      rw [← heq]
      exact hsession
  · exact fun hsession => Or.inr (Or.inr (Or.inr ⟨target, hmem, h.isLine, hsession⟩))

end NewLine

/-- Changing a real name is all or nothing, just where the only line of the user fits: `strtol` skips
newlines as well. -/
theorem setSklaffUserName_allOrNothing_iff (uid : Int) (name buf : CString) :
    AllOrNothing uid name buf (setSklaffUserName uid name buf) ↔
      (0 < uid → realnameValid name = true → OneLineFits uid buf) := by
  by_cases hvalid : 0 < uid ∧ realnameValid name = true
  · obtain ⟨huid, hname⟩ := hvalid
    have hcond : (0 < uid → realnameValid name = true → OneLineFits uid buf) ↔ OneLineFits uid buf :=
      ⟨fun hfits => hfits huid hname, fun hfits _ _ => hfits⟩
    rw [hcond]
    by_cases hcount : (getlines buf).countP (isLineOfUser uid) = 1
    · obtain ⟨front, target, suffix, h⟩ := onlyLine_of_count hcount
      have hlines := areLines_getlines buf
      rw [oneLineFits_iff h]
      by_cases hblank : BlankLast front
      · obtain ⟨front', target', suffix', hfind, hmore⟩ := h.found_twice hlines hblank
        rw [setSklaffUserName_twice hfind hmore, allOrNothing_none_iff huid hname h]
        cases sessionOfLine target with
        | none => simp [hblank]
        | some session => simp [hblank]
      · rw [setSklaffUserName_eq huid hname h hblank]
        rw [h.eq] at hlines
        cases hsession : sessionOfLine target with
        | some session =>
          rw [sessionOfLine_line hlines.behind h.isLine hsession]
          apply iff_of_true _ hblank
          have hbuf : buf = front.flatten ++ target ++ suffix.flatten := by
            rw [← flatten_getlines buf, h.eq, List.flatten_append, List.flatten_cons,
              List.append_assoc]
          exact ⟨front, target, suffix, session, h, hsession, hbuf, rfl,
            getUserEntry_newUserLine hname _⟩
        | none =>
          cases hrest : sessionOfLine (target ++ suffix.flatten) with
          | none =>
            apply iff_of_true _ (Or.inr rfl)
            exact (allOrNothing_none_iff huid hname h).mpr hsession
          | some session =>
            -- the time of another line
            apply iff_of_false
            · rintro ⟨front', target', suffix', session', h', hsession', -⟩
              obtain ⟨rfl, rfl, rfl⟩ := h.unique h'
              rw [hsession] at hsession'
              cases hsession'
            · simp [hblank]
    · rw [setSklaffUserName_count hcount]
      apply iff_of_true
      · exact Or.inr (Or.inr (Or.inl hcount))
      · exact fun front target suffix h => absurd h.count hcount
  · rw [not_and_or, Int.not_lt, Bool.not_eq_true] at hvalid
    have hstays : setSklaffUserName uid name buf = none := if_pos hvalid
    rw [hstays]
    apply iff_of_true
    · exact hvalid.imp_right Or.inl
    · intro huid hname
      rw [hname] at hvalid
      exact absurd (hvalid.resolve_right (by decide)) (by omega)

/-- A name, and user files of one line: of root, behind a blank line, and without a time. -/
def anna : CString := "Anna".toList

def rootFile : CString := "0:7:Root\n".toList

def gapFile : CString := "\n5:7:Ann\n".toList

def noTimeFile : CString := "5:\n8:9:Bo\n".toList

/-- The name of root is kept with no reason of the file's.  So is a name behind a blank line, and
a line without a time takes the number of the next user. -/
theorem setSklaffUserName_root_kept :
    (setSklaffUserName 0 anna rootFile = none ∧ realnameValid anna = true ∧
      getlines rootFile = [rootFile] ∧ isLineOfUser 0 rootFile = true ∧
      sessionOfLine rootFile = some 7) ∧
    (setSklaffUserName 5 anna gapFile = none ∧
      (getlines gapFile).map (isLineOfUser 5) = [false, true] ∧
      (getlines gapFile).map sessionOfLine = [none, some 7]) ∧
    (setSklaffUserName 5 anna noTimeFile = some "5:8:Anna\n8:9:Bo\n".toList ∧
      (getlines noTimeFile).map (isLineOfUser 5) = [true, false] ∧
      (getlines noTimeFile).map sessionOfLine = [none, some 9]) := by
  decide +kernel

end SklaffKom
