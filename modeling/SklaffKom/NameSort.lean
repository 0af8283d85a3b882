import SklaffKom.UserFile

/-!
# Sorting users

`sort_user` puts the last word of each name first, maps the national characters to the order of the
alphabet, sorts, and puts the names back.  A last word that begins with a parenthesis stays with the
word before it.
-/

open CString

namespace SklaffKom

def orderName (instr : CString) : CString :=
  match cutAt ' ' instr with
  | none => instr
  | some (first, rest) =>
    if rest.head? = some '(' then
      match cutAt ' ' rest with
      | none => instr
      | some (second, rest) => rest ++ ' ' :: (first ++ ' ' :: second)
    else rest ++ ' ' :: first

def reorderName (instr : CString) : CString :=
  match cutLastAt ' ' instr with
  | none => instr
  | some (before, last) =>
    if last.head? = some '(' then
      match cutLastAt ' ' before with
      | none => instr
      | some (before, last') => (last' ++ ' ' :: last) ++ ' ' :: before
    else last ++ ' ' :: before

def fakeChar (c : Char) : Char :=
  if c = '}' then '{' else if c = '{' then '|' else if c = '|' then '}'
  else if c = ']' then '[' else if c = '[' then '\\' else if c = '\\' then ']' else c

def realChar (c : Char) : Char :=
  if c = '{' then '}' else if c = '|' then '{' else if c = '}' then '|'
  else if c = '[' then ']' else if c = '\\' then '[' else if c = ']' then '\\' else c

def fakeString (s : CString) : CString := s.map fakeChar

def realString (s : CString) : CString := s.map realChar

/-- `sort_user`, with what `qsort` does to the array. -/
def sortUser (qsort : List CString → List CString) (names : List CString) : List CString :=
  (qsort (names.map fun name => fakeString (reorderName name))).map fun name => realString (orderName name)

/-! ## The characters -/

theorem realChar_fakeChar (c : Char) : realChar (fakeChar c) = c := by
  unfold fakeChar
  split_ifs <;> simp_all [realChar]

theorem fakeChar_eq_iff {c d : Char} (hd : d = ' ' ∨ d = '(') : fakeChar c = d ↔ c = d := by
  rcases hd with rfl | rfl
  · unfold fakeChar
    split_ifs <;> simp_all
  · unfold fakeChar
    split_ifs <;> simp_all

theorem realString_fakeString (s : CString) : realString (fakeString s) = s := by
  unfold realString fakeString
  rw [List.map_map]
  have hid : realChar ∘ fakeChar = id := by
    funext c
    exact realChar_fakeChar c
  rw [hid, List.map_id]

theorem mem_fakeString {s : CString} {d : Char} (hd : d = ' ' ∨ d = '(') : d ∈ fakeString s ↔ d ∈ s := by
  unfold fakeString
  rw [List.mem_map]
  constructor
  · intro ⟨c, hc, heq⟩
    rwa [(fakeChar_eq_iff hd).mp heq] at hc
  · exact fun h => ⟨d, h, (fakeChar_eq_iff hd).mpr rfl⟩

theorem head_fakeString (s : CString) : (fakeString s).head? = some '(' ↔ s.head? = some '(' := by
  cases s with
  | nil => rfl
  | cons c s => simp [fakeString, fakeChar_eq_iff]

theorem fakeString_append (a b : CString) :
    fakeString (a ++ ' ' :: b) = fakeString a ++ ' ' :: fakeString b := by
  unfold fakeString
  rw [List.map_append, List.map_cons, (fakeChar_eq_iff (Or.inl rfl)).mpr rfl]

/-! ## The words -/

/-- The maps of the characters do not change where names are cut. -/
theorem orderName_fakeString (s : CString) : orderName (fakeString s) = fakeString (orderName s) := by
  by_cases hs : ' ' ∈ s
  · obtain ⟨a, b, rfl, ha⟩ := List.eq_append_cons_of_mem hs
    have ha' : ' ' ∉ fakeString a := mt (mem_fakeString (Or.inl rfl)).mp ha
    unfold orderName
    rw [fakeString_append, cutAt_append ha', cutAt_append ha]
    dsimp only
    by_cases hb : b.head? = some '('
    · rw [if_pos ((head_fakeString b).mpr hb), if_pos hb]
      by_cases hb' : ' ' ∈ b
      · obtain ⟨c, d, rfl, hc⟩ := List.eq_append_cons_of_mem hb'
        have hc' : ' ' ∉ fakeString c := mt (mem_fakeString (Or.inl rfl)).mp hc
        rw [fakeString_append, cutAt_append hc', cutAt_append hc]
        simp only [fakeString_append]
      · rw [cutAt_none (mt (mem_fakeString (Or.inl rfl)).mp hb'), cutAt_none hb', fakeString_append]
    · rw [if_neg (mt (head_fakeString b).mp hb), if_neg hb, fakeString_append]
  · have hs' : ' ' ∉ fakeString s := mt (mem_fakeString (Or.inl rfl)).mp hs
    unfold orderName
    rw [cutAt_none hs', cutAt_none hs]

/-! ## Putting back -/

def lastWord (name : CString) : CString := (cutLastAt ' ' name).elim name (·.2)

/-- A name that begins with a parenthesis ends with a word that does. -/
def KeepsOrder (name : CString) : Prop := name.head? = some '(' → (lastWord name).head? = some '('

instance (name : CString) : Decidable (KeepsOrder name) := inferInstanceAs (Decidable (_ → _))

theorem lastWord_append {b : CString} (h : ' ' ∉ b) (a : CString) : lastWord (a ++ ' ' :: b) = b := by
  unfold lastWord
  rw [cutLastAt_append h]
  rfl

theorem lastWord_single {s : CString} (h : ' ' ∉ s) : lastWord s = s := by
  unfold lastWord
  rw [cutLastAt_none h]
  rfl

/-- A name comes back, or its last word and the words before it change places, and then it ends with a
word in parentheses. -/
theorem orderName_reorderName {name : CString} (hend : name.getLast? ≠ some ' ') :
    (KeepsOrder name ∧ orderName (reorderName name) = name) ∨
      (¬ KeepsOrder name ∧ KeepsOrder (orderName (reorderName name))) := by
  by_cases hname : ' ' ∈ name
  · obtain ⟨a, b, rfl, hb⟩ := exists_last hname
    have hbne : b ≠ [] := by
      intro h
      rw [h] at hend
      simp at hend
    have hkeeps : KeepsOrder (a ++ ' ' :: b) ↔ (a.head? = some '(' → b.head? = some '(') := by
      unfold KeepsOrder
      rw [lastWord_append hb]
      cases a with
      | nil => simp
      | cons c a => rfl
    have hreorder : reorderName (a ++ ' ' :: b) =
        if b.head? = some '(' then
          match cutLastAt ' ' a with
          | none => a ++ ' ' :: b
          | some (before, last') => (last' ++ ' ' :: b) ++ ' ' :: before
        else b ++ ' ' :: a := by
      unfold reorderName
      rw [cutLastAt_append hb]
    rw [hkeeps, hreorder]
    by_cases hpar : b.head? = some '('
    · -- the word before the parenthesis moves along with it
      rw [if_pos hpar]
      refine Or.inl ⟨fun _ => hpar, ?_⟩
      by_cases ha : ' ' ∈ a
      · obtain ⟨p, v, rfl, hv⟩ := exists_last ha
        rw [cutLastAt_append hv]
        dsimp only
        rw [List.append_assoc, List.cons_append]
        unfold orderName
        rw [cutAt_append hv]
        dsimp only
        rw [if_pos, cutAt_append hb]
        · simp
        · rw [List.head?_append_of_ne_nil _ hbne]
          exact hpar
      · rw [cutLastAt_none ha]
        dsimp only
        unfold orderName
        rw [cutAt_append ha]
        dsimp only
        rw [if_pos hpar, cutAt_none hb]
    · rw [if_neg hpar]
      have horder : orderName (b ++ ' ' :: a) =
          if a.head? = some '(' then
            match cutAt ' ' a with
            | none => b ++ ' ' :: a
            | some (second, rest) => rest ++ ' ' :: (b ++ ' ' :: second)
          else a ++ ' ' :: b := by
        unfold orderName
        rw [cutAt_append hb]
      rw [horder]
      by_cases hahead : a.head? = some '('
      · rw [if_pos hahead]
        refine Or.inr ⟨fun h => hpar (h hahead), ?_⟩
        -- the name now ends with the word in parentheses
        by_cases ha : ' ' ∈ a
        · obtain ⟨w, rest, rfl, hw⟩ := List.eq_append_cons_of_mem ha
          rw [cutAt_append hw]
          dsimp only
          intro _
          have hassoc : rest ++ ' ' :: (b ++ ' ' :: w) = (rest ++ ' ' :: b) ++ ' ' :: w := by simp
          rw [hassoc, lastWord_append hw]
          cases w with
          | nil => cases hahead
          | cons c w => exact hahead
        · rw [cutAt_none ha]
          dsimp only
          intro _
          rw [lastWord_append ha]
          exact hahead
      · rw [if_neg hahead]
        exact Or.inl ⟨fun h => absurd h hahead, rfl⟩
  · refine Or.inl ⟨?_, ?_⟩
    · intro h
      rwa [lastWord_single hname]
    · have hsame : reorderName name = name := by
        unfold reorderName
        rw [cutLastAt_none hname]
      rw [hsame]
      unfold orderName
      rw [cutAt_none hname]

/-- What `sort_user` makes of each name. -/
theorem realString_orderName (name : CString) :
    realString (orderName (fakeString (reorderName name))) = orderName (reorderName name) := by
  rw [orderName_fakeString, realString_fakeString]

/-- The users come back as they were, in some order, exactly when every name that begins with a
parenthesis ends with a word that does. -/
theorem sortUser_perm_iff {qsort : List CString → List CString} (hqsort : ∀ l, (qsort l).Perm l)
    {names : List CString} (hend : ∀ name ∈ names, name.getLast? ≠ some ' ') :
    (sortUser qsort names).Perm names ↔ ∀ name ∈ names, KeepsOrder name := by
  have hsorted : (sortUser qsort names).Perm (names.map fun name => orderName (reorderName name)) := by
    have hmap := (hqsort (names.map fun name => fakeString (reorderName name))).map
      fun name => realString (orderName name)
    rw [List.map_map] at hmap
    have hsame : ((fun name => realString (orderName name)) ∘ fun name => fakeString (reorderName name)) =
        fun name => orderName (reorderName name) := funext realString_orderName
    rw [hsame] at hmap
    exact hmap
  constructor
  · intro hperm name hname
    -- every name that comes out keeps its order
    have hmem := (hperm.symm.trans hsorted).mem_iff.mp hname
    obtain ⟨old, hold, rfl⟩ := List.mem_map.mp hmem
    rcases orderName_reorderName (hend old hold) with ⟨hkeeps, heq⟩ | ⟨-, hkeeps⟩
    · rw [heq]
      exact hkeeps
    · exact hkeeps
  · intro hkeeps
    have hid : names.map (fun name => orderName (reorderName name)) = names := by
      rw [List.map_congr_left (g := id), List.map_id]
      intro name hname
      rcases orderName_reorderName (hend name hname) with ⟨-, heq⟩ | ⟨hno, -⟩
      · exact heq
      · exact absurd (hkeeps name hname) hno
    rw [hid] at hsorted
    exact hsorted

theorem sortUser_perm_iff_two :
    (sortUser (·.mergeSort strcmpLe) ["Bo Ek".toList, "Anna Lind (SysOp)".toList]).Perm
        ["Bo Ek".toList, "Anna Lind (SysOp)".toList] ↔
      ∀ name ∈ ["Bo Ek".toList, "Anna Lind (SysOp)".toList], KeepsOrder name :=
  sortUser_perm_iff (fun l => List.mergeSort_perm l strcmpLe) (by decide)

/-- A word in parentheses at the start of a name goes to its end. -/
theorem sortUser_moves_word :
    ∃ (qsort : List CString → List CString) (names : List CString), (∀ l, (qsort l).Perm l) ∧
      (∀ name ∈ names, realnameValid name = true ∧ name.getLast? ≠ some ' ' ∧ name.length ≤ 78) ∧
      sortUser qsort names = ["Lind (dr)".toList] ∧ ¬ (sortUser qsort names).Perm names := by
  have hsorted : sortUser (·.mergeSort strcmpLe) ["(dr) Lind".toList] = ["Lind (dr)".toList] := by
    simp only [sortUser, List.map_cons, List.map_nil, List.mergeSort_singleton]
    decide
  refine ⟨(·.mergeSort strcmpLe), ["(dr) Lind".toList], fun l => List.mergeSort_perm l strcmpLe,
    by decide, hsorted, ?_⟩
  rw [hsorted]
  decide

end SklaffKom
