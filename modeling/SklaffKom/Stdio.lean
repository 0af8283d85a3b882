import SklaffKom.Lib.CString

/-!
# Strings and lines

What the parsers of the import programs share.  `fgets` into a buffer of a fixed size cuts a long
line into pieces.
-/

open CString

namespace SklaffKom

def isEol (c : Char) : Bool := c = '\n' || c = '\r'

def isBlank (c : Char) : Bool := c = ' ' || c = '\t'

/-- `s` without the blanks at its end. -/
def trimEnd (p : Char → Bool) (s : CString) : CString := (s.reverse.dropWhile p).reverse

def stripEol (s : CString) : CString := trimEnd isEol s

/-- `strlcpy(dst, s, size)` -/
def strlcpy (size : Nat) (s : CString) : CString := s.take (size - 1)

/-- `strcmp(s, t) <= 0` -/
def strcmpLe : CString → CString → Bool
  | [], _ => true
  | _ :: _, [] => false
  | c :: s, d :: t => c.toNat < d.toNat || c = d && strcmpLe s t

theorem strcmpLe_total (s t : CString) : (strcmpLe s t || strcmpLe t s) = true := by
  induction s generalizing t with
  | nil => rfl
  | cons c s ih =>
    cases t with
    | nil => rfl
    | cons d t =>
      simp only [strcmpLe, Bool.or_eq_true, Bool.and_eq_true, decide_eq_true_eq]
      rcases Nat.lt_trichotomy c.toNat d.toNat with h | h | h
      · exact Or.inl (Or.inl h)
      · obtain rfl : c = d := Char.toNat_inj.mp h
        rcases Bool.or_eq_true _ _ ▸ ih t with hle | hle
        · exact Or.inl (Or.inr ⟨rfl, hle⟩)
        · exact Or.inr (Or.inr ⟨rfl, hle⟩)
      · exact Or.inr (Or.inl h)

theorem strcmpLe_trans {s t u : CString} (hst : strcmpLe s t = true) (htu : strcmpLe t u = true) :
    strcmpLe s u = true := by
  induction s generalizing t u with
  | nil => rfl
  | cons c s ih =>
    cases t with
    | nil => cases hst
    | cons d t =>
      cases u with
      | nil => cases htu
      | cons e u =>
        simp only [strcmpLe, Bool.or_eq_true, Bool.and_eq_true, decide_eq_true_eq] at hst htu ⊢
        rcases hst with hcd | ⟨rfl, hst⟩
        · rcases htu with hde | ⟨rfl, -⟩
          · exact Or.inl (Nat.lt_trans hcd hde)
          · exact Or.inl hcd
        · rcases htu with hde | ⟨rfl, htu⟩
          · exact Or.inl hde
          · exact Or.inr ⟨rfl, ih hst htu⟩

theorem strcmpLe_antisymm {s t : CString} (hst : strcmpLe s t = true) (hts : strcmpLe t s = true) :
    s = t := by
  induction s generalizing t with
  | nil =>
    cases t with
    | nil => rfl
    | cons d t => cases hts
  | cons c s ih =>
    cases t with
    | nil => cases hst
    | cons d t =>
      simp only [strcmpLe, Bool.or_eq_true, Bool.and_eq_true, decide_eq_true_eq] at hst hts
      rcases hst with hcd | ⟨rfl, hst⟩
      · rcases hts with hdc | ⟨rfl, -⟩
        · omega
        · omega
      · rcases hts with hdc | ⟨-, hts⟩
        · omega
        · rw [ih hst hts]

/-- `strncasecmp` of a prefix of `s` with `pat`. -/
def hasPrefixCase (pat s : CString) : Bool :=
  (pat.map Char.toLower).isPrefixOf (s.map Char.toLower)

/-- `strcasecmp(a, b) == 0` -/
def sameNoCase (a b : CString) : Bool := a.map Char.toLower = b.map Char.toLower

/-- The bytes before the first NUL of what `fgets` has read. -/
def stringOf (l : CString) : CString := l.takeWhile (· ≠ '\x00')

/-- `atol`, which stays at the ends of a `long`. -/
def toLong (n : Int) : Int := max (-9223372036854775808) (min 9223372036854775807 n)

/-- `atoi`, which is `(int)strtol(s, NULL, 10)`. -/
def toInt (n : Int) : Int := (toLong n).bmod (2 ^ 32)

theorem toLong_of_range {n : Int} (h : -9223372036854775808 ≤ n ∧ n ≤ 9223372036854775807) : toLong n = n := by
  unfold toLong
  omega

theorem toInt_of_range {n : Int} (h : -2147483648 ≤ n ∧ n ≤ 2147483647) : toInt n = n := by
  unfold toInt
  rw [toLong_of_range (by omega)]
  apply Int.bmod_eq_of_le <;> omega

/-- The characters before a separator, and those behind it. -/
def cutAt (sep : Char) (s : CString) : Option (CString × CString) :=
  (strchr s sep).map fun t => (s.take (s.length - t.length), t.tail)

theorem cutAt_append {sep : Char} {a : CString} (h : sep ∉ a) (b : CString) :
    cutAt sep (a ++ sep :: b) = some (a, b) := by
  unfold cutAt
  rw [strchr_append h, Option.map_some, take_before]
  rfl

theorem cutAt_none {sep : Char} {s : CString} (h : sep ∉ s) : cutAt sep s = none := by
  unfold cutAt
  rw [strchr_eq_none h]
  rfl

theorem notMem_of_cutAt {sep : Char} {s a b : CString} (h : cutAt sep s = some (a, b)) : sep ∉ a := by
  unfold cutAt at h
  cases hs : strchr s sep with
  | none =>
    rw [hs] at h
    cases h
  | some t =>
    obtain ⟨a', b', hsplit, rfl, hnot⟩ := strchr_split hs
    rw [hs, hsplit, Option.map_some, take_before] at h
    cases h
    exact hnot

theorem cutAt_eq_some {sep : Char} {s a b : CString} :
    cutAt sep s = some (a, b) ↔ s = a ++ sep :: b ∧ sep ∉ a := by
  constructor
  · intro h
    refine ⟨?_, notMem_of_cutAt h⟩
    unfold cutAt at h
    cases hs : strchr s sep with
    | none =>
      rw [hs] at h
      cases h
    | some t =>
      obtain ⟨a', b', hsplit, rfl, -⟩ := strchr_split hs
      rw [hs, hsplit, Option.map_some, take_before] at h
      cases h
      exact hsplit
  · rintro ⟨rfl, ha⟩
    exact cutAt_append ha b

/-- The characters before the last separator, and those behind it. -/
def cutLastAt (sep : Char) (s : CString) : Option (CString × CString) :=
  (cutAt sep s.reverse).map fun r => (r.2.reverse, r.1.reverse)

theorem cutLastAt_append {sep : Char} {b : CString} (h : sep ∉ b) (a : CString) :
    cutLastAt sep (a ++ sep :: b) = some (a, b) := by
  have hrev : (a ++ sep :: b).reverse = b.reverse ++ sep :: a.reverse := by simp
  unfold cutLastAt
  rw [hrev, cutAt_append (by simpa using h)]
  simp

theorem cutLastAt_none {sep : Char} {s : CString} (h : sep ∉ s) : cutLastAt sep s = none := by
  unfold cutLastAt
  rw [cutAt_none (by simpa using h)]
  rfl

/-- A string with a separator, cut at the last one. -/
theorem exists_last {sep : Char} {s : CString} (h : sep ∈ s) : ∃ a b, s = a ++ sep :: b ∧ sep ∉ b := by
  obtain ⟨a, b, hrev, ha⟩ := List.eq_append_cons_of_mem (List.mem_reverse.mpr h)
  refine ⟨b.reverse, a.reverse, ?_, by simpa using ha⟩
  rw [← List.reverse_reverse s, hrev]
  simp

/-- The size of the least `long`. -/
def longMax : Nat := 9223372036854775808

theorem length_decimal_long {n : Int} (h : n.natAbs ≤ longMax) : (decimal n).length ≤ 20 :=
  length_decimal (k := 19) (by decide) (Nat.lt_of_le_of_lt h (by decide))

/-! ## Lines of a file -/

/-- `fgets(buf, size, fp)`: what is read, and the rest of the file. -/
def fgets (size : Nat) (file : CString) : CString × CString :=
  let n := match strchr file '\n' with
    | some nl => min (size - 1) (file.length - nl.length + 1)
    | none => size - 1
  (file.take n, file.drop n)

/-- `while (fgets(line, size, fp))`: what each call reads. -/
def fgetsLoop (size : Nat) : Nat → CString → List CString
  | 0, _ => []
  | fuel + 1, file =>
    if file = [] then []
    else
      let r := fgets size file
      r.1 :: fgetsLoop size fuel r.2

/-- The lines of a file, a line that does not fit the buffer in pieces. -/
def fileLines (size : Nat) (file : CString) : List CString := fgetsLoop size (file.length + 1) file

theorem fgets_line {size : Nat} {l rest : CString} (h : '\n' ∉ l) (hlen : l.length + 1 < size) :
    fgets size (l ++ '\n' :: rest) = (l ++ ['\n'], rest) := by
  have hn : min (size - 1) ((l ++ '\n' :: rest).length - ('\n' :: rest).length + 1) =
      (l ++ ['\n']).length := by
    rw [List.length_append, Nat.add_sub_cancel, List.length_append]
    show min (size - 1) (l.length + 1) = l.length + 1
    omega
  have hsplit : l ++ '\n' :: rest = (l ++ ['\n']) ++ rest := by simp
  simp only [fgets, strchr_append h, hn]
  rw [hsplit, List.take_left' rfl, List.drop_left' rfl]

/-- A line that does not fit the buffer is cut. -/
theorem fgets_cut {size : Nat} {l rest : CString} (h : '\n' ∉ l) (hlen : size ≤ l.length + 1) :
    fgets size (l ++ '\n' :: rest) = (l.take (size - 1), l.drop (size - 1) ++ '\n' :: rest) := by
  have hn : min (size - 1) ((l ++ '\n' :: rest).length - ('\n' :: rest).length + 1) = size - 1 := by
    rw [List.length_append, Nat.add_sub_cancel]
    omega
  simp only [fgets, strchr_append h, hn]
  rw [List.take_append_of_le_length (by omega), List.drop_append_of_le_length (by omega)]

theorem fgets_append (size : Nat) (file : CString) : (fgets size file).1 ++ (fgets size file).2 = file :=
  List.take_append_drop _ file

theorem fgets_eq {size : Nat} (hs : 1 < size) (file : CString) :
    ∃ n, 0 < n ∧ fgets size file = (file.take n, file.drop n) := by
  refine ⟨_, ?_, rfl⟩
  cases strchr file '\n' with
  | none =>
    show 0 < size - 1
    omega
  | some nl =>
    show 0 < min (size - 1) (file.length - nl.length + 1)
    omega

theorem fgets_snd_lt {size : Nat} (hs : 1 < size) {file : CString} (hne : file ≠ []) :
    (fgets size file).2.length < file.length := by
  obtain ⟨n, hn, heq⟩ := fgets_eq hs file
  have hpos := List.length_pos_iff.mpr hne
  rw [heq, List.length_drop]
  omega

/-- More calls than needed read nothing. -/
theorem fgetsLoop_fuel {size : Nat} (hs : 1 < size) {n m : Nat} {file : CString}
    (hn : file.length < n) (hm : file.length < m) : fgetsLoop size n file = fgetsLoop size m file := by
  induction n generalizing m file with
  | zero => omega
  | succ n ih =>
    cases m with
    | zero => omega
    | succ m =>
      rw [fgetsLoop, fgetsLoop]
      split
      · rfl
      · next hne =>
        have hlt := fgets_snd_lt hs hne
        exact congrArg _ (ih (by omega) (by omega))

theorem fileLines_of_ne {size : Nat} (hs : 1 < size) {file : CString} (hne : file ≠ []) :
    fileLines size file = (fgets size file).1 :: fileLines size (fgets size file).2 := by
  have hlt := fgets_snd_lt hs hne
  rw [fileLines, fgetsLoop, if_neg hne]
  exact congrArg _ (fgetsLoop_fuel hs hlt (Nat.lt_succ_self _))

/-- A line that fits the buffer. -/
theorem fileLines_line {size : Nat} {l rest : CString} (h : '\n' ∉ l) (hlen : l.length + 1 < size) :
    fileLines size (l ++ '\n' :: rest) = (l ++ ['\n']) :: fileLines size rest := by
  rw [fileLines_of_ne (by omega) (by simp), fgets_line h hlen]

theorem flatten_fileLines {size : Nat} (hs : 1 < size) (file : CString) :
    (fileLines size file).flatten = file := by
  induction hn : file.length using Nat.strong_induction_on generalizing file with
  | _ n ih =>
    by_cases hne : file = []
    · subst hne
      rfl
    · have hlt := fgets_snd_lt hs hne
      rw [fileLines_of_ne hs hne, List.flatten_cons, ih _ (by omega) _ rfl, fgets_append]

/-! ## Cutting the line end -/

theorem isSpace_of_isBlank {c : Char} (h : isBlank c = true) : isSpace c = true := by
  unfold isBlank at h
  unfold isSpace
  simp only [Bool.or_eq_true, decide_eq_true_eq] at h
  rcases h with rfl | rfl
  · rfl
  · rfl

theorem trimEnd_eq_self {p : Char → Bool} {s : CString} (hs : ∀ c ∈ s.getLast?, p c = false) :
    trimEnd p s = s := by
  unfold trimEnd
  rw [← List.head?_reverse] at hs
  cases hr : s.reverse with
  | nil => simpa using congrArg List.reverse hr.symm
  | cons c t =>
    rw [hr] at hs
    rw [List.dropWhile_cons_of_neg (by simp [hs c rfl]), ← hr, List.reverse_reverse]

theorem trimEnd_append (P : Char → Bool) (s : CString) :
    ∃ r, s = trimEnd P s ++ r ∧ ∀ c ∈ r, P c = true := by
  refine ⟨(s.reverse.takeWhile P).reverse, ?_, fun c hc => ?_⟩
  · unfold trimEnd
    rw [← List.reverse_append, List.takeWhile_append_dropWhile, List.reverse_reverse]
  · exact List.mem_takeWhile_imp (List.mem_reverse.mp hc)

/-- Only when nothing is left of the second part, the first one is trimmed. -/
theorem trimEnd_append_eq (p : Char → Bool) (a b : CString) :
    trimEnd p (a ++ b) = if trimEnd p b = [] then trimEnd p a else a ++ trimEnd p b := by
  unfold trimEnd
  rw [List.reverse_append, List.dropWhile_append]
  cases hb : b.reverse.dropWhile p with
  | nil => rfl
  | cons c t =>
    rw [if_neg (by simp), if_neg (by simp), List.reverse_append, List.reverse_reverse]

theorem trimEnd_prefix (p : Char → Bool) (s : CString) : trimEnd p s <+: s := by
  obtain ⟨r, hr, -⟩ := trimEnd_append p s
  exact ⟨r, hr.symm⟩

theorem trimEnd_eq_of_append {p : Char → Bool} {r : CString} (s : CString) (hr : ∀ c ∈ r, p c = true) :
    trimEnd p (s ++ r) = trimEnd p s := by
  rw [trimEnd_append_eq, if_pos]
  rw [trimEnd, List.reverse_eq_nil_iff, List.dropWhile_eq_nil_iff]
  intro c hc
  exact hr c (List.mem_reverse.mp hc)

theorem trimEnd_length_le (p : Char → Bool) (s : CString) : (trimEnd p s).length ≤ s.length := by
  have h := (List.dropWhile_suffix (l := s.reverse) p).length_le
  rw [trimEnd, List.length_reverse]
  rwa [List.length_reverse] at h

theorem trimEnd_sublist (p : Char → Bool) (s : CString) : (trimEnd p s).Sublist s := by
  have h := (List.dropWhile_sublist p (l := s.reverse)).reverse
  rwa [List.reverse_reverse] at h

theorem getLast_trimEnd (p : Char → Bool) (s : CString) :
    ∀ c ∈ (trimEnd p s).getLast?, p c = false := by
  intro c hc
  rw [trimEnd, List.getLast?_reverse] at hc
  have hnot := List.head?_dropWhile_not p s.reverse
  rw [Option.mem_def.mp hc] at hnot
  simpa using hnot

theorem getLast_of_trimEnd {p : Char → Bool} {s : CString} (h : trimEnd p s = s) :
    ∀ c ∈ s.getLast?, p c = false := by
  intro c hc
  exact getLast_trimEnd p s c (by rwa [h])

theorem stripEol_line {l : CString} (hl : ∀ c ∈ l, isEol c = false) : stripEol (l ++ ['\n']) = l := by
  have hself : trimEnd isEol l = l := trimEnd_eq_self fun c hc => hl c (List.mem_of_getLast? hc)
  unfold stripEol trimEnd at *
  rw [List.reverse_append, List.reverse_singleton, List.singleton_append,
    List.dropWhile_cons_of_pos (by decide), hself]

theorem subset_of_mem_fileLines {size : Nat} (hs : 1 < size) {file l : CString}
    (hl : l ∈ fileLines size file) : l ⊆ file := by
  induction hn : file.length using Nat.strong_induction_on generalizing file with
  | _ n ih =>
    by_cases hne : file = []
    · subst hne
      cases hl
    · have hlt := fgets_snd_lt hs hne
      have happ := fgets_append size file
      rw [fileLines_of_ne hs hne, List.mem_cons] at hl
      rcases hl with rfl | hl
      · exact List.take_subset _ _
      · exact List.Subset.trans (ih _ (by omega) hl rfl) (List.drop_subset _ _)

/-! ## Files of whole lines -/

/-- A file that does not end in the middle of a line. -/
def WholeLines (file : CString) : Prop := ∀ c ∈ file.getLast?, c = '\n'

theorem WholeLines.nil : WholeLines [] := by simp [WholeLines]

theorem WholeLines.line (l : CString) : WholeLines (l ++ ['\n']) := by simp [WholeLines]

theorem WholeLines.drop {a : CString} (ha : WholeLines a) (n : Nat) : WholeLines (a.drop n) := by
  intro c hc
  rw [List.getLast?_drop] at hc
  split at hc
  · cases hc
  · exact ha c hc

theorem WholeLines.append {a b : CString} (ha : WholeLines a) (hb : WholeLines b) :
    WholeLines (a ++ b) := by
  unfold WholeLines at ha hb ⊢
  rw [List.getLast?_append]
  cases h : b.getLast? with
  | none => simpa [h] using ha
  | some c => simpa [h] using hb

theorem WholeLines.append_right {b : CString} (hb : WholeLines b) (hne : b ≠ []) (a : CString) :
    WholeLines (a ++ b) := by
  intro c hc
  rw [List.getLast?_append_of_ne_nil _ hne] at hc
  exact hb c hc

theorem WholeLines.mem {a : CString} (ha : WholeLines a) (hne : a ≠ []) : '\n' ∈ a := by
  have hlast := List.getLast?_eq_getLast_of_ne_nil hne
  rw [← ha _ hlast]
  exact List.getLast_mem hne

theorem fgets_append_of_mem {size : Nat} {a : CString} (ha : '\n' ∈ a) (b : CString) :
    fgets size (a ++ b) = ((fgets size a).1, (fgets size a).2 ++ b) := by
  cases hnl : strchr a '\n' with
  | none => exact absurd ha (notMem_of_strchr hnl)
  | some nl =>
    obtain ⟨x, r, rfl, rfl, hx⟩ := strchr_split hnl
    have hnl' : strchr (x ++ '\n' :: r ++ b) '\n' = some ('\n' :: (r ++ b)) := by
      rw [List.append_assoc, List.cons_append, strchr_append hx]
    have hlen : (x ++ '\n' :: r ++ b).length - ('\n' :: (r ++ b)).length =
        (x ++ '\n' :: r).length - ('\n' :: r).length := by
      simp only [List.length_append, List.length_cons]
      omega
    have hle : min (size - 1) ((x ++ '\n' :: r).length - ('\n' :: r).length + 1) ≤
        (x ++ '\n' :: r).length := by
      simp only [List.length_append, List.length_cons]
      omega
    simp only [fgets, hnl, hnl', hlen]
    rw [List.take_append_of_le_length hle, List.drop_append_of_le_length hle]

/-- The lines of a file to which something is appended. -/
theorem fileLines_append {size : Nat} (hs : 1 < size) {a : CString} (ha : WholeLines a) (b : CString) :
    fileLines size (a ++ b) = fileLines size a ++ fileLines size b := by
  induction hn : a.length using Nat.strong_induction_on generalizing a with
  | _ n ih =>
    by_cases hne : a = []
    · subst hne
      rfl
    · have hlt := fgets_snd_lt hs hne
      have hrest : WholeLines (fgets size a).2 := ha.drop _
      rw [fileLines_of_ne hs (by simp [hne]), fileLines_of_ne hs hne,
        fgets_append_of_mem (ha.mem hne), List.cons_append, ih _ (by omega) hrest rfl]

/-- The lines that `getline` reads, with their line ends. -/
def getlines : CString → List CString
  | [] => []
  | c :: s =>
    if c = '\n' then ['\n'] :: getlines s
    else
      match getlines s with
      | [] => [[c]]
      | l :: ls => (c :: l) :: ls

theorem getlines_line {l : CString} (hl : '\n' ∉ l) (s : CString) :
    getlines (l ++ '\n' :: s) = (l ++ ['\n']) :: getlines s := by
  induction l with
  | nil => rw [List.nil_append, getlines, if_pos rfl, List.nil_append]
  | cons c l ih =>
    rw [List.mem_cons, not_or] at hl
    rw [List.cons_append, getlines, if_neg fun h => hl.1 h.symm, ih hl.2]
    rfl

theorem getlines_tail {l : CString} (hl : '\n' ∉ l) (hne : l ≠ []) : getlines l = [l] := by
  induction l with
  | nil => exact absurd rfl hne
  | cons c l ih =>
    rw [List.mem_cons, not_or] at hl
    rw [getlines, if_neg fun h => hl.1 h.symm]
    cases l with
    | nil => rfl
    | cons d l => rw [ih hl.2 (List.cons_ne_nil d l)]

theorem flatten_getlines (s : CString) : (getlines s).flatten = s := by
  induction s with
  | nil => rfl
  | cons c s ih =>
    rw [getlines]
    split
    · rename_i hc
      rw [List.flatten_cons, ih, hc]
      rfl
    · split
      · rename_i hnil
        rw [hnil] at ih
        rw [← ih]
        rfl
      · rename_i l ls hls
        rw [hls] at ih
        rw [← ih]
        rfl

theorem getlines_append {a : CString} (ha : WholeLines a) (b : CString) :
    getlines (a ++ b) = getlines a ++ getlines b := by
  induction hn : a.length using Nat.strong_induction_on generalizing a with
  | _ n ih =>
    by_cases hne : a = []
    · subst hne
      rfl
    · obtain ⟨l, rest, rfl, hl⟩ := List.eq_append_cons_of_mem (ha.mem hne)
      have hrest : WholeLines rest := by
        have hdrop := ha.drop (l.length + 1)
        rwa [← List.drop_drop, List.drop_left] at hdrop
      have hlen : rest.length < n := by
        rw [← hn, List.length_append, List.length_cons]
        omega
      rw [List.append_assoc, List.cons_append, getlines_line hl, getlines_line hl, ih _ hlen hrest rfl,
        List.cons_append]

end SklaffKom
