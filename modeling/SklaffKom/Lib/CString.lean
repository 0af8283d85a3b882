import Mathlib.Algebra.Group.Nat.Defs
import Mathlib.Data.List.Infix
import Mathlib.Data.List.TakeWhile

/-!
# C strings

A NUL-terminated `char *` is the list of its characters before the terminator, a C `char` being
the `Char` with that code.  A pointer into a buffer is the suffix it points at; where the code
walks backwards it is an offset into the buffer.  `long` and `int` are unbounded integers.
-/

/-- The characters before the terminating NUL. -/
abbrev CString := List Char

namespace CString

/-- `strchr(s, c)` for a character other than NUL: the suffix that starts at the first `c`. -/
def strchr (s : CString) (c : Char) : Option CString :=
  match s.dropWhile (· ≠ c) with
  | [] => none
  | t => some t

/-- `strstr(s, pat)` -/
def strstr (s pat : CString) : Option CString :=
  if pat.isPrefixOf s then some s
  else match s with
    | [] => none
    | _ :: t => strstr t pat

/-- `while (p > 0 && P(s[p])) p--;` -/
def backWhile (s : CString) (P : Char → Bool) : Nat → Nat
  | 0 => 0
  | p + 1 => if P (s[p + 1]?.getD '\x00') then backWhile s P p else p + 1

/-- The start of the last line before offset `p`: step back over line ends, then to the line end
before them, and forward again unless the walk reached the start of the buffer. -/
def lineStart (s : CString) (p : Nat) : Nat :=
  let q := backWhile s (· != '\n') (backWhile s (· == '\n') (p - 1))
  if q > 0 then q + 1 else q

/-- `isspace` in the C locale. -/
def isSpace (c : Char) : Bool :=
  c == ' ' || c == '\t' || c == '\n' || c == '\x0b' || c == '\x0c' || c == '\r'

/-- The digits of `%ld` (and of `%d`, `%lld`). -/
def decimal : Int → CString
  | .ofNat n => Nat.toDigits 10 n
  | .negSucc n => '-' :: Nat.toDigits 10 (n + 1)

/-- The unsigned part of a number: its value and the rest, `none` without a digit. -/
def scanDigits (s : CString) : Option (Nat × CString) :=
  match s.takeWhile Char.isDigit with
  | [] => none
  | ds => some (Nat.ofDigitChars 10 ds 0, s.dropWhile Char.isDigit)

/-- `strtol(s, &end, 10)`: the value and `end`, which is `s` when nothing is converted. -/
def strtol (s : CString) : Int × CString :=
  match s.dropWhile isSpace with
  | '-' :: t => (scanDigits t).elim (0, s) fun r => (-(r.1 : Int), r.2)
  | '+' :: t => (scanDigits t).elim (0, s) fun r => ((r.1 : Int), r.2)
  | t => (scanDigits t).elim (0, s) fun r => ((r.1 : Int), r.2)

/-- `atol(s)`, and `atoi(s)` where the value fits an `int`. -/
def atol (s : CString) : Int := (strtol s).1

/-- `s` does not begin with a decimal digit. -/
def NoDigit (s : CString) : Prop := ∀ c ∈ s.head?, c.isDigit = false

@[simp] theorem noDigit_nil : NoDigit [] := by simp [NoDigit]

@[simp] theorem noDigit_cons {c : Char} {s : CString} :
    NoDigit (c :: s) ↔ c.isDigit = false := by
  simp [NoDigit]

theorem toNat_ofNat {n : Nat} (h : n < 0xd800) : (Char.ofNat n).toNat = n := by
  have hvalid : n.isValidChar := Or.inl h
  rw [Char.ofNat, dif_pos hvalid]
  show (UInt32.ofNatLT n _).toNat = n
  exact UInt32.toNat_ofNatLT

/-! ## Pointers into a buffer -/

/-- What stands before a pointer: the buffer up to the difference of the two. -/
theorem take_before {α : Type*} (a b : List α) :
    (a ++ b).take ((a ++ b).length - b.length) = a := by
  rw [List.length_append, Nat.add_sub_cancel, List.take_left]

/-! ## `strchr` -/

/-- The first element that is not passed over. -/
theorem dropWhile_head {α : Type*} {P : α → Bool} {l t : List α} {a : α}
    (h : l.dropWhile P = a :: t) : P a = false := by
  have hhead := List.head_dropWhile_not P (l := l) (by rw [h]; exact List.cons_ne_nil a t)
  simpa only [h, List.head_cons] using hhead

theorem dropWhile_ne_head {α : Type*} [DecidableEq α] {l t : List α} {a c : α}
    (h : l.dropWhile (· ≠ c) = a :: t) : a = c := by
  simpa using dropWhile_head h

theorem strchr_append {a b : CString} {c : Char} (h : c ∉ a) :
    strchr (a ++ c :: b) c = some (c :: b) := by
  have hd : (a ++ c :: b).dropWhile (· ≠ c) = c :: b := by
    rw [List.dropWhile_append_of_pos]
    · simp
    · intro x hx
      have : x ≠ c := fun he => h (he ▸ hx)
      simpa using this
  simp only [strchr, hd]

@[simp] theorem strchr_cons_self {b : CString} {c : Char} : strchr (c :: b) c = some (c :: b) :=
  strchr_append (a := []) (by simp)

theorem strchr_eq_none {s : CString} {c : Char} (h : c ∉ s) : strchr s c = none := by
  have hd : s.dropWhile (· ≠ c) = [] := by
    rw [List.dropWhile_eq_nil_iff]
    intro x hx
    have : x ≠ c := fun he => h (he ▸ hx)
    simpa using this
  simp only [strchr, hd]

theorem strchr_append_of_notMem {a b : CString} {c : Char} (h : c ∉ a) :
    strchr (a ++ b) c = strchr b c := by
  have hd : (a ++ b).dropWhile (· ≠ c) = b.dropWhile (· ≠ c) := by
    rw [List.dropWhile_append_of_pos]
    intro x hx
    have : x ≠ c := fun he => h (he ▸ hx)
    simpa using this
  simp only [strchr, hd]

/-- The pointer `strchr` returns is a suffix of the string it searched. -/
theorem strchr_suffix {s t : CString} {c : Char} (h : strchr s c = some t) : t <:+ s := by
  have hs : s.dropWhile (· ≠ c) <:+ s := List.dropWhile_suffix _
  unfold strchr at h
  split at h
  · cases h
  · cases h
    exact hs

theorem strchr_eq_some {s t : CString} {c : Char} (h : strchr s c = some t) :
    ∃ r, t = c :: r := by
  unfold strchr at h
  split at h
  · cases h
  · rename_i hne
    cases h
    cases hd : s.dropWhile (· ≠ c) with
    | nil => exact absurd hd (by simpa using hne)
    | cons x r => exact ⟨r, by rw [dropWhile_ne_head hd]⟩

/-- What stands before the character `strchr` finds. -/
theorem strchr_split {s t : CString} {c : Char} (h : strchr s c = some t) :
    ∃ a r, s = a ++ c :: r ∧ t = c :: r ∧ c ∉ a := by
  obtain ⟨r, rfl⟩ := strchr_eq_some h
  have hd : s.dropWhile (· ≠ c) = c :: r := by
    cases hs : s.dropWhile (· ≠ c) with
    | nil => simp only [strchr, hs, reduceCtorEq] at h
    | cons x xs => simpa only [strchr, hs, Option.some.injEq] using h
  refine ⟨s.takeWhile (· ≠ c), r, ?_, rfl, ?_⟩
  · rw [← hd, List.takeWhile_append_dropWhile]
  · intro hc
    simpa using List.mem_takeWhile_imp hc

theorem notMem_of_strchr {s : CString} {c : Char} (h : strchr s c = none) : c ∉ s := by
  intro hc
  cases hs : s.dropWhile (· ≠ c) with
  | nil => simpa using List.dropWhile_eq_nil_iff.mp hs c hc
  | cons x xs => simp only [strchr, hs, reduceCtorEq] at h

theorem append_sep_inj {c : Char} {a b x y : CString} (ha : c ∉ a) (hb : c ∉ b)
    (h : a ++ c :: x = b ++ c :: y) : a = b ∧ x = y := by
  have hrest : c :: x = c :: y := by
    apply Option.some.inj
    rw [← strchr_append ha, h, strchr_append hb]
  rw [hrest] at h
  exact ⟨List.append_cancel_right h, (List.cons.inj hrest).2⟩

/-- What `strstr` finds is a suffix that begins with the pattern. -/
theorem strstr_eq_some {s pat t : CString} (h : strstr s pat = some t) :
    pat <+: t ∧ ∃ a, s = a ++ t := by
  induction s with
  | nil =>
    unfold strstr at h
    split at h
    · rename_i hp
      cases h
      exact ⟨List.isPrefixOf_iff_prefix.mp hp, [], rfl⟩
    · cases h
  | cons c s ih =>
    unfold strstr at h
    split at h
    · rename_i hp
      cases h
      exact ⟨List.isPrefixOf_iff_prefix.mp hp, [], rfl⟩
    · obtain ⟨hp, a, ha⟩ := ih h
      exact ⟨hp, c :: a, by rw [ha, List.cons_append]⟩

/-! ## Walking back to the start of a line -/

theorem backWhile_of_false {s : CString} {P : Char → Bool} {p : Nat}
    (h : P (s[p]?.getD '\x00') = false) : backWhile s P p = p := by
  cases p with
  | zero => rfl
  | succ p => rw [backWhile, if_neg (by simp [h])]

/-- A walk over characters that all satisfy `P` stops at the first one that does not. -/
theorem backWhile_append {a b c : CString} {P : Char → Bool} (hb : ∀ x ∈ b, P x = true)
    (p : Nat) (hlo : a.length ≤ p + 1) (hhi : p < a.length + b.length) :
    backWhile (a ++ b ++ c) P p = backWhile (a ++ b ++ c) P (a.length - 1) := by
  induction p with
  | zero => congr 1; omega
  | succ p ih =>
    by_cases hp : a.length = p + 2
    · congr 1; omega
    · have hget : (a ++ b ++ c)[p + 1]?.getD '\x00' ∈ b := by
        rw [List.append_assoc, List.getElem?_append_right (by omega),
          List.getElem?_append_left (by omega), List.getElem?_eq_getElem (by omega)]
        exact List.getElem_mem _
      rw [backWhile, if_pos (hb _ hget)]
      exact ih (by omega) (by omega)

/-- What stands before a line of a buffer: nothing, or lines that are not just one line end. -/
def EndsLine (pre : CString) : Prop := pre = [] ∨ ∃ c a, pre = c :: a ++ ['\n']

theorem EndsLine.append {a b : CString} (ha : EndsLine a) (hb : EndsLine b) :
    EndsLine (a ++ b) := by
  rcases hb with rfl | ⟨d, b', rfl⟩
  · simpa using ha
  · rcases ha with rfl | ⟨c, a', rfl⟩
    · exact Or.inr ⟨d, b', rfl⟩
    · exact Or.inr ⟨c, a' ++ '\n' :: d :: b', by simp⟩

theorem EndsLine.line {l : CString} (h : l ≠ []) : EndsLine (l ++ ['\n']) := by
  obtain ⟨c, a, rfl⟩ := List.exists_cons_of_ne_nil h
  exact Or.inr ⟨c, a, rfl⟩

/-- From the end of a line that is not empty, `lineStart` finds where the line begins. -/
theorem lineStart_append {pre line rest : CString} (hpre : EndsLine pre) (hne : line ≠ [])
    (hnl : '\n' ∉ line) :
    lineStart (pre ++ line ++ '\n' :: rest) (pre.length + line.length + 1) = pre.length := by
  have hpos : 0 < line.length := List.length_pos_iff.mpr hne
  set s := pre ++ line ++ '\n' :: rest with hs
  have hline : ∀ x ∈ line, (x != '\n') = true := by
    intro x hx
    have : x ≠ '\n' := fun he => hnl (he ▸ hx)
    simpa using this
  -- over the line end
  have h1 : backWhile s (· == '\n') (pre.length + line.length + 1 - 1) =
      pre.length + line.length - 1 := by
    obtain ⟨k, hk⟩ : ∃ k, pre.length + line.length = k + 1 :=
      ⟨pre.length + line.length - 1, by omega⟩
    have hnlAt : s[k + 1]?.getD '\x00' = '\n' := by
      rw [hs, ← hk, List.getElem?_append_right (by simp)]
      simp
    have hlast : s[k]?.getD '\x00' ∈ line := by
      rw [hs, List.append_assoc, List.getElem?_append_right (by omega),
        List.getElem?_append_left (by omega), List.getElem?_eq_getElem (by omega)]
      exact List.getElem_mem _
    rw [show pre.length + line.length + 1 - 1 = k + 1 by omega, backWhile,
      if_pos (by simp [hnlAt]), backWhile_of_false]
    · omega
    · have := hline _ hlast
      simpa using this
  -- over the line itself
  have h2 : backWhile s (· != '\n') (pre.length + line.length - 1) =
      backWhile s (· != '\n') (pre.length - 1) :=
    backWhile_append hline _ (by omega) (by omega)
  unfold lineStart
  rw [h1, h2]
  rcases hpre with rfl | ⟨c, a, rfl⟩
  · rfl
  · have hstop : backWhile s (· != '\n') ((c :: a ++ ['\n']).length - 1) =
        (c :: a ++ ['\n']).length - 1 := by
      apply backWhile_of_false
      rw [hs, List.append_assoc, List.append_assoc, List.getElem?_append_right (by simp)]
      simp
    rw [hstop]
    simp

/-! ## Decimal numbers -/

theorem isDigit_of_mem_toDigits {n : Nat} {c : Char} (h : c ∈ Nat.toDigits 10 n) :
    c.isDigit = true :=
  Nat.isDigit_of_mem_toDigits (by decide) (by decide) h

theorem mem_decimal {n : Int} {c : Char} (h : c ∈ decimal n) : c.isDigit = true ∨ c = '-' := by
  cases n with
  | ofNat n => exact Or.inl (isDigit_of_mem_toDigits h)
  | negSucc n =>
    simp only [decimal, List.mem_cons] at h
    exact h.elim Or.inr fun h => Or.inl (isDigit_of_mem_toDigits h)

theorem mem_decimal_of_nonneg {n : Int} (hn : 0 ≤ n) {c : Char} (h : c ∈ decimal n) :
    c.isDigit = true := by
  cases n with
  | ofNat n => exact isDigit_of_mem_toDigits h
  | negSucc n => exact absurd hn (by simp)

theorem decimal_ne_nil (n : Int) : decimal n ≠ [] := by
  cases n <;> simp [decimal, Nat.toDigits_ne_nil]

/-- A number below `10 ^ k` is printed with `k` digits and a sign at most. -/
theorem length_decimal {n : Int} {k : Nat} (hk : 0 < k) (h : n.natAbs < 10 ^ k) :
    (decimal n).length ≤ k + 1 := by
  cases n with
  | ofNat n =>
    show (Nat.toDigits 10 n).length ≤ k + 1
    exact Nat.le_succ_of_le ((Nat.length_toDigits_le_iff (by decide) hk).mpr h)
  | negSucc n =>
    show (Nat.toDigits 10 (n + 1)).length + 1 ≤ k + 1
    exact Nat.succ_le_succ ((Nat.length_toDigits_le_iff (by decide) hk).mpr h)

/-- A character that is neither a digit nor a sign does not occur in a printed number. -/
theorem notMem_decimal {n : Int} {c : Char} (hd : c.isDigit = false) (hm : c ≠ '-') :
    c ∉ decimal n := by
  intro h
  rcases mem_decimal h with h | h
  · simp [h] at hd
  · exact hm h

theorem notMem_decimal_of_nonneg {n : Int} (hn : 0 ≤ n) {c : Char} (hd : c.isDigit = false) :
    c ∉ decimal n := by
  intro h
  simp [mem_decimal_of_nonneg hn h] at hd

theorem isSpace_of_isDigit {c : Char} (h : c.isDigit = true) : isSpace c = false := by
  have hne : ∀ d : Char, d.isDigit = false → c ≠ d := by
    intro d hd he
    rw [he, hd] at h
    cases h
  simp only [isSpace, Bool.or_eq_false_iff, beq_eq_false_iff_ne]
  exact ⟨⟨⟨⟨⟨hne _ rfl, hne _ rfl⟩, hne _ rfl⟩, hne _ rfl⟩, hne _ rfl⟩, hne _ rfl⟩

theorem scanDigits_toDigits (n : Nat) {s : CString} (hs : NoDigit s) :
    scanDigits (Nat.toDigits 10 n ++ s) = some (n, s) := by
  have hds : ∀ c ∈ Nat.toDigits 10 n, c.isDigit = true := fun c hc => isDigit_of_mem_toDigits hc
  have ht : (Nat.toDigits 10 n ++ s).takeWhile Char.isDigit = Nat.toDigits 10 n := by
    rw [List.takeWhile_append_of_pos hds]
    cases s with
    | nil => simp
    | cons c s => simp [noDigit_cons.mp hs]
  have hr : (Nat.toDigits 10 n ++ s).dropWhile Char.isDigit = s := by
    rw [List.dropWhile_append_of_pos hds]
    cases s with
    | nil => simp
    | cons c s => simp [noDigit_cons.mp hs]
  unfold scanDigits
  rw [ht, hr]
  split
  · rename_i h
    exact absurd h Nat.toDigits_ne_nil
  · simp

theorem scanDigits_of_noDigit {s : CString} (h : NoDigit s) : scanDigits s = none := by
  have ht : s.takeWhile Char.isDigit = [] := by
    cases s with
    | nil => rfl
    | cons c s => simp [noDigit_cons.mp h]
  simp only [scanDigits, ht]

/-- `strtol` reads back what `%ld` printed and stops at the first character after it. -/
theorem strtol_decimal (n : Int) {s : CString} (hs : NoDigit s) :
    strtol (decimal n ++ s) = (n, s) := by
  cases n with
  | ofNat n =>
    obtain ⟨d, ds, hd⟩ := List.exists_cons_of_ne_nil (Nat.toDigits_ne_nil (n := n) (b := 10))
    have hdig : d.isDigit = true := isDigit_of_mem_toDigits (n := n) (by simp [hd])
    have hscan := scanDigits_toDigits n hs
    rw [hd, List.cons_append] at hscan
    have hne : ∀ c : Char, c.isDigit = false → d ≠ c := by
      intro c hc he
      rw [he, hc] at hdig
      cases hdig
    simp only [strtol, decimal, hd, List.cons_append, List.dropWhile_cons,
      isSpace_of_isDigit hdig, Bool.false_eq_true, if_false]
    split
    · rename_i h
      exact absurd (List.cons.inj h).1 (hne _ rfl)
    · rename_i h
      exact absurd (List.cons.inj h).1 (hne _ rfl)
    · rw [hscan]
      rfl
  | negSucc n =>
    have hscan := scanDigits_toDigits (n + 1) hs
    have hsp : isSpace '-' = false := rfl
    simp only [strtol, decimal, List.cons_append, List.dropWhile_cons, hsp, Bool.false_eq_true,
      if_false, hscan, Option.elim]
    rfl

theorem atol_decimal (n : Int) {s : CString} (hs : NoDigit s) : atol (decimal n ++ s) = n := by
  rw [atol, strtol_decimal n hs]

/-- Leading blanks do not change the value. -/
theorem atol_blank {c : Char} (hc : isSpace c = true) (s : CString) : atol (c :: s) = atol s := by
  have hdrop : (c :: s).dropWhile isSpace = s.dropWhile isSpace := by simp [hc]
  simp only [atol, strtol, hdrop]
  split <;> cases scanDigits _ <;> rfl

/-- `strtol` converts nothing at a character that is no blank, sign or digit. -/
theorem strtol_of_noNumber {c : Char} {s : CString} (hsp : isSpace c = false)
    (hd : c.isDigit = false) (hm : c ≠ '-') (hp : c ≠ '+') : strtol (c :: s) = (0, c :: s) := by
  have hscan : scanDigits (c :: s) = none := scanDigits_of_noDigit (by simp [hd])
  simp only [strtol, List.dropWhile_cons, hsp, Bool.false_eq_true, if_false]
  split
  · rename_i h
    exact absurd (List.cons.inj h).1 hm
  · rename_i h
    exact absurd (List.cons.inj h).1 hp
  · rw [hscan]
    rfl

end CString
