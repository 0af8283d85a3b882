import SklaffKom.ConfNames
import SklaffKom.UserFile
import SklaffKom.Lib.Words

/-!
# Words and parentheses

`parse_strings` and `cmp_strings` walk over two strings at once, with the same two skippers.  A position
is what is left of a string here; behind the NUL there is no position.
-/

open CString Words

namespace SklaffKom.Left

mutual

def skipBeyondRpar : Nat → CString → Option CString
  | 0, _ => none
  -- without a right parenthesis `i++` goes behind the NUL
  | _ + 1, [] => none
  | fuel + 1, c :: s =>
    if c = ')' then if s.head?.any isBreak then skipBeyondSpace fuel s else some s
    else if s.head? = some '(' then (skipBeyondRpar fuel s).bind (skipBeyondRpar fuel)
    else skipBeyondRpar fuel s

def skipBeyondSpace : Nat → CString → Option CString
  | 0, _ => none
  | fuel + 1, s =>
    let s := (s.dropWhile fun c => !isBreak c).dropWhile isBreak
    if s.head? = some '(' then skipBeyondRpar fuel s else some s

end

/-- `skip_beyond_rpar`, with fuel for every character. -/
def beyondRpar (s : CString) : Option CString := skipBeyondRpar (s.length + 1) s

def beyondSpace (s : CString) : Option CString := skipBeyondSpace (s.length + 1) s

/-- `if (s[p] == '(') skip_beyond_rpar(s, &p)` -/
def skipParentheses (s : CString) : Option CString :=
  if s.head? = some '(' then beyondRpar s else some s

/-- The loop over the characters that agree, with the number of words. -/
def matchRun : Nat → Nat → CString → CString → Option (Nat × CString × CString)
  | 0, _, _, _ => none
  | fuel + 1, words, c :: s, d :: t =>
    if c = d then
      if isBreak d then do
        let s ← beyondSpace (c :: s)
        let t ← beyondSpace (d :: t)
        matchRun fuel (if t = [] then words else words + 1) s t
      else matchRun fuel words s t
    else some (words, c :: s, d :: t)
  | _ + 1, words, s, t => some (words, s, t)

def runEqual (words : Nat) (s t : CString) : Option (Nat × CString × CString) :=
  matchRun (s.length + t.length + 1) words s t

/-- What follows the loop: parentheses, and the rest of a word. -/
def nextWords (words : Nat) (s t : CString) : Option (Nat × CString × CString) := do
  let s ← skipParentheses s
  let t ← skipParentheses t
  if t.head?.any isBreak then
    let s ← beyondSpace s
    let t ← beyondSpace t
    return (if t = [] then words else words + 1, s, t)
  return (words, s, t)

/-! ## The skippers -/

theorem length_skip (fuel : Nat) :
    (∀ s t, skipBeyondRpar fuel s = some t → t.length < s.length) ∧
      ∀ s t, skipBeyondSpace fuel s = some t → t.length ≤ s.length := by
  induction fuel with
  | zero =>
    constructor
    · intro s t h
      cases s <;> cases h
    · intro s t h
      cases h
  | succ fuel ih =>
    obtain ⟨hrpar, hspace⟩ := ih
    constructor
    · intro s t h
      cases s with
      | nil => cases h
      | cons c s =>
        rw [skipBeyondRpar] at h
        rw [List.length_cons]
        split at h
        · split at h
          · have := hspace s t h
            omega
          · cases h
            omega
        · split at h
          · obtain ⟨u, hu, ht⟩ := Option.bind_eq_some_iff.mp h
            have := hrpar s u hu
            have := hrpar u t ht
            omega
          · have := hrpar s t h
            omega
    · intro s t h
      have hdrop : ((s.dropWhile fun c => !isBreak c).dropWhile isBreak).length ≤ s.length :=
        ((List.dropWhile_suffix _).trans (List.dropWhile_suffix _)).length_le
      rw [skipBeyondSpace] at h
      split at h
      · have := hrpar _ t h
        omega
      · cases h
        exact hdrop

/-- A parenthesis that `skip_beyond_space` comes to is not where it started. -/
theorem length_dropWord {s : CString}
    (h : ((s.dropWhile fun c => !isBreak c).dropWhile isBreak).head? = some '(') :
    ((s.dropWhile fun c => !isBreak c).dropWhile isBreak).length < s.length := by
  have hsuffix : (s.dropWhile fun c => !isBreak c).dropWhile isBreak <:+ s :=
    (List.dropWhile_suffix _).trans (List.dropWhile_suffix _)
  refine Nat.lt_of_le_of_ne hsuffix.length_le fun hlen => ?_
  have heq := hsuffix.eq_of_length hlen
  rw [heq] at h
  cases s with
  | nil => cases h
  | cons c s =>
    cases h
    rw [List.dropWhile_cons_of_pos (by decide)] at hlen
    have hle : ((s.dropWhile fun c => !isBreak c).dropWhile isBreak).length ≤ s.length :=
      ((List.dropWhile_suffix _).trans (List.dropWhile_suffix _)).length_le
    rw [hlen, List.length_cons] at hle
    omega

/-- Fuel for every character is enough. -/
theorem skip_fuel (n : Nat) : ∀ s : CString, s.length ≤ n → ∀ f g, s.length < f → s.length < g →
    skipBeyondRpar f s = skipBeyondRpar g s ∧ skipBeyondSpace f s = skipBeyondSpace g s := by
  induction n with
  | zero =>
    intro s hs f g hf hg
    obtain ⟨f, rfl⟩ : ∃ k, f = k + 1 := ⟨f - 1, by omega⟩
    obtain ⟨g, rfl⟩ : ∃ k, g = k + 1 := ⟨g - 1, by omega⟩
    obtain rfl : s = [] := List.length_eq_zero_iff.mp (by omega)
    exact ⟨rfl, rfl⟩
  | succ n ih =>
    intro s hs f g hf hg
    obtain ⟨f, rfl⟩ : ∃ k, f = k + 1 := ⟨f - 1, by omega⟩
    obtain ⟨g, rfl⟩ : ∃ k, g = k + 1 := ⟨g - 1, by omega⟩
    constructor
    · cases s with
      | nil => rfl
      | cons c s =>
        rw [List.length_cons] at hs hf hg
        obtain ⟨hrpar, hspace⟩ := ih s (by omega) f g (by omega) (by omega)
        rw [skipBeyondRpar, skipBeyondRpar, hrpar, hspace]
        split
        · rfl
        · split
          · cases hu : skipBeyondRpar g s with
            | none => rfl
            | some u =>
              have hlen := (length_skip g).1 s u hu
              exact (ih u (by omega) f g (by omega) (by omega)).1
          · rfl
    · rw [skipBeyondSpace, skipBeyondSpace]
      split
      · next hpar =>
        have hlen := length_dropWord hpar
        exact (ih _ (by omega) f g (by omega) (by omega)).1
      · rfl

theorem skipBeyondRpar_eq {s : CString} {fuel : Nat} (h : s.length < fuel) :
    skipBeyondRpar fuel s = beyondRpar s :=
  (skip_fuel s.length s (Nat.le_refl _) fuel (s.length + 1) h (Nat.lt_succ_self _)).1

@[simp] theorem beyondRpar_nil : beyondRpar [] = none := rfl

/-- Behind a right parenthesis. -/
def afterRpar (s : CString) : Option CString := if s.head?.any isBreak then beyondSpace s else some s

theorem beyondRpar_rpar (s : CString) : beyondRpar (')' :: s) = afterRpar s := by
  unfold beyondRpar
  rw [skipBeyondRpar, if_pos rfl]
  rfl

theorem beyondRpar_cons {c : Char} (hc : c ≠ ')') (s : CString) :
    beyondRpar (c :: s) = (skipParentheses s).bind beyondRpar := by
  unfold beyondRpar skipParentheses
  rw [skipBeyondRpar, if_neg hc, List.length_cons]
  split
  · rw [skipBeyondRpar_eq (Nat.lt_succ_self _)]
    cases hu : beyondRpar s with
    | none => rfl
    | some u =>
      have hlen := (length_skip _).1 s u hu
      exact skipBeyondRpar_eq (by omega)
  · rfl

theorem beyondSpace_eq (s : CString) :
    beyondSpace s = skipParentheses ((s.dropWhile fun c => !isBreak c).dropWhile isBreak) := by
  unfold beyondSpace skipParentheses
  rw [skipBeyondSpace]
  split
  · next hpar => exact skipBeyondRpar_eq (length_dropWord hpar)
  · rfl

theorem length_beyondRpar {s t : CString} (h : beyondRpar s = some t) : t.length < s.length :=
  (length_skip _).1 s t h

theorem length_beyondSpace {s t : CString} (h : beyondSpace s = some t) : t.length ≤ s.length :=
  (length_skip _).2 s t h

theorem length_skipParentheses {s t : CString} (h : skipParentheses s = some t) : t.length ≤ s.length := by
  unfold skipParentheses at h
  split at h
  · exact Nat.le_of_lt (length_beyondRpar h)
  · cases h
    exact Nat.le_refl _

theorem length_beyondSpace_cons {c : Char} {s t : CString} (hc : isBreak c = true)
    (h : beyondSpace (c :: s) = some t) : t.length ≤ s.length := by
  rw [beyondSpace_eq, List.dropWhile_cons_of_neg (by simp [hc]), List.dropWhile_cons_of_pos hc] at h
  exact (length_skipParentheses h).trans (List.dropWhile_suffix _).length_le

/-! ## Parentheses -/

/-- What stands between two parentheses, where no inner pair is followed directly by another one. -/
inductive Inner : CString → Prop
  | nil : Inner []
  | char {c : Char} {x : CString} : c ≠ '(' → c ≠ ')' → Inner x → Inner (c :: x)
  | pair {x y : CString} : Inner x → Inner y → y.head? ≠ some '(' → Inner ('(' :: (x ++ ')' :: y))

theorem skipParentheses_of_head {s : CString} (h : s.head? ≠ some '(') : skipParentheses s = some s :=
  if_neg h

theorem afterRpar_eq {s : CString} (h : s.head? ≠ some '(') :
    afterRpar s = skipParentheses (s.dropWhile isBreak) := by
  unfold afterRpar
  cases s with
  | nil => rfl
  | cons c s =>
    rw [List.head?_cons, Option.any_some]
    by_cases hc : isBreak c = true
    · rw [if_pos hc, beyondSpace_eq, List.dropWhile_cons_of_neg (by simp [hc])]
    · rw [if_neg hc, List.dropWhile_cons_of_neg hc, skipParentheses_of_head h]

/-- From within the parentheses `skip_beyond_rpar` comes behind them. -/
theorem inner_spec {x : CString} (h : Inner x) :
    (∀ c ≠ ')', ∀ rest, beyondRpar (c :: (x ++ ')' :: rest)) = afterRpar rest) ∧
      ∀ rest, ∃ u, skipParentheses ((x ++ ')' :: rest).dropWhile isBreak) = some u ∧
        beyondRpar u = afterRpar rest := by
  induction h with
  | nil =>
    constructor
    · intro c hc rest
      rw [beyondRpar_cons hc, List.nil_append, skipParentheses_of_head (by simp), Option.bind_some,
        beyondRpar_rpar]
    · exact fun rest => ⟨')' :: rest, rfl, beyondRpar_rpar rest⟩
  | @char c x hlpar hrpar _ ih =>
    have hhead : ∀ rest, (c :: (x ++ ')' :: rest)).head? ≠ some '(' := fun rest => by simpa using hlpar
    constructor
    · intro d hd rest
      rw [beyondRpar_cons hd, List.cons_append, skipParentheses_of_head (hhead rest), Option.bind_some,
        ih.1 c hrpar]
    · intro rest
      rw [List.cons_append]
      by_cases hc : isBreak c = true
      · rw [List.dropWhile_cons_of_pos hc]
        exact ih.2 rest
      · rw [List.dropWhile_cons_of_neg hc, skipParentheses_of_head (hhead rest)]
        exact ⟨_, rfl, ih.1 c hrpar rest⟩
  | @pair x y _ _ hy ihx ihy =>
    have hhead : ∀ rest, (y ++ ')' :: rest).head? ≠ some '(' := by
      intro rest
      cases y with
      | nil => simp
      | cons c y => exact hy
    have hpair : ∀ rest, skipParentheses ('(' :: (x ++ ')' :: (y ++ ')' :: rest))) =
        skipParentheses ((y ++ ')' :: rest).dropWhile isBreak) := by
      intro rest
      rw [← afterRpar_eq (hhead rest), ← ihx.1 '(' (by decide)]
      exact if_pos rfl
    have happ : ∀ rest, '(' :: (x ++ ')' :: y) ++ ')' :: rest = '(' :: (x ++ ')' :: (y ++ ')' :: rest)) :=
      fun rest => by simp
    constructor
    · intro c hc rest
      obtain ⟨u, hu, hrest⟩ := ihy.2 rest
      rw [happ, beyondRpar_cons hc, hpair, hu, Option.bind_some, hrest]
    · intro rest
      rw [happ, List.dropWhile_cons_of_neg (by decide), hpair]
      exact ihy.2 rest

/-- A whole pair of parentheses. -/
theorem skipParentheses_pair {x : CString} (h : Inner x) (rest : CString) :
    skipParentheses ('(' :: (x ++ ')' :: rest)) = afterRpar rest :=
  (if_pos rfl).trans ((inner_spec h).1 '(' (by decide) rest)

/-! ## Names -/

/-- A word, without a parenthesis to open. -/
def Word (w : CString) : Prop := w ≠ [] ∧ ∀ c ∈ w, isBreak c = false ∧ c ≠ '('

def Breaks (b : CString) : Prop := ∀ c ∈ b, isBreak c = true

/-- Neither a blank or dot nor a parenthesis comes first. -/
def Begins (e : CString) : Prop := ∀ c ∈ e.head?, isBreak c = false ∧ c ≠ '('

/-- The string is made of the words `ws` and of pairs of parentheses, up to the rest `e`.  A word is
followed by a blank or a dot, if it is not the last; a pair is not followed directly by another one. -/
inductive Named (e : CString) : List CString → CString → Prop
  | rest : Begins e → Named e [] e
  | word {ws : List CString} {w b s : CString} : Word w → Breaks b → (b = [] → s = []) → Named e ws s →
      Named e (w :: ws) (w ++ (b ++ s))
  | pair {ws : List CString} {x b s : CString} : Inner x → Breaks b → (b = [] → s.head? ≠ some '(') →
      Named e ws s → Named e ws ('(' :: (x ++ ')' :: (b ++ s)))

/-- What stands behind a word. -/
def Gap (e : CString) (ws : List CString) (r : CString) : Prop :=
  ∃ b s, Breaks b ∧ (b = [] → s = []) ∧ Named e ws s ∧ r = b ++ s

/-- A position at the next word. -/
def AtWord (e : CString) (ws : List CString) (u : CString) : Prop :=
  ws = [] ∧ u = e ∧ Begins e ∨ ∃ w vs r, ws = w :: vs ∧ Word w ∧ Gap e vs r ∧ u = w ++ r

section Named

variable {e w b s r u v : CString} {ws : List CString}

theorem begins_nil : Begins [] := by
  rintro c ⟨⟩

theorem Begins.head_ne (h : Begins e) : e.head? ≠ some '(' := by
  intro hc
  exact (h '(' hc).2 rfl

theorem Word.head (h : Word w) (r : CString) : ∃ c t, w ++ r = c :: t ∧ isBreak c = false ∧ c ≠ '(' := by
  obtain ⟨hne, hall⟩ := h
  cases w with
  | nil => exact absurd rfl hne
  | cons c w => exact ⟨c, w ++ r, rfl, hall c List.mem_cons_self⟩

theorem Word.begins (h : Word w) (r : CString) : Begins (w ++ r) := by
  obtain ⟨c, t, heq, hc⟩ := h.head r
  rw [heq]
  rintro d ⟨⟩
  exact hc

theorem AtWord.begins (h : AtWord e ws u) : Begins u := by
  rcases h with ⟨-, rfl, he⟩ | ⟨w, vs, r, -, hw, -, rfl⟩
  · exact he
  · exact hw.begins r

theorem isBreak_lpar {c : Char} (h : isBreak c = true) : c ≠ '(' := by
  rintro rfl
  cases h

theorem Named.head (h : Named e ws s) : ∀ c ∈ s.head?, isBreak c = false := by
  intro c hc
  cases h with
  | rest he => exact (he c hc).1
  | word hw => exact (hw.begins _ c hc).1
  | pair =>
    cases hc
    rfl

theorem Named.rest_begins (h : Named e ws s) : Begins e := by
  induction h with
  | rest he => exact he
  | word _ _ _ _ ih => exact ih
  | pair _ _ _ _ ih => exact ih

theorem Named.eq_nil (h : Named e ws []) : ws = [] ∧ e = [] := by
  generalize hs : ([] : CString) = s at h
  cases h with
  | rest => exact ⟨rfl, rfl⟩
  | word hw => exact absurd (List.append_eq_nil_iff.mp hs.symm).1 hw.1
  | pair => cases hs

theorem Gap.rest_begins (h : Gap e ws r) : Begins e := by
  obtain ⟨b, s, -, -, hs, -⟩ := h
  exact hs.rest_begins

theorem Gap.head (h : Gap e ws r) : (r = [] ∧ ws = [] ∧ e = []) ∨ ∃ c t, r = c :: t ∧ isBreak c = true := by
  obtain ⟨b, s, hb, hlast, hs, rfl⟩ := h
  cases b with
  | nil =>
    obtain rfl := hlast rfl
    exact Or.inl ⟨rfl, hs.eq_nil⟩
  | cons c b => exact Or.inr ⟨c, b ++ s, rfl, hb c List.mem_cons_self⟩

theorem Gap.head_ne (h : Gap e ws r) (hw : ∀ c ∈ w, isBreak c = false ∧ c ≠ '(') :
    (w ++ r).head? ≠ some '(' := by
  cases w with
  | nil =>
    rcases h.head with ⟨rfl, -⟩ | ⟨c, t, rfl, hc⟩
    · simp
    · simpa using isBreak_lpar hc
  | cons c w => simpa using (hw c List.mem_cons_self).2

theorem dropWhile_breaks (hb : Breaks b) (hs : Named e ws s) : (b ++ s).dropWhile isBreak = s := by
  rw [List.dropWhile_append_of_pos hb]
  cases s with
  | nil => rfl
  | cons c s => exact List.dropWhile_cons_of_neg (by simp [hs.head c rfl])

/-- At the start of a name, and behind blanks. -/
theorem skip_named (h : Named e ws s) : ∃ u, skipParentheses s = some u ∧ AtWord e ws u := by
  induction h with
  | rest he => exact ⟨e, skipParentheses_of_head he.head_ne, Or.inl ⟨rfl, rfl, he⟩⟩
  | @word ws w b s hw hb hlast hs _ =>
    refine ⟨w ++ (b ++ s), ?_, Or.inr ⟨w, ws, b ++ s, rfl, hw, ⟨b, s, hb, hlast, hs, rfl⟩, rfl⟩⟩
    exact skipParentheses_of_head (hw.begins _).head_ne
  | @pair ws x b s hx hb hnext hs ih =>
    have hhead : (b ++ s).head? ≠ some '(' := by
      cases b with
      | nil => exact hnext rfl
      | cons c b => simpa using isBreak_lpar (hb c List.mem_cons_self)
    rw [skipParentheses_pair hx, afterRpar_eq hhead, dropWhile_breaks hb hs]
    exact ih

/-- From within a word. -/
theorem skip_gap (h : Gap e ws r) (hv : ∀ c ∈ v, isBreak c = false) :
    ∃ u, beyondSpace (v ++ r) = some u ∧ AtWord e ws u := by
  have hdrop : (v ++ r).dropWhile (fun c => !isBreak c) = r := by
    rw [List.dropWhile_append_of_pos fun c hc => by simp [hv c hc]]
    rcases h.head with ⟨rfl, -⟩ | ⟨c, t, rfl, hc⟩
    · rfl
    · exact List.dropWhile_cons_of_neg (by simp [hc])
  obtain ⟨b, s, hb, -, hs, rfl⟩ := h
  rw [beyondSpace_eq, hdrop, dropWhile_breaks hb hs]
  exact skip_named hs

/-- The rest is what the string ends with. -/
theorem Named.suffix (h : Named e ws s) : e <:+ s := by
  induction h with
  | rest => exact List.suffix_refl e
  | word _ _ _ _ ih => exact (ih.trans (List.suffix_append _ _)).trans (List.suffix_append _ _)
  | @pair ws x b s _ _ _ _ ih =>
    have hbehind : e <:+ x ++ ')' :: (b ++ s) :=
      ((ih.trans (List.suffix_append b s)).trans (List.suffix_cons _ _)).trans (List.suffix_append _ _)
    exact hbehind.trans (List.suffix_cons _ _)

theorem word_of_all (hne : w ≠ []) (h : w.all (fun c => !isBreak c && c ≠ '(') = true) : Word w := by
  refine ⟨hne, fun c hc => ?_⟩
  simpa using List.all_eq_true.mp h c hc

theorem breaks_of_all (h : b.all isBreak = true) : Breaks b := List.all_eq_true.mp h

theorem inner_of_all {x : CString} (h : x.all (fun c => c ≠ '(' && c ≠ ')') = true) : Inner x := by
  induction x with
  | nil => exact Inner.nil
  | cons c x ih =>
    rw [List.all_cons, Bool.and_eq_true] at h
    obtain ⟨hlpar, hrpar⟩ : c ≠ '(' ∧ c ≠ ')' := by simpa using h.1
    exact Inner.char hlpar hrpar (ih h.2)

end Named

/-! ## Upper case -/

/-- A character of `up_string`. -/
def upChar (c : Char) : Char := if 0x60 < c.toNat ∧ c.toNat < 0x7e then Char.ofNat (c.toNat - 32) else c

theorem upString_eq (s : CString) : upString s = s.map upChar := rfl

theorem letter_range : ∀ n < 0x7e, 0x60 < n →
    (isBreak (Char.ofNat (n - 32)) = false ∧ Char.ofNat (n - 32) ≠ '(' ∧ Char.ofNat (n - 32) ≠ ')') ∧
      isBreak (Char.ofNat n) = false ∧ Char.ofNat n ≠ '(' ∧ Char.ofNat n ≠ ')' := by decide

/-- Blanks, dots and parentheses are no letters. -/
theorem upChar_spec (c : Char) :
    isBreak (upChar c) = isBreak c ∧ (upChar c = '(' ↔ c = '(') ∧ (upChar c = ')' ↔ c = ')') := by
  unfold upChar
  split
  · next h =>
    obtain ⟨⟨hbreak, hlpar, hrpar⟩, hcbreak, hclpar, hcrpar⟩ := letter_range c.toNat h.2 h.1
    rw [Char.ofNat_toNat] at hcbreak hclpar hcrpar
    rw [hbreak, hcbreak]
    exact ⟨rfl, iff_of_false hlpar hclpar, iff_of_false hrpar hcrpar⟩
  · exact ⟨rfl, Iff.rfl, Iff.rfl⟩

theorem Inner.up {x : CString} (h : Inner x) : Inner (upString x) := by
  induction h with
  | nil => exact Inner.nil
  | @char c x hl hr _ ih =>
    obtain ⟨-, hlpar, hrpar⟩ := upChar_spec c
    exact Inner.char (mt hlpar.mp hl) (mt hrpar.mp hr) ih
  | @pair x y _ _ hy ihx ihy =>
    have hmap : upString ('(' :: (x ++ ')' :: y)) = '(' :: (upString x ++ ')' :: upString y) := by
      rw [upString_eq, List.map_cons, List.map_append, List.map_cons]
      rfl
    rw [hmap]
    refine Inner.pair ihx ihy ?_
    cases y with
    | nil => simp [upString]
    | cons c y =>
      rw [upString_eq, List.map_cons]
      simpa [(upChar_spec c).2.1] using hy

theorem Word.up {w : CString} (h : Word w) : Word (upString w) := by
  rw [upString_eq]
  refine ⟨by simpa using h.1, fun c hc => ?_⟩
  obtain ⟨d, hd, rfl⟩ := List.mem_map.mp hc
  obtain ⟨hbreak, hlpar, -⟩ := upChar_spec d
  rw [hbreak]
  exact ⟨(h.2 d hd).1, mt hlpar.mp (h.2 d hd).2⟩

theorem Breaks.up {b : CString} (h : Breaks b) : Breaks (upString b) := by
  intro c hc
  rw [upString_eq] at hc
  obtain ⟨d, hd, rfl⟩ := List.mem_map.mp hc
  rw [(upChar_spec d).1, h d hd]

theorem Begins.up {e : CString} (h : Begins e) : Begins (upString e) := by
  cases e with
  | nil => exact begins_nil
  | cons c e =>
    rintro d ⟨⟩
    obtain ⟨hbreak, hlpar, -⟩ := upChar_spec c
    obtain ⟨hc, hne⟩ := h c rfl
    exact ⟨hbreak.trans hc, mt hlpar.mp hne⟩

theorem Named.up {e s : CString} {ws : List CString} (h : Named e ws s) :
    Named (upString e) (ws.map upString) (upString s) := by
  induction h with
  | rest he => exact Named.rest he.up
  | @word ws w b s hw hb hlast _ ih =>
    have hmap : upString (w ++ (b ++ s)) = upString w ++ (upString b ++ upString s) := by
      rw [upString_eq, List.map_append, List.map_append]
      rfl
    rw [hmap]
    refine Named.word hw.up hb.up ?_ ih
    intro hnil
    rw [upString_eq, List.map_eq_nil_iff] at hnil
    rw [hlast hnil]
    rfl
  | @pair ws x b s hx hb hnext _ ih =>
    have hmap : upString ('(' :: (x ++ ')' :: (b ++ s))) =
        '(' :: (upString x ++ ')' :: (upString b ++ upString s)) := by
      rw [upString_eq, List.map_cons, List.map_append, List.map_cons, List.map_append]
      rfl
    rw [hmap]
    refine Named.pair hx.up hb.up ?_ ih
    intro hnil
    rw [upString_eq, List.map_eq_nil_iff] at hnil
    have hs := hnext hnil
    cases s with
    | nil => simp [upString]
    | cons c s =>
      rw [upString_eq, List.map_cons]
      simpa [(upChar_spec c).2.1] using hs

/-! ## Blanks at the end -/

/-- Trimming behind a part that does not end with a blank. -/
theorem trim_behind {a b s : CString} (ha : trimEnd (· = ' ') a = a) :
    ∃ b', trimEnd (· = ' ') (a ++ (b ++ s)) = a ++ (b' ++ trimEnd (· = ' ') s) ∧ b' ⊆ b ∧
      (b' = b ∨ trimEnd (· = ' ') s = []) := by
  rw [trimEnd_append_eq, trimEnd_append_eq _ b]
  by_cases hs : trimEnd (· = ' ') s = []
  · rw [if_pos hs, hs]
    obtain ⟨r, hr, -⟩ := trimEnd_append (· = ' ') b
    refine ⟨trimEnd (· = ' ') b, ?_, ?_, Or.inr rfl⟩
    · rw [List.append_nil]
      split
      · next hb => rw [hb, ha, List.append_nil]
      · rfl
    · conv_rhs => rw [hr]
      exact List.subset_append_left _ _
  · rw [if_neg hs, if_neg (List.append_ne_nil_of_right_ne_nil b hs)]
    exact ⟨b, rfl, List.Subset.refl b, Or.inl rfl⟩

theorem Begins.trim {e : CString} (h : Begins e) : Begins (trimEnd (· = ' ') e) := by
  obtain ⟨r, hr, -⟩ := trimEnd_append (· = ' ') e
  cases hcut : trimEnd (· = ' ') e with
  | nil => exact begins_nil
  | cons c u =>
    rw [hcut] at hr
    rw [hr] at h
    exact h

theorem Named.trim {e s : CString} {ws : List CString} (h : Named e ws s) :
    Named (trimEnd (· = ' ') e) ws (trimEnd (· = ' ') s) := by
  induction h with
  | rest he => exact Named.rest he.trim
  | @word ws w b s hw hb hlast _ ih =>
    have hend : trimEnd (· = ' ') w = w := by
      apply trimEnd_eq_self
      intro c hc
      have hbreak := (hw.2 c (List.mem_of_getLast? hc)).1
      rw [decide_eq_false_iff_not]
      rintro rfl
      cases hbreak
    obtain ⟨b', heq, hsub, hb'⟩ := @trim_behind w b s hend
    rw [heq]
    refine Named.word hw (fun c hc => hb c (hsub hc)) ?_ ih
    intro hnil
    rcases hb' with rfl | hs
    · rw [hlast hnil]
      rfl
    · exact hs
  | @pair ws x b s hx hb hnext _ ih =>
    have hend : trimEnd (· = ' ') ('(' :: (x ++ [')'])) = '(' :: (x ++ [')']) := by
      apply trimEnd_eq_self
      intro c hc
      rw [← List.cons_append, List.getLast?_concat] at hc
      cases hc
      rfl
    obtain ⟨b', heq, hsub, hb'⟩ := @trim_behind _ b s hend
    have happ : ∀ t, '(' :: (x ++ [')']) ++ t = '(' :: (x ++ ')' :: t) := fun t => by simp
    rw [happ, happ] at heq
    rw [heq]
    refine Named.pair hx (fun c hc => hb c (hsub hc)) ?_ ih
    intro hnil
    rcases hb' with rfl | hs
    · have hs := hnext hnil
      obtain ⟨r, hr, -⟩ := trimEnd_append (· = ' ') s
      cases hcut : trimEnd (· = ' ') s with
      | nil => simp
      | cons c u =>
        rw [hcut] at hr
        rw [hr] at hs
        exact hs
    · rw [hs]
      simp

theorem Named.rtrim {e s : CString} {ws : List CString} (h : Named e ws s) :
    Named (trimEnd (· = ' ') e) ws (rtrim s) := by
  have hblank : NotBlank s := by
    cases s with
    | nil => exact Or.inl rfl
    | cons c s =>
      refine Or.inr ⟨c, List.mem_cons_self, ?_⟩
      rintro rfl
      have := h.head ' ' rfl
      cases this
  rw [rtrim_of_notBlank hblank]
  exact h.trim

/-! ## The common part of two positions -/

theorem matchRun_stop {s t : CString} (h : s = [] ∨ s.head? ≠ t.head?) (words fuel : Nat) :
    matchRun (fuel + 1) words s t = some (words, s, t) := by
  cases s with
  | nil => rfl
  | cons c s =>
    cases t with
    | nil => rfl
    | cons d t =>
      have hne : c ≠ d := by simpa using h
      rw [matchRun, if_neg hne]

/-- Fuel for every character of both is enough. -/
theorem matchRun_fuel (n : Nat) : ∀ (s t : CString) (words f g : Nat), s.length + t.length ≤ n → n < f →
    n < g → matchRun f words s t = matchRun g words s t := by
  induction n with
  | zero =>
    intro s t words f g hn hf hg
    obtain ⟨f, rfl⟩ : ∃ k, f = k + 1 := ⟨f - 1, by omega⟩
    obtain ⟨g, rfl⟩ : ∃ k, g = k + 1 := ⟨g - 1, by omega⟩
    obtain rfl : s = [] := List.length_eq_zero_iff.mp (by omega)
    rw [matchRun_stop (Or.inl rfl), matchRun_stop (Or.inl rfl)]
  | succ n ih =>
    intro s t words f g hn hf hg
    obtain ⟨f, rfl⟩ : ∃ k, f = k + 1 := ⟨f - 1, by omega⟩
    obtain ⟨g, rfl⟩ : ∃ k, g = k + 1 := ⟨g - 1, by omega⟩
    by_cases hstop : s = [] ∨ s.head? ≠ t.head?
    · rw [matchRun_stop hstop, matchRun_stop hstop]
    · rw [not_or, not_not] at hstop
      obtain ⟨hne, heq⟩ := hstop
      obtain ⟨c, s, rfl⟩ := List.exists_cons_of_ne_nil hne
      cases t with
      | nil => cases heq
      | cons d t =>
        obtain rfl : c = d := Option.some.inj heq
        rw [List.length_cons, List.length_cons] at hn
        rw [matchRun, matchRun, if_pos rfl, if_pos rfl]
        split
        · next hc =>
          cases hs : beyondSpace (c :: s) with
          | none => rfl
          | some s' =>
            cases ht : beyondSpace (c :: t) with
            | none => rfl
            | some t' =>
              have hslen := length_beyondSpace_cons hc hs
              have htlen := length_beyondSpace_cons hc ht
              exact ih s' t' _ f g (by omega) (by omega) (by omega)
        · exact ih s t words f g (by omega) (by omega) (by omega)

theorem matchRun_eq {s t : CString} {fuel : Nat} (h : s.length + t.length < fuel) (words : Nat) :
    matchRun fuel words s t = runEqual words s t :=
  matchRun_fuel _ s t words fuel _ (Nat.le_refl _) h (Nat.lt_succ_self _)

theorem runEqual_stop {s t : CString} (h : s = [] ∨ s.head? ≠ t.head?) (words : Nat) :
    runEqual words s t = some (words, s, t) := matchRun_stop h words _

theorem runEqual_same {c : Char} (hc : isBreak c = false) (words : Nat) (s t : CString) :
    runEqual words (c :: s) (c :: t) = runEqual words s t := by
  unfold runEqual
  rw [matchRun, if_pos rfl, if_neg (by simp [hc])]
  apply matchRun_eq
  rw [List.length_cons, List.length_cons]
  omega

theorem runEqual_break {c : Char} (hc : isBreak c = true) {s t s' t' : CString}
    (hs : beyondSpace (c :: s) = some s') (ht : beyondSpace (c :: t) = some t') (words : Nat) :
    runEqual words (c :: s) (c :: t) = runEqual (if t' = [] then words else words + 1) s' t' := by
  have hslen := length_beyondSpace_cons hc hs
  have htlen := length_beyondSpace_cons hc ht
  unfold runEqual
  rw [matchRun, if_pos rfl, if_pos hc, hs, ht]
  apply matchRun_eq
  rw [List.length_cons, List.length_cons]
  omega

/-- Nothing is skipped before another word. -/
theorem nextWords_stop {s t : CString} (hs : s.head? ≠ some '(') (ht : t.head? ≠ some '(')
    (hbreak : ∀ c ∈ t.head?, isBreak c = false) (words : Nat) :
    nextWords words s t = some (words, s, t) := by
  have hnone : ¬ t.head?.any isBreak = true := by
    cases ht' : t.head? with
    | none => simp
    | some c => simpa using hbreak c ht'
  unfold nextWords
  rw [skipParentheses_of_head hs, skipParentheses_of_head ht]
  exact if_neg hnone

theorem nextWords_break {c : Char} (hc : isBreak c = true) {s t s' t' : CString} (hhead : s.head? ≠ some '(')
    (hs : beyondSpace s = some s') (ht : beyondSpace (c :: t) = some t') (words : Nat) :
    nextWords words s (c :: t) = some (if t' = [] then words else words + 1, s', t') := by
  have hsome : (c :: t).head?.any isBreak = true := hc
  unfold nextWords
  rw [skipParentheses_of_head hhead, skipParentheses_of_head (by simpa using isBreak_lpar hc), Option.bind_eq_bind,
    Option.bind_some, Option.bind_some, if_pos hsome, hs, ht]
  rfl

end SklaffKom.Left
