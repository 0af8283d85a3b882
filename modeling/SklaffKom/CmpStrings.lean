import SklaffKom.NameWords

/-!
# Matching names

`cmp_strings` compares a stored name with a typed one, word by word: each word that is typed may be an
abbreviation.
-/

open CString Words

namespace SklaffKom.Left

def cmpLoop : Nat → CString → CString → Option Bool
  | 0, _, _ => none
  | fuel + 1, s, t => do
    let s ← skipParentheses s
    let t ← skipParentheses t
    if s.head? ≠ t.head? then return false
    let (words, s, t) ← runEqual 0 s t
    let (_, s, t) ← nextWords words s t
    if s = [] then return t = []
    if t = [] then return true
    cmpLoop fuel s t

/-- `cmp_strings`; `none` is a read behind the end of a string. -/
def cmpStrings (s1 s2 : CString) : Option Bool :=
  let tmp1 := upString (rtrim s1)
  let tmp2 := upString (rtrim s2)
  cmpLoop (tmp1.length + tmp2.length + 1) tmp1 tmp2

/-! ## What the comparison is for -/

/-- The string without what stands in parentheses, `depth` of which are open. -/
def dropGroups : Nat → CString → CString
  | _, [] => []
  | 0, c :: s => if c = '(' then dropGroups 1 s else c :: dropGroups 0 s
  | depth + 1, c :: s =>
    dropGroups (if c = '(' then depth + 2 else if c = ')' then depth else depth + 1) s

def nameWords (s : CString) : List CString := words isBreak (dropGroups 0 s)

/-- There are not more words in `vs` than in `ws`, and each is a prefix of the one in its place. -/
def WordPrefixes (ws vs : List CString) : Prop := vs.length ≤ ws.length ∧ ∀ p ∈ vs.zip ws, p.1 <+: p.2

instance (ws vs : List CString) : Decidable (WordPrefixes ws vs) :=
  inferInstanceAs (Decidable (_ ∧ _))

/-- What `cmp_strings` is for: the words of `s2` abbreviate those of `s1`. -/
def Abbreviates (s1 s2 : CString) : Prop :=
  WordPrefixes ((nameWords s1).map upString) ((nameWords s2).map upString)

instance (s1 s2 : CString) : Decidable (Abbreviates s1 s2) := inferInstanceAs (Decidable (WordPrefixes _ _))

theorem wordPrefixes_nil (ws : List CString) : WordPrefixes ws [] := ⟨Nat.zero_le _, by simp⟩

theorem not_wordPrefixes_nil (v : CString) (vs : List CString) : ¬ WordPrefixes [] (v :: vs) := by
  rintro ⟨hlen, -⟩
  cases hlen

theorem wordPrefixes_cons (w v : CString) (ws vs : List CString) :
    WordPrefixes (w :: ws) (v :: vs) ↔ v <+: w ∧ WordPrefixes ws vs := by
  unfold WordPrefixes
  rw [List.length_cons, List.length_cons, List.zip_cons_cons, List.forall_mem_cons, Nat.add_le_add_iff_right]
  exact and_left_comm

/-! ## The words of a name -/

theorem dropGroups_append {w : CString} (hw : ∀ c ∈ w, c ≠ '(') (s : CString) :
    dropGroups 0 (w ++ s) = w ++ dropGroups 0 s := by
  induction w with
  | nil => rfl
  | cons c w ih =>
    obtain ⟨hc, hw⟩ := List.forall_mem_cons.mp hw
    rw [List.cons_append, dropGroups, if_neg hc, ih hw, List.cons_append]

theorem Inner.dropGroups {x : CString} (h : Inner x) (depth : Nat) (rest : CString) :
    Left.dropGroups (depth + 1) (x ++ rest) = Left.dropGroups (depth + 1) rest := by
  induction h generalizing depth rest with
  | nil => rfl
  | @char c x hl hr _ ih => rw [List.cons_append, Left.dropGroups, if_neg hl, if_neg hr, ih]
  | @pair x y _ _ _ ihx ihy =>
    rw [List.cons_append, List.append_assoc, Left.dropGroups, if_pos rfl, ihx, List.cons_append, Left.dropGroups,
      if_neg (by decide), if_pos rfl, ihy]

theorem dropGroups_pair {x : CString} (h : Inner x) (rest : CString) :
    dropGroups 0 ('(' :: (x ++ ')' :: rest)) = dropGroups 0 rest := by
  rw [dropGroups, if_pos rfl, h.dropGroups, dropGroups, if_neg (by decide), if_pos rfl]

theorem words_breaks {b : CString} (hb : Breaks b) (s : CString) : words isBreak (b ++ s) = words isBreak s := by
  induction b with
  | nil => rfl
  | cons c b ih =>
    obtain ⟨hc, hb⟩ := List.forall_mem_cons.mp hb
    rw [List.cons_append, words_cons_sep hc, ih hb]

theorem words_append_breaks {b : CString} (hb : Breaks b) (s : CString) :
    words isBreak (s ++ b) = words isBreak s := by
  cases b with
  | nil => rw [List.append_nil]
  | cons c b =>
    obtain ⟨hc, hb⟩ := List.forall_mem_cons.mp hb
    have hnil := words_breaks hb []
    rw [List.append_nil, words_nil] at hnil
    rw [words_append_cons hc, hnil, List.append_nil]

theorem nameWords_breaks {b : CString} (hb : Breaks b) (s : CString) : nameWords (b ++ s) = nameWords s := by
  unfold nameWords
  rw [dropGroups_append fun c hc => isBreak_lpar (hb c hc), words_breaks hb]

section Words

variable {e f p r s x : CString} {ws : List CString}

theorem Named.nameWords (h : Named e ws s) : nameWords s = ws ++ Left.nameWords e := by
  induction h with
  | rest => rfl
  | @word ws w b s hw hb hlast _ ih =>
    have hhead : ∀ c ∈ (b ++ dropGroups 0 s).head?, isBreak c = true := by
      intro c hc
      cases b with
      | nil =>
        rw [hlast rfl] at hc
        cases hc
      | cons d b =>
        cases hc
        exact hb _ List.mem_cons_self
    unfold Left.nameWords at ih ⊢
    rw [dropGroups_append fun c hc => (hw.2 c hc).2, dropGroups_append fun c hc => isBreak_lpar (hb c hc),
      words_word_append hw.1 (fun c hc => (hw.2 c hc).1) hhead, words_breaks hb, ih, List.cons_append]
  | @pair ws x b s hx hb _ _ ih =>
    have hdrop := nameWords_breaks hb s
    unfold Left.nameWords at hdrop ih ⊢
    rw [dropGroups_pair hx, hdrop, ih]

theorem Gap.nameWords (h : Gap e ws r) : nameWords r = ws ++ Left.nameWords e := by
  obtain ⟨b, s, hb, -, hs, rfl⟩ := h
  rw [nameWords_breaks hb, hs.nameWords]

end Words

/-! ## Places -/

/-- The words that are left at a place, behind `depth` open parentheses.  Inside a word the first is the rest of
that word, which may be empty. -/
def restWords (depth : Nat) (inside : Bool) (s : CString) : List CString :=
  let rest := dropGroups depth s
  if inside then rest.takeWhile (!isBreak ·) :: words isBreak (rest.dropWhile (!isBreak ·)) else words isBreak rest

/-- The words behind the word of a place; between parentheses there is none. -/
def nextRest (depth : Nat) (inside : Bool) (s : CString) : List CString :=
  if depth = 0 ∧ inside then (restWords depth inside s).tail else restWords depth inside s

/-- `skip_beyond_rpar` keeps the place. -/
def Keeps (depth : Nat) (inside : Bool) (s s' : CString) : Prop :=
  skipParentheses s = some s' ∧ restWords depth inside s' = restWords depth inside s

/-- `skip_beyond_space` comes to the next word, or between parentheses it keeps the place. -/
def ToNext (depth : Nat) (inside : Bool) (s s' : CString) : Prop :=
  beyondSpace s = some s' ∧ restWords depth (depth ≠ 0 && inside) s' = nextRest depth inside s

instance (depth : Nat) (inside : Bool) (s s' : CString) : Decidable (Keeps depth inside s s') :=
  inferInstanceAs (Decidable (_ ∧ _))

instance (depth : Nat) (inside : Bool) (s s' : CString) : Decidable (ToNext depth inside s s') :=
  inferInstanceAs (Decidable (_ ∧ _))

/-- The skips behind the characters that are alike. -/
inductive Moves (depth : Nat) (inside : Bool) (s t : CString) : Bool → CString → CString → Prop
  | here {x y : CString} : Keeps depth inside s x → Keeps depth inside t y → y.head?.any isBreak = false →
      Moves depth inside s t inside x y
  | next {x y u v : CString} : Keeps depth inside s x → Keeps depth inside t y → y.head?.any isBreak = true →
      ToNext depth inside x u → ToNext depth inside y v → Moves depth inside s t (depth ≠ 0 && inside) u v

/-- The open parentheses behind a character. -/
def depthAfter (depth : Nat) (c : Char) : Nat :=
  if c = '(' then depth + 1 else if c = ')' then depth - 1 else depth

/-- A comparison, from two places on, in which every skip keeps the place or comes to the next word, and
characters that differ stand in no parentheses. -/
inductive Compared : Nat → Bool → CString → CString → Bool → Prop
  | typed {depth : Nat} {inside : Bool} {s u : CString} : skipParentheses s = some u →
      Compared depth inside s [] true
  | ended {depth : Nat} {inside : Bool} {t y v : CString} : t ≠ [] → skipParentheses t = some y →
      (if y.head?.any isBreak then beyondSpace y else some y) = some v →
      (v = [] ↔ restWords depth false t = []) → Compared depth inside [] t (v = [])
  | same {depth : Nat} {inside b : Bool} {c : Char} {s t : CString} : isBreak c = false →
      Compared (depthAfter depth c) (inside || (depth = 0 && c ≠ '(')) s t b →
      Compared depth inside (c :: s) (c :: t) b
  | spaces {depth : Nat} {inside b : Bool} {c : Char} {s t u v : CString} : isBreak c = true →
      ToNext depth inside (c :: s) u → ToNext depth inside (c :: t) v →
      Compared depth (depth ≠ 0 && inside) u v b → Compared depth inside (c :: s) (c :: t) b
  | typedBehind {depth : Nat} {inside inside' : Bool} {s t x : CString} : s.head? ≠ t.head? → s ≠ [] →
      Moves depth inside s t inside' x [] → Compared depth inside s t true
  | endedBehind {depth : Nat} {inside inside' : Bool} {s t y : CString} : s.head? ≠ t.head? → s ≠ [] →
      Moves depth inside s t inside' [] y → y ≠ [] → restWords depth false y ≠ [] →
      Compared depth inside s t false
  | differs {inside inside' : Bool} {s t x y u v : CString} {d : Char} : s.head? ≠ t.head? → s ≠ [] →
      Moves 0 inside s t inside' x y → x ≠ [] → y ≠ [] →
      Keeps 0 inside' x u → Keeps 0 inside' y (d :: v) →
      isBreak d = false → d ≠ '(' → u.head? ≠ some d → u.head? ≠ some '(' →
      (inside' = false → u.head?.any isBreak = false) → Compared 0 inside s t false
  | again {depth : Nat} {inside inside' b : Bool} {s t x y u v : CString} : s.head? ≠ t.head? → s ≠ [] →
      Moves depth inside s t inside' x y → x ≠ [] → y ≠ [] → Keeps depth inside' x u →
      Keeps depth inside' y v → u.head? = v.head? → Compared depth inside' u v b → Compared depth inside s t b

section Places

variable {depth : Nat} {inside inside' b : Bool} {s t s' t' u v x y : CString}

theorem restWords_nil (depth : Nat) (inside : Bool) :
    restWords depth inside [] = if inside then [[]] else [] := by
  have hdrop : dropGroups depth [] = [] := by
    cases depth <;> rfl
  unfold restWords
  rw [hdrop]
  rfl

/-- Nothing more is typed. -/
theorem agree_nil (s : CString) : WordPrefixes (restWords depth inside s) (restWords depth inside []) := by
  rw [restWords_nil]
  unfold restWords
  cases inside with
  | false => exact wordPrefixes_nil _
  | true => exact (wordPrefixes_cons _ _ _ _).mpr ⟨List.nil_prefix, wordPrefixes_nil _⟩

/-- Inside a word its rest may be empty, in front of one it is not. -/
theorem restWords_inside (depth : Nat) (s : CString) : ∃ w ws, restWords depth true s = w :: ws ∧
    restWords depth false s = if w = [] then ws else w :: ws := by
  refine ⟨_, _, rfl, ?_⟩
  set rest := dropGroups depth s
  have hfalse : restWords depth false s = words isBreak rest := rfl
  have hsplit : rest.takeWhile (!isBreak ·) ++ rest.dropWhile (!isBreak ·) = rest := List.takeWhile_append_dropWhile
  rw [hfalse]
  split
  · rename_i hnil
    rw [hnil, List.nil_append] at hsplit
    rw [hsplit]
  · rename_i hne
    conv_lhs => rw [← hsplit]
    apply words_word_append hne
    · intro c hc
      simpa using List.mem_takeWhile_imp hc
    · intro c hc
      have hstop := List.head?_dropWhile_not (!isBreak ·) rest
      rw [Option.mem_def.mp hc] at hstop
      simpa using hstop

/-- The stored name has no more words. -/
theorem agree_ended (t : CString) :
    WordPrefixes (restWords depth inside []) (restWords depth inside t) ↔ restWords depth false t = [] := by
  rw [restWords_nil]
  cases inside with
  | false =>
    rw [if_neg Bool.false_ne_true]
    cases restWords depth false t with
    | nil => exact iff_of_true (wordPrefixes_nil _) rfl
    | cons v vs => exact iff_of_false (not_wordPrefixes_nil v vs) (List.cons_ne_nil v vs)
  | true =>
    obtain ⟨w, ws, htrue, hfalse⟩ := restWords_inside depth t
    rw [if_pos rfl, htrue, hfalse, wordPrefixes_cons, List.prefix_nil]
    by_cases hw : w = []
    · rw [if_pos hw, and_iff_right hw]
      cases ws with
      | nil => exact iff_of_true (wordPrefixes_nil _) rfl
      | cons v vs => exact iff_of_false (not_wordPrefixes_nil v vs) (List.cons_ne_nil v vs)
    · rw [if_neg hw]
      exact iff_of_false (fun h => hw h.1) (List.cons_ne_nil w ws)

/-- At a blank or dot a word is at its end. -/
theorem restWords_break {c : Char} (hc : isBreak c = true) (s : CString) :
    restWords 0 true (c :: s) = [] :: restWords 0 false (c :: s) := by
  have hdrop : dropGroups 0 (c :: s) = c :: dropGroups 0 s := if_neg (isBreak_lpar hc)
  simp only [restWords, hdrop, if_true, Bool.false_eq_true, if_false]
  rw [List.takeWhile_cons_of_neg (by simp [hc]), List.dropWhile_cons_of_neg (by simp [hc])]

/-- A character of a word. -/
theorem restWords_char {c : Char} (hc : isBreak c = false) (hpar : c ≠ '(') (inside : Bool) (s : CString) :
    ∃ w ws, restWords 0 true s = w :: ws ∧ restWords 0 inside (c :: s) = (c :: w) :: ws := by
  have hdrop : dropGroups 0 (c :: s) = c :: dropGroups 0 s := if_neg hpar
  have htrue : restWords 0 true (c :: s) = (c :: (dropGroups 0 s).takeWhile (!isBreak ·)) ::
      words isBreak ((dropGroups 0 s).dropWhile (!isBreak ·)) := by
    simp only [restWords, hdrop, if_true]
    rw [List.takeWhile_cons_of_pos (by simp [hc]), List.dropWhile_cons_of_pos (by simp [hc])]
  refine ⟨_, _, rfl, ?_⟩
  cases inside with
  | true => exact htrue
  | false =>
    obtain ⟨w, ws, hw, hfalse⟩ := restWords_inside 0 (c :: s)
    rw [htrue, List.cons.injEq] at hw
    obtain ⟨rfl, rfl⟩ := hw
    exact hfalse

/-- Between parentheses no character counts. -/
theorem restWords_group {c : Char} (h : depth ≠ 0 ∨ c = '(') (inside : Bool) (s : CString) :
    restWords depth inside (c :: s) = restWords (depthAfter depth c) inside s := by
  have hdrop : dropGroups depth (c :: s) = dropGroups (depthAfter depth c) s := by
    unfold depthAfter
    cases depth with
    | zero =>
      obtain rfl := h.resolve_left (not_not.mpr rfl)
      rfl
    | succ depth => rfl
  unfold restWords
  rw [hdrop]

theorem agree_same {c : Char} (hc : isBreak c = false) :
    WordPrefixes (restWords depth inside (c :: s)) (restWords depth inside (c :: t)) ↔
      WordPrefixes (restWords (depthAfter depth c) (inside || (depth = 0 && c ≠ '(')) s)
        (restWords (depthAfter depth c) (inside || (depth = 0 && c ≠ '(')) t) := by
  by_cases hgroup : depth ≠ 0 ∨ c = '('
  · have hinside : (inside || (decide (depth = 0) && decide (c ≠ '('))) = inside := by
      rcases hgroup with hd | hc
      · simp [hd]
      · simp [hc]
    rw [restWords_group hgroup, restWords_group hgroup, hinside]
  · rw [not_or, not_not] at hgroup
    obtain ⟨rfl, hpar⟩ := hgroup
    have hinside : (inside || (decide (0 = 0) && decide (c ≠ '('))) = true := by simp [hpar]
    have hdepth : depthAfter 0 c = 0 := by
      unfold depthAfter
      rw [if_neg hpar]
      split <;> rfl
    obtain ⟨w, ws, hw, hs⟩ := restWords_char hc hpar inside s
    obtain ⟨v, vs, hv, ht⟩ := restWords_char hc hpar inside t
    rw [hinside, hdepth, hs, ht, hw, hv, wordPrefixes_cons, wordPrefixes_cons, List.prefix_cons_inj]

/-- Behind a typed word the next words are compared. -/
theorem agree_next (ht : t.head?.any isBreak = true) (hu : ToNext depth inside s u) (hv : ToNext depth inside t v) :
    WordPrefixes (restWords depth inside s) (restWords depth inside t) ↔
      WordPrefixes (restWords depth (depth ≠ 0 && inside) u) (restWords depth (depth ≠ 0 && inside) v) := by
  rw [hu.2, hv.2]
  unfold nextRest
  by_cases hword : depth = 0 ∧ inside = true
  · obtain ⟨rfl, rfl⟩ := hword
    cases t with
    | nil => cases ht
    | cons c t =>
      obtain ⟨w, ws, hw, -⟩ := restWords_inside 0 s
      rw [if_pos ⟨rfl, rfl⟩, if_pos ⟨rfl, rfl⟩, hw, restWords_break ht, wordPrefixes_cons]
      exact and_iff_right List.nil_prefix
  · rw [if_neg hword, if_neg hword]

theorem Moves.agree (h : Moves depth inside s t inside' s' t') :
    WordPrefixes (restWords depth inside s) (restWords depth inside t) ↔
      WordPrefixes (restWords depth inside' s') (restWords depth inside' t') := by
  cases h with
  | here hs ht => rw [hs.2, ht.2]
  | next hs ht hbreak hu hv => rw [← hs.2, ← ht.2, agree_next hbreak hu hv]

/-- Characters that differ are those of different words. -/
theorem not_agree {d : Char} (hd : isBreak d = false) (hpar : d ≠ '(') (hne : s.head? ≠ some d)
    (hs : s.head? ≠ some '(') (hbegins : inside = false → s.head?.any isBreak = false) :
    ¬ WordPrefixes (restWords 0 inside s) (restWords 0 inside (d :: t)) := by
  obtain ⟨v, vs, -, ht⟩ := restWords_char hd hpar inside t
  rw [ht]
  cases s with
  | nil =>
    rw [restWords_nil]
    cases inside with
    | false => exact not_wordPrefixes_nil _ _
    | true =>
      rintro h
      have hpre := ((wordPrefixes_cons _ _ _ _).mp h).1
      cases List.prefix_nil.mp hpre
  | cons c s =>
    have hcd : c ≠ d := by simpa using hne
    by_cases hc : isBreak c = true
    · obtain rfl : inside = true := by
        by_contra hnot
        have := hbegins (by simpa using hnot)
        rw [List.head?_cons, Option.any_some, hc] at this
        cases this
      rw [restWords_break hc, wordPrefixes_cons]
      rintro ⟨hpre, -⟩
      cases List.prefix_nil.mp hpre
    · rw [Bool.not_eq_true] at hc
      obtain ⟨w, ws, -, hw⟩ := restWords_char hc (by simpa using hs) inside s
      rw [hw, wordPrefixes_cons, List.cons_prefix_cons]
      exact fun h => hcd h.1.1.symm

/-- A comparison whose skips keep the place comes to the right end. -/
theorem Compared.right (h : Compared depth inside s t b) :
    WordPrefixes (restWords depth inside s) (restWords depth inside t) ↔ b = true := by
  induction h with
  | typed _ => exact iff_of_true (agree_nil _) rfl
  | ended _ _ _ hend => rw [agree_ended, ← hend, decide_eq_true_iff]
  | same hc _ ih => rw [agree_same hc, ih]
  | spaces hc hs ht _ ih => rw [agree_next (by simpa using hc) hs ht, ih]
  | typedBehind _ _ hmoves => exact iff_of_true (hmoves.agree.mpr (agree_nil _)) rfl
  | endedBehind _ _ hmoves _ hwords =>
    rw [hmoves.agree, agree_ended]
    exact iff_of_false hwords Bool.false_ne_true
  | differs _ _ hmoves _ _ hu hv hd hpar hne hlpar hbegins =>
    rw [hmoves.agree, ← hu.2, ← hv.2]
    exact iff_of_false (not_agree hd hpar hne hlpar hbegins) Bool.false_ne_true
  | again _ _ hmoves _ _ hu hv _ _ ih => rw [hmoves.agree, ← hu.2, ← hv.2, ih]

end Places

/-! ## The loop -/

/-- The end of a round. -/
def cmpNext (fuel : Nat) (s t : CString) : Option Bool :=
  if s = [] then some (t = []) else if t = [] then some true else cmpLoop fuel s t

/-- The outer loop from the comparison of characters on. -/
def cmpTail (fuel words : Nat) (s t : CString) : Option Bool :=
  (runEqual words s t).bind fun p => (nextWords p.1 p.2.1 p.2.2).bind fun q => cmpNext fuel q.2.1 q.2.2

theorem cmpLoop_eq {s t u v : CString} (hs : skipParentheses s = some u) (ht : skipParentheses t = some v)
    (fuel : Nat) :
    cmpLoop (fuel + 1) s t = if u.head? ≠ v.head? then some false else cmpTail fuel 0 u v := by
  rw [cmpLoop, hs, ht]
  rfl

section Loop

variable {depth fuel : Nat} {inside inside' b : Bool} {s t s' t' : CString}

theorem cmpTail_stop (h : s = [] ∨ s.head? ≠ t.head?) (words : Nat) :
    cmpTail fuel words s t = (nextWords words s t).bind fun q => cmpNext fuel q.2.1 q.2.2 := by
  unfold cmpTail
  rw [runEqual_stop h]
  rfl

theorem cmpTail_same {c : Char} (hc : isBreak c = false) (words : Nat) :
    cmpTail fuel words (c :: s) (c :: t) = cmpTail fuel words s t := by
  unfold cmpTail
  rw [runEqual_same hc]

theorem cmpTail_break {c : Char} (hc : isBreak c = true) {s' t' : CString}
    (hs : beyondSpace (c :: s) = some s') (ht : beyondSpace (c :: t) = some t') (words : Nat) :
    cmpTail fuel words (c :: s) (c :: t) = cmpTail fuel (if t' = [] then words else words + 1) s' t' := by
  unfold cmpTail
  rw [runEqual_break hc hs ht]

theorem skipParentheses_eq_or_lt (h : skipParentheses s = some s') : s' = s ∨ s'.length < s.length := by
  unfold skipParentheses at h
  split at h
  · exact Or.inr (length_beyondRpar h)
  · cases h
    exact Or.inl rfl

theorem nextWords_eq (words : Nat) {t1 u v : CString} (hs : skipParentheses s = some s')
    (ht : skipParentheses t = some t1)
    (hu : (if t1.head?.any isBreak then beyondSpace s' else some s') = some u)
    (hv : (if t1.head?.any isBreak then beyondSpace t1 else some t1) = some v) :
    ∃ words', nextWords words s t = some (words', u, v) := by
  unfold nextWords
  rw [hs, ht]
  simp only [Option.bind_eq_bind, Option.bind_some, Option.pure_def]
  split at hu
  · rename_i hbreak
    rw [if_pos hbreak] at hv
    rw [if_pos hbreak, hu, hv]
    exact ⟨_, rfl⟩
  · rename_i hbreak
    rw [if_neg hbreak] at hv
    rw [if_neg hbreak]
    cases hu
    cases hv
    exact ⟨_, rfl⟩

theorem Moves.nextWords (h : Moves depth inside s t inside' s' t') (words : Nat) :
    ∃ words', Left.nextWords words s t = some (words', s', t') := by
  cases h with
  | here hs ht hbreak => exact nextWords_eq words hs.1 ht.1 (by rw [hbreak]; rfl) (by rw [hbreak]; rfl)
  | next hs ht hbreak hu hv =>
    exact nextWords_eq words hs.1 ht.1 (by rw [hbreak]; exact hu.1) (by rw [hbreak]; exact hv.1)

theorem Moves.shorter (h : Moves depth inside s t inside' s' t') :
    s' = s ∧ t' = t ∨ s'.length + t'.length < s.length + t.length := by
  cases h with
  | here hs ht =>
    rcases skipParentheses_eq_or_lt hs.1 with rfl | hslen
    · rcases skipParentheses_eq_or_lt ht.1 with rfl | htlen
      · exact Or.inl ⟨rfl, rfl⟩
      · exact Or.inr (by omega)
    · have := length_skipParentheses ht.1
      exact Or.inr (by omega)
  | @next s1 t1 _ _ hs ht hbreak hu hv =>
    have hs1 := length_skipParentheses hs.1
    have ht1 := length_skipParentheses ht.1
    have hulen := length_beyondSpace hu.1
    cases t1 with
    | nil => cases hbreak
    | cons c t1 =>
      have hvlen := length_beyondSpace_cons hbreak hv.1
      rw [List.length_cons] at ht1
      exact Or.inr (by omega)

/-- Behind the characters that are alike. -/
theorem cmpTail_moves (hstop : s = [] ∨ s.head? ≠ t.head?)
    (h : Moves depth inside s t inside' s' t') (words : Nat) :
    cmpTail fuel words s t = cmpNext fuel s' t' := by
  obtain ⟨words', hnext⟩ := h.nextWords words
  rw [cmpTail_stop hstop, hnext]
  rfl

/-- The comparison is that of `cmp_strings`. -/
theorem Compared.cmpTail (h : Compared depth inside s t b) : ∀ (fuel words : Nat),
    s.length + t.length ≤ fuel → Left.cmpTail fuel words s t = some b := by
  induction h with
  | @typed _ _ s s' hs =>
    intro fuel words _
    have hstop : s = [] ∨ s.head? ≠ ([] : CString).head? := by
      cases s with
      | nil => exact Or.inl rfl
      | cons c s => exact Or.inr (by simp)
    obtain ⟨words', hnext⟩ := nextWords_eq words hs (t := []) rfl rfl rfl
    rw [cmpTail_stop hstop, hnext, Option.bind_some]
    unfold cmpNext
    dsimp only
    split <;> rfl
  | @ended _ _ t t' u _ ht hu _ =>
    intro fuel words _
    have hnone : (if t'.head?.any isBreak then beyondSpace [] else some []) = some [] := by
      split <;> rfl
    obtain ⟨words', hnext⟩ := nextWords_eq words (s := []) rfl ht hnone hu
    rw [cmpTail_stop (Or.inl rfl), hnext]
    rfl
  | same hc _ ih =>
    intro fuel words hfuel
    rw [List.length_cons, List.length_cons] at hfuel
    rw [cmpTail_same hc]
    exact ih fuel words (by omega)
  | spaces hc hs ht _ ih =>
    intro fuel words hfuel
    have hslen := length_beyondSpace_cons hc hs.1
    have htlen := length_beyondSpace_cons hc ht.1
    rw [List.length_cons, List.length_cons] at hfuel
    rw [cmpTail_break hc hs.1 ht.1]
    exact ih fuel _ (by omega)
  | typedBehind hne _ hmoves =>
    intro fuel words _
    rw [cmpTail_moves (Or.inr hne) hmoves]
    unfold cmpNext
    split <;> rfl
  | endedBehind hne _ hmoves ht _ =>
    intro fuel words _
    rw [cmpTail_moves (Or.inr hne) hmoves, cmpNext, if_pos rfl, decide_eq_false ht]
  | @differs _ _ s t _ _ _ _ _ hne hs hmoves hs' ht' hu hv _ _ hdiff =>
    intro fuel words hfuel
    have hpos := List.length_pos_iff.mpr hs
    obtain ⟨fuel, rfl⟩ : ∃ k, fuel = k + 1 := ⟨fuel - 1, by omega⟩
    rw [cmpTail_moves (Or.inr hne) hmoves, cmpNext, if_neg hs', if_neg ht', cmpLoop_eq hu.1 hv.1, if_pos]
    exact hdiff
  | @again _ _ _ _ s t s' t' u v hne hs hmoves hs' ht' hu hv hsame _ ih =>
    intro fuel words hfuel
    have hpos := List.length_pos_iff.mpr hs
    obtain ⟨fuel, rfl⟩ : ∃ k, fuel = k + 1 := ⟨fuel - 1, by omega⟩
    have hulen := length_skipParentheses hu.1
    have hvlen := length_skipParentheses hv.1
    -- with nothing skipped the first characters would still differ
    have hshort : u.length + v.length < s.length + t.length := by
      rcases hmoves.shorter with ⟨rfl, rfl⟩ | hlt
      · rcases skipParentheses_eq_or_lt hu.1 with rfl | hlt
        · rcases skipParentheses_eq_or_lt hv.1 with rfl | hlt
          · exact absurd hsame hne
          · omega
        · omega
      · omega
    rw [cmpTail_moves (Or.inr hne) hmoves, cmpNext, if_neg hs', if_neg ht', cmpLoop_eq hu.1 hv.1,
      if_neg (not_not.mpr hsame)]
    exact ih fuel 0 (by omega)

end Loop

/-! ## The result -/

/-- Behind a first pair of parentheses the names begin alike and are compared as they should be, or they
begin with characters of words, or they do not agree. -/
def Comparable (s t : CString) : Prop :=
  ∃ u v, Keeps 0 false s u ∧ Keeps 0 false t v ∧
    ((u.head? = v.head? ∧ ∃ b, Compared 0 false u v b) ∨
      u.head? ≠ v.head? ∧ (Begins u ∧ Begins v ∨ ¬ WordPrefixes (nameWords s) (nameWords t)))

theorem dropGroups_up (s : CString) (depth : Nat) :
    dropGroups depth (upString s) = upString (dropGroups depth s) := by
  induction s generalizing depth with
  | nil => cases depth <;> rfl
  | cons c s ih =>
    obtain ⟨-, hlpar, hrpar⟩ := upChar_spec c
    rw [upString_eq, List.map_cons, ← upString_eq]
    cases depth with
    | zero =>
      rw [dropGroups, dropGroups]
      simp only [hlpar]
      split
      · exact ih 1
      · rw [ih, upString_eq (c :: _), List.map_cons, ← upString_eq]
    | succ depth =>
      rw [dropGroups, dropGroups, ih]
      simp only [hlpar, hrpar]

theorem nameWords_up (s : CString) : nameWords (upString s) = (nameWords s).map upString := by
  unfold nameWords
  rw [dropGroups_up, upString_eq, words_map fun c => (upChar_spec c).1]
  rfl

/-- Blanks at the end, which may be within parentheses. -/
theorem dropGroups_breaks {b : CString} (hb : Breaks b) (s : CString) (depth : Nat) :
    ∃ b', Breaks b' ∧ dropGroups depth (s ++ b) = dropGroups depth s ++ b' := by
  induction s generalizing depth with
  | nil =>
    cases depth with
    | zero =>
      refine ⟨b, hb, ?_⟩
      have hdrop := dropGroups_append (fun c hc => isBreak_lpar (hb c hc)) []
      rwa [List.append_nil, dropGroups, List.append_nil] at hdrop
    | succ depth =>
      refine ⟨[], by simp [Breaks], ?_⟩
      induction b with
      | nil => rfl
      | cons c b ih =>
        obtain ⟨hc, hb⟩ := List.forall_mem_cons.mp hb
        have hrpar : c ≠ ')' := by
          rintro rfl
          cases hc
        have hstep : dropGroups (depth + 1) (c :: b) = dropGroups (depth + 1) b := by
          rw [dropGroups, if_neg (isBreak_lpar hc), if_neg hrpar]
        exact hstep.trans (ih hb)
  | cons c s ih =>
    cases depth with
    | zero =>
      rw [List.cons_append, dropGroups, dropGroups]
      split
      · exact ih 1
      · obtain ⟨b', hb', heq⟩ := ih 0
        exact ⟨b', hb', by rw [heq, List.cons_append]⟩
    | succ depth =>
      rw [List.cons_append, dropGroups, dropGroups]
      exact ih _

theorem nameWords_rtrim (s : CString) : nameWords (rtrim s) = nameWords s := by
  cases s with
  | nil => rfl
  | cons c s =>
    obtain ⟨r, hr, hblank⟩ := trimEnd_append (· = ' ') s
    have hbreaks : Breaks r := by
      intro d hd
      obtain rfl : d = ' ' := by simpa using hblank d hd
      rfl
    have htrim : rtrim (c :: s) = c :: trimEnd (· = ' ') s := rfl
    obtain ⟨b', hb', heq⟩ := dropGroups_breaks hbreaks (c :: trimEnd (· = ' ') s) 0
    rw [htrim]
    conv_rhs => rw [hr, ← List.cons_append]
    unfold nameWords
    rw [heq, words_append_breaks hb']


section Names

variable {s t s1 s2 u v : CString}

theorem begins_nameWords (h : Begins s) : nameWords s = [] ↔ s = [] := by
  constructor
  · intro hnil
    cases s with
    | nil => rfl
    | cons c s =>
      obtain ⟨hc, hpar⟩ := h c rfl
      obtain ⟨w, ws, -, hw⟩ := restWords_char hc hpar false s
      have hwords : restWords 0 false (c :: s) = nameWords (c :: s) := rfl
      rw [hwords, hnil] at hw
      cases hw
  · rintro rfl
    exact words_nil

/-- Names that begin with different characters of words do not agree. -/
theorem not_agree_begins (hs : Begins s) (ht : Begins t) (hne : s.head? ≠ t.head?) (htnil : t ≠ []) :
    ¬ WordPrefixes (nameWords s) (nameWords t) := by
  obtain ⟨d, t, rfl⟩ := List.exists_cons_of_ne_nil htnil
  obtain ⟨hd, hpar⟩ := ht d rfl
  show ¬ WordPrefixes (restWords 0 false s) (restWords 0 false (d :: t))
  refine not_agree hd hpar hne hs.head_ne fun _ => ?_
  cases s with
  | nil => rfl
  | cons c s => exact (hs c rfl).1

/-- Only a typed name that ends before it is compared is taken for something else. -/
theorem cmpLoop_right (h : Comparable s t) : cmpLoop (s.length + t.length + 1) s t =
    some (decide (WordPrefixes (nameWords s) (nameWords t))) ↔
      (skipParentheses t = some [] → skipParentheses s = some []) := by
  obtain ⟨u, v, hu, hv, h⟩ := h
  have hulen := length_skipParentheses hu.1
  have hvlen := length_skipParentheses hv.1
  have hagree : WordPrefixes (nameWords s) (nameWords t) ↔ WordPrefixes (nameWords u) (nameWords v) := by
    have hsu : nameWords u = nameWords s := hu.2
    have htv : nameWords v = nameWords t := hv.2
    rw [hsu, htv]
  rw [cmpLoop_eq hu.1 hv.1, hu.1, hv.1, Option.some.injEq, Option.some.injEq]
  rcases h with ⟨hsame, b, hcmp⟩ | ⟨hne, hor⟩
  · have hb := hcmp.right
    rw [if_neg (not_not.mpr hsame), hcmp.cmpTail _ 0 (by omega)]
    refine iff_of_true ?_ fun hnil => ?_
    · rw [Option.some.injEq, Bool.eq_iff_iff, decide_eq_true_iff, hagree]
      exact hb.symm
    · rw [hnil] at hsame
      exact List.head?_eq_none_iff.mp hsame
  · rw [if_pos hne, Option.some.injEq, eq_comm, decide_eq_false_iff_not]
    by_cases hvnil : v = []
    · have hunil : u ≠ [] := by
        rintro rfl
        rw [hvnil] at hne
        exact hne rfl
      refine iff_of_false (not_not.mpr ?_) fun himp => hunil (himp hvnil)
      rw [hagree, hvnil]
      have hnone : nameWords [] = [] := words_nil
      rw [hnone]
      exact wordPrefixes_nil _
    · refine iff_of_true ?_ fun hnil => absurd hnil hvnil
      rcases hor with ⟨hub, hvb⟩ | hnot
      · rw [hagree]
        exact not_agree_begins hub hvb hne hvnil
      · exact hnot

end Names

section Regular

variable {ws vs : List CString} {s t u v w q r : CString}

theorem keeps_self (inside : Bool) (h : s.head? ≠ some '(') : Keeps 0 inside s s :=
  ⟨skipParentheses_of_head h, rfl⟩

theorem AtWord.nameWords (h : AtWord [] ws u) : nameWords u = ws := by
  have hnil : Left.nameWords [] = [] := words_nil
  have hnamed : Named [] ws u := by
    rcases h with ⟨rfl, rfl, he⟩ | ⟨w, us, r, rfl, hw, ⟨b, s, hb, hlast, hs, rfl⟩, rfl⟩
    · exact Named.rest he
    · exact Named.word hw hb hlast hs
  rw [hnamed.nameWords, hnil, List.append_nil]

theorem restWords_gap (hr : Gap [] ws r) (hw : ∀ c ∈ w, isBreak c = false ∧ c ≠ '(') :
    restWords 0 true (w ++ r) = w :: ws := by
  have hwords : Left.nameWords r = ws := by
    have hnil : Left.nameWords [] = [] := words_nil
    rw [hr.nameWords, hnil, List.append_nil]
  induction w with
  | nil =>
    rcases hr.head with ⟨rfl, rfl, -⟩ | ⟨c, t, rfl, hc⟩
    · exact restWords_nil 0 true
    · rw [List.nil_append, restWords_break hc]
      exact congrArg _ hwords
  | cons c w ih =>
    obtain ⟨hc, hw⟩ := List.forall_mem_cons.mp hw
    obtain ⟨v, vs, hv, hcons⟩ := restWords_char hc.1 hc.2 true (w ++ r)
    rw [ih hw, List.cons.injEq] at hv
    rw [List.cons_append, hcons, ← hv.1, ← hv.2]

theorem toNext_gap (hr : Gap [] ws r) (hw : ∀ c ∈ w, isBreak c = false ∧ c ≠ '(') :
    ∃ u, ToNext 0 true (w ++ r) u ∧ AtWord [] ws u := by
  obtain ⟨u, hu, hat⟩ := skip_gap hr fun c hc => (hw c hc).1
  refine ⟨u, ⟨hu, ?_⟩, hat⟩
  have hwords : restWords 0 false u = ws := hat.nameWords
  rw [nextRest, if_pos ⟨rfl, rfl⟩, restWords_gap hr hw]
  exact hwords

theorem compared_ended (inside : Bool) (h : Begins t) (hne : t ≠ []) : Compared 0 inside [] t (t = []) := by
  refine Compared.ended (v := t) hne (skipParentheses_of_head h.head_ne) ?_ (begins_nameWords h).symm
  obtain ⟨c, t, rfl⟩ := List.exists_cons_of_ne_nil hne
  rw [List.head?_cons, Option.any_some, (h c rfl).1]
  rfl

/-- Where the word of the typed name has ended. -/
theorem exists_compared_gap (hr : Gap [] ws r) (hq : Gap [] vs q)
    (ih : ∀ {s t}, AtWord [] ws s → AtWord [] vs t → t.length < q.length → ∃ b, Compared 0 false s t b)
    {w : CString} (hw : ∀ c ∈ w, isBreak c = false ∧ c ≠ '(') :
    ∃ b, Compared 0 true (w ++ r) q b := by
  have hspar : (w ++ r).head? ≠ some '(' := hr.head_ne hw
  rcases hq.head with ⟨rfl, -⟩ | ⟨c, t, rfl, hc⟩
  · exact ⟨_, Compared.typed (skipParentheses_of_head hspar)⟩
  obtain ⟨u, hu, huat⟩ := toNext_gap hr hw
  obtain ⟨p, hp, hpat⟩ := toNext_gap (w := []) hq (by simp)
  rw [List.nil_append] at hp
  have htpar : (c :: t).head? ≠ some '(' := by simpa using isBreak_lpar hc
  have hplen := Nat.lt_succ_of_le (length_beyondSpace_cons hc hp.1)
  have hpwords : restWords 0 false p = [] ↔ p = [] := begins_nameWords hpat.begins
  by_cases hnil : w ++ r = []
  · rw [hnil]
    refine ⟨_, Compared.ended (v := p) (List.cons_ne_nil c t) (skipParentheses_of_head htpar) ?_ ?_⟩
    · rw [List.head?_cons, Option.any_some, if_pos hc]
      exact hp.1
    · have hwords : restWords 0 false p = nextRest 0 true (c :: t) := hp.2
      rw [nextRest, if_pos ⟨rfl, rfl⟩, restWords_break hc, List.tail_cons] at hwords
      rw [← hwords, hpwords]
  by_cases hsame : (w ++ r).head? = some c
  · obtain ⟨s, hs⟩ : ∃ s, w ++ r = c :: s := by
      cases hwr : w ++ r with
      | nil => exact absurd hwr hnil
      | cons d s =>
        rw [hwr] at hsame
        cases hsame
        exact ⟨s, rfl⟩
    obtain ⟨b, hb⟩ := ih huat hpat hplen
    rw [hs] at hu ⊢
    exact ⟨b, Compared.spaces hc hu hp hb⟩
  have hmoves : Moves 0 true (w ++ r) (c :: t) false u p :=
    Moves.next (keeps_self true hspar) (keeps_self true htpar) (by simpa using hc) hu hp
  by_cases hpnil : p = []
  · rw [hpnil] at hmoves
    exact ⟨_, Compared.typedBehind hsame hnil hmoves⟩
  by_cases hunil : u = []
  · rw [hunil] at hmoves
    exact ⟨_, Compared.endedBehind hsame hnil hmoves hpnil (mt hpwords.mp hpnil)⟩
  by_cases hheads : u.head? = p.head?
  · obtain ⟨b, hb⟩ := ih huat hpat hplen
    exact ⟨b, Compared.again hsame hnil hmoves hunil hpnil (keeps_self false huat.begins.head_ne)
      (keeps_self false hpat.begins.head_ne) hheads hb⟩
  · obtain ⟨d, p, rfl⟩ := List.exists_cons_of_ne_nil hpnil
    obtain ⟨hd, hdpar⟩ := hpat.begins d rfl
    refine ⟨_, Compared.differs hsame hnil hmoves hunil hpnil (keeps_self false huat.begins.head_ne)
      (keeps_self false hpat.begins.head_ne) hd hdpar hheads huat.begins.head_ne fun _ => ?_⟩
    cases u with
    | nil => rfl
    | cons e u => exact (huat.begins e rfl).1

/-- At two words, when it is known from the next words on. -/
theorem exists_compared_words (hr : Gap [] ws r) (hq : Gap [] vs q)
    (ih : ∀ {s t}, AtWord [] ws s → AtWord [] vs t → t.length < q.length → ∃ b, Compared 0 false s t b) :
    ∀ {w v : CString} (inside : Bool), (∀ c ∈ w, isBreak c = false ∧ c ≠ '(') →
      (∀ c ∈ v, isBreak c = false ∧ c ≠ '(') → (inside = false → w ≠ [] ∧ v ≠ []) →
      ∃ b, Compared 0 inside (w ++ r) (v ++ q) b := by
  intro w v inside hw hv hinside
  have hspar : (w ++ r).head? ≠ some '(' := hr.head_ne hw
  induction v generalizing w inside with
  | nil =>
    obtain rfl : inside = true := by
      by_contra hnot
      exact (hinside (by simpa using hnot)).2 rfl
    rw [List.nil_append]
    exact exists_compared_gap hr hq ih hw
  | cons d v ihv =>
    obtain ⟨hd, hv⟩ := List.forall_mem_cons.mp hv
    have htpar : (d :: (v ++ q)).head? ≠ some '(' := by simpa using hd.2
    rw [List.cons_append]
    by_cases hsame : (w ++ r).head? = some d
    · cases w with
      | nil =>
        rcases hr.head with ⟨rfl, -⟩ | ⟨c, t, rfl, hc⟩
        · cases hsame
        · cases hsame
          rw [hd.1] at hc
          cases hc
      | cons c w =>
        cases hsame
        obtain ⟨-, hw⟩ := List.forall_mem_cons.mp hw
        have hin : (inside || (decide (0 = 0) && decide (d ≠ '('))) = true := by simp [hd.2]
        have hdepth : depthAfter 0 d = 0 := by
          unfold depthAfter
          rw [if_neg hd.2]
          split <;> rfl
        obtain ⟨b, hb⟩ := ihv true hw hv (fun h => by cases h) (hr.head_ne hw)
        refine ⟨b, Compared.same hd.1 ?_⟩
        rw [hin, hdepth]
        exact hb
    have hbegins : Begins (d :: (v ++ q)) := by
      rintro c ⟨⟩
      exact hd
    by_cases hnil : w ++ r = []
    · rw [hnil]
      exact ⟨_, compared_ended inside hbegins (List.cons_ne_nil d _)⟩
    · refine ⟨_, Compared.differs hsame hnil (Moves.here (keeps_self inside hspar) (keeps_self inside htpar) hd.1)
        hnil (List.cons_ne_nil d _) (keeps_self inside hspar) (keeps_self inside htpar) hd.1 hd.2 hsame hspar ?_⟩
      intro hfalse
      cases w with
      | nil => exact absurd rfl (hinside hfalse).1
      | cons c w => exact (hw c List.mem_cons_self).1

theorem AtWord.exists_compared (n : Nat) : ∀ {ws vs : List CString} {s t : CString}, AtWord [] ws s →
    AtWord [] vs t → t.length ≤ n → ∃ b, Compared 0 false s t b := by
  induction n using Nat.strong_induction_on with
  | _ n ih =>
    intro ws vs s t hs ht hn
    rcases ht with ⟨-, rfl, -⟩ | ⟨v, ps, q, rfl, hv, hq, rfl⟩
    · exact ⟨_, Compared.typed (skipParentheses_of_head hs.begins.head_ne)⟩
    rcases hs with ⟨-, rfl, -⟩ | ⟨w, us, r, rfl, hw, hr, rfl⟩
    · exact ⟨_, compared_ended false (hv.begins q) (List.append_ne_nil_of_left_ne_nil hv.1 q)⟩
    · have hpos := List.length_pos_iff.mpr hv.1
      rw [List.length_append] at hn
      exact exists_compared_words hr hq (fun hs ht hlt => ih q.length (by omega) hs ht (Nat.le_of_lt hlt)) false
        hw.2 hv.2 fun _ => ⟨hw.1, hv.1⟩

/-- Names whose parentheses stand where a word could begin, no pair directly behind another one. -/
theorem Named.comparable (hs : Named [] ws s) (ht : Named [] vs t) : Comparable s t := by
  obtain ⟨u, hu, huat⟩ := skip_named hs
  obtain ⟨p, hp, hpat⟩ := skip_named ht
  have hnil : Left.nameWords [] = [] := words_nil
  have hsu : restWords 0 false u = restWords 0 false s := by
    show Left.nameWords u = Left.nameWords s
    rw [huat.nameWords, hs.nameWords, hnil, List.append_nil]
  have htp : restWords 0 false p = restWords 0 false t := by
    show Left.nameWords p = Left.nameWords t
    rw [hpat.nameWords, ht.nameWords, hnil, List.append_nil]
  refine ⟨u, p, ⟨hu, hsu⟩, ⟨hp, htp⟩, ?_⟩
  by_cases hsame : u.head? = p.head?
  · exact Or.inl ⟨hsame, AtWord.exists_compared _ huat hpat (Nat.le_refl _)⟩
  · exact Or.inr ⟨hsame, Or.inl ⟨huat.begins, hpat.begins⟩⟩

end Regular

end SklaffKom.Left
