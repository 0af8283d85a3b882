import SklaffKom.CmpStrings
import SklaffKom.ParseStrings

/-!
# Positions in the buffers

`cmp_strings` and `parse_strings` copy their strings to static buffers.  Where they stay within the strings,
what the buffers hold behind them does not matter.
-/

open CString

namespace SklaffKom

/-! ## `parse_strings` with its buffers -/

/-- Both strings go on at the next word, which is counted if the line goes on. -/
def skipSpaces (s1 s2 : CString) (fuel : Nat) : Nat × Nat × Nat → Nat × Nat × Nat
  | (words, p1, p2) =>
    let p1 := skipBeyondSpace s1 fuel p1
    let p2 := skipBeyondSpace s2 fuel p2
    (if charAt s2 p2 = '\x00' then words else words + 1, p1, p2)

/-- The loop of `parse_strings` over the characters that agree. -/
def parseRun (s1 s2 : CString) : Nat → Nat × Nat × Nat → Nat × Nat × Nat
  | 0, p => p
  | fuel + 1, (words, p1, p2) =>
    if charAt s1 p1 = charAt s2 p2 ∧ charAt s1 p1 ≠ '\x00' then
      parseRun s1 s2 fuel
        (if isBreak (charAt s2 p2) then skipSpaces s1 s2 fuel (words, p1, p2) else (words, p1 + 1, p2 + 1))
    else (words, p1, p2)

/-- What follows that loop. -/
def parseWords (s1 s2 : CString) (fuel : Nat) : Nat × Nat × Nat → Nat × Nat × Nat
  | (words, p1, p2) =>
    let p1 := skipParentheses s1 fuel p1
    let p2 := skipParentheses s2 fuel p2
    if isBreak (charAt s2 p2) then skipSpaces s1 s2 fuel (words, p1, p2) else (words, p1, p2)

/-- The outer loop: the number of words and, after a `break`, the position in the line. -/
def parseLoop (s1 s2 : CString) (wcnt : Int) : Nat → Nat × Nat × Nat → Nat × Option Nat
  | 0, (words, _, _) => (words, none)
  | fuel + 1, (words, p1, p2) =>
    let p1 := skipParentheses s1 fuel p1
    let p2 := skipParentheses s2 fuel p2
    if charAt s1 p1 = '\x00' then if charAt s2 p2 = '\x00' then (words + 1, none) else (words, some p2)
    else if charAt s1 p1 ≠ charAt s2 p2 then (words, none)
    else
      let (words, p1, p2) := parseWords s1 s2 fuel (parseRun s1 s2 fuel (words, p1, p2))
      if charAt s1 p1 = '\x00' then if charAt s2 p2 = '\x00' then (words + 1, none) else (words, some p2)
      else if charAt s2 p2 = '\x00' then (words + 1, none)
      else if words = wcnt then (words, some p2)
      else parseLoop s1 s2 wcnt fuel (words, p1, p2)

/-- What earlier calls have left in the buffers, behind the copies. -/
structure ParseMem where
  tmp1 : CString
  tmp2 : CString
  orig : CString

def parseStrings (mem : ParseMem) (s1 s2 : CString) (wcnt : Int) (parm : CString) : Nat × CString :=
  let tmp1 := upString (rtrim s1) ++ '\x00' :: mem.tmp1
  let orig := rtrim s2 ++ '\x00' :: mem.orig
  let tmp2 := upString (rtrim s2) ++ '\x00' :: mem.tmp2
  let fuel := tmp1.length + tmp2.length + 1
  match parseLoop tmp1 tmp2 wcnt fuel (0, 0, 0) with
  | (words, none) => (words, parm)
  | (words, some p2) =>
    let (words, p2) := if isBreak (charAt tmp2 p2) then
        let p2 := skipBeyondSpace tmp2 fuel p2
        (if charAt tmp2 p2 = '\x00' then words else words + 1, p2)
      else (words, p2)
    (words, (orig.drop p2).takeWhile (· ≠ '\x00'))

/-- `cmp_strings` walks in the same way. -/
theorem cmpRun_eq (s1 s2 : CString) (fuel words : Nat) (p : Nat × Nat) :
    cmpRun s1 s2 fuel p = (parseRun s1 s2 fuel (words, p)).2 := by
  induction fuel generalizing words p with
  | zero => rfl
  | succ fuel ih =>
    obtain ⟨p1, p2⟩ := p
    rw [cmpRun, parseRun]
    split
    · split
      · exact ih _ _
      · exact ih _ _
    · rfl

theorem cmpLoop_round (s1 s2 : CString) (fuel p1 p2 : Nat) : cmpLoop s1 s2 (fuel + 1) (p1, p2) =
    if charAt s1 (skipParentheses s1 fuel p1) ≠ charAt s2 (skipParentheses s2 fuel p2) then false
    else
      let q := parseWords s1 s2 fuel
        (parseRun s1 s2 fuel (0, skipParentheses s1 fuel p1, skipParentheses s2 fuel p2))
      if charAt s1 q.2.1 = '\x00' then charAt s2 q.2.2 = '\x00'
      else if charAt s2 q.2.2 = '\x00' then true
      else cmpLoop s1 s2 fuel q.2 := by
  rw [cmpLoop, cmpRun_eq s1 s2 fuel 0]
  obtain ⟨words, i, j⟩ := parseRun s1 s2 fuel (0, skipParentheses s1 fuel p1, skipParentheses s2 fuel p2)
  dsimp only
  rw [parseWords]
  by_cases hbreak : isBreak (charAt s2 (skipParentheses s2 fuel j)) = true
  · rw [if_pos hbreak, if_pos hbreak]
    rfl
  · rw [if_neg hbreak, if_neg hbreak]

end SklaffKom

namespace SklaffKom.Left

/-- At the position `i` of a buffer `x` is left of its string. -/
def At (old buf : CString) (i : Nat) (x : CString) : Prop := '\x00' ∉ x ∧ buf.drop i = x ++ '\x00' :: old

section Positions

variable {old buf x y : CString} {c : Char} {i : Nat}

theorem At.charAt (h : At old buf i x) : charAt buf i = x.head?.getD '\x00' := by
  obtain ⟨-, hdrop⟩ := h
  unfold SklaffKom.charAt
  rw [List.getD_eq_getElem?_getD, ← List.head?_drop, hdrop]
  cases x with
  | nil => rfl
  | cons c x => rfl

theorem At.succ (h : At old buf i (c :: x)) : At old buf (i + 1) x := by
  obtain ⟨hnul, hdrop⟩ := h
  refine ⟨fun hmem => hnul (List.mem_cons_of_mem c hmem), ?_⟩
  rw [← List.tail_drop, hdrop]
  rfl

theorem At.ne_nul (h : At old buf i (c :: x)) : c ≠ '\x00' := by
  rintro rfl
  exact h.1 List.mem_cons_self

/-- The string goes on with `d` where the buffer does. -/
theorem At.charAt_eq (h : At old buf i x) {d : Char} (hd : d ≠ '\x00') :
    SklaffKom.charAt buf i = d ↔ x.head? = some d := by
  rw [h.charAt]
  cases x with
  | nil => exact iff_of_false hd.symm (by simp)
  | cons c x => simp

theorem At.charAt_nul (h : At old buf i x) : SklaffKom.charAt buf i = '\x00' ↔ x = [] := by
  rw [h.charAt]
  cases x with
  | nil => exact iff_of_true rfl rfl
  | cons c x => exact iff_of_false h.ne_nul (List.cons_ne_nil c x)

theorem At.isBreak (h : At old buf i x) :
    SklaffKom.isBreak (SklaffKom.charAt buf i) = x.head?.any SklaffKom.isBreak := by
  rw [h.charAt]
  cases x with
  | nil => rfl
  | cons c x => rfl

/-- Walking on over characters of the string. -/
theorem At.dropWhile (h : At old buf i x) {P Q : Char → Bool} (hnul : P '\x00' = false)
    (hPQ : ∀ c ≠ '\x00', P c = Q c) : At old buf (i + ((buf.drop i).takeWhile P).length) (x.dropWhile Q) := by
  induction x generalizing i with
  | nil =>
    obtain ⟨hnot, hdrop⟩ := h
    rw [hdrop, List.nil_append, List.takeWhile_cons_of_neg (by simp [hnul])]
    exact ⟨hnot, hdrop⟩
  | cons c x ih =>
    have hsucc := ih h.succ
    have hc := hPQ c h.ne_nul
    obtain ⟨hnot, hdrop⟩ := h
    have hnext : buf.drop (i + 1) = x ++ '\x00' :: old := by
      rw [← List.tail_drop, hdrop]
      rfl
    rw [hdrop, List.cons_append]
    by_cases hQ : Q c = true
    · rw [List.dropWhile_cons_of_pos hQ, List.takeWhile_cons_of_pos (hc.trans hQ), ← hnext, List.length_cons]
      have hcomm : i + 1 + ((buf.drop (i + 1)).takeWhile P).length =
          i + (((buf.drop (i + 1)).takeWhile P).length + 1) := by omega
      rw [← hcomm]
      exact hsucc
    · rw [List.dropWhile_cons_of_neg hQ, List.takeWhile_cons_of_neg (by rw [hc]; exact hQ)]
      exact ⟨hnot, hdrop⟩

end Positions

/-! ## The skippers -/

/-- With at least as much fuel the skippers come to the same place. -/
theorem skip_index (old : CString) (fuel : Nat) :
    (∀ buf i x y, At old buf i x → skipBeyondRpar fuel x = some y → ∀ g ≥ fuel,
      At old buf (SklaffKom.skipBeyondRpar buf g i) y) ∧
    ∀ buf i x y, At old buf i x → skipBeyondSpace fuel x = some y → ∀ g ≥ fuel,
      At old buf (SklaffKom.skipBeyondSpace buf g i) y := by
  induction fuel with
  | zero =>
    constructor
    · intro buf i x y _ hy
      cases x <;> cases hy
    · intro buf i x y _ hy
      cases hy
  | succ fuel ih =>
    obtain ⟨hrpar, hspace⟩ := ih
    constructor
    · intro buf i x y hx hy g hg
      obtain ⟨g, rfl⟩ : ∃ k, g = k + 1 := ⟨g - 1, by omega⟩
      have hg : fuel ≤ g := by omega
      cases x with
      | nil => cases hy
      | cons c x =>
        have hnext := hx.succ
        have hchar : charAt buf i = c := (hx.charAt_eq hx.ne_nul).mpr rfl
        rw [skipBeyondRpar] at hy
        rw [SklaffKom.skipBeyondRpar, hchar]
        by_cases hc : c = ')'
        · rw [if_pos hc] at hy
          rw [if_neg (fun h => h.1 hc), hnext.isBreak]
          split at hy
          · next hbreak =>
            rw [if_pos hbreak]
            exact hspace buf (i + 1) x y hnext hy g hg
          · next hbreak =>
            cases hy
            rw [if_neg hbreak]
            exact hnext
        · rw [if_neg hc] at hy
          rw [if_pos ⟨hc, hx.ne_nul⟩]
          have hpar := @At.charAt_eq _ _ _ _ hnext '(' (by decide)
          split at hy
          · next hlpar =>
            obtain ⟨u, hu, hy⟩ := Option.bind_eq_some_iff.mp hy
            rw [if_pos (hpar.mpr hlpar)]
            exact hrpar buf _ u y (hrpar buf (i + 1) x u hnext hu g hg) hy g hg
          · next hlpar =>
            rw [if_neg (mt hpar.mp hlpar)]
            exact hrpar buf (i + 1) x y hnext hy g hg
    · intro buf i x y hx hy g hg
      obtain ⟨g, rfl⟩ : ∃ k, g = k + 1 := ⟨g - 1, by omega⟩
      have hword : At old buf (i + ((buf.drop i).takeWhile fun c => !isBreak c && c ≠ '\x00').length)
          (x.dropWhile fun c => !isBreak c) :=
        hx.dropWhile (by decide) fun c hc => by simp [hc]
      have hbreaks := @At.dropWhile _ _ _ _ hword isBreak isBreak (by decide) fun _ _ => rfl
      have hpar := @At.charAt_eq _ _ _ _ hbreaks '(' (by decide)
      rw [skipBeyondSpace] at hy
      rw [SklaffKom.skipBeyondSpace]
      split at hy
      · next hlpar =>
        rw [if_pos (hpar.mpr hlpar)]
        exact hrpar buf _ _ y hbreaks hy g (by omega)
      · next hlpar =>
        cases hy
        rw [if_neg (mt hpar.mp hlpar)]
        exact hbreaks

section Index

variable {old old1 old2 buf s1 s2 x y u v : CString} {i j g words : Nat}

theorem skipParentheses_index (h : At old buf i x) (hy : skipParentheses x = some y) (hg : x.length < g) :
    At old buf (SklaffKom.skipParentheses buf g i) y := by
  have hpar := @At.charAt_eq _ _ _ _ h '(' (by decide)
  unfold skipParentheses at hy
  unfold SklaffKom.skipParentheses
  split at hy
  · next hlpar =>
    rw [if_pos (hpar.mpr hlpar)]
    exact (skip_index old _).1 buf i x y h hy g hg
  · next hlpar =>
    cases hy
    rw [if_neg (mt hpar.mp hlpar)]
    exact h

theorem beyondSpace_index (h : At old buf i x) (hy : beyondSpace x = some y) (hg : x.length < g) :
    At old buf (SklaffKom.skipBeyondSpace buf g i) y := (skip_index old _).2 buf i x y h hy g hg

/-- The common part of two positions. -/
theorem parseRun_index (fuel : Nat) : ∀ {words i j g x y p}, At old1 s1 i x → At old2 s2 j y →
    matchRun fuel words x y = some p → x.length + y.length < g →
    ∃ i' j', parseRun s1 s2 g (words, i, j) = (p.1, i', j') ∧ At old1 s1 i' p.2.1 ∧ At old2 s2 j' p.2.2 ∧
      p.2.1.length ≤ x.length ∧ p.2.2.length ≤ y.length ∧
      (x ≠ [] → x.head? = y.head? → p.2.2.length < y.length) := by
  induction fuel with
  | zero =>
    intro words i j g x y p _ _ hp
    cases hp
  | succ fuel ih =>
    intro words i j g x y p hx hy hp hg
    obtain ⟨g, rfl⟩ : ∃ k, g = k + 1 := ⟨g - 1, by omega⟩
    by_cases hstop : x = [] ∨ x.head? ≠ y.head?
    · rw [matchRun_stop hstop] at hp
      cases hp
      have hnot : ¬ (charAt s1 i = charAt s2 j ∧ charAt s1 i ≠ '\x00') := by
        rintro ⟨heq, hne⟩
        rw [Ne, hx.charAt_nul] at hne
        rcases hstop with hnil | hheads
        · exact hne hnil
        · obtain ⟨c, x, rfl⟩ := List.exists_cons_of_ne_nil hne
          have hc : charAt s1 i = c := (hx.charAt_eq hx.ne_nul).mpr rfl
          rw [hc] at heq
          exact hheads ((hy.charAt_eq hx.ne_nul).mp heq.symm).symm
      refine ⟨i, j, ?_, hx, hy, Nat.le_refl _, Nat.le_refl _, fun hne hheads => ?_⟩
      · rw [parseRun, if_neg hnot]
      · exact absurd hstop (not_or.mpr ⟨hne, not_not.mpr hheads⟩)
    · rw [not_or, not_not] at hstop
      obtain ⟨hne, hheads⟩ := hstop
      obtain ⟨c, x, rfl⟩ := List.exists_cons_of_ne_nil hne
      cases y with
      | nil => cases hheads
      | cons d y =>
        obtain rfl : c = d := Option.some.inj hheads
        have hc : charAt s1 i = c := (hx.charAt_eq hx.ne_nul).mpr rfl
        have hd : charAt s2 j = c := (hy.charAt_eq hy.ne_nul).mpr rfl
        rw [List.length_cons, List.length_cons] at hg
        rw [matchRun, if_pos rfl] at hp
        have hrun : parseRun s1 s2 (g + 1) (words, i, j) = parseRun s1 s2 g (if isBreak c then
            skipSpaces s1 s2 g (words, i, j) else (words, i + 1, j + 1)) := by
          rw [parseRun, hc, hd, if_pos ⟨rfl, hx.ne_nul⟩]
        rw [hrun]
        split at hp
        · next hbreak =>
          obtain ⟨u, hu, hp⟩ := Option.bind_eq_some_iff.mp hp
          obtain ⟨v, hv, hp⟩ := Option.bind_eq_some_iff.mp hp
          have hulen := length_beyondSpace_cons hbreak hu
          have hvlen := length_beyondSpace_cons hbreak hv
          have hui := beyondSpace_index hx hu (show (c :: x).length < g by rw [List.length_cons]; omega)
          have hvj := beyondSpace_index hy hv (show (c :: y).length < g by rw [List.length_cons]; omega)
          obtain ⟨i', j', hrun', hi', hj', hilen, hjlen, -⟩ := @ih _ _ _ g _ _ _ hui hvj hp (by omega)
          rw [if_pos hbreak, skipSpaces]
          simp only [hvj.charAt_nul]
          rw [hrun', List.length_cons, List.length_cons]
          exact ⟨i', j', rfl, hi', hj', by omega, by omega, fun _ _ => by omega⟩
        · next hbreak =>
          obtain ⟨i', j', hrun', hi', hj', hilen, hjlen, -⟩ := @ih _ _ _ g _ _ _ hx.succ hy.succ hp (by omega)
          rw [if_neg hbreak, hrun', List.length_cons, List.length_cons]
          exact ⟨i', j', rfl, hi', hj', by omega, by omega, fun _ _ => by omega⟩

/-- What follows the common part. -/
theorem nextWords_index {q : Nat × CString × CString} (hx : At old1 s1 i x) (hy : At old2 s2 j y)
    (hq : nextWords words x y = some q) (hxg : x.length < g) (hyg : y.length < g) :
    ∃ i' j', parseWords s1 s2 g (words, i, j) = (q.1, i', j') ∧
      At old1 s1 i' q.2.1 ∧ At old2 s2 j' q.2.2 ∧ q.2.1.length ≤ x.length ∧ q.2.2.length ≤ y.length := by
  unfold nextWords at hq
  obtain ⟨u, hu, hq⟩ := Option.bind_eq_some_iff.mp hq
  obtain ⟨v, hv, hq⟩ := Option.bind_eq_some_iff.mp hq
  have hui := skipParentheses_index hx hu hxg
  have hvj := skipParentheses_index hy hv hyg
  have hulen := length_skipParentheses hu
  have hvlen := length_skipParentheses hv
  rw [parseWords, hvj.isBreak]
  split at hq
  · next hbreak =>
    obtain ⟨u', hu', hq⟩ := Option.bind_eq_some_iff.mp hq
    obtain ⟨v', hv', hq⟩ := Option.bind_eq_some_iff.mp hq
    cases hq
    have hulen' := length_beyondSpace hu'
    have hvlen' := length_beyondSpace hv'
    have hui' := beyondSpace_index hui hu' (show u.length < g by omega)
    have hvj' := beyondSpace_index hvj hv' (show v.length < g by omega)
    rw [if_pos hbreak, skipSpaces]
    simp only [hvj'.charAt_nul]
    exact ⟨_, _, rfl, hui', hvj', hulen'.trans hulen, hvlen'.trans hvlen⟩
  · next hbreak =>
    cases hq
    rw [if_neg hbreak]
    exact ⟨_, _, rfl, hui, hvj, hulen, hvlen⟩

/-- The characters at which a round starts. -/
theorem heads_index (hx : At old1 s1 i x) (hy : At old2 s2 j y) :
    charAt s1 i = charAt s2 j ↔ x.head? = y.head? := by
  cases y with
  | nil => rw [hy.charAt_nul.mpr rfl, hx.charAt_nul, List.head?_nil, List.head?_eq_none_iff]
  | cons d y =>
    rw [(hy.charAt_eq hy.ne_nul).mpr rfl, hx.charAt_eq hy.ne_nul]
    rfl

/-- Behind equal characters a round goes on. -/
theorem round_index {p q : Nat × CString × CString} (hx : At old1 s1 i x) (hy : At old2 s2 j y)
    (hp : runEqual words x y = some p) (hq : nextWords p.1 p.2.1 p.2.2 = some q) (hheads : x.head? = y.head?)
    (hg : x.length + y.length < g) :
    ∃ i' j', parseWords s1 s2 g (parseRun s1 s2 g (words, i, j)) = (q.1, i', j') ∧
      At old1 s1 i' q.2.1 ∧ At old2 s2 j' q.2.2 ∧
      (q.2.1 ≠ [] → q.2.1.length + q.2.2.length < x.length + y.length) := by
  obtain ⟨i', j', hrun, hi', hj', hilen, hjlen, hshort⟩ := parseRun_index _ hx hy hp hg
  obtain ⟨i'', j'', hnext, hi'', hj'', hilen', hjlen'⟩ :=
    @nextWords_index old1 old2 s1 s2 _ _ i' j' g p.1 q hi' hj' hq (by omega) (by omega)
  refine ⟨i'', j'', by rw [hrun, hnext], hi'', hj'', fun hne => ?_⟩
  have hxne : x ≠ [] := by
    rintro rfl
    rw [List.length_nil] at hilen
    exact hne (List.length_eq_zero_iff.mp (by omega))
  have hjlen'' := hshort hxne hheads
  omega

theorem cmpLoop_index (fuel : Nat) : ∀ {i j g x y b}, At old1 s1 i x → At old2 s2 j y →
    cmpLoop fuel x y = some b → x.length + y.length + 1 < g → SklaffKom.cmpLoop s1 s2 g (i, j) = b := by
  induction fuel with
  | zero =>
    intro i j g x y b _ _ hb
    cases hb
  | succ fuel ih =>
    intro i j g x y b hx hy hb hg
    obtain ⟨g, rfl⟩ : ∃ k, g = k + 1 := ⟨g - 1, by omega⟩
    rw [cmpLoop] at hb
    obtain ⟨u, hu, hb⟩ := Option.bind_eq_some_iff.mp hb
    obtain ⟨v, hv, hb⟩ := Option.bind_eq_some_iff.mp hb
    have hui := skipParentheses_index hx hu (show x.length < g by omega)
    have hvj := skipParentheses_index hy hv (show y.length < g by omega)
    have hulen := length_skipParentheses hu
    have hvlen := length_skipParentheses hv
    have hheads := heads_index hui hvj
    rw [cmpLoop_round]
    split at hb
    · next hne =>
      cases hb
      rw [if_pos (mt hheads.mp hne)]
    · next heq =>
      rw [not_not] at heq
      rw [if_neg (not_not.mpr (hheads.mpr heq))]
      obtain ⟨p, hp, hb⟩ := Option.bind_eq_some_iff.mp hb
      obtain ⟨⟨words, u', v'⟩, hq, hb⟩ := Option.bind_eq_some_iff.mp hb
      obtain ⟨i', j', hround, hi', hj', hshort⟩ := @round_index _ _ _ _ _ _ _ _ g 0 p _ hui hvj hp hq heq (by omega)
      rw [hround]
      simp only [hi'.charAt_nul, hj'.charAt_nul]
      dsimp only at hb hshort ⊢
      split at hb
      · next hnil =>
        cases hb
        rw [if_pos hnil]
      · next hne =>
        rw [if_neg hne]
        split at hb
        · next hnil =>
          cases hb
          rw [if_pos hnil]
        · next hne' =>
          rw [if_neg hne']
          have hshorter := hshort hne
          exact ih hi' hj' hb (show u'.length + v'.length + 1 < g by omega)

/-- The rest of a line after a `break`, as a position and as a string. -/
def SameRest (old buf : CString) (k : Option Nat) (rest : Option CString) : Prop :=
  k = none ∧ rest = none ∨ ∃ j t, k = some j ∧ rest = some t ∧ At old buf j t

/-- At the end of the command. -/
theorem end_index (hy : At old2 s2 j y) (words : Nat) :
    ∃ k, (if charAt s2 j = '\x00' then (words + 1, none) else (words, some j)) =
        ((if y = [] then (words + 1, none) else (words, some y)).1, k) ∧
      SameRest old2 s2 k (if y = [] then (words + 1, none) else (words, some y)).2 := by
  by_cases hnil : y = []
  · rw [if_pos hnil, if_pos (hy.charAt_nul.mpr hnil)]
    exact ⟨none, rfl, Or.inl ⟨rfl, rfl⟩⟩
  · rw [if_neg hnil, if_neg (mt hy.charAt_nul.mp hnil)]
    exact ⟨some j, rfl, Or.inr ⟨j, y, rfl, rfl, hy⟩⟩

/-- The position after a `break` is that of the rest. -/
theorem parseLoop_index {wcnt : Int} (fuel : Nat) : ∀ {words i j g x y r}, At old1 s1 i x → At old2 s2 j y →
    parseLoop wcnt fuel words x y = some r → x.length + y.length + 1 < g →
    ∃ k, SklaffKom.parseLoop s1 s2 wcnt g (words, i, j) = (r.1, k) ∧
      SameRest old2 s2 k r.2 := by
  induction fuel with
  | zero =>
    intro words i j g x y r _ _ hr
    cases hr
  | succ fuel ih =>
    intro words i j g x y r hx hy hr hg
    obtain ⟨g, rfl⟩ : ∃ k, g = k + 1 := ⟨g - 1, by omega⟩
    rw [parseLoop] at hr
    obtain ⟨u, hu, hr⟩ := Option.bind_eq_some_iff.mp hr
    obtain ⟨v, hv, hr⟩ := Option.bind_eq_some_iff.mp hr
    have hui := skipParentheses_index hx hu (show x.length < g by omega)
    have hvj := skipParentheses_index hy hv (show y.length < g by omega)
    have hulen := length_skipParentheses hu
    have hvlen := length_skipParentheses hv
    have hheads := heads_index hui hvj
    rw [SklaffKom.parseLoop]
    dsimp only
    split at hr
    · next hnil =>
      rw [if_pos (hui.charAt_nul.mpr hnil)]
      cases hr
      exact end_index hvj words
    · next hne =>
      rw [if_neg (mt hui.charAt_nul.mp hne)]
      split at hr
      · next hdiffers =>
        cases hr
        exact ⟨none, by rw [if_pos (mt hheads.mp hdiffers)], Or.inl ⟨rfl, rfl⟩⟩
      · next heq =>
        rw [not_not] at heq
        rw [if_neg (not_not.mpr (hheads.mpr heq))]
        obtain ⟨p, hp, hr⟩ := Option.bind_eq_some_iff.mp hr
        obtain ⟨⟨words', u', v'⟩, hq, hr⟩ := Option.bind_eq_some_iff.mp hr
        obtain ⟨i', j', hround, hi', hj', hshort⟩ :=
          @round_index _ _ _ _ _ _ _ _ g words p _ hui hvj hp hq heq (by omega)
        rw [hround]
        dsimp only at hr hshort ⊢
        split at hr
        · next hnil =>
          rw [if_pos (hi'.charAt_nul.mpr hnil)]
          cases hr
          exact end_index hj' words'
        · next hne =>
          rw [if_neg (mt hi'.charAt_nul.mp hne)]
          split at hr
          · next hend =>
            cases hr
            exact ⟨none, by rw [if_pos (hj'.charAt_nul.mpr hend)], Or.inl ⟨rfl, rfl⟩⟩
          · next hend =>
            rw [if_neg (mt hj'.charAt_nul.mp hend)]
            split at hr
            · next hall =>
              cases hr
              exact ⟨some _, by rw [if_pos hall], Or.inr ⟨_, _, rfl, rfl, hj'⟩⟩
            · next hall =>
              have hshorter := hshort hne
              rw [if_neg hall]
              exact ih hi' hj' hr (show u'.length + v'.length + 1 < g by omega)

theorem upper_ne_nul : ∀ n < 0x7e, 0x60 < n → Char.ofNat (n - 32) ≠ '\x00' := by decide

theorem upChar_nul {c : Char} (h : upChar c = '\x00') : c = '\x00' := by
  unfold upChar at h
  split at h
  · next hc => exact absurd h (upper_ne_nul c.toNat hc.2 hc.1)
  · exact h

theorem at_start {s : CString} (hs : '\x00' ∉ s) (old : CString) :
    At old (upString (rtrim s) ++ '\x00' :: old) 0 (upString (rtrim s)) := by
  refine ⟨fun hmem => ?_, rfl⟩
  obtain ⟨c, hc, hnul⟩ := List.mem_map.mp hmem
  rw [upChar_nul hnul] at hc
  exact hs (mem_rtrim hc)

/-- When the comparison ends within the strings, it does not depend on what the buffers hold. -/
theorem cmpStrings_index {b : Bool} (h1 : '\x00' ∉ s1) (h2 : '\x00' ∉ s2) (h : cmpStrings s1 s2 = some b)
    (old1 old2 : CString) : SklaffKom.cmpStrings old1 old2 s1 s2 = b := by
  apply cmpLoop_index _ (at_start h1 old1) (at_start h2 old2) h
  rw [List.length_append, List.length_append, List.length_cons, List.length_cons]
  omega

/-- The copy from `orig` starts where the rest of the line does. -/
theorem copy_index {orig rest : CString} (hx : At old (x ++ '\x00' :: old) j y) (horig : '\x00' ∉ orig)
    (hlen : orig.length = x.length) : ((orig ++ '\x00' :: rest).drop j).takeWhile (· ≠ '\x00') =
      orig.drop (orig.length - y.length) := by
  have hdrop := congrArg List.length hx.2
  rw [List.length_drop, List.length_append, List.length_append, List.length_cons] at hdrop
  have hj : j = orig.length - y.length := by omega
  rw [List.drop_append_of_le_length (by omega), hj]
  rw [List.takeWhile_append_of_pos]
  · simp
  · intro c hc
    have hne : c ≠ '\x00' := by
      rintro rfl
      exact horig (List.mem_of_mem_drop hc)
    simpa using hne

/-- So it is with the words of a line and what is stored in `parm`. -/
theorem parseStrings_index {wcnt : Int} {parm : CString} {r : Nat × CString} (h1 : '\x00' ∉ s1) (h2 : '\x00' ∉ s2)
    (h : parseStrings s1 s2 wcnt parm = some r) (mem : ParseMem) :
    SklaffKom.parseStrings mem s1 s2 wcnt parm = r := by
  unfold parseStrings at h
  obtain ⟨⟨words, rest⟩, hloop, hr⟩ := Option.bind_eq_some_iff.mp h
  have hfuel : (upString (rtrim s1)).length + (upString (rtrim s2)).length + 1 <
      (upString (rtrim s1) ++ '\x00' :: mem.tmp1).length +
        (upString (rtrim s2) ++ '\x00' :: mem.tmp2).length + 1 := by
    rw [List.length_append, List.length_append, List.length_cons, List.length_cons]
    omega
  obtain ⟨k, hindex, hsame⟩ := parseLoop_index _ (at_start h1 mem.tmp1) (at_start h2 mem.tmp2) hloop hfuel
  have horig : '\x00' ∉ rtrim s2 := fun hmem => h2 (mem_rtrim hmem)
  have hlen : (rtrim s2).length = (upString (rtrim s2)).length := (List.length_map _).symm
  unfold SklaffKom.parseStrings
  dsimp only at hr ⊢
  rw [hindex]
  rcases hsame with ⟨rfl, hrest⟩ | ⟨j, t, rfl, hrest, hj⟩
  · dsimp only at hrest
    subst hrest
    exact Option.some.inj hr
  · dsimp only at hrest
    subst hrest
    dsimp only at hr ⊢
    rw [hj.isBreak]
    split at hr
    · next hbreak =>
      obtain ⟨t', ht', hr⟩ := Option.bind_eq_some_iff.mp hr
      have hshort : t.length < (upString (rtrim s1) ++ '\x00' :: mem.tmp1).length +
          (upString (rtrim s2) ++ '\x00' :: mem.tmp2).length + 1 := by
        have hdrop := congrArg List.length hj.2
        simp only [List.length_drop, List.length_append, List.length_cons] at hdrop ⊢
        omega
      have hj' := beyondSpace_index hj ht' hshort
      rw [if_pos hbreak]
      dsimp only
      simp only [hj'.charAt_nul]
      rw [copy_index hj' horig hlen]
      exact Option.some.inj hr
    · next hbreak =>
      rw [if_neg hbreak]
      dsimp only
      rw [copy_index hj horig hlen]
      exact Option.some.inj hr

end Index

/-- `parm` gets the rest of the line behind the words of the command, whatever the buffers hold. -/
theorem parseStrings_parm {ts vs : List CString} {e s1 s2 : CString} (h1 : '\x00' ∉ s1) (h2 : '\x00' ∉ s2)
    (hs : Template ts s1) (ht : Named e vs s2) (habbr : AbbreviatesAll vs ts) (parm : CString) :
    ∃ n wcnt, wc s1 = some wcnt ∧
      parseStrings s1 s2 wcnt parm =
        some (n, if trimEnd (· = ' ') e = [] then parm else trimEnd (· = ' ') e) ∧
      ∀ mem, SklaffKom.parseStrings mem s1 s2 wcnt parm =
        (n, if trimEnd (· = ' ') e = [] then parm else trimEnd (· = ' ') e) := by
  obtain ⟨n, wcnt, hwc, hparm⟩ := parseStrings_spec hs ht habbr parm
  exact ⟨n, wcnt, hwc, hparm, parseStrings_index h1 h2 hparm⟩

theorem parseStrings_parm_las : ∃ n wcnt, wc "Las (text) nu".toList = some wcnt ∧
    parseStrings "Las (text) nu".toList "la n. (a) 5 (b) ".toList wcnt [] = some (n, "5 (b)".toList) ∧
    ∀ mem, SklaffKom.parseStrings mem "Las (text) nu".toList "la n. (a) 5 (b) ".toList wcnt [] =
      (n, "5 (b)".toList) := by
  have hs : Template ["Las".toList, "nu".toList] "Las (text) nu".toList :=
    @Template.word _ "Las".toList " ".toList _ (word_of_all (by decide) (by decide)) (breaks_of_all (by decide))
      (by decide) <|
    @Template.pair _ "text".toList " ".toList _ (inner_of_all (by decide)) (breaks_of_all (by decide))
      (by decide) <|
    @Template.word _ "nu".toList [] _ (word_of_all (by decide) (by decide)) (breaks_of_all (by decide))
      (by decide) Template.nil
  have hrest : Begins "5 (b) ".toList := by
    rintro c ⟨⟩
    decide
  have ht : Named "5 (b) ".toList ["la".toList, "n".toList] "la n. (a) 5 (b) ".toList :=
    @Named.word _ _ "la".toList " ".toList _ (word_of_all (by decide) (by decide)) (breaks_of_all (by decide))
      (by decide) <|
    @Named.word _ _ "n".toList ". ".toList _ (word_of_all (by decide) (by decide)) (breaks_of_all (by decide))
      (by decide) <|
    @Named.pair _ _ "a".toList " ".toList _ (inner_of_all (by decide)) (breaks_of_all (by decide)) (by decide) <|
      Named.rest hrest
  have habbr : AbbreviatesAll ["la".toList, "n".toList] ["Las".toList, "nu".toList] :=
    List.Forall₂.cons (by decide) (List.Forall₂.cons (by decide) List.Forall₂.nil)
  exact parseStrings_parm (by decide) (by decide) hs ht habbr []

/-- A pair of parentheses behind the command does not count, a dot is like a blank, and blanks at the
end are cut. -/
theorem parseStrings_drops : wc "Las".toList = some 1 ∧
    parseStrings "Las".toList "las (a) b".toList 1 [] = some (1, "b".toList) ∧
    parseStrings "Las".toList "las .x ".toList 1 [] = some (1, "x".toList) := by
  decide +kernel

end SklaffKom.Left
