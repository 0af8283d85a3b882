import SklaffKom.NameWords

/-!
# The arguments of a command

`parse_strings` finds the words of a command at the beginning of a line, where they may be abbreviated, and
stores what follows them.
-/

open CString Words

namespace SklaffKom.Left

/-- The outer loop of `parse_strings`: the number of words and, after a `break`, what is left of the line. -/
def parseLoop (wcnt : Int) : Nat → Nat → CString → CString → Option (Nat × Option CString)
  | 0, _, _, _ => none
  | fuel + 1, words, s, t => do
    let s ← skipParentheses s
    let t ← skipParentheses t
    if s = [] then return (if t = [] then (words + 1, none) else (words, some t))
    if s.head? ≠ t.head? then return (words, none)
    let (words, s, t) ← runEqual words s t
    let (words, s, t) ← nextWords words s t
    if s = [] then return (if t = [] then (words + 1, none) else (words, some t))
    if t = [] then return (words + 1, none)
    if words = wcnt then return (words, some t)
    parseLoop wcnt fuel words s t

/-- `parse_strings` with the contents of `parm`; `none` is a read behind the end of a string. -/
def parseStrings (s1 s2 : CString) (wcnt : Int) (parm : CString) : Option (Nat × CString) := do
  let tmp1 := upString (rtrim s1)
  let orig := rtrim s2
  let tmp2 := upString orig
  match ← parseLoop wcnt (tmp1.length + tmp2.length + 1) 0 tmp1 tmp2 with
  -- the strings did match, or did not: nothing is stored
  | (words, none) => return (words, parm)
  | (words, some t) =>
    if t.head?.any isBreak then
      let t ← beyondSpace t
      return (if t = [] then words else words + 1, orig.drop (orig.length - t.length))
    return (words, orig.drop (orig.length - t.length))

/-- `skip_beyond_rpar` of `wc`, which does not go on to the next word. -/
def wcBeyondRpar : Nat → CString → Option CString
  | 0, _ => none
  | _ + 1, [] => none
  | fuel + 1, c :: s =>
    if c = ')' then some s
    else if s.head? = some '(' then (wcBeyondRpar fuel s).bind (wcBeyondRpar fuel)
    else wcBeyondRpar fuel s

/-- The loop of `wc`; `start` says that nothing or a blank or dot is in front. -/
def wcLoop : Nat → Bool → Int → CString → Option Int
  | 0, _, _, _ => none
  | _ + 1, _, words, [] => some words
  | fuel + 1, start, words, c :: s =>
    if isBreak c then
      let s := s.dropWhile isBreak
      wcLoop fuel true (if s = [] then words else words + 1) s
    else if c = '(' ∧ start then (wcBeyondRpar (fuel + 1) (c :: s)).bind (wcLoop fuel false (words - 1))
    else wcLoop fuel false words s

def wc (s : CString) : Option Int := (wcLoop (s.length + 1) true 0 s).map (· + 1)

/-! ## Commands -/

/-- A command of the words `ts`; between them and around them there may be pairs of parentheses, each
followed by a blank or a dot or at the end. -/
inductive Template : List CString → CString → Prop
  | nil : Template [] []
  | word {ts : List CString} {w b s : CString} : Word w → Breaks b → (b = [] → s = []) → Template ts s →
      Template (w :: ts) (w ++ (b ++ s))
  | pair {ts : List CString} {x b s : CString} : Inner x → Breaks b → (b = [] → s = []) → Template ts s →
      Template ts ('(' :: (x ++ ')' :: (b ++ s)))

theorem Template.named {ts : List CString} {s : CString} (h : Template ts s) : Named [] ts s := by
  induction h with
  | nil => exact Named.rest begins_nil
  | word hw hb hlast _ ih => exact Named.word hw hb hlast ih
  | pair hx hb hlast _ ih =>
    refine Named.pair hx hb (fun hnil => ?_) ih
    rw [hlast hnil]
    simp

/-! ## The loop -/

/-- The end of a round. -/
def parseNext (wcnt : Int) (fuel words : Nat) (s t : CString) : Option (Nat × Option CString) :=
  if s = [] then some (if t = [] then (words + 1, none) else (words, some t))
  else if t = [] then some (words + 1, none)
  else if words = wcnt then some (words, some t)
  else parseLoop wcnt fuel words s t

/-- The outer loop from the comparison of characters on. -/
def parseTail (wcnt : Int) (fuel words : Nat) (s t : CString) : Option (Nat × Option CString) :=
  (runEqual words s t).bind fun p => (nextWords p.1 p.2.1 p.2.2).bind fun q =>
    parseNext wcnt fuel q.1 q.2.1 q.2.2

section Loop

variable {e q r s t u v w z : CString} {ts vs : List CString} {wcnt : Int} {fuel words : Nat}

theorem parseLoop_eq (hs : skipParentheses s = some u) (ht : skipParentheses t = some v) :
    parseLoop wcnt (fuel + 1) words s t =
      if u = [] then some (if v = [] then (words + 1, none) else (words, some v))
      else if u.head? ≠ v.head? then some (words, none) else parseTail wcnt fuel words u v := by
  rw [parseLoop, hs, ht]
  rfl

theorem parseTail_stop (h : s = [] ∨ s.head? ≠ t.head?) (hs : s.head? ≠ some '(') (ht : Begins t) :
    parseTail wcnt fuel words s t = parseNext wcnt fuel words s t := by
  unfold parseTail
  rw [runEqual_stop h, Option.bind_some, nextWords_stop hs ht.head_ne fun c hc => (ht c hc).1]
  rfl

theorem parseTail_append (hv : ∀ c ∈ v, isBreak c = false ∧ c ≠ '(') :
    parseTail wcnt fuel words (v ++ s) (v ++ t) = parseTail wcnt fuel words s t := by
  induction v with
  | nil => rfl
  | cons c v ih =>
    obtain ⟨hc, hv⟩ := List.forall_mem_cons.mp hv
    rw [← ih hv]
    unfold parseTail
    rw [List.cons_append, List.cons_append, runEqual_same hc.1]

/-- Behind a word of the line both go on at the next word. -/
theorem parseTail_gap (hz : ∀ c ∈ z, isBreak c = false ∧ c ≠ '(') (hr : Gap [] ts r)
    (hq : Gap e vs q) (hne : q ≠ []) :
    ∃ u p, AtWord [] ts u ∧ AtWord e vs p ∧ p.length < q.length ∧
      (parseTail wcnt fuel words (z ++ r) q = parseTail wcnt fuel (if p = [] then words else words + 1) u p ∨
        parseTail wcnt fuel words (z ++ r) q = parseNext wcnt fuel (if p = [] then words else words + 1) u p) := by
  rcases hq.head with ⟨rfl, -⟩ | ⟨c, q', rfl, hc⟩
  · exact absurd rfl hne
  · obtain ⟨u, hu, huat⟩ := skip_gap hr (fun c hc => (hz c hc).1)
    obtain ⟨p, hp, hpat⟩ := @skip_gap _ _ [] _ hq (by simp)
    rw [List.nil_append] at hp
    refine ⟨u, p, huat, hpat, Nat.lt_succ_of_le (length_beyondSpace_cons hc hp), ?_⟩
    unfold parseTail
    by_cases hsame : (z ++ r).head? = some c
    · left
      cases hzr : z ++ r with
      | nil =>
        rw [hzr] at hsame
        cases hsame
      | cons d t =>
        rw [hzr] at hsame hu
        cases hsame
        rw [runEqual_break hc hu hp]
    · right
      rw [runEqual_stop (Or.inr hsame), Option.bind_some, nextWords_break hc (hr.head_ne hz) hu hp]
      rfl

/-- At two words of which one abbreviates the other. -/
theorem AtWord.head_eq (hs : AtWord [] (w :: ts) u) (ht : AtWord e (z :: vs) v) (h : z <+: w) :
    u ≠ [] ∧ v ≠ [] ∧ u.head? = v.head? := by
  rcases hs with ⟨hnil, -⟩ | ⟨_, _, r, hcons, hw, -, rfl⟩
  · cases hnil
  obtain ⟨rfl, rfl⟩ := List.cons.inj hcons
  rcases ht with ⟨hnil, -⟩ | ⟨_, _, q, hcons, hz, -, rfl⟩
  · cases hnil
  obtain ⟨rfl, rfl⟩ := List.cons.inj hcons
  refine ⟨List.append_ne_nil_of_left_ne_nil hw.1 r, List.append_ne_nil_of_left_ne_nil hz.1 q, ?_⟩
  obtain ⟨x, rfl⟩ := h
  obtain ⟨c, z, rfl⟩ := List.exists_cons_of_ne_nil hz.1
  rfl

/-- When the words of the line abbreviate those of the command, the rest is left. -/
theorem parseTail_spec (ts : List CString) : ∀ (vs : List CString) (fuel words : Nat) (s t : CString), ts ≠ [] →
    AtWord [] ts s → AtWord e vs t → List.Forall₂ (· <+: ·) vs ts → wcnt = words + ts.length →
    t.length ≤ fuel →
    parseTail wcnt fuel words s t = some (words + ts.length, if e = [] then none else some e) := by
  induction ts with
  | nil => exact fun _ _ _ _ _ hne => absurd rfl hne
  | cons w' ts ih =>
    intro vs fuel words s t _ hs ht habbr hwcnt hfuel
    obtain ⟨v, vs, hpart, hrest, rfl⟩ := List.forall₂_cons_right_iff.mp habbr
    rcases hs with ⟨hnil, -⟩ | ⟨w, ts, r, hcons, hw, hr, rfl⟩
    · cases hnil
    obtain ⟨rfl, rfl⟩ := List.cons.inj hcons
    rcases ht with ⟨hnil, -⟩ | ⟨v', vs', q, hcons, hv, hq, rfl⟩
    · cases hnil
    obtain ⟨rfl, rfl⟩ := List.cons.inj hcons
    obtain ⟨z, rfl⟩ := hpart
    have hz : ∀ c ∈ z, isBreak c = false ∧ c ≠ '(' := fun c hc => hw.2 c (List.mem_append_right v hc)
    rw [List.append_assoc, parseTail_append hv.2]
    rw [List.length_append] at hfuel
    have hvpos := List.length_pos_iff.mpr hv.1
    by_cases hnil : q = []
    · -- the line ends with this word
      obtain ⟨rfl, he⟩ : vs = [] ∧ e = [] := by
        rcases hq.head with ⟨-, hvs, he⟩ | ⟨c, t, hct, -⟩
        · exact ⟨hvs, he⟩
        · rw [hct] at hnil
          cases hnil
      obtain rfl := List.forall₂_nil_left_iff.mp hrest
      have hstop : z ++ r = [] ∨ (z ++ r).head? ≠ ([] : CString).head? := by
        cases z ++ r with
        | nil => exact Or.inl rfl
        | cons c t => exact Or.inr (by simp)
      rw [hnil, parseTail_stop hstop (hr.head_ne hz) begins_nil, if_pos he]
      unfold parseNext
      split <;> rfl
    · obtain ⟨u, p, huat, hpat, hplen, hstep⟩ := @parseTail_gap e q r z ts vs wcnt fuel words hz hr hq hnil
      cases hrest with
      | nil =>
        -- the command has no more words
        rcases huat with ⟨-, rfl, -⟩ | ⟨_, _, _, hcons, -⟩
        · rcases hpat with ⟨-, rfl, he⟩ | ⟨_, _, _, hcons, -⟩
          · have hlast : parseTail wcnt fuel words (z ++ r) q =
                parseNext wcnt fuel (if p = [] then words else words + 1) [] p := by
              rcases hstep with hstep | hstep
              · rw [hstep, parseTail_stop (Or.inl rfl) (by simp) he]
              · exact hstep
            rw [hlast]
            unfold parseNext
            rw [if_pos rfl]
            split <;> rfl
          · cases hcons
        · cases hcons
      | @cons v2 w2 vs ts hpart hrest =>
        obtain ⟨hune, hpne, hheads⟩ := huat.head_eq hpat hpart
        rw [if_neg hpne] at hstep
        rw [List.length_cons] at hwcnt ⊢
        have hsum : words + (w2 :: ts).length + 1 = words + 1 + (w2 :: ts).length := by omega
        have hwcnt : wcnt = (words + 1 : Nat) + (w2 :: ts).length := by
          rw [hwcnt]
          omega
        rw [← Nat.add_assoc, hsum]
        rcases hstep with hstep | hstep
        · rw [hstep]
          exact ih (v2 :: vs) fuel (words + 1) u p (List.cons_ne_nil w2 ts) huat hpat
            (List.Forall₂.cons hpart hrest) hwcnt (by omega)
        · obtain ⟨fuel, rfl⟩ : ∃ k, fuel = k + 1 := ⟨fuel - 1, by omega⟩
          have hmore : ((words + 1 : Nat) : Int) ≠ wcnt := by
            rw [hwcnt, List.length_cons]
            omega
          rw [hstep]
          unfold parseNext
          rw [if_neg hune, if_neg hpne, if_neg hmore, parseLoop_eq (skipParentheses_of_head huat.begins.head_ne)
            (skipParentheses_of_head hpat.begins.head_ne), if_neg hune, if_neg (not_not.mpr hheads)]
          exact ih (v2 :: vs) fuel (words + 1) u p (List.cons_ne_nil w2 ts) huat hpat
            (List.Forall₂.cons hpart hrest) hwcnt (by omega)

/-- From the beginning of both strings. -/
theorem parseLoop_spec (hs : Named [] ts s) (ht : Named e vs t) (habbr : List.Forall₂ (· <+: ·) vs ts)
    (hwcnt : ts ≠ [] → wcnt = ts.length) (hfuel : t.length < fuel) :
    ∃ n, parseLoop wcnt fuel 0 s t = some (n, if e = [] then none else some e) := by
  obtain ⟨u, hu, huat⟩ := skip_named hs
  obtain ⟨p, hp, hpat⟩ := skip_named ht
  have hplen := length_skipParentheses hp
  obtain ⟨fuel, rfl⟩ : ∃ k, fuel = k + 1 := ⟨fuel - 1, by omega⟩
  rw [parseLoop_eq hu hp]
  cases habbr with
  | nil =>
    rcases huat with ⟨-, rfl, -⟩ | ⟨_, _, _, hcons, -⟩
    · rcases hpat with ⟨-, rfl, -⟩ | ⟨_, _, _, hcons, -⟩
      · rw [if_pos rfl]
        by_cases he : p = []
        · exact ⟨1, by rw [if_pos he, if_pos he]⟩
        · exact ⟨0, by rw [if_neg he, if_neg he]⟩
      · cases hcons
    · cases hcons
  | @cons v w vs ts hpart habbr =>
    obtain ⟨hune, -, hheads⟩ := huat.head_eq hpat hpart
    rw [if_neg hune, if_neg (not_not.mpr hheads)]
    refine ⟨0 + (w :: ts).length, parseTail_spec (w :: ts) (v :: vs) fuel 0 u p (List.cons_ne_nil w ts) huat hpat
      (List.Forall₂.cons hpart habbr) ?_ (by omega)⟩
    rw [hwcnt (List.cons_ne_nil w ts)]
    simp

end Loop

/-! ## The number of words -/

section Count

variable {ts : List CString} {s w x : CString} {fuel : Nat} {start : Bool} {words : Int}

/-- A whole pair of parentheses. -/
theorem wcBeyondRpar_inner (h : Inner x) (rest : CString) (fuel : Nat) (hfuel : x.length + 1 < fuel) :
    (∀ c ≠ ')', wcBeyondRpar fuel (c :: (x ++ ')' :: rest)) = some rest) ∧
      (x.head? ≠ some '(' → wcBeyondRpar fuel (x ++ ')' :: rest) = some rest) := by
  induction h generalizing rest fuel with
  | nil =>
    obtain ⟨fuel, rfl⟩ : ∃ k, fuel = k + 2 := ⟨fuel - 2, by simp at hfuel; omega⟩
    exact ⟨fun c hc => by simp [wcBeyondRpar, hc], fun _ => by simp [wcBeyondRpar]⟩
  | @char d x hl hr _ ih =>
    rw [List.length_cons] at hfuel
    obtain ⟨fuel, rfl⟩ : ∃ k, fuel = k + 1 := ⟨fuel - 1, by omega⟩
    constructor
    · intro c hc
      have hhead : ¬ (d :: (x ++ ')' :: rest)).head? = some '(' := by simpa using hl
      rw [List.cons_append, wcBeyondRpar, if_neg hc, if_neg hhead]
      exact (ih rest fuel (by omega)).1 d hr
    · exact fun _ => (ih rest (fuel + 1) (by omega)).1 d hr
  | @pair x y _ _ hy ihx ihy =>
    rw [List.length_cons, List.length_append, List.length_cons] at hfuel
    obtain ⟨fuel, rfl⟩ : ∃ k, fuel = k + 1 := ⟨fuel - 1, by omega⟩
    constructor
    · intro c hc
      have happ : '(' :: (x ++ ')' :: y) ++ ')' :: rest = '(' :: (x ++ ')' :: (y ++ ')' :: rest)) := by simp
      rw [happ, wcBeyondRpar, if_neg hc, if_pos List.head?_cons,
        (ihx _ fuel (by omega)).1 '(' (by decide), Option.bind_some]
      exact (ihy rest fuel (by omega)).2 hy
    · exact fun hne => absurd rfl hne

theorem wcLoop_word (hw : Word w) (r : CString) :
    wcLoop (fuel + w.length) start words (w ++ r) = wcLoop fuel false words r := by
  obtain ⟨hne, hw⟩ := hw
  induction w generalizing start with
  | nil => exact absurd rfl hne
  | cons c w ih =>
    obtain ⟨hc, hw⟩ := List.forall_mem_cons.mp hw
    have hstep : wcLoop (fuel + w.length + 1) start words (c :: (w ++ r)) =
        wcLoop (fuel + w.length) false words (w ++ r) := by
      rw [wcLoop, if_neg (by simp [hc.1]), if_neg (fun h => hc.2 h.1)]
    rw [List.cons_append, List.length_cons, ← Nat.add_assoc, hstep]
    cases w with
    | nil => rfl
    | cons d w => exact ih (List.cons_ne_nil d w) hw

/-- Behind a word or a pair. -/
theorem wcLoop_breaks {b : CString} (hb : Breaks b) (hlast : b = [] → s = []) (hs : Template ts s)
    (hfuel : b.length < fuel) : ∃ k, fuel ≤ k + b.length ∧ wcLoop fuel false words (b ++ s) =
      if s = [] then some words else wcLoop k true (words + 1) s := by
  obtain ⟨fuel, rfl⟩ : ∃ k, fuel = k + 1 := ⟨fuel - 1, by omega⟩
  cases b with
  | nil =>
    obtain rfl := hlast rfl
    exact ⟨fuel + 1, by simp, rfl⟩
  | cons c b =>
    obtain ⟨hc, hb⟩ := List.forall_mem_cons.mp hb
    rw [List.length_cons] at hfuel ⊢
    refine ⟨fuel, by omega, ?_⟩
    rw [List.cons_append, wcLoop, if_pos hc, dropWhile_breaks hb hs.named]
    dsimp only
    by_cases hnil : s = []
    · obtain ⟨fuel, rfl⟩ : ∃ k, fuel = k + 1 := ⟨fuel - 1, by omega⟩
      rw [if_pos hnil, if_pos hnil, hnil]
      rfl
    · rw [if_neg hnil, if_neg hnil]

/-- `wc` counts the words. -/
theorem wcLoop_template (h : Template ts s) (hne : s ≠ []) (hfuel : s.length < fuel) :
    wcLoop fuel true words s = some (words + ts.length - 1) := by
  induction h generalizing fuel words with
  | nil => exact absurd rfl hne
  | @word ts w b s hw hb hlast hs ih =>
    rw [List.length_append, List.length_append] at hfuel
    obtain ⟨fuel, rfl⟩ : ∃ k, fuel = k + w.length := ⟨fuel - w.length, by omega⟩
    obtain ⟨k, hk, hbreaks⟩ := @wcLoop_breaks ts s fuel words b hb hlast hs (by omega)
    rw [wcLoop_word hw, hbreaks, List.length_cons]
    by_cases hnil : s = []
    · rw [if_pos hnil]
      obtain ⟨rfl, -⟩ := (hnil ▸ hs.named).eq_nil
      simp
    · rw [if_neg hnil, ih hnil (by omega)]
      congr 1
      push_cast
      omega
  | @pair ts x b s hx hb hlast hs ih =>
    rw [List.length_cons, List.length_append, List.length_cons, List.length_append] at hfuel
    obtain ⟨fuel, rfl⟩ : ∃ k, fuel = k + 1 := ⟨fuel - 1, by omega⟩
    obtain ⟨k, hk, hbreaks⟩ := @wcLoop_breaks ts s fuel (words - 1) b hb hlast hs (by omega)
    rw [wcLoop, if_neg (by decide), if_pos ⟨rfl, rfl⟩,
      (wcBeyondRpar_inner hx _ (fuel + 1) (by omega)).1 '(' (by decide), Option.bind_some, hbreaks]
    by_cases hnil : s = []
    · rw [if_pos hnil]
      obtain ⟨rfl, -⟩ := (hnil ▸ hs.named).eq_nil
      simp
    · rw [if_neg hnil, ih hnil (by omega)]
      congr 1
      omega

theorem wc_template (h : Template ts s) : ∃ wcnt, wc s = some wcnt ∧ (ts ≠ [] → wcnt = ts.length) := by
  unfold wc
  by_cases hnil : s = []
  · obtain ⟨rfl, -⟩ := (hnil ▸ h.named).eq_nil
    exact ⟨1, by rw [hnil]; rfl, fun hne => absurd rfl hne⟩
  · rw [wcLoop_template h hnil (Nat.lt_succ_self _)]
    refine ⟨_, rfl, fun _ => ?_⟩
    dsimp only
    omega

end Count

/-! ## The result -/

/-- The words of the line `vs` abbreviate those of the command. -/
def AbbreviatesAll (vs ts : List CString) : Prop := List.Forall₂ (fun v t => upString v <+: upString t) vs ts

/-- `parm` gets the rest of the line behind the words, without blanks at the end; it is kept if there is none. -/
theorem parseStrings_spec {ts vs : List CString} {e s1 s2 : CString} (hs : Template ts s1) (ht : Named e vs s2)
    (habbr : AbbreviatesAll vs ts) (parm : CString) : ∃ n wcnt, wc s1 = some wcnt ∧
      parseStrings s1 s2 wcnt parm =
        some (n, if trimEnd (· = ' ') e = [] then parm else trimEnd (· = ' ') e) := by
  obtain ⟨wcnt, hwc, hcount⟩ := wc_template hs
  have hup : List.Forall₂ (· <+: ·) (vs.map upString) (ts.map upString) := by
    rw [List.forall₂_map_left_iff, List.forall₂_map_right_iff]
    exact habbr
  have hcount' : ts.map upString ≠ [] → wcnt = (ts.map upString).length := by
    intro hne
    rw [List.length_map]
    exact hcount (by simpa using hne)
  have hrest := ht.rtrim
  obtain ⟨n, hloop⟩ := parseLoop_spec hs.named.rtrim.up hrest.up hup hcount' (show (upString (rtrim s2)).length <
    (upString (rtrim s1)).length + (upString (rtrim s2)).length + 1 by omega)
  refine ⟨n, wcnt, hwc, ?_⟩
  have hlen : (upString (rtrim s2)).length = (rtrim s2).length := List.length_map _
  unfold parseStrings
  dsimp only
  rw [hloop]
  by_cases hnil : trimEnd (· = ' ') e = []
  · rw [if_pos hnil, if_pos (by rw [hnil]; rfl)]
    rfl
  · have hup : upString (trimEnd (· = ' ') e) ≠ [] := by simpa [upString_eq] using hnil
    have hbreak : ¬ (upString (trimEnd (· = ' ') e)).head?.any isBreak = true := by
      cases hc : (upString (trimEnd (· = ' ') e)).head? with
      | none => simp
      | some c => simpa using (hrest.up.rest_begins c hc).1
    have hdrop : (rtrim s2).drop ((rtrim s2).length - (upString (trimEnd (· = ' ') e)).length) =
        trimEnd (· = ' ') e := by
      rw [upString_eq, List.length_map]
      exact (List.suffix_iff_eq_drop.mp hrest.suffix).symm
    rw [if_neg hup, if_neg hnil]
    rw [Option.bind_eq_bind, Option.bind_some]
    dsimp only
    rw [if_neg hbreak, hdrop]
    rfl

end SklaffKom.Left
