import SklaffKom.CleanUrl

/-!
# URLs in a text

A text is read as URLs and single characters.  A URL begins with `http://` or `https://`, goes as far as
`url_char` accepts, and does not end in punctuation.
-/

open CString

namespace SklaffKom

def urlChar (c : Char) : Bool :=
  32 < c.toNat && c ≠ '<' && c ≠ '>' && c ≠ '"'

def isUrlStart (s : CString) : Bool :=
  "http://".toList.isPrefixOf s || "https://".toList.isPrefixOf s

/-- Punctuation that does not belong to a URL in front of it. -/
def urlTail (c : Char) : Bool :=
  c = ')' || c = '.' || c = ',' || c = ';'

/-- The URL at the beginning of a text. -/
def urlAt (s : CString) : CString :=
  trimEnd urlTail (s.takeWhile urlChar)

/-- A URL, or a character outside of the URLs. -/
inductive Piece where
  | url (u : CString)
  | char (c : Char)
deriving DecidableEq

section Start

variable {a b s : CString} {c : Char}

theorem isUrlStart_iff : isUrlStart s = true ↔ "http://".toList <+: s ∨ "https://".toList <+: s := by
  rw [isUrlStart, Bool.or_eq_true, List.isPrefixOf_iff_prefix, List.isPrefixOf_iff_prefix]

theorem isUrlStart_head (h : isUrlStart s = true) : ∃ t, s = 'h' :: t := by
  rcases isUrlStart_iff.mp h with ⟨t, rfl⟩ | ⟨t, rfl⟩
  · exact ⟨_, rfl⟩
  · exact ⟨_, rfl⟩

theorem isUrlStart_append (h : isUrlStart a = true) (b : CString) : isUrlStart (a ++ b) = true := by
  rcases isUrlStart_iff.mp h with h | h
  · exact isUrlStart_iff.mpr (.inl (h.trans (List.prefix_append _ _)))
  · exact isUrlStart_iff.mpr (.inr (h.trans (List.prefix_append _ _)))

theorem prefix_of_append {pat : CString} (hb : ∀ c ∈ b.head?, c ∉ pat.tail) (ha : a ≠ [])
    (h : pat <+: a ++ b) : pat <+: a := by
  obtain ⟨tail, htail⟩ := h
  rcases List.append_eq_append_iff.mp htail with ⟨mid, hmid, -⟩ | ⟨mid, hmid, htl⟩
  · exact ⟨mid, hmid.symm⟩
  · cases mid with
    | nil => exact ⟨[], by rw [List.append_nil, hmid, List.append_nil]⟩
    | cons d mid =>
      have hd : d ∈ b.head? := by rw [htl]; rfl
      refine absurd ?_ (hb d hd)
      cases a with
      | nil => exact absurd rfl ha
      | cons c a =>
        rw [hmid]
        simp

/-- A start does not go on into what begins with another start, or with no letter of one. -/
theorem isUrlStart_of_append (ha : a ≠ []) (hb : ∀ c ∈ b.head?, c = 'h' ∨ urlChar c = false)
    (h : isUrlStart (a ++ b) = true) : isUrlStart a = true := by
  have hnot : ∀ c ∈ b.head?, c ∉ "http://".toList.tail ∧ c ∉ "https://".toList.tail := by
    intro c hc
    rcases hb c hc with rfl | hc
    · decide
    · constructor
      · intro hm
        have hall : "http://".toList.tail.all urlChar = true := by decide
        rw [List.all_eq_true.mp hall c hm] at hc
        cases hc
      · intro hm
        have hall : "https://".toList.tail.all urlChar = true := by decide
        rw [List.all_eq_true.mp hall c hm] at hc
        cases hc
  rcases isUrlStart_iff.mp h with h | h
  · exact isUrlStart_iff.mpr (.inl (prefix_of_append (fun c hc => (hnot c hc).1) ha h))
  · exact isUrlStart_iff.mpr (.inr (prefix_of_append (fun c hc => (hnot c hc).2) ha h))

theorem urlChar_dropWhile (h : c ∈ (s.dropWhile urlChar).head?) : urlChar c = false := by
  cases hd : s.dropWhile urlChar with
  | nil =>
    rw [hd] at h
    cases h
  | cons d r =>
    rw [hd] at h
    cases h
    exact dropWhile_head hd

theorem isUrlStart_takeWhile (h : isUrlStart s = true) : isUrlStart (s.takeWhile urlChar) = true := by
  have hsplit : s = s.takeWhile urlChar ++ s.dropWhile urlChar := List.takeWhile_append_dropWhile.symm
  refine isUrlStart_of_append (b := s.dropWhile urlChar) ?_ ?_ (by rwa [← hsplit])
  · obtain ⟨t, rfl⟩ := isUrlStart_head h
    exact List.cons_ne_nil _ _
  · exact fun c hc => .inr (urlChar_dropWhile hc)

/-- The punctuation at the end is no part of a start. -/
theorem isUrlStart_trimEnd (h : isUrlStart s = true) : isUrlStart (trimEnd urlTail s) = true := by
  have hpat : ∀ pat : CString, pat.getLast? = some '/' → pat <+: s → pat <+: trimEnd urlTail s := by
    rintro pat hlast ⟨t, rfl⟩
    have hself : trimEnd urlTail pat = pat := by
      refine trimEnd_eq_self fun c hc => ?_
      rw [hlast] at hc
      obtain rfl := Option.some.inj hc
      rfl
    rw [trimEnd_append_eq]
    split
    · rw [hself]
    · exact List.prefix_append _ _
  rcases isUrlStart_iff.mp h with h | h
  · exact isUrlStart_iff.mpr (.inl (hpat _ rfl h))
  · exact isUrlStart_iff.mpr (.inr (hpat _ rfl h))

theorem urlAt_start (h : isUrlStart s = true) : isUrlStart (urlAt s) = true :=
  isUrlStart_trimEnd (isUrlStart_takeWhile h)

theorem urlAt_ne_nil (h : isUrlStart s = true) : urlAt s ≠ [] := by
  obtain ⟨t, ht⟩ := isUrlStart_head (urlAt_start h)
  rw [ht]
  exact List.cons_ne_nil _ _

end Start

/-- The pieces of a text, one after the other. -/
def pieces : CString → List Piece
  | [] => []
  | c :: s =>
    if isUrlStart (c :: s) then
      .url (urlAt (c :: s)) :: pieces ((c :: s).drop (urlAt (c :: s)).length)
    else .char c :: pieces s
termination_by s => s.length
decreasing_by
  · have hpos := List.length_pos_iff.mpr (urlAt_ne_nil ‹isUrlStart (c :: s) = true›)
    rw [List.length_drop, List.length_cons]
    omega
  · exact Nat.lt_add_one _

section Pieces

variable {a b s u w : CString} {c : Char}

theorem pieces_url (h : isUrlStart s = true) :
    pieces s = .url (urlAt s) :: pieces (s.drop (urlAt s).length) := by
  obtain ⟨t, rfl⟩ := isUrlStart_head h
  rw [pieces, if_pos h]

theorem pieces_char (h : isUrlStart (c :: s) = false) : pieces (c :: s) = .char c :: pieces s := by
  rw [pieces, if_neg (by rw [h]; exact Bool.false_ne_true)]

def Piece.text : Piece → CString
  | .url u => u
  | .char c => [c]

/-- What the pieces make up. -/
def joinPieces (ps : List Piece) : CString := ps.flatMap Piece.text

@[simp] theorem joinPieces_nil : joinPieces [] = [] := rfl

@[simp] theorem joinPieces_cons (p : Piece) (ps : List Piece) :
    joinPieces (p :: ps) = p.text ++ joinPieces ps := List.flatMap_cons

@[simp] theorem joinPieces_append (ps qs : List Piece) :
    joinPieces (ps ++ qs) = joinPieces ps ++ joinPieces qs := List.flatMap_append

@[simp] theorem joinPieces_chars (s : CString) : joinPieces (s.map .char) = s := by
  induction s with
  | nil => rfl
  | cons c s ih => rw [List.map_cons, joinPieces_cons, ih]; rfl

theorem urlAt_begins (s : CString) : urlAt s <+: s := by
  obtain ⟨r, hr, -⟩ := trimEnd_append urlTail (s.takeWhile urlChar)
  refine List.IsPrefix.trans ⟨r, hr.symm⟩ (List.takeWhile_prefix _)

theorem urlAt_append_drop (s : CString) : urlAt s ++ s.drop (urlAt s).length = s :=
  List.prefix_iff_eq_append.mp (urlAt_begins s)

/-- The cases of a text. -/
theorem pieces_induction {motive : CString → Prop} (nil : motive [])
    (url : ∀ s, isUrlStart s = true → motive (s.drop (urlAt s).length) → motive s)
    (char : ∀ c s, isUrlStart (c :: s) = false → motive s → motive (c :: s)) (s : CString) :
    motive s := by
  induction hn : s.length using Nat.strongRecOn generalizing s with
  | ind n ih =>
    cases s with
    | nil => exact nil
    | cons c s =>
      cases h : isUrlStart (c :: s) with
      | false => exact char c s h (ih _ (by rw [← hn]; exact Nat.lt_add_one _) s rfl)
      | true =>
        refine url _ h (ih _ ?_ _ rfl)
        have hpos := List.length_pos_iff.mpr (urlAt_ne_nil h)
        rw [List.length_drop, hn]
        rw [List.length_cons] at hn
        omega

theorem joinPieces_pieces (s : CString) : joinPieces (pieces s) = s := by
  induction s using pieces_induction with
  | nil => rw [pieces, joinPieces_nil]
  | url s h ih => rw [pieces_url h, joinPieces_cons, ih, Piece.text, urlAt_append_drop]
  | char c s h ih => rw [pieces_char h, joinPieces_cons, ih]; rfl

/-- What is taken for a URL. -/
structure IsUrl (u : CString) : Prop where
  start : isUrlStart u = true
  chars : ∀ c ∈ u, urlChar c = true
  tail : ∀ c ∈ u.getLast?, urlTail c = false

theorem isUrl_urlAt (h : isUrlStart s = true) : IsUrl (urlAt s) where
  start := urlAt_start h
  chars _ hc := List.mem_takeWhile_imp ((trimEnd_sublist _ _).subset hc)
  tail := getLast_trimEnd _ _

theorem isUrl_of_mem (h : .url u ∈ pieces s) : IsUrl u := by
  revert h
  induction s using pieces_induction with
  | nil =>
    rw [pieces]
    exact fun h => absurd h List.not_mem_nil
  | url s h ih =>
    rw [pieces_url h, List.mem_cons]
    rintro (heq | h')
    · rw [Piece.url.inj heq]
      exact isUrl_urlAt h
    · exact ih h'
  | char c s h ih =>
    rw [pieces_char h, List.mem_cons]
    rintro (heq | h')
    · cases heq
    · exact ih h'

/-! ### Words -/

/-- The word ends where `s` begins. -/
def EndsWord (s : CString) : Prop := ∀ c ∈ s.head?, urlChar c = false

theorem urlChar_of_urlTail (h : urlTail c = true) : urlChar c = true ∧ c ≠ 'h' ∧ isSpace c = false := by
  simp only [urlTail, Bool.or_eq_true, decide_eq_true_eq] at h
  rcases h with ((rfl | rfl) | rfl) | rfl <;> decide

theorem isUrlStart_of_ne (hc : c ≠ 'h') (s : CString) : isUrlStart (c :: s) = false := by
  cases h : isUrlStart (c :: s) with
  | false => rfl
  | true =>
    obtain ⟨t, ht⟩ := isUrlStart_head h
    exact absurd (List.cons.inj ht).1 hc

theorem ne_of_urlChar (hc : urlChar c = false) : c ≠ 'h' := by
  rintro rfl
  cases hc

theorem takeWhile_sep {p : Char → Bool} (hc : p c = false) (a b : CString) :
    (a ++ c :: b).takeWhile p = a.takeWhile p := by
  induction a with
  | nil => exact List.takeWhile_cons_of_neg (by simp [hc])
  | cons d a ih =>
    rw [List.cons_append, List.takeWhile_cons, List.takeWhile_cons, ih]

/-- A character that no URL holds separates what stands before it from what follows. -/
theorem pieces_sep (hc : urlChar c = false) (a b : CString) :
    pieces (a ++ c :: b) = pieces a ++ .char c :: pieces b := by
  induction a using pieces_induction with
  | nil => rw [List.nil_append, pieces_char (isUrlStart_of_ne (ne_of_urlChar hc) b), pieces]; rfl
  | url a h ih =>
    have hurl : urlAt (a ++ c :: b) = urlAt a := by
      rw [urlAt, urlAt, takeWhile_sep hc]
    rw [pieces_url (isUrlStart_append h _), pieces_url h, hurl,
      List.drop_append_of_le_length (urlAt_begins a).length_le, ih]
    rfl
  | char d a h ih =>
    have hno : isUrlStart (d :: (a ++ c :: b)) = false := by
      cases h' : isUrlStart (d :: (a ++ c :: b)) with
      | false => rfl
      | true =>
        have hin := isUrlStart_of_append (a := d :: a) (b := c :: b) (List.cons_ne_nil _ _)
          (fun e he => .inr (by cases he; exact hc)) h'
        rw [h] at hin
        cases hin
    rw [List.cons_append, pieces_char hno, pieces_char h, ih]
    rfl

theorem pieces_tails {q : CString} (hq : ∀ c ∈ q, urlTail c = true) (s : CString) :
    pieces (q ++ s) = q.map .char ++ pieces s := by
  induction q with
  | nil => rfl
  | cons c q ih =>
    obtain ⟨-, hne, -⟩ := urlChar_of_urlTail (hq c List.mem_cons_self)
    rw [List.cons_append, pieces_char (isUrlStart_of_ne hne _),
      ih fun d hd => hq d (List.mem_cons_of_mem _ hd)]
    rfl

theorem trimEnd_tails {p : Char → Bool} {q : CString} (hq : ∀ c ∈ q, p c = true) (a : CString) :
    trimEnd p (a ++ q) = trimEnd p a := by
  have hnil : trimEnd p q = [] := by
    have hdrop : q.reverse.dropWhile p = [] :=
      List.dropWhile_eq_nil_iff.mpr fun c hc => hq c (List.mem_reverse.mp hc)
    rw [trimEnd, hdrop]
    rfl
  rw [trimEnd_append_eq, if_pos hnil]

theorem takeWhile_word (hw : ∀ c ∈ w, urlChar c = true) (hs : EndsWord s) :
    (w ++ s).takeWhile urlChar = w := by
  rw [List.takeWhile_append_of_pos hw]
  cases s with
  | nil => simp
  | cons c s => rw [List.takeWhile_cons_of_neg (by simp [hs c rfl]), List.append_nil]

/-- A URL, the punctuation behind it, and the end of the word. -/
theorem pieces_url_append {q : CString} (hu : IsUrl u) (hq : ∀ c ∈ q, urlTail c = true)
    (hs : EndsWord s) : pieces (u ++ (q ++ s)) = .url u :: pieces (q ++ s) := by
  have hword : ∀ c ∈ u ++ q, urlChar c = true := by
    intro c hc
    rcases List.mem_append.mp hc with hc | hc
    · exact hu.chars c hc
    · exact (urlChar_of_urlTail (hq c hc)).1
  have hurl : urlAt (u ++ (q ++ s)) = u := by
    rw [← List.append_assoc, urlAt, takeWhile_word hword hs, trimEnd_tails hq, trimEnd_eq_self hu.tail]
  rw [pieces_url (isUrlStart_append hu.start _), hurl, List.drop_left]

/-! ### Pieces that are read again -/

/-- The characters before the next URL. -/
def leadChars : List Piece → CString
  | .char c :: ps => c :: leadChars ps
  | _ => []

/-- Behind a URL: punctuation and the end of the word. -/
def EndsUrl : List Piece → Prop
  | [] => True
  | .url _ :: _ => False
  | .char c :: ps => urlChar c = false ∨ (urlTail c = true ∧ EndsUrl ps)

/-- Pieces whose text has URLs where they have, whatever the URLs are. -/
def Consistent : List Piece → Prop
  | [] => True
  | .url _ :: ps => EndsUrl ps ∧ Consistent ps
  | .char c :: ps => isUrlStart (c :: leadChars ps) = false ∧ Consistent ps

/-- Other URLs at the same places. -/
def Piece.mapUrl (f : CString → CString) : Piece → Piece
  | .url u => .url (f u)
  | .char c => .char c

theorem leadChars_mapUrl (f : CString → CString) (ps : List Piece) :
    leadChars (ps.map (Piece.mapUrl f)) = leadChars ps := by
  induction ps with
  | nil => rfl
  | cons p ps ih =>
    cases p with
    | url u => rfl
    | char c => exact congrArg (c :: ·) ih

theorem endsUrl_mapUrl (f : CString → CString) (ps : List Piece) :
    EndsUrl (ps.map (Piece.mapUrl f)) ↔ EndsUrl ps := by
  induction ps with
  | nil => rfl
  | cons p ps ih =>
    cases p with
    | url u => rfl
    | char c => exact or_congr Iff.rfl (and_congr Iff.rfl ih)

theorem consistent_mapUrl (f : CString → CString) (ps : List Piece) :
    Consistent (ps.map (Piece.mapUrl f)) ↔ Consistent ps := by
  induction ps with
  | nil => rfl
  | cons p ps ih =>
    cases p with
    | url u => exact and_congr (endsUrl_mapUrl f ps) ih
    | char c =>
      show isUrlStart (c :: leadChars (ps.map _)) = false ∧ _ ↔ _
      rw [leadChars_mapUrl]
      exact and_congr Iff.rfl ih

theorem leadChars_begins (ps : List Piece) : leadChars ps <+: joinPieces ps := by
  induction ps with
  | nil => exact List.nil_prefix
  | cons p ps ih =>
    cases p with
    | url u => exact List.nil_prefix
    | char c => exact (List.prefix_cons_inj c).mpr ih

/-- Behind the leading characters the text ends, or a URL begins. -/
theorem joinPieces_lead {ps : List Piece} (hu : ∀ u, .url u ∈ ps → IsUrl u) :
    ∃ s, joinPieces ps = leadChars ps ++ s ∧ ∀ c ∈ s.head?, c = 'h' := by
  induction ps with
  | nil => exact ⟨[], rfl, nofun⟩
  | cons p ps ih =>
    cases p with
    | url u =>
      refine ⟨joinPieces (.url u :: ps), rfl, fun c hc => ?_⟩
      obtain ⟨t, ht⟩ := isUrlStart_head (hu u List.mem_cons_self).start
      rw [joinPieces_cons, Piece.text, ht] at hc
      cases hc
      rfl
    | char c =>
      obtain ⟨s, hs, hhead⟩ := ih fun u hm => hu u (List.mem_cons_of_mem _ hm)
      refine ⟨s, ?_, hhead⟩
      rw [joinPieces_cons, hs]
      rfl

theorem EndsUrl.join {ps : List Piece} (h : EndsUrl ps) :
    ∃ q s, joinPieces ps = q ++ s ∧ (∀ c ∈ q, urlTail c = true) ∧ EndsWord s := by
  induction ps with
  | nil => exact ⟨[], [], rfl, nofun, nofun⟩
  | cons p ps ih =>
    cases p with
    | url u => exact h.elim
    | char c =>
      rcases h with hc | ⟨hc, h⟩
      · refine ⟨[], joinPieces (.char c :: ps), rfl, nofun, fun d hd => ?_⟩
        cases hd
        exact hc
      · obtain ⟨q, s, hs, hq, hend⟩ := ih h
        refine ⟨c :: q, s, ?_, List.forall_mem_cons.mpr ⟨hc, hq⟩, hend⟩
        rw [joinPieces_cons, hs]
        rfl

/-- Consistent pieces are found again in their text. -/
theorem pieces_joinPieces {ps : List Piece} (h : Consistent ps) (hu : ∀ u, .url u ∈ ps → IsUrl u) :
    pieces (joinPieces ps) = ps := by
  induction ps with
  | nil => rw [joinPieces_nil, pieces]
  | cons p ps ih =>
    have hu' : ∀ u, .url u ∈ ps → IsUrl u := fun u hm => hu u (List.mem_cons_of_mem _ hm)
    cases p with
    | url u =>
      obtain ⟨q, s, hs, hq, hend⟩ := h.1.join
      rw [joinPieces_cons, hs, Piece.text, pieces_url_append (hu u List.mem_cons_self) hq hend, ← hs,
        ih h.2 hu']
    | char c =>
      obtain ⟨s, hs, hhead⟩ := joinPieces_lead hu'
      have hno : isUrlStart (c :: joinPieces ps) = false := by
        cases hstart : isUrlStart (c :: joinPieces ps) with
        | false => rfl
        | true =>
          rw [hs, ← List.cons_append] at hstart
          have hin := isUrlStart_of_append (List.cons_ne_nil _ _) (fun d hd => .inl (hhead d hd)) hstart
          rw [h.1] at hin
          cases hin
      rw [joinPieces_cons, Piece.text, List.singleton_append, pieces_char hno, ih h.2 hu']

theorem endsUrl_tails {q : CString} (hq : ∀ c ∈ q, urlTail c = true) (hs : EndsWord s) :
    EndsUrl (pieces (q ++ s)) := by
  rw [pieces_tails hq]
  induction q with
  | nil =>
    cases s with
    | nil => rw [pieces]; trivial
    | cons c s =>
      have hc := hs c rfl
      rw [pieces_char (isUrlStart_of_ne (ne_of_urlChar hc) s)]
      exact .inl hc
  | cons c q ih =>
    exact .inr ⟨hq c List.mem_cons_self, ih fun d hd => hq d (List.mem_cons_of_mem _ hd)⟩

/-- A URL ends where the rest of its word is punctuation. -/
theorem drop_urlAt (s : CString) :
    ∃ q r, s.drop (urlAt s).length = q ++ r ∧ (∀ c ∈ q, urlTail c = true) ∧ EndsWord r := by
  obtain ⟨q, hq, htail⟩ := trimEnd_append urlTail (s.takeWhile urlChar)
  have hsplit : s = urlAt s ++ (q ++ s.dropWhile urlChar) := by
    rw [← List.append_assoc, urlAt, ← hq, List.takeWhile_append_dropWhile]
  exact ⟨q, s.dropWhile urlChar, List.append_cancel_left ((urlAt_append_drop s).trans hsplit), htail,
    fun c => urlChar_dropWhile⟩

theorem consistent_pieces (s : CString) : Consistent (pieces s) := by
  induction s using pieces_induction with
  | nil => rw [pieces]; trivial
  | url s h ih =>
    obtain ⟨q, r, hdrop, hq, hr⟩ := drop_urlAt s
    rw [pieces_url h]
    refine ⟨?_, ih⟩
    rw [hdrop]
    exact endsUrl_tails hq hr
  | char c s h ih =>
    rw [pieces_char h]
    refine ⟨?_, ih⟩
    cases hlead : isUrlStart (c :: leadChars (pieces s)) with
    | false => rfl
    | true =>
      obtain ⟨t, ht⟩ := leadChars_begins (pieces s)
      have hin := isUrlStart_append hlead t
      rw [List.cons_append, ht, joinPieces_pieces, h] at hin
      cases hin

/-! ### What stands outside of the URLs -/

/-- Not white space outside of the URLs. -/
def Piece.solid : Piece → Bool
  | .url _ => true
  | .char c => !isSpace c

/-- A character, or the place of a URL. -/
def Piece.mark : Piece → Option Char
  | .url _ => none
  | .char c => some c

/-- The characters outside of the URLs, without white space, and the places of the URLs. -/
def marksOf (ps : List Piece) : List (Option Char) :=
  (ps.filter Piece.solid).map Piece.mark

@[simp] theorem marksOf_nil : marksOf [] = [] := rfl

@[simp] theorem marksOf_append (ps qs : List Piece) : marksOf (ps ++ qs) = marksOf ps ++ marksOf qs := by
  rw [marksOf, List.filter_append, List.map_append]
  rfl

@[simp] theorem marksOf_url (u : CString) (ps : List Piece) :
    marksOf (.url u :: ps) = none :: marksOf ps := rfl

theorem marksOf_char (hc : isSpace c = false) (ps : List Piece) :
    marksOf (.char c :: ps) = some c :: marksOf ps := by
  rw [marksOf, List.filter_cons_of_pos (by simp [Piece.solid, hc])]
  rfl

theorem marksOf_space (hc : isSpace c = true) (ps : List Piece) :
    marksOf (.char c :: ps) = marksOf ps := by
  rw [marksOf, List.filter_cons_of_neg (by simp [Piece.solid, hc])]
  rfl

theorem marksOf_tails {q : CString} (hq : ∀ c ∈ q, urlTail c = true) :
    marksOf (q.map .char) = q.map some := by
  induction q with
  | nil => rfl
  | cons c q ih =>
    obtain ⟨-, -, hc⟩ := urlChar_of_urlTail (hq c List.mem_cons_self)
    rw [List.map_cons, marksOf_char hc, ih fun d hd => hq d (List.mem_cons_of_mem _ hd)]
    rfl

/-- Neither a URL nor punctuation that can end one. -/
def isPlainMark : Option Char → Bool
  | some c => !urlTail c
  | none => false

def isTailMark : Option Char → Bool
  | some c => urlTail c
  | none => false

/-- `ps'` has no more plain characters than `ps`; where it has as many, no more URLs; where it has as
many of them, too, at least as much punctuation; and where nothing has changed at all, `P` holds. -/
def MarkCounts (ps' ps : List Piece) (P : Prop) : Prop :=
  (marksOf ps').countP isPlainMark ≤ (marksOf ps).countP isPlainMark ∧
  ((marksOf ps').countP isPlainMark = (marksOf ps).countP isPlainMark →
    (marksOf ps').count none ≤ (marksOf ps).count none ∧
    ((marksOf ps').count none = (marksOf ps).count none →
      (marksOf ps).countP isTailMark ≤ (marksOf ps').countP isTailMark ∧
      ((marksOf ps').countP isTailMark = (marksOf ps).countP isTailMark → P)))

theorem MarkCounts.of_eq {ps' ps : List Piece} {P : Prop} (h : MarkCounts ps' ps P)
    (heq : marksOf ps' = marksOf ps) : P := by
  rw [MarkCounts, heq] at h
  exact ((h.2 rfl).2 rfl).2 rfl

theorem MarkCounts.cons {ps' ps : List Piece} {P Q : Prop} (h : MarkCounts ps' ps P) (p : Piece)
    (hpq : P → Q) : MarkCounts (p :: ps') (p :: ps) Q := by
  have hcons : ∀ qs, marksOf (p :: qs) = marksOf [p] ++ marksOf qs := fun qs => marksOf_append [p] qs
  rw [MarkCounts, hcons ps', hcons ps]
  simp only [List.countP_append, List.count_append]
  obtain ⟨h₁, h₂⟩ := h
  refine ⟨by omega, fun heq => ?_⟩
  obtain ⟨h₃, h₄⟩ := h₂ (by omega)
  refine ⟨by omega, fun heq => ?_⟩
  obtain ⟨h₅, h₆⟩ := h₄ (by omega)
  exact ⟨by omega, fun heq => hpq (h₆ (by omega))⟩

/-- A piece inside of a word. -/
def Piece.inWord : Piece → Bool
  | .url _ => true
  | .char c => urlChar c

theorem isSpace_of_urlChar (hc : urlChar c = true) : isSpace c = false := by
  cases hsp : isSpace c with
  | false => rfl
  | true =>
    simp only [isSpace, Bool.or_eq_true, beq_iff_eq] at hsp
    rcases hsp with ((((rfl | rfl) | rfl) | rfl) | rfl) | rfl
    all_goals cases hc

/-- Without plain characters and URLs, only punctuation is left of a word. -/
theorem tails_of_count {ps : List Piece} (hin : ∀ p ∈ ps, p.inWord = true)
    (hplain : (marksOf ps).countP isPlainMark = 0) (hurl : (marksOf ps).count none = 0) :
    ∃ q : CString, ps = q.map .char ∧ ∀ c ∈ q, urlTail c = true := by
  induction ps with
  | nil => exact ⟨[], rfl, nofun⟩
  | cons p ps ih =>
    cases p with
    | url u =>
      rw [marksOf_url, List.count_cons_self] at hurl
      omega
    | char c =>
      have hc : urlChar c = true := hin _ List.mem_cons_self
      rw [marksOf_char (isSpace_of_urlChar hc)] at hplain hurl
      rw [List.countP_cons] at hplain
      rw [List.count_cons] at hurl
      obtain ⟨q, rfl, hq⟩ := ih (fun p hp => hin p (List.mem_cons_of_mem _ hp)) (by omega) (by omega)
      have htail : urlTail c = true := by
        by_contra hno
        rw [if_pos (by simp [isPlainMark, hno])] at hplain
        omega
      exact ⟨c :: q, rfl, List.forall_mem_cons.mpr ⟨htail, hq⟩⟩

theorem count_tails {q : CString} (hq : ∀ c ∈ q, urlTail c = true) :
    (q.map some).countP isPlainMark = 0 ∧ (q.map some).count none = 0 ∧
      (q.map some).countP isTailMark = q.length := by
  refine ⟨?_, ?_, ?_⟩
  · rw [List.countP_eq_zero]
    intro m hm
    obtain ⟨c, hc, rfl⟩ := List.mem_map.mp hm
    simp [isPlainMark, hq c hc]
  · rw [List.count_eq_zero]
    simp
  · rw [List.countP_map, ← List.countP_eq_length (p := urlTail) |>.mpr hq]
    rfl

/-- A word that begins like a URL is read as one URL with the punctuation behind it. -/
theorem markCounts_word {ps qs : List Piece} (hin : ∀ p ∈ ps, p.inWord = true)
    (hu : ∀ u, .url u ∈ ps → ∀ c ∈ u, urlChar c = true) (hstart : isUrlStart (joinPieces ps) = true)
    (hend : EndsWord (joinPieces qs))
    (h : MarkCounts (pieces (joinPieces qs)) qs (pieces (joinPieces qs) = qs)) :
    MarkCounts (pieces (joinPieces (ps ++ qs))) (ps ++ qs) (pieces (joinPieces (ps ++ qs)) = ps ++ qs) := by
  have hword : ∀ c ∈ joinPieces ps, urlChar c = true := by
    intro c hc
    obtain ⟨p, hp, hcp⟩ := List.mem_flatMap.mp hc
    cases p with
    | url u => exact hu u hp c hcp
    | char d =>
      rw [List.mem_singleton.mp hcp]
      exact hin _ hp
  obtain ⟨q, hq, htail⟩ := trimEnd_append urlTail (joinPieces ps)
  have hurl : IsUrl (trimEnd urlTail (joinPieces ps)) :=
    ⟨isUrlStart_trimEnd hstart, fun c hc => hword c ((trimEnd_sublist _ _).subset hc), getLast_trimEnd _ _⟩
  have hread : pieces (joinPieces (ps ++ qs)) =
      .url (trimEnd urlTail (joinPieces ps)) :: (q.map .char ++ pieces (joinPieces qs)) := by
    rw [joinPieces_append, ← pieces_tails htail, ← pieces_url_append hurl htail hend,
      ← List.append_assoc, ← hq]
  rw [hread]
  obtain ⟨hq₁, hq₂, hq₃⟩ := count_tails htail
  rw [MarkCounts, marksOf_url, marksOf_append, marksOf_append, marksOf_tails htail]
  simp only [List.countP_append, List.count_append, List.countP_cons, List.count_cons_self, hq₁, hq₂,
    hq₃]
  obtain ⟨h₁, h₂⟩ := h
  have hnone : (if isPlainMark none = true then 1 else 0) = 0 := rfl
  have hnone' : (if isTailMark none = true then 1 else 0) = 0 := rfl
  rw [hnone, hnone']
  refine ⟨by omega, fun heq => ?_⟩
  have hplain : (marksOf ps).countP isPlainMark = 0 := by omega
  obtain ⟨h₃, h₄⟩ := h₂ (by omega)
  cases ps with
  | nil => cases hstart
  | cons p ps =>
    cases p with
    | char c =>
      -- the letter `h` would be a plain character
      obtain ⟨t, ht⟩ := isUrlStart_head hstart
      obtain rfl : c = 'h' := (List.cons.inj ht).1
      rw [marksOf_char rfl, List.countP_cons_of_pos rfl] at hplain
      omega
    | url u =>
      rw [marksOf_url, List.countP_cons, hnone] at hplain
      rw [marksOf_url, List.count_cons_self, List.countP_cons, hnone']
      refine ⟨by omega, fun heq₂ => ?_⟩
      obtain ⟨h₅, h₆⟩ := h₄ (by omega)
      obtain ⟨q', rfl, htail'⟩ := tails_of_count (fun p hp => hin p (List.mem_cons_of_mem _ hp)) hplain
        (by omega)
      obtain ⟨-, -, hq'⟩ := count_tails htail'
      rw [marksOf_tails htail', hq']
      -- the punctuation at the end of `u` is counted, too
      obtain ⟨r, hr, htailr⟩ := trimEnd_append urlTail u
      have hjoin : joinPieces (.url u :: q'.map .char) = u ++ q' := by
        rw [joinPieces_cons, joinPieces_chars]
        rfl
      have htrim : trimEnd urlTail (joinPieces (.url u :: q'.map .char)) = trimEnd urlTail u := by
        rw [hjoin, trimEnd_tails htail']
      have hqr : q = r ++ q' := by
        rw [htrim, hjoin] at hq
        conv_lhs at hq => rw [hr, List.append_assoc]
        exact (List.append_cancel_left hq).symm
      have hlen : q.length = r.length + q'.length := by rw [hqr, List.length_append]
      refine ⟨by omega, fun heq₃ => ?_⟩
      have hnil : r = [] := List.eq_nil_of_length_eq_zero (by omega)
      subst hnil
      rw [h₆ (by omega), htrim, hqr]
      rw [List.append_nil] at hr
      rw [← hr]
      rfl

/-- The pieces of the text of some pieces: a plain character can only be lost, then a URL, then
punctuation can only be won. -/
theorem markCounts_pieces (ps : List Piece)
    (hu : ∀ u, .url u ∈ ps → isUrlStart u = true ∧ ∀ c ∈ u, urlChar c = true) :
    MarkCounts (pieces (joinPieces ps)) ps (pieces (joinPieces ps) = ps) := by
  induction hn : ps.length using Nat.strongRecOn generalizing ps with
  | ind n ih =>
    cases hstart : isUrlStart (joinPieces ps) with
    | true =>
      have hsplit : ps = ps.takeWhile Piece.inWord ++ ps.dropWhile Piece.inWord :=
        List.takeWhile_append_dropWhile.symm
      have hhead : ps.takeWhile Piece.inWord ≠ [] := by
        cases ps with
        | nil => cases hstart
        | cons p ps =>
          have hp : p.inWord = true := by
            cases p with
            | url u => rfl
            | char c =>
              obtain ⟨t, ht⟩ := isUrlStart_head hstart
              obtain rfl : c = 'h' := (List.cons.inj ht).1
              rfl
          rw [List.takeWhile_cons_of_pos hp]
          exact List.cons_ne_nil _ _
      have hend : EndsWord (joinPieces (ps.dropWhile Piece.inWord)) := by
        cases hd : ps.dropWhile Piece.inWord with
        | nil => exact nofun
        | cons p qs =>
          have hp := dropWhile_head hd
          cases p with
          | url u => cases hp
          | char c =>
            intro d hc
            cases hc
            exact hp
      have hshort : (ps.dropWhile Piece.inWord).length < n := by
        have hlen := congrArg List.length hsplit
        have hpos := List.length_pos_iff.mpr hhead
        rw [List.length_append] at hlen
        omega
      have hsub : ∀ p ∈ ps.takeWhile Piece.inWord, p ∈ ps := fun p hp =>
        (List.takeWhile_sublist _).subset hp
      have hword : isUrlStart (joinPieces (ps.takeWhile Piece.inWord)) = true := by
        have hne : joinPieces (ps.takeWhile Piece.inWord) ≠ [] := by
          cases ht : ps.takeWhile Piece.inWord with
          | nil => exact absurd ht hhead
          | cons p qs =>
            cases p with
            | char c => exact List.cons_ne_nil _ _
            | url u =>
              obtain ⟨t, htu⟩ := isUrlStart_head (hu u (hsub _ (by rw [ht]; exact List.mem_cons_self))).1
              rw [joinPieces_cons, Piece.text, htu]
              exact List.cons_ne_nil _ _
        rw [hsplit, joinPieces_append] at hstart
        exact isUrlStart_of_append hne (fun c hc => .inr (hend c hc)) hstart
      have hrest := ih _ hshort _ (fun u hm => hu u ((List.dropWhile_sublist _).subset hm)) rfl
      rw [hsplit]
      exact markCounts_word (fun p hp => List.mem_takeWhile_imp hp) (fun u hm => (hu u (hsub _ hm)).2) hword
        hend hrest
    | false =>
      cases ps with
      | nil => rw [joinPieces_nil, pieces]; exact ⟨Nat.le_refl _, fun _ => ⟨Nat.le_refl _, fun _ =>
          ⟨Nat.le_refl _, fun _ => rfl⟩⟩⟩
      | cons p ps =>
        cases p with
        | url u =>
          have hthis := isUrlStart_append (hu u List.mem_cons_self).1 (joinPieces ps)
          rw [joinPieces_cons, Piece.text, hthis] at hstart
          cases hstart
        | char c =>
          have hrest := ih ps.length (by rw [← hn]; exact Nat.lt_add_one _) ps
            (fun u hm => hu u (List.mem_cons_of_mem _ hm)) rfl
          have hno : isUrlStart (c :: joinPieces ps) = false := hstart
          rw [joinPieces_cons, Piece.text, List.singleton_append, pieces_char hno]
          exact hrest.cons (.char c) (congrArg _)

end Pieces

end SklaffKom
