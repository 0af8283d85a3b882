import SklaffKom.Lib.Utf8
import SklaffKom.NewsThreads

/-!
# Converting letters there and back

`sf7_to_utf8_dup` shows what `utf8_to_sf7_dup` has stored.  The conversion of `send_news` also maps the
single bytes of older character sets, which are parts of other characters in UTF-8.
-/

open CString Utf8

namespace SklaffKom

/-- No byte `\xc3` is followed by the second byte of a letter. -/
def LetterFree (s : CString) : Prop := ∀ d, (utf8Letter d).isSome → ¬ ['\xc3', d] <:+: s

/-- The codes of older character sets stand in the text as second bytes of a letter only. -/
def PairedCodes (t : CString) : Prop :=
  ∀ a c b, t = a ++ c :: b → byteLetter c ≠ c → (utf8Letter c).isSome ∧ a.getLast? = some '\xc3'

/-- What is expected of the conversions of a stored text and of a text that comes from outside. -/
structure ConversionsAgree (s t : CString) : Prop where
  stored : LetterFree s → utf8ToSf7 (sf7ToUtf8 s) = s
  shown : Valid t → (∀ c ∈ t, c ∉ sf7Letters) → sf7ToUtf8 (utf8ToSf7 t) = t
  news : Valid t → convertNews t = utf8ToSf7 t
  newsShown : Valid t → (∀ c ∈ t, c ∉ sf7Letters) → sf7ToUtf8 (convertNews t) = t

/-! ## Letters -/

variable {c d x : Char} {s t : CString}

theorem utf8Letter_of_sf7Second (h : sf7Second c = some d) : utf8Letter d = some c := by
  unfold sf7Second at h
  split at h
  next hc => cases h; rw [hc]; rfl
  split at h
  next hc => cases h; rw [hc]; rfl
  split at h
  next hc => cases h; rw [hc]; rfl
  split at h
  next hc => cases h; rw [hc]; rfl
  split at h
  next hc => cases h; rw [hc]; rfl
  split at h
  next hc => cases h; rw [hc]; rfl
  next => cases h

theorem sf7Second_of_utf8Letter (h : utf8Letter d = some c) : sf7Second c = some d := by
  unfold utf8Letter at h
  split at h
  next hd => cases h; rw [hd]; rfl
  split at h
  next hd => cases h; rw [hd]; rfl
  split at h
  next hd => cases h; rw [hd]; rfl
  split at h
  next hd => cases h; rw [hd]; rfl
  split at h
  next hd => cases h; rw [hd]; rfl
  split at h
  next hd => cases h; rw [hd]; rfl
  next => cases h

theorem sf7Second_eq_none (h : c ∉ sf7Letters) : sf7Second c = none := by
  cases hc : sf7Second c with
  | none => rfl
  | some d => exact absurd (utf8Letter_some (utf8Letter_of_sf7Second hc)).1 h

theorem sf7ToUtf8_letter (h : sf7Second c = some d) (s : CString) :
    sf7ToUtf8 (c :: s) = '\xc3' :: d :: sf7ToUtf8 s := by
  unfold sf7ToUtf8
  rw [List.flatMap_cons, h]
  rfl

theorem sf7ToUtf8_plain (h : sf7Second c = none) (s : CString) :
    sf7ToUtf8 (c :: s) = c :: sf7ToUtf8 s := by
  unfold sf7ToUtf8
  rw [List.flatMap_cons, h]
  rfl

variable {single : Char → Char}

theorem convertLetters_letter (h : utf8Letter d = some x) (s : CString) :
    convertLetters single ('\xc3' :: d :: s) = x :: convertLetters single s := by
  rw [convertLetters, if_pos rfl, h]

theorem convertLetters_plain (h : c = '\xc3' → ∀ d ∈ s.head?, utf8Letter d = none) :
    convertLetters single (c :: s) = single c :: convertLetters single s := by
  rcases convertLetters_cons single c s with hplain | ⟨hc, d, t, x, rfl, hx, -⟩
  · exact hplain
  · rw [h hc d rfl] at hx
    cases hx

/-! ## There and back -/

theorem LetterFree.tail (h : LetterFree (c :: s)) : LetterFree s :=
  fun d hd hin => h d hd (hin.trans (List.suffix_cons c s).isInfix)

theorem LetterFree.head (h : LetterFree ('\xc3' :: s)) : ∀ d ∈ s.head?, utf8Letter d = none := by
  intro d hd
  cases s with
  | nil => cases hd
  | cons e s =>
    obtain rfl := Option.some.inj hd
    by_contra hsome
    exact h _ (Option.isSome_iff_ne_none.mpr hsome) ⟨[], s, rfl⟩

theorem utf8ToSf7_sf7ToUtf8 (h : LetterFree s) : utf8ToSf7 (sf7ToUtf8 s) = s := by
  unfold utf8ToSf7
  induction s with
  | nil => rfl
  | cons c s ih =>
    have ih := ih h.tail
    cases hc : sf7Second c with
    | some d => rw [sf7ToUtf8_letter hc, convertLetters_letter (utf8Letter_of_sf7Second hc), ih]
    | none =>
      rw [sf7ToUtf8_plain hc, convertLetters_plain, ih, id]
      -- the next byte is that of the text, or the first one of a letter
      intro hc3 d hd
      rw [hc3] at h
      cases s with
      | nil => cases hd
      | cons e s =>
        cases he : sf7Second e with
        | some x =>
          rw [sf7ToUtf8_letter he] at hd
          obtain rfl := Option.some.inj hd
          rfl
        | none =>
          rw [sf7ToUtf8_plain he] at hd
          exact h.head d hd

theorem sf7ToUtf8_utf8ToSf7 (h : ∀ c ∈ t, c ∉ sf7Letters) : sf7ToUtf8 (utf8ToSf7 t) = t := by
  unfold utf8ToSf7
  induction hn : t.length using Nat.strong_induction_on generalizing t with
  | _ n ih =>
    cases t with
    | nil => rfl
    | cons c t =>
      rw [List.length_cons] at hn
      rcases convertLetters_cons id c t with hc | ⟨rfl, d, t, x, rfl, hx, hc⟩
      · rw [hc, id, sf7ToUtf8_plain (sf7Second_eq_none (h c List.mem_cons_self)),
          ih _ (by omega) (fun c hc => h c (List.mem_cons_of_mem _ hc)) rfl]
      · rw [List.length_cons] at hn
        rw [hc, sf7ToUtf8_letter (sf7Second_of_utf8Letter hx),
          ih _ (by omega) (fun c hc => h c (by simp [hc])) rfl]

/-! ## The conversion of news -/

theorem PairedCodes.byteLetter_head (h : PairedCodes (c :: t)) : byteLetter c = c := by
  by_contra hc
  have hlast := (h [] c t rfl hc).2
  cases hlast

/-- What stands in front of a text does not matter when it is in no pair with it. -/
theorem pairedCodes_append {p : CString} (hp : PairedCodes p)
    (hlast : p.getLast? = some '\xc3' → ∀ d ∈ t.head?, utf8Letter d = none) :
    PairedCodes (p ++ t) ↔ PairedCodes t := by
  constructor
  · intro h a c b ht hold
    have hpair := h (p ++ a) c b (by rw [ht, List.append_assoc]) hold
    cases a with
    | nil =>
      rw [List.append_nil] at hpair
      have hnone := hlast hpair.2 c (by rw [ht]; rfl)
      rw [hnone] at hpair
      cases hpair.1
    | cons e a => rwa [List.getLast?_append_cons] at hpair
  · intro h a c b hpt hold
    rcases List.append_eq_append_iff.mp hpt with ⟨a', rfl, ht⟩ | ⟨c', rfl, hc'⟩
    · obtain ⟨hsome, hc3⟩ := h a' c b ht hold
      refine ⟨hsome, ?_⟩
      rw [List.getLast?_append, hc3]
      rfl
    · cases c' with
      | nil =>
        obtain ⟨-, hc3⟩ := h [] c b hc'.symm hold
        cases hc3
      | cons e c' =>
        obtain ⟨rfl, -⟩ := List.cons.inj hc'
        exact hp a c c' rfl hold

theorem pairedCodes_byte (h : byteLetter c = c) : PairedCodes [c] := by
  intro a d b had hold
  cases a with
  | nil =>
    obtain ⟨rfl, -⟩ := List.cons.inj had
    exact absurd h hold
  | cons e a => simp at had

theorem pairedCodes_letter (h : utf8Letter d = some x) : PairedCodes ['\xc3', d] := by
  intro a c b had hold
  cases a with
  | nil =>
    obtain ⟨rfl, -⟩ := List.cons.inj had
    exact absurd (by decide) hold
  | cons e a =>
    obtain ⟨rfl, hrest⟩ := List.cons.inj had
    cases a with
    | nil =>
      obtain ⟨rfl, -⟩ := List.cons.inj hrest
      exact ⟨by rw [h]; rfl, rfl⟩
    | cons f a => simp at hrest

/-- The two conversions of a text from outside differ on the codes of older character sets only. -/
theorem convertNews_eq_iff (t : CString) : convertNews t = utf8ToSf7 t ↔ PairedCodes t := by
  unfold convertNews utf8ToSf7
  induction hn : t.length using Nat.strong_induction_on generalizing t with
  | _ n ih =>
    cases t with
    | nil => exact iff_of_true rfl fun a c b h => by simp at h
    | cons c t =>
      rw [List.length_cons] at hn
      by_cases hpair : c = '\xc3' → ∀ d ∈ t.head?, utf8Letter d = none
      · -- a byte of its own
        rw [convertLetters_plain hpair, convertLetters_plain hpair, List.cons.injEq, id,
          ih _ (by omega) t rfl]
        constructor
        · intro h
          exact (pairedCodes_append (pairedCodes_byte h.1) fun hc => hpair (by simpa using hc)).mpr h.2
        · intro h
          have hc := h.byteLetter_head
          exact ⟨hc, (pairedCodes_append (p := [c]) (pairedCodes_byte hc)
            fun hc3 => hpair (by simpa using hc3)).mp h⟩
      · obtain ⟨rfl, d, hd, hletter⟩ : c = '\xc3' ∧ ∃ d ∈ t.head?, ¬ utf8Letter d = none := by
          simpa using hpair
        obtain ⟨x, hx⟩ := Option.ne_none_iff_exists'.mp hletter
        cases t with
        | nil => cases hd
        | cons e t =>
          obtain rfl := Option.some.inj hd
          rw [List.length_cons] at hn
          rw [convertLetters_letter hx, convertLetters_letter hx, List.cons.injEq,
            and_iff_right rfl, ih _ (by omega) t rfl]
          refine (pairedCodes_append (p := ['\xc3', e]) (pairedCodes_letter hx) fun hc3 => ?_).symm
          obtain rfl := Option.some.inj hc3
          cases hx

/-- The conversions agree on a text from outside exactly when the old codes that it holds are second
bytes of letters. -/
theorem conversionsAgree_iff (s t : CString) :
    ConversionsAgree s t ↔ (Valid t → PairedCodes t) := by
  constructor
  · exact fun h hvalid => (convertNews_eq_iff t).mp (h.news hvalid)
  · intro h
    have hnews : Valid t → convertNews t = utf8ToSf7 t := fun hvalid =>
      (convertNews_eq_iff t).mpr (h hvalid)
    refine ⟨utf8ToSf7_sf7ToUtf8, fun _ => sf7ToUtf8_utf8ToSf7, hnews, fun hvalid ht => ?_⟩
    rw [hnews hvalid, sf7ToUtf8_utf8ToSf7 ht]

/-- A dash, whose bytes are `\xe2\x80\x93`. -/
theorem conversions_differ : ¬ ConversionsAgree [] (encode ['–']) := by
  intro h
  have heq : convertNews (encode ['–']) = utf8ToSf7 (encode ['–']) := h.news ⟨['–'], rfl⟩
  exact absurd heq (by decide +kernel)

end SklaffKom
