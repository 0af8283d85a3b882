import SklaffKom.Sf7
import SklaffKom.ImportedText
import SklaffKom.Stdio
import SklaffKom.Lib.Substrings
import SklaffKom.Lib.Runs
import Mathlib.Data.List.Find
import Mathlib.Data.List.Forall2

/-!
# Comments among news articles

`newstoss` cuts the identifiers of an article and of the article it refers to out of its bytes with
`strstr`, and looks the reference up among the identifiers of the texts: those of the stored files at
the beginning of a run, those of the articles themselves later.
-/

open CString Runs

namespace SklaffKom

def msgMsgid : CString := "Message-ID:".toList
def msgRefid : CString := "References:".toList
def msgEmsub : CString := "Subject: ".toList

/-! ## The article -/

/-- The text between the first `<` and the next `>`. -/
def angleId (s : CString) : Option CString := do
  let ptr ← strchr s '<'
  let ptr2 ← strchr ptr '>'
  pure (ptr.take (ptr.length - ptr2.length)).tail

/-- The text between the last `>` of a line and the `<` before it, `none` when the line has no
`<...>`. -/
def lastAngle (line : CString) : Option CString :=
  match line.reverse.dropWhile (· ≠ '>') with
  | [] => none
  | _ :: r => if '<' ∈ r then some (r.takeWhile (· ≠ '<')).reverse else none

/-- The first header line with the name. -/
def headerLineOf (name : CString) (headers : List CString) : Option CString :=
  headers.find? fun l => name.isPrefixOf l

/-- An article as it lies in the spool: header lines, one of them a `Message-ID` of at most 150
bytes, an empty line and the body. -/
structure NewsArticle where
  headers : List CString
  body : CString
  id : CString
  oneLine : ∀ l ∈ headers, '\n' ∉ l
  hasId : (headerLineOf msgMsgid headers).bind angleId = some id
  short : id.length ≤ 150

namespace NewsArticle

def bytes (a : NewsArticle) : CString := unlines a.headers ++ '\n' :: a.body

def reference (a : NewsArticle) : Option CString :=
  (headerLineOf msgRefid a.headers).bind lastAngle

/-- The article from the first header line with the name on. -/
def fromHeader (a : NewsArticle) (name : CString) : Option CString :=
  match a.headers.dropWhile fun l => !name.isPrefixOf l with
  | [] => none
  | ls => some (unlines ls ++ '\n' :: a.body)

end NewsArticle

/-! ## Swedish letters -/

/-- "Old single-byte encodings": the codes of the six letters. -/
def byteLetter (c : Char) : Char :=
  if c.toNat ∈ [134, 229, 140] then '}'
  else if c.toNat ∈ [132, 228, 138] then '\x7b'
  else if c.toNat ∈ [148, 246, 154] then '|'
  else if c.toNat ∈ [143, 197, 129] then ']'
  else if c.toNat ∈ [142, 196, 128] then '['
  else if c.toNat ∈ [153, 214, 133] then '\\'
  else c

/-- The "swedish character conversion" of `send_news`. -/
def convertNews : CString → CString := convertLetters byteLetter

/-! ## `newstoss` -/

/-- What is left in bytes that no copy sets: of `refer`, of `th.subject` and of `rf->id`. -/
structure NewsJunk where
  refer : Char
  subject : Char
  id : Char

/-- `strncpy(dst, s, n)` into a buffer whose byte `n + 1` is set to NUL, the byte `n` being `junk`. -/
def strncpyJunk (n : Nat) (junk : Char) (s : CString) : CString :=
  if s.length < n then s else s.take n ++ if junk = '\x00' then [] else [junk]

/-- `rf->id` for an article or the file of a text. -/
def messageKey (junk : Char) (buf : CString) : Option CString :=
  ((strstr buf msgMsgid).bind angleId).map (strncpyJunk 156 junk)

/-- The search back from the end of the line: without a `<` it ends at the beginning. -/
def referLine (line : CString) : Option CString :=
  match line.reverse.dropWhile (· ≠ '>') with
  | [] => none
  | _ :: r => if '<' ∈ r then some (r.takeWhile (· ≠ '<')).reverse else some r.reverse.tail

/-- `refer`, empty when nothing was found. -/
def referKey (junk : Char) (buf : CString) : CString :=
  match strstr buf msgRefid with
  | none => []
  | some ptr =>
    -- the line has to end
    match strchr ptr '\n' with
    | none => []
    | some nl => ((referLine (ptr.take (ptr.length - nl.length))).map (strncpyJunk 77 junk)).getD []

/-- `find_ref` in the list of identifiers and text numbers. -/
def findRef (refs : List (CString × Nat)) (refer : CString) : Nat :=
  if refer = [] then 0 else ((refs.find? (·.1 = refer)).map Prod.snd).getD 0

/-- `th.subject`: the rest of the line after `"Subject: "`; a line that does not end crashes the
program. -/
def newsSubject (junk : Char) (mbuf : CString) : Option CString :=
  match strstr mbuf msgEmsub with
  | none => some []
  | some ptr =>
    let ptr := ptr.drop msgEmsub.length
    (strchr ptr '\n').map fun nl => strncpyJunk 68 junk (ptr.take (ptr.length - nl.length))

/-- The file that `send_news` writes. -/
def newsFile (num : Nat) (now : Int) (com : Nat) (subject mbuf : CString) : CString :=
  field num ++ (field 0 ++ (field now ++ (field com ++ (field 0 ++ (field 0 ++
    (decimal (mbuf.count '\n') ++ '\n' :: (subject ++ '\n' :: mbuf)))))))

/-- The line `num:0` is added to the text `com`. -/
def linkNews (com num : Nat) (texts : List CString) : List CString :=
  if com = 0 then texts else texts.modify (com - 1) (appendLink · ⟨num, 0⟩)

/-- The files of the texts, the list of the run in progress, and the articles imported so far. -/
structure ThreadState where
  texts : List CString
  refs : List (CString × Nat)
  articles : List NewsArticle

/-- A run begins, or imports an article at a time. -/
inductive ThreadEvent where
  | begin (junk : NewsJunk)
  | article (a : NewsArticle) (now : Int) (junk : NewsJunk)

/-- What `main` does at the first article of a run and at each one. -/
def threadStep (s : ThreadState) : ThreadEvent → Option ThreadState
  | .begin junk =>
    some { s with refs := (s.texts.zipIdx 1).filterMap fun (buf, run) =>
             (messageKey junk.id buf).map fun id => (id, run) }
  | .article a now junk =>
    let com := findRef s.refs (referKey junk.refer a.bytes)
    let mbuf := convertNews a.bytes
    let newid := s.texts.length + 1
    (newsSubject junk.subject mbuf).map fun subject =>
      { texts := linkNews com newid (s.texts ++ [newsFile newid now com subject mbuf])
        -- the identifier is cut out of the converted bytes
        refs := s.refs ++ ((messageKey junk.id mbuf).map fun id => (id, newid)).toList
        articles := s.articles ++ [a] }

/-- The number of the first of the articles with the identifier that `a` refers to, 0 without
one. -/
def parentOf (articles : List NewsArticle) (a : NewsArticle) : Nat :=
  match a.reference with
  | none => 0
  | some r => (((articles.zipIdx 1).find? fun p => p.1.id = r).map Prod.snd).getD 0

/-- A text as `get_text_entry` reads it to the end of its file. -/
def wholeEntry (file : CString) : Option TextEntry :=
  match getTextEntry file with
  | .entry te (some []) => some te
  | _ => none

/-- A text gets one comment more, and is read as before otherwise. -/
def GainsComment (c : CommentLink) (file file' : CString) : Prop :=
  ∃ te ∈ wholeEntry file, wholeEntry file' = some { te with cl := te.cl ++ [c] }

instance (c : CommentLink) (file file' : CString) : Decidable (GainsComment c file file') :=
  inferInstanceAs (Decidable (∃ te ∈ wholeEntry file, wholeEntry file' = some { te with cl := te.cl ++ [c] }))

/-- An article is stored as a comment to its parent, a text that is there, and no other text changes. -/
def Stored (s : ThreadState) (a : NewsArticle) (now : Int) (junk : NewsJunk) (s' : ThreadState) : Prop :=
  parentOf s.articles a ≤ s.texts.length ∧
    ∃ subject ∈ newsSubject junk.subject (convertNews a.bytes), s'.texts =
      linkNews (parentOf s.articles a) (s.texts.length + 1) (s.texts ++
        [newsFile (s.texts.length + 1) now (parentOf s.articles a) subject (convertNews a.bytes)])

instance (s : ThreadState) (a : NewsArticle) (now : Int) (junk : NewsJunk) (s' : ThreadState) :
    Decidable (Stored s a now junk s') :=
  inferInstanceAs (Decidable (_ ∧ ∃ subject ∈ newsSubject junk.subject (convertNews a.bytes), s'.texts =
    linkNews (parentOf s.articles a) (s.texts.length + 1) (s.texts ++
      [newsFile (s.texts.length + 1) now (parentOf s.articles a) subject (convertNews a.bytes)])))

/-- The parent has the article as a comment. -/
def ParentLinked (s : ThreadState) (a : NewsArticle) (s' : ThreadState) : Prop :=
  parentOf s.articles a ≠ 0 → ∃ file ∈ s.texts[parentOf s.articles a - 1]?,
    ∃ file' ∈ s'.texts[parentOf s.articles a - 1]?, GainsComment ⟨s.texts.length + 1, 0⟩ file file'

instance (s : ThreadState) (a : NewsArticle) (s' : ThreadState) : Decidable (ParentLinked s a s') :=
  inferInstanceAs (Decidable (_ ≠ 0 → ∃ file ∈ s.texts[parentOf s.articles a - 1]?,
    ∃ file' ∈ s'.texts[parentOf s.articles a - 1]?, GainsComment ⟨s.texts.length + 1, 0⟩ file file'))

/-- An article is stored as a comment to its parent, which gets one link, and no other text changes. -/
def Threaded (s : ThreadState) : ThreadEvent → ThreadState → Prop
  | .begin _, s' => s'.texts = s.texts
  | .article a now junk, s' => Stored s a now junk s' ∧ ParentLinked s a s'

instance (s : ThreadState) (e : ThreadEvent) (s' : ThreadState) : Decidable (Threaded s e s') :=
  match e with
  | .begin _ => inferInstanceAs (Decidable (s'.texts = s.texts))
  | .article a now junk => inferInstanceAs (Decidable (Stored s a now junk s' ∧ ParentLinked s a s'))

/-- The identifiers are cut out rightly: each of the two names comes first in the header line that
it is the name of (and `References:` nowhere without one), the copied subject ends, is one line and does
not have the other name, and the reference as it is copied equals the converted identifier of an earlier
article exactly when it is that identifier. -/
structure WellCut (s : ThreadState) (a : NewsArticle) (junk : NewsJunk) : Prop where
  id : strstr a.bytes msgMsgid = a.fromHeader msgMsgid
  refer : strstr a.bytes msgRefid = a.fromHeader msgRefid
  angled : ∀ l, headerLineOf msgRefid a.headers = some l → lastAngle l = none → '>' ∉ l
  subject : ∃ subject, newsSubject junk.subject (convertNews a.bytes) = some subject ∧
    strstr subject msgMsgid = none ∧ '\n' ∉ subject
  same : ∀ r, a.reference = some r → ∀ b ∈ s.articles,
    (convertNews b.id = strncpyJunk 77 junk.refer r ↔ b.id = r)
  known : a.reference = some [] → ∀ b ∈ s.articles, b.id ≠ []

instance (s : ThreadState) (a : NewsArticle) (junk : NewsJunk) : Decidable (WellCut s a junk) :=
  decidable_of_iff
    (strstr a.bytes msgMsgid = a.fromHeader msgMsgid ∧
      strstr a.bytes msgRefid = a.fromHeader msgRefid ∧
      (∀ l ∈ headerLineOf msgRefid a.headers, lastAngle l = none → '>' ∉ l) ∧
      (∃ subject ∈ newsSubject junk.subject (convertNews a.bytes),
        strstr subject msgMsgid = none ∧ '\n' ∉ subject) ∧
      (∀ r ∈ a.reference, ∀ b ∈ s.articles,
        (convertNews b.id = strncpyJunk 77 junk.refer r ↔ b.id = r)) ∧
      (a.reference = some [] → ∀ b ∈ s.articles, b.id ≠ []))
    ⟨fun ⟨h1, h2, h3, h4, h5, h6⟩ => ⟨h1, h2, h3, h4, h5, h6⟩,
      fun h => ⟨h.id, h.refer, h.angled, h.subject, h.same, h.known⟩⟩

/-- The file of the parent does not end in the middle of a line. -/
def ParentWhole (s : ThreadState) (a : NewsArticle) : Prop :=
  parentOf s.articles a ≠ 0 → ∀ file ∈ s.texts[parentOf s.articles a - 1]?, WholeLines file

instance (s : ThreadState) (a : NewsArticle) : Decidable (ParentWhole s a) :=
  decidable_of_iff (parentOf s.articles a ≠ 0 → (s.texts[parentOf s.articles a - 1]?.all fun file =>
    file.getLast?.all (· = '\n')) = true) (by simp [ParentWhole, WholeLines, Option.all_eq_true])

/-- The condition on an event. -/
def CutRightly (s : ThreadState) : ThreadEvent → Prop
  | .begin _ => True
  | .article a _ junk => WellCut s a junk ∧ ParentWhole s a

instance (s : ThreadState) (e : ThreadEvent) : Decidable (CutRightly s e) :=
  match e with
  | .begin _ => inferInstanceAs (Decidable True)
  | .article a _ junk => inferInstanceAs (Decidable (WellCut s a junk ∧ ParentWhole s a))

def ThreadState.start : ThreadState := ⟨[], [], []⟩

/-! ## Identifiers -/

theorem angleId_of_split {x id z : CString} (hx : '<' ∉ x) (hid : '>' ∉ id) :
    angleId (x ++ '<' :: (id ++ '>' :: z)) = some id := by
  have h1 : strchr (x ++ '<' :: (id ++ '>' :: z)) '<' = some ('<' :: (id ++ '>' :: z)) :=
    strchr_append hx
  have hid' : '>' ∉ '<' :: id := by
    simp only [List.mem_cons, not_or]
    exact ⟨by decide, hid⟩
  have h2 : strchr ('<' :: (id ++ '>' :: z)) '>' = some ('>' :: z) := by
    have h := strchr_append (b := z) hid'
    rwa [List.cons_append] at h
  have h3 : ('<' :: (id ++ '>' :: z)).take (('<' :: (id ++ '>' :: z)).length - ('>' :: z).length) =
      '<' :: id := by
    have h := take_before ('<' :: id) ('>' :: z)
    rwa [List.cons_append] at h
  simp only [angleId, h1, h2, h3, Option.bind_eq_bind, Option.bind_some, List.tail_cons,
    Option.pure_def]

theorem angleId_split {s id : CString} (h : angleId s = some id) :
    ∃ x z, s = x ++ '<' :: (id ++ '>' :: z) ∧ '<' ∉ x ∧ '>' ∉ id := by
  unfold angleId at h
  cases h1 : strchr s '<' with
  | none =>
    rw [h1] at h
    cases h
  | some ptr =>
    cases h2 : strchr ptr '>' with
    | none =>
      simp only [h1, h2, Option.bind_eq_bind, Option.bind_some, Option.bind_none, reduceCtorEq] at h
    | some ptr2 =>
      simp only [h1, h2, Option.bind_eq_bind, Option.bind_some, Option.pure_def,
        Option.some.injEq] at h
      obtain ⟨x, b, hs, hp, hx⟩ := strchr_split h1
      obtain ⟨y, z, hptr, hp2, hy⟩ := strchr_split h2
      rw [hptr, hp2, take_before] at h
      -- the `<` stands before the `>`
      cases y with
      | nil =>
        rw [hp, List.nil_append, List.cons.injEq] at hptr
        exact absurd hptr.1 (by decide)
      | cons c y =>
        rw [hp, List.cons_append, List.cons.injEq] at hptr
        rw [List.tail_cons] at h
        refine ⟨x, z, ?_, hx, fun hid => hy (List.mem_cons_of_mem _ (h ▸ hid))⟩
        rw [hs, hptr.2, h]

/-- What follows an identifier does not matter. -/
theorem angleId_append {s id : CString} (h : angleId s = some id) (rest : CString) :
    angleId (s ++ rest) = some id := by
  obtain ⟨x, z, rfl, hx, hid⟩ := angleId_split h
  have hassoc : x ++ '<' :: (id ++ '>' :: z) ++ rest = x ++ '<' :: (id ++ '>' :: (z ++ rest)) := by
    simp
  rw [hassoc]
  exact angleId_of_split hx hid

theorem strncpyJunk_of_lt {n : Nat} {junk : Char} {s : CString} (h : s.length < n) :
    strncpyJunk n junk s = s := if_pos h

/-! ## The conversion -/

/-- A byte that is neither converted nor the code of a letter. -/
def Unconverted (c : Char) : Prop := c.toNat < 128 ∧ c ∉ sf7Letters

instance (c : Char) : Decidable (Unconverted c) :=
  inferInstanceAs (Decidable (c.toNat < 128 ∧ c ∉ sf7Letters))

theorem byteLetter_cases (c : Char) :
    byteLetter c = c ∨ (¬ Unconverted (byteLetter c) ∧ ¬ c.toNat < 128) := by
  have hcode : ∀ codes : List Nat, (∀ n ∈ codes, 128 ≤ n) → c.toNat ∈ codes → ¬ c.toNat < 128 :=
    fun codes hcodes hc => Nat.not_lt.mpr (hcodes _ hc)
  unfold byteLetter
  split
  next h => exact Or.inr ⟨by decide, hcode _ (by decide) h⟩
  split
  next h => exact Or.inr ⟨by decide, hcode _ (by decide) h⟩
  split
  next h => exact Or.inr ⟨by decide, hcode _ (by decide) h⟩
  split
  next h => exact Or.inr ⟨by decide, hcode _ (by decide) h⟩
  split
  next h => exact Or.inr ⟨by decide, hcode _ (by decide) h⟩
  split
  next h => exact Or.inr ⟨by decide, hcode _ (by decide) h⟩
  next => exact Or.inl rfl

theorem convertNews_cons (c : Char) (s : CString) :
    convertNews (c :: s) = byteLetter c :: convertNews s ∨
      (c = '\xc3' ∧ ∃ d t x, s = d :: t ∧ utf8Letter d = some x ∧
        convertNews (c :: s) = x :: convertNews t) :=
  convertLetters_cons byteLetter c s

theorem not_unconverted_c3 : ¬ Unconverted '\xc3' := by decide

theorem byteLetter_eq_iff {b c : Char} (hc : Unconverted c) : byteLetter b = c ↔ b = c := by
  rcases byteLetter_cases b with h | ⟨h, hb⟩
  · rw [h]
  · constructor
    · intro he
      exact absurd (he ▸ hc) h
    · intro he
      exact absurd (he ▸ hc.1) hb

/-- Conversion keeps a pattern of unconverted bytes where it is, and makes no other. -/
theorem prefix_convertNews {pat : CString} (hpat : ∀ c ∈ pat, Unconverted c) (s : CString) :
    pat <+: convertNews s ↔ pat <+: s := by
  induction pat generalizing s with
  | nil => simp
  | cons p pat ih =>
    have hp := hpat p List.mem_cons_self
    cases s with
    | nil => rfl
    | cons c s =>
      rcases convertNews_cons c s with h | ⟨hc, d, t, x, -, hx, h⟩
      · rw [h, List.cons_prefix_cons, List.cons_prefix_cons,
          ih (fun c hc => hpat c (List.mem_cons_of_mem _ hc)), eq_comm, byteLetter_eq_iff hp,
          eq_comm (a := c)]
      · rw [h, List.cons_prefix_cons, List.cons_prefix_cons]
        refine iff_of_false (fun he => ?_) (fun he => ?_)
        · exact hp.2 (he.1 ▸ (utf8Letter_some hx).1)
        · rw [hc] at he
          exact not_unconverted_c3 (he.1 ▸ hp)

theorem strstr_convertNews {pat : CString} (hpat : ∀ c ∈ pat, Unconverted c) (hne : pat ≠ [])
    {s t : CString} (h : strstr s pat = some t) :
    strstr (convertNews s) pat = some (convertNews t) := by
  induction hn : s.length using Nat.strong_induction_on generalizing s with
  | _ n ih =>
    by_cases hp : pat <+: s
    · rw [strstr_at_start hp, Option.some.injEq] at h
      rw [← h]
      exact strstr_at_start ((prefix_convertNews hpat s).mpr hp)
    · have hp' := mt (prefix_convertNews hpat s).mp hp
      cases s with
      | nil =>
        rw [strstr_nil hne] at h
        cases h
      | cons c s =>
        rw [strstr_cons_of_not_start hp] at h
        rw [List.length_cons] at hn
        rcases convertNews_cons c s with hc | ⟨-, d, u, x, hs, hx, hc⟩
        · rw [hc] at hp' ⊢
          rw [strstr_cons_of_not_start hp']
          exact ih _ (by omega) h rfl
        · -- a pattern begins at neither of the two bytes
          have hd : pat.head? ≠ some d := by
            intro hd
            exact (utf8Letter_some hx).2 (hpat d (List.mem_of_mem_head? hd)).1
          rw [hs, strstr_cons_of_ne hd hne] at h
          rw [hs, List.length_cons] at hn
          rw [hc] at hp' ⊢
          rw [strstr_cons_of_not_start hp']
          exact ih _ (by omega) h rfl

/-- A separator stays where it is. -/
theorem convertNews_append {d : Char} (hd : Unconverted d) (s rest : CString) :
    convertNews (s ++ d :: rest) = convertNews s ++ d :: convertNews rest :=
  convertLetters_append hd.1 ((byteLetter_eq_iff hd).mpr rfl) s rest

theorem mem_convertNews {d : Char} (hd : Unconverted d) {s : CString} (h : d ∈ convertNews s) :
    d ∈ s :=
  mem_convertLetters hd.2 (fun _ => (byteLetter_eq_iff hd).mp) h

/-- An identifier is converted with the line around it. -/
theorem angleId_convertNews {s id : CString} (h : angleId s = some id) :
    angleId (convertNews s) = some (convertNews id) := by
  have hlt : Unconverted '<' := by decide
  have hgt : Unconverted '>' := by decide
  obtain ⟨x, z, rfl, hx, hid⟩ := angleId_split h
  rw [convertNews_append hlt, convertNews_append hgt]
  exact angleId_of_split (mt (mem_convertNews hlt) hx) (mt (mem_convertNews hgt) hid)

/-! ## What is cut out of an article -/

theorem unconverted_msgMsgid : ∀ c ∈ msgMsgid, Unconverted c := by
  have hall : (msgMsgid.all fun c => decide (Unconverted c)) = true := by decide
  intro c hc
  exact of_decide_eq_true (List.all_eq_true.mp hall c hc)

/-- The line of a header is the first of the bytes from that header on. -/
theorem NewsArticle.fromHeader_some {a : NewsArticle} {name l : CString}
    (h : headerLineOf name a.headers = some l) :
    '\n' ∉ l ∧ ∃ rest, a.fromHeader name = some (l ++ '\n' :: rest) := by
  have hmem := List.mem_of_find?_eq_some h
  refine ⟨a.oneLine l hmem, ?_⟩
  have hdrop : ∀ ls : List CString, headerLineOf name ls = some l →
      ∃ ls', ls.dropWhile (fun l => !name.isPrefixOf l) = l :: ls' := by
    intro ls
    induction ls with
    | nil => intro h; cases h
    | cons k ls ih =>
      intro h
      rw [headerLineOf, List.find?_cons] at h
      rw [List.dropWhile_cons]
      cases hk : name.isPrefixOf k with
      | true =>
        rw [hk] at h
        cases h
        exact ⟨ls, rfl⟩
      | false =>
        rw [hk] at h
        exact ih h
  obtain ⟨ls, hls⟩ := hdrop a.headers h
  refine ⟨unlines ls ++ '\n' :: a.body, ?_⟩
  simp only [fromHeader, hls, unlines_cons]
  simp

theorem NewsArticle.fromHeader_none {a : NewsArticle} {name : CString}
    (h : headerLineOf name a.headers = none) : a.fromHeader name = none := by
  have hdrop : a.headers.dropWhile (fun l => !name.isPrefixOf l) = [] := by
    rw [List.dropWhile_eq_nil_iff]
    intro l hl
    have hl' : ¬ name.isPrefixOf l = true := List.find?_eq_none.mp h l hl
    rw [Bool.not_eq_true] at hl'
    rw [hl']
    rfl
  simp only [fromHeader, hdrop]

/-- The file has the identifier at its first `Message-ID:`. -/
def HasKey (id file : CString) : Prop := ∃ t, strstr file msgMsgid = some t ∧ angleId t = some id

theorem HasKey.append {id file : CString} (h : HasKey id file) (x : CString) :
    HasKey id (file ++ x) := by
  obtain ⟨t, ht, hid⟩ := h
  exact ⟨t ++ x, strstr_append ht x, angleId_append hid x⟩

theorem HasKey.messageKey {id file : CString} (h : HasKey id file) (hlen : id.length < 156)
    (junk : Char) : messageKey junk file = some id := by
  obtain ⟨t, ht, hid⟩ := h
  simp only [SklaffKom.messageKey, ht, Option.bind_some, hid, Option.map_some,
    strncpyJunk_of_lt hlen]

variable {s : ThreadState} {a : NewsArticle} {junk : NewsJunk}

/-- The converted bytes have the converted identifier. -/
theorem WellCut.hasKey (h : WellCut s a junk) : HasKey (convertNews a.id) (convertNews a.bytes) := by
  have hid := a.hasId
  cases hl : headerLineOf msgMsgid a.headers with
  | none =>
    rw [hl] at hid
    cases hid
  | some l =>
    rw [hl, Option.bind_some] at hid
    obtain ⟨-, rest, hfrom⟩ := a.fromHeader_some hl
    have hstr := h.id.trans hfrom
    refine ⟨_, strstr_convertNews unconverted_msgMsgid (by decide) hstr, ?_⟩
    rw [convertNews_append (by decide)]
    exact angleId_append (angleId_convertNews hid) _

theorem NewsArticle.length_key (a : NewsArticle) : (convertNews a.id).length < 156 := by
  have h1 : (convertNews a.id).length ≤ a.id.length := length_convertLetters_le byteLetter a.id
  have h2 := a.short
  omega

/-- So has the stored file, whose first lines are no such header. -/
theorem hasKey_newsFile {id mbuf subject : CString} (h : HasKey id mbuf)
    (hsubject : strstr subject msgMsgid = none) (num : Nat) (now : Int) (com : Nat) :
    HasKey id (newsFile num now com subject mbuf) := by
  obtain ⟨t, ht, hid⟩ := h
  refine ⟨t, ?_, hid⟩
  have hne : msgMsgid ≠ [] := by decide
  have hM : ∀ p ∈ msgMsgid.head?, p = 'M' := by
    intro p hp
    exact (Option.some.inj hp).symm
  -- no digit begins a `Message-ID:`
  have hdec : ∀ n : Int, ∀ p ∈ msgMsgid.head?, p ∉ decimal n := by
    intro n p hp
    rw [hM p hp]
    exact notMem_decimal rfl (by decide)
  have hfield : ∀ (n : Int) (rest : CString), strstr (field n ++ rest) msgMsgid =
      strstr rest msgMsgid := by
    intro n rest
    apply strstr_append_of_notMem _ hne
    intro p hp
    rw [field, List.mem_append, not_or]
    refine ⟨hdec n p hp, ?_⟩
    rw [hM p hp]
    decide
  have hsize : ∀ (n : Nat) (rest : CString), strstr (decimal n ++ '\n' :: rest) msgMsgid =
      strstr rest msgMsgid := by
    intro n rest
    have h1 : strstr (decimal (n : Int)) msgMsgid = none := by
      have h : strstr (decimal (n : Int) ++ []) msgMsgid = strstr [] msgMsgid :=
        strstr_append_of_notMem (hdec n) hne
      rwa [List.append_nil, strstr_nil hne] at h
    exact strstr_append_sep (by decide) hne h1
  simp only [newsFile]
  rw [hfield, hfield, hfield, hfield, hfield, hfield, hsize,
    strstr_append_sep (by decide) hne hsubject, ht]

/-! ## The reference -/

theorem referLine_eq {line : CString} (h : lastAngle line = none → '>' ∉ line) :
    referLine line = lastAngle line := by
  have hmem : ∀ c r, line.reverse.dropWhile (· ≠ '>') = c :: r → '>' ∈ line := by
    intro c r hd
    by_contra hnot
    have hnil : line.reverse.dropWhile (· ≠ '>') = [] := by
      rw [List.dropWhile_eq_nil_iff]
      intro x hx
      have hne : x ≠ '>' := fun he => hnot (he ▸ List.mem_reverse.mp hx)
      exact decide_eq_true hne
    rw [hnil] at hd
    cases hd
  cases hd : line.reverse.dropWhile (· ≠ '>') with
  | nil => simp only [referLine, lastAngle, hd]
  | cons c r =>
    by_cases hlt : '<' ∈ r
    · simp only [referLine, lastAngle, hd, if_pos hlt]
    · have hnone : lastAngle line = none := by
        simp only [lastAngle, hd, if_neg hlt]
      exact absurd (hmem c r hd) (h hnone)

/-- The reference is cut out of its header. -/
theorem WellCut.referKey_eq (h : WellCut s a junk) :
    referKey junk.refer a.bytes = (a.reference.map (strncpyJunk 77 junk.refer)).getD [] := by
  cases hl : headerLineOf msgRefid a.headers with
  | none =>
    have hstr := h.refer.trans (a.fromHeader_none hl)
    simp only [referKey, hstr, NewsArticle.reference, hl, Option.bind_none, Option.map_none,
      Option.getD_none]
  | some l =>
    obtain ⟨hline, rest, hfrom⟩ := a.fromHeader_some hl
    have hstr := h.refer.trans hfrom
    have hnl : strchr (l ++ '\n' :: rest) '\n' = some ('\n' :: rest) := strchr_append hline
    have hkey : referLine l = lastAngle l := referLine_eq (h.angled l hl)
    simp only [referKey, hstr, hnl, take_before, hkey, NewsArticle.reference, hl, Option.bind_some]

/-- The list of a run: the converted identifiers with the text numbers. -/
def keysOf (articles : List NewsArticle) : List (CString × Nat) :=
  (articles.zipIdx 1).map fun p => (convertNews p.1.id, p.2)

theorem strncpyJunk_eq_nil {n : Nat} {j : Char} {r : CString} (hn : 0 < n)
    (h : strncpyJunk n j r = []) : r = [] := by
  unfold strncpyJunk at h
  split at h
  next => exact h
  next hlen =>
    have htake := (List.append_eq_nil_iff.mp h).1
    rw [List.take_eq_nil_iff] at htake
    exact htake.resolve_left (by omega)

/-- `find_ref` finds the article that is referred to. -/
theorem WellCut.findRef_eq (h : WellCut s a junk) :
    findRef (keysOf s.articles) (referKey junk.refer a.bytes) = parentOf s.articles a := by
  rw [h.referKey_eq]
  cases hr : a.reference with
  | none =>
    simp only [parentOf, hr, Option.map_none, Option.getD_none, findRef, if_true]
  | some r =>
    rw [Option.map_some, Option.getD_some]
    by_cases hnil : strncpyJunk 77 junk.refer r = []
    · have hr' : r = [] := strncpyJunk_eq_nil (by decide) hnil
      have hnone : (s.articles.zipIdx 1).find? (fun p => p.1.id = r) = none := by
        rw [List.find?_eq_none]
        intro p hp
        have hne := h.known (hr' ▸ hr) p.1 (List.fst_mem_of_mem_zipIdx hp)
        rw [hr']
        simpa using hne
      simp only [findRef, if_pos hnil, parentOf, hr, hnone, Option.map_none, Option.getD_none]
    · have hfind : (s.articles.zipIdx 1).find?
          (fun p => convertNews p.1.id = strncpyJunk 77 junk.refer r) =
          (s.articles.zipIdx 1).find? (fun p => p.1.id = r) := by
        apply List.find?_congr
        intro p hp
        exact decide_eq_decide.mpr (h.same r hr p.1 (List.fst_mem_of_mem_zipIdx hp))
      simp only [findRef, if_neg hnil, parentOf, hr, keysOf, List.find?_map, Function.comp_def,
        hfind, Option.map_map]

/-! ## Runs -/

/-- The file of an article: links follow whole lines only. -/
inductive ArticleFile : CString → Prop
  | whole (n now com : Int) {subject : CString} (hsubject : '\n' ∉ subject) {ls : List CString}
      (hls : ∀ l ∈ ls, '\n' ∉ l) (cl : List CommentLink) :
    ArticleFile (importedLine n now com ls.length ++ '\n' :: (subject ++ '\n' :: (unlines ls ++ linkLines cl)))
  | cut {file : CString} {c : Char} (hlast : file.getLast? = some c) (hc : c ≠ '\n') : ArticleFile file

/-- What a new text is. -/
theorem articleFile_newsFile (num : Nat) (now : Int) (com : Nat) {subject : CString} (hsubject : '\n' ∉ subject)
    (mbuf : CString) : ArticleFile (newsFile num now com subject mbuf) := by
  obtain ⟨ls, rest, rfl, hls, hrest⟩ := exists_unlines_append mbuf
  have hcount : (unlines ls ++ rest).count '\n' = ls.length := by
    rw [List.count_append, count_unlines hls, List.count_eq_zero_of_not_mem hrest, Nat.add_zero]
  have hfile : newsFile num now com subject (unlines ls ++ rest) =
      importedLine num now com ls.length ++ '\n' :: (subject ++ '\n' :: (unlines ls ++ rest)) := by
    unfold newsFile importedLine
    rw [hcount]
    simp only [List.append_assoc]
  rw [hfile]
  cases hc : rest.getLast? with
  | none =>
    rw [List.getLast?_eq_none_iff.mp hc]
    exact .whole num now com hsubject hls []
  | some c =>
    refine .cut (c := c) ?_ fun h => hrest (h ▸ List.mem_of_getLast? hc)
    have hassoc : importedLine num now com ls.length ++ '\n' :: (subject ++ '\n' :: (unlines ls ++ rest)) =
        importedLine num now com ls.length ++ '\n' :: (subject ++ '\n' :: unlines ls) ++ rest := by
      simp
    rw [hassoc, List.getLast?_append, hc]
    rfl

/-- A link on a text that ends in a line end. -/
theorem ArticleFile.link {file : CString} (h : ArticleFile file) (hwhole : WholeLines file) (c : CommentLink) :
    ArticleFile (appendLink file c) ∧ GainsComment c file (appendLink file c) := by
  cases h with
  | cut hlast hc => exact absurd (hwhole _ hlast) hc
  | @whole n now com subject hsubject ls hls cl =>
    have happ : appendLink (importedLine n now com ls.length ++
        '\n' :: (subject ++ '\n' :: (unlines ls ++ linkLines cl))) c =
        importedLine n now com ls.length ++ '\n' :: (subject ++ '\n' :: (unlines ls ++ linkLines (cl ++ [c]))) := by
      simp [appendLink, linkLines]
    have hread := getTextEntry_importedLinks n now com hsubject hls
    rw [happ]
    refine ⟨.whole n now com hsubject hls (cl ++ [c]), { importedEntry n now com subject ls with cl := cl }, ?_, ?_⟩
    · unfold wholeEntry
      rw [hread cl]
      rfl
    · unfold wholeEntry
      rw [hread (cl ++ [c])]

/-- Every text has the converted identifier of its article, and so does the list. -/
structure ThreadInv (s : ThreadState) : Prop where
  refs : s.refs = keysOf s.articles
  texts : List.Forall₂ (fun a file => HasKey (convertNews a.id) file) s.articles s.texts
  files : ∀ (i : Nat) (file : CString), s.texts[i]? = some file → ArticleFile file

theorem keysOf_append (articles : List NewsArticle) (a : NewsArticle) :
    keysOf (articles ++ [a]) = keysOf articles ++ [(convertNews a.id, articles.length + 1)] := by
  rw [keysOf, List.zipIdx_append, List.map_append, Nat.add_comm]
  rfl

/-- The list that is rebuilt from the texts. -/
theorem rebuilt_refs {articles : List NewsArticle} {texts : List CString}
    (h : List.Forall₂ (fun a file => HasKey (convertNews a.id) file) articles texts)
    (junk : NewsJunk) (n : Nat) :
    ((texts.zipIdx n).filterMap fun (buf, run) =>
      (messageKey junk.id buf).map fun id => (id, run)) =
    (articles.zipIdx n).map fun p => (convertNews p.1.id, p.2) := by
  induction h generalizing n with
  | nil => rfl
  | @cons a file articles texts hkey _ ih =>
    have hid := hkey.messageKey a.length_key junk.id
    rw [List.zipIdx_cons, List.zipIdx_cons, List.map_cons, ← ih (n + 1)]
    apply List.filterMap_cons_some
    show (messageKey junk.id file).map (fun id => (id, n)) = _
    rw [hid]
    rfl

theorem parentOf_le (articles : List NewsArticle) (a : NewsArticle) :
    parentOf articles a ≤ articles.length := by
  unfold parentOf
  split
  next => exact Nat.zero_le _
  next r _ =>
    cases hfind : (articles.zipIdx 1).find? fun p => p.1.id = r with
    | none => exact Nat.zero_le _
    | some p =>
      have hp := List.mem_zipIdx (List.mem_of_find?_eq_some hfind)
      have hlt := hp.2.1
      show p.2 ≤ articles.length
      omega

/-- A link keeps the identifiers of the texts. -/
theorem hasKey_modify {articles : List NewsArticle} {texts : List CString}
    (h : List.Forall₂ (fun a file => HasKey (convertNews a.id) file) articles texts)
    (l : CommentLink) (i : Nat) :
    List.Forall₂ (fun a file => HasKey (convertNews a.id) file) articles
      (texts.modify i (appendLink · l)) := by
  induction h generalizing i with
  | nil =>
    rw [List.modify_nil]
    exact List.Forall₂.nil
  | cons hkey htail ih =>
    cases i with
    | zero =>
      rw [List.modify_zero_cons]
      exact List.Forall₂.cons (hkey.append _) htail
    | succ i =>
      rw [List.modify_succ_cons]
      exact List.Forall₂.cons hkey (ih i)

theorem hasKey_linkNews {articles : List NewsArticle} {texts : List CString}
    (h : List.Forall₂ (fun a file => HasKey (convertNews a.id) file) articles texts)
    (com num : Nat) :
    List.Forall₂ (fun a file => HasKey (convertNews a.id) file) articles
      (linkNews com num texts) := by
  unfold linkNews
  split
  next => exact h
  next => exact hasKey_modify h _ _

/-- The files after an article, and the link of its parent. -/
theorem newsTexts_linkNews {s : ThreadState} (h : ThreadInv s) {com : Nat} (hcom : com ≤ s.texts.length)
    (hwhole : com ≠ 0 → ∀ file ∈ s.texts[com - 1]?, WholeLines file) {new : CString}
    (hnew : ArticleFile new) (num : Nat) :
    (∀ (i : Nat) (file : CString), (linkNews com num (s.texts ++ [new]))[i]? = some file → ArticleFile file) ∧
      (com ≠ 0 → ∃ file ∈ s.texts[com - 1]?, ∃ file' ∈ (linkNews com num (s.texts ++ [new]))[com - 1]?,
        GainsComment ⟨num, 0⟩ file file') := by
  have hall (i : Nat) (file : CString) (hi : (s.texts ++ [new])[i]? = some file) : ArticleFile file := by
    rw [List.getElem?_append] at hi
    split at hi
    · exact h.files i file hi
    · rw [List.mem_singleton.mp (List.mem_of_getElem? hi)]
      exact hnew
  by_cases h0 : com = 0
  · unfold linkNews
    rw [if_pos h0]
    exact ⟨hall, fun hne => absurd h0 hne⟩
  have hlt : com - 1 < s.texts.length := by omega
  have hfile := List.getElem?_eq_getElem hlt
  have hfile' : (s.texts ++ [new])[com - 1]? = some s.texts[com - 1] := by
    rw [List.getElem?_append_left hlt, hfile]
  obtain ⟨htext, hlinked⟩ := (h.files _ _ hfile).link (hwhole h0 _ hfile) ⟨num, 0⟩
  unfold linkNews
  rw [if_neg h0]
  refine ⟨fun i file hi => ?_, fun _ => ⟨_, hfile, _, ?_, hlinked⟩⟩
  · rw [List.getElem?_modify] at hi
    obtain ⟨old, hold, rfl⟩ := Option.map_eq_some_iff.mp hi
    split
    next hi' =>
      rw [← hi', hfile'] at hold
      cases hold
      exact htext
    next => exact hall i old hold
  · rw [Option.mem_def, List.getElem?_modify, hfile']
    simp

theorem threadStep_inv {s s' : ThreadState} {e : ThreadEvent} (h : ThreadInv s)
    (hs : threadStep s e = some s') (hcut : CutRightly s e) : ThreadInv s' ∧ Threaded s e s' := by
  cases e with
  | begin junk =>
    rw [threadStep, Option.some.injEq] at hs
    subst hs
    exact ⟨⟨rebuilt_refs h.texts junk 1, h.texts, h.files⟩, rfl⟩
  | article a now junk =>
    obtain ⟨hcut, hwhole⟩ : WellCut s a junk ∧ ParentWhole s a := hcut
    obtain ⟨subject, hsubject, hnone, hline⟩ := hcut.subject
    have hcom : findRef s.refs (referKey junk.refer a.bytes) = parentOf s.articles a := by
      rw [h.refs]
      exact hcut.findRef_eq
    have hle : parentOf s.articles a ≤ s.texts.length := by
      rw [← h.texts.length_eq]
      exact parentOf_le _ _
    have hid := hcut.hasKey.messageKey a.length_key junk.id
    simp only [threadStep, hsubject, hcom, hid, Option.map_some, Option.toList_some,
      Option.some.injEq] at hs
    subst hs
    have hnew : ArticleFile (newsFile (s.texts.length + 1) now (parentOf s.articles a) subject
        (convertNews a.bytes)) := articleFile_newsFile _ now _ hline _
    obtain ⟨hfiles, hlinked⟩ := newsTexts_linkNews h hle hwhole hnew (s.texts.length + 1)
    refine ⟨⟨?_, ?_, hfiles⟩, ⟨hle, subject, hsubject, rfl⟩, hlinked⟩
    · show s.refs ++ _ = keysOf (s.articles ++ [a])
      rw [keysOf_append, h.refs, h.texts.length_eq]
    · apply hasKey_linkNews
      apply List.rel_append h.texts
      exact List.Forall₂.cons (hasKey_newsFile hcut.hasKey hnone _ _ _) List.Forall₂.nil

theorem threadInv_start : ThreadInv .start := ⟨rfl, List.Forall₂.nil, fun _ _ hi => by cases hi⟩

/-- Along every sequence of runs of `newstoss` and articles, every article is stored as a comment to
the article that it refers to, which gets one link, and as no comment when there is none, if the identifiers
are cut out rightly and the file of the parent does not end in the middle of a line. -/
theorem news_threaded (es : List ThreadEvent)
    (h : AllSteps threadStep (fun s e _ => CutRightly s e) .start es) :
    AllSteps threadStep Threaded .start es :=
  AllSteps.imp (I := ThreadInv) (P := Threaded) (fun _ _ _ hI hs hcut => threadStep_inv hI hs hcut)
    threadInv_start h

def newsUncut : NewsJunk := ⟨'\x00', '\x00', '\x00'⟩

def newsFirst : NewsArticle where
  headers := ["Subject: hej".toList, "Message-ID: <1@a>".toList]
  body := "Hej\n".toList
  id := "1@a".toList
  oneLine := by decide
  hasId := by decide
  short := by decide

def newsReply : NewsArticle where
  headers := ["References: <0@a> <1@a>".toList, "Message-ID: <2@a>".toList,
    "Subject: Re: hej".toList]
  body := "Hej, \xe5ter\n".toList
  id := "2@a".toList
  oneLine := by decide
  hasId := by decide
  short := by decide

/-- The reply comes in another run. -/
theorem news_threaded_sample : AllSteps threadStep Threaded .start
    [.begin newsUncut, .article newsFirst 100 newsUncut, .begin newsUncut,
      .article newsReply 200 newsUncut] :=
  news_threaded _ (by decide +kernel)

/-- An article with an identifier of 80 bytes. -/
def newsLong : NewsArticle where
  headers := ["Subject: hej".toList,
    "Message-ID: <".toList ++ List.replicate 78 'a' ++ "@a>".toList]
  body := "Hej\n".toList
  id := List.replicate 78 'a' ++ "@a".toList
  oneLine := by decide
  hasId := by decide +kernel
  short := by decide

def newsLongReply : NewsArticle where
  headers := ["References: <".toList ++ List.replicate 78 'a' ++ "@a>".toList,
    "Subject: Re: hej".toList, "Message-ID: <2@a>".toList]
  body := "Hej\n".toList
  id := "2@a".toList
  oneLine := by decide
  hasId := by decide +kernel
  short := by decide

/-- The reference is cut to 77 bytes, and equals no identifier. -/
theorem news_not_threaded : parentOf [newsLong] newsLongReply = 1 ∧
    ¬ AllSteps threadStep Threaded .start [.begin newsUncut, .article newsLong 100 newsUncut,
      .article newsLongReply 200 newsUncut] := by
  constructor <;> decide +kernel

/-- The last line of the body has no line end. -/
def newsOpen : NewsArticle := { newsFirst with body := "Hej".toList }

/-- The link is glued to it, and is not read. -/
example : ¬ AllSteps threadStep Threaded .start [.begin newsUncut, .article newsOpen 100 newsUncut,
    .article newsReply 200 newsUncut] := by
  decide +kernel

end SklaffKom
