import SklaffKom.NetmailReply
import SklaffKom.ImportedText

/-!
# Answering a mail

`cmd_comment` reads a stored mail, looks for a `From:` line in its text, takes the word around the first `@`
of that line for the sender's address, and passes it on to the mail program.
-/

open CString

namespace SklaffKom

/-! ## The recipient -/

/-- `strip_string`: what is left, and the number of characters that are removed. -/
def stripString (str rmstr : CString) : CString × Nat :=
  let keep := fun c : Char => c.isAlphanum || c ∈ rmstr
  (str.filter keep, str.countP fun c => !keep c)

inductive Language
  | swedish
  | english
deriving DecidableEq

/-- `MSG_EMFROM`, `MSG_EMFROM2` and `MSG_EMFROM3` -/
def emFrom : Language → List CString
  | .swedish => ["From: ".toList, "from: ".toList, "FROM: ".toList]
  | .english => ["From: ".toList, "FROM: ".toList, "from: ".toList]

/-- The first of the markers that is found in a line. -/
def fromMarker (lang : Language) (line : CString) : Option CString := (emFrom lang).findSome? (strstr line)

/-- The first line with a marker, and where the marker begins. -/
def markedLine (lang : Language) : List CString → Option (CString × CString)
  | [] => none
  | line :: tb =>
    match fromMarker lang line with
    | some ptr2 => some (line, ptr2)
    | none => markedLine lang tb

/-- What stands behind the last blank or `<`; nothing when the walk leaves the line. -/
def wordStart (before : CString) : Option CString :=
  if ' ' ∈ before ∨ '<' ∈ before then
    some (before.reverse.takeWhile fun c => c ≠ ' ' ∧ c ≠ '<').reverse
  else none

/-- A word up to a `>`, or else up to a blank. -/
def wordEnd (ptr3 : CString) : CString :=
  match cutAt '>' ptr3 with
  | some (word, _) => word
  | none => (cutAt ' ' ptr3).elim ptr3 (·.1)

/-- `mr`, from what stands behind the marker of a line. -/
def mailRecipient (line ptr2 : CString) : Option CString :=
  match (strchr ptr2 '@').or (strchr ptr2 '!') with
  | some ptr3 =>
    (wordStart (line.take (line.length - ptr3.length))).map fun front => wordEnd (front ++ ptr3)
  | none =>
    match (strchr ptr2 '(').or (strchr ptr2 '<') with
    | some ptr3 =>
      let n := ptr2.length - ptr3.length
      -- the byte in front is overwritten; directly behind the marker that is no byte of the copy
      some (if n = 0 then ptr2 else ptr2.take (n - 1))
    | none => some ptr2

/-- The characters besides letters and digits that an address may have. -/
def mailPunctuation : CString := "@+.-_%".toList

/-- The address passes the check. -/
def acceptsMail (mr : CString) : Bool :=
  (stripString mr mailPunctuation).2 = 0 && (stripString mr mailPunctuation).1.head? ≠ some '-'

/-- Where a reply goes: to a name at an FTN address, nowhere, or to `mailrec`, which may be `NULL`; or a
pointer is used that points nowhere. -/
inductive MailReply
  | netmail (name addr : CString)
  | rejected
  | mail (mailrec : Option CString)
  | wild
deriving DecidableEq

/-- `FTN-FromAddr` of a text. -/
def ftnToAddr (body : List CString) : CString :=
  (textBodyHeaderValue 80 "FTN-FromAddr:".toList body).getD []

/-- What `cmd_comment` makes of the text of a mail without a local author. -/
def mailReply (lang : Language) (body : List CString) : MailReply :=
  if ftnToAddr body ≠ [] then
    let ftnFromline := (textBodyHeaderValue 159 "From:".toList body).getD []
    let ftnToName := netmailReplyName ftnFromline (ftnToAddr body) 80
    .netmail (if ftnToName = [] then ftnToAddr body else ftnToName) (ftnToAddr body)
  else if body = [] then .wild
  else
    match markedLine lang body with
    | none => .mail none
    | some (line, ptr2) =>
      match mailRecipient line (ptr2.drop "From: ".length) with
      | none => .wild
      | some mr => if acceptsMail mr then .mail (some mr) else .rejected

/-- What `cmd_comment` makes of the file of a mail; `none` for a text with a local author, who is answered
by number. -/
def cmdCommentMail (lang : Language) (buf : CString) : Option MailReply :=
  match getTextEntry buf with
  | .entry te _ => if te.th.author = 0 then some (mailReply lang te.body) else none
  | _ => none

/-! ## What is expected -/

/-- A stored mail without a local author. -/
structure StoredMail where
  num : Int
  time : Int
  commentNum : Int
  subject : CString
  lines : List CString
  cl : List CommentLink
  oneLine : '\n' ∉ subject
  wholeLines : ∀ l ∈ lines, '\n' ∉ l

def StoredMail.file (mail : StoredMail) : CString :=
  importedLine mail.num mail.time mail.commentNum mail.lines.length ++
    '\n' :: (mail.subject ++ '\n' :: (unlines mail.lines ++ linkLines mail.cl))

/-- The lines of a text as they are read. -/
def linesRead (ls : List CString) : List CString := ls.map fun l => (decodeLine '^' l).take 78

/-- An address: one `@` among letters, digits and the allowed characters, and no `-` in front. -/
structure MailAddress (addr : CString) : Prop where
  one : addr.count '@' = 1
  chars : ∀ c ∈ addr, c.isAlphanum = true ∨ c ∈ mailPunctuation
  first : addr.head? ≠ some '-'

def PlainName (name : CString) : Prop := ∀ c ∈ name, c ∉ ['<', '>', '(', ')']

inductive FromForm (addr : CString) : CString → Prop
  | angle {name : CString} (h : PlainName name) : FromForm addr (name ++ ' ' :: '<' :: (addr ++ ['>']))
  | comment {name : CString} (h : PlainName name) : FromForm addr (addr ++ ' ' :: '(' :: (name ++ [')']))
  | bare : FromForm addr addr

/-- The lines of the header part. -/
def headerPart (ls : List CString) : List CString := ls.takeWhile (· ≠ [])

/-- The header part has one line that begins with `From: `, with one of the forms of an address. -/
structure MailFrom (ls : List CString) (addr : CString) : Prop where
  address : MailAddress addr
  form : ∃ text, FromForm addr text ∧
    (headerPart ls).filter ("From: ".toList.isPrefixOf ·) = ["From: ".toList ++ text]

/-- A reply to the mail goes to its sender or is rejected, and what is passed on is an address. -/
structure ReplyGoes (lang : Language) (mail : StoredMail) : Prop where
  clean : ∀ mailrec, cmdCommentMail lang mail.file = some (.mail mailrec) →
    ∃ mr, mailrec = some mr ∧ ∀ c ∈ mr, c.isAlphanum = true ∨ c ∈ mailPunctuation
  known : cmdCommentMail lang mail.file ≠ some .wild
  sender : ∀ addr, MailFrom mail.lines addr →
    cmdCommentMail lang mail.file = some (.mail (some addr)) ∨ cmdCommentMail lang mail.file = some .rejected

/-- What may stand behind a word that is taken for an address. -/
def EndsMailWord (t : CString) : Prop := t = [] ∨ t.head? = some '>' ∨ t.head? = some ' ' ∧ '>' ∉ t

/-- The address that stands in the text behind a marker. -/
inductive Addressee : CString → CString → Prop
  /-- A word around the first `@`, or around the first `!` when there is no `@`. -/
  | word {sep : Char} {a w q mr t : CString} (hsep : sep = '@' ∨ sep = '!' ∧ '@' ∉ a ++ w ++ q)
      (hfirst : sep ∉ a ++ w) (ha : ∀ c ∈ a.getLast?, c = ' ' ∨ c = '<')
      (hw : ∀ c ∈ w, c ≠ ' ' ∧ c ≠ '<')
      (hmr : w ++ sep :: q = mr ++ t) (ht : EndsMailWord t) : Addressee (a ++ (w ++ sep :: q)) mr
  /-- What stands before a bracket, less a byte. -/
  | comment {c bracket : Char} {mr t : CString} (hat : ∀ d ∈ mr ++ c :: bracket :: t, d ≠ '@' ∧ d ≠ '!')
      (hbracket : bracket = '(' ∨ bracket = '<' ∧ '(' ∉ mr ++ c :: bracket :: t) (hc : c ≠ bracket) :
      Addressee (mr ++ c :: bracket :: t) mr
  | text {mr : CString} (hat : ∀ d ∈ mr, d ≠ '@' ∧ d ≠ '!') : Addressee mr mr

/-- The mail is no netmail and has a line with a marker when it is read, and the first such line is the
`From:` line of the header, read as it stands, or has no other address. -/
structure NamesSenderOnly (lang : Language) (ls : List CString) : Prop where
  marked : ftnToAddr (linesRead ls) = [] → ∃ line ∈ linesRead ls, (fromMarker lang line).isSome = true
  mail : ∀ addr, MailFrom ls addr → ftnToAddr (linesRead ls) = []
  first : ∀ addr line ptr2 mr, MailFrom ls addr → markedLine lang (linesRead ls) = some (line, ptr2) →
    ¬ ("From: ".toList <+: line ∧ line ∈ headerPart ls) → Addressee (ptr2.drop "From: ".length) mr →
      acceptsMail mr = true → mr = addr

/-! ## Words -/

variable {lang : Language} {line ptr2 addr text s w : CString} {body ls : List CString} {mail : StoredMail}

theorem wordStart_append {c : Char} (a : CString) (hc : c = ' ' ∨ c = '<')
    (hw : ∀ d ∈ w, d ≠ ' ' ∧ d ≠ '<') : wordStart (a ++ c :: w) = some w := by
  have hmem : ' ' ∈ a ++ c :: w ∨ '<' ∈ a ++ c :: w := by
    rcases hc with rfl | rfl
    · exact Or.inl (by simp)
    · exact Or.inr (by simp)
  have hrev : (a ++ c :: w).reverse = w.reverse ++ c :: a.reverse := by simp
  rw [wordStart, if_pos hmem, hrev, List.takeWhile_append_of_pos, List.takeWhile_cons_of_neg,
    List.append_nil, List.reverse_reverse]
  · rcases hc with rfl | rfl
    · decide
    · decide
  · intro d hd
    simpa using hw d (List.mem_reverse.mp hd)

theorem acceptsMail_iff : acceptsMail s = true ↔
    (∀ c ∈ s, c.isAlphanum = true ∨ c ∈ mailPunctuation) ∧ s.head? ≠ some '-' := by
  unfold acceptsMail stripString
  simp only [Bool.and_eq_true, decide_eq_true_eq, List.countP_eq_zero, Bool.not_eq_true',
    Bool.not_eq_false, Bool.or_eq_true]
  refine and_congr_right fun hall => ?_
  rw [List.filter_eq_self.mpr]
  simpa using hall

theorem notMem_of_acceptsMail {c : Char} (h : acceptsMail s = true) (hc : c.isAlphanum = false)
    (hp : c ∉ mailPunctuation) : c ∉ s := by
  intro hmem
  rcases (acceptsMail_iff.mp h).1 c hmem with halnum | hpunct
  · rw [hc] at halnum
    cases halnum
  · exact hp hpunct

theorem wordEnd_split (s : CString) : ∃ t, s = wordEnd s ++ t ∧ EndsMailWord t := by
  unfold wordEnd
  cases hgt : cutAt '>' s with
  | some r =>
    exact ⟨'>' :: r.2, (cutAt_eq_some.mp hgt).1, Or.inr (Or.inl rfl)⟩
  | none =>
    have hnone : '>' ∉ s := by
      intro hmem
      obtain ⟨a, b, rfl, ha⟩ := List.eq_append_cons_of_mem hmem
      rw [cutAt_append ha] at hgt
      cases hgt
    cases hsp : cutAt ' ' s with
    | some r =>
      have hsplit := (cutAt_eq_some.mp hsp).1
      refine ⟨' ' :: r.2, hsplit, Or.inr (Or.inr ⟨rfl, fun hmem => hnone ?_⟩)⟩
      rw [hsplit]
      exact List.mem_append_right _ hmem
    | none => exact ⟨[], (List.append_nil s).symm, Or.inl rfl⟩

theorem wordEnd_append {t : CString} (hgt : '>' ∉ w) (hsp : ' ' ∉ w) (ht : EndsMailWord t) :
    wordEnd (w ++ t) = w := by
  unfold wordEnd
  cases t with
  | nil => rw [List.append_nil, cutAt_none hgt, cutAt_none hsp]; rfl
  | cons c t =>
    rcases ht with h | h | ⟨h, hnot⟩
    · cases h
    · cases h
      rw [cutAt_append hgt]
    · cases h
      have hnone : '>' ∉ w ++ ' ' :: t := by
        rw [List.mem_append]
        exact fun hmem => hmem.elim hgt hnot
      rw [cutAt_none hnone, cutAt_append hsp]
      rfl

/-! ## The text behind a marker -/

theorem exists_word (front : CString) : ∃ a w, front = a ++ w ∧
    (∀ c ∈ a.getLast?, c = ' ' ∨ c = '<') ∧ ∀ c ∈ w, c ≠ ' ' ∧ c ≠ '<' := by
  obtain ⟨w, hsplit, hw⟩ := trimEnd_append (fun c => decide (c ≠ ' ' ∧ c ≠ '<')) front
  refine ⟨_, w, hsplit, ?_, fun c hc => of_decide_eq_true (hw c hc)⟩
  intro c hc
  have hnot := of_decide_eq_false (getLast_trimEnd _ front c hc)
  by_cases hsp : c = ' '
  · exact Or.inl hsp
  · exact Or.inr (not_not.mp fun hlt => hnot ⟨hsp, hlt⟩)

/-- Behind a marker there is always a blank to stop at. -/
theorem mailRecipient_word {sep : Char} {a b q : CString} (hsep : sep = '@' ∨ sep = '!' ∧ '@' ∉ a ++ w ++ q)
    (hfirst : sep ∉ a ++ w) (ha : ∀ c ∈ a.getLast?, c = ' ' ∨ c = '<')
    (hw : ∀ c ∈ w, c ≠ ' ' ∧ c ≠ '<') :
    mailRecipient (b ++ ' ' :: (a ++ (w ++ sep :: q))) (a ++ (w ++ sep :: q)) =
      some (wordEnd (w ++ sep :: q)) := by
  have hfound : (strchr (a ++ (w ++ sep :: q)) '@').or (strchr (a ++ (w ++ sep :: q)) '!') =
      some (sep :: q) := by
    rw [← List.append_assoc]
    rcases hsep with rfl | ⟨rfl, hat⟩
    · rw [strchr_append hfirst, Option.some_or]
    · have hnone : '@' ∉ a ++ w ++ '!' :: q := by
        simp only [List.mem_append, List.mem_cons, not_or] at hat ⊢
        exact ⟨hat.1, by decide, hat.2⟩
      rw [strchr_eq_none hnone, Option.none_or, strchr_append hfirst]
  have hfront : wordStart (b ++ ' ' :: (a ++ w)) = some w := by
    rcases List.eq_nil_or_concat a with rfl | ⟨a, c, rfl⟩
    · exact wordStart_append b (Or.inl rfl) hw
    · have hc := ha c (by simp)
      have hsplit : b ++ ' ' :: (a.concat c ++ w) = (b ++ ' ' :: a) ++ c :: w := by simp
      rw [hsplit]
      exact wordStart_append _ hc hw
  have hline : b ++ ' ' :: (a ++ (w ++ sep :: q)) = (b ++ ' ' :: (a ++ w)) ++ sep :: q := by simp
  unfold mailRecipient
  simp only [hfound]
  rw [hline, take_before, hfront]
  rfl

theorem addressee_of_word {sep : Char} {b front q mr : CString}
    (hsep : sep = '@' ∨ sep = '!' ∧ '@' ∉ front ++ q) (hfirst : sep ∉ front)
    (h : mailRecipient (b ++ ' ' :: (front ++ sep :: q)) (front ++ sep :: q) = some mr) :
    Addressee (front ++ sep :: q) mr := by
  obtain ⟨a, w, rfl, ha, hw⟩ := exists_word front
  obtain ⟨t, hword, ht⟩ := wordEnd_split (w ++ sep :: q)
  rw [List.append_assoc] at h ⊢
  rw [mailRecipient_word hsep hfirst ha hw, Option.some.injEq] at h
  rw [h] at hword
  exact Addressee.word hsep hfirst ha hw hword ht

theorem mailRecipient_bracket {bracket : Char} {line front t : CString}
    (hat : ∀ d ∈ front ++ bracket :: t, d ≠ '@' ∧ d ≠ '!')
    (hbracket : bracket = '(' ∨ bracket = '<' ∧ '(' ∉ front ++ bracket :: t) (hfirst : bracket ∉ front) :
    mailRecipient line (front ++ bracket :: t) =
      some (if front = [] then bracket :: t else front.take (front.length - 1)) := by
  have hat1 : strchr (front ++ bracket :: t) '@' = none := strchr_eq_none fun hm => (hat _ hm).1 rfl
  have hat2 : strchr (front ++ bracket :: t) '!' = none := strchr_eq_none fun hm => (hat _ hm).2 rfl
  have hfound : (strchr (front ++ bracket :: t) '(').or (strchr (front ++ bracket :: t) '<') =
      some (bracket :: t) := by
    rcases hbracket with rfl | ⟨rfl, hopen⟩
    · rw [strchr_append hfirst, Option.some_or]
    · rw [strchr_eq_none hopen, Option.none_or, strchr_append hfirst]
  have hlen : (front ++ bracket :: t).length - (bracket :: t).length = front.length := by simp
  unfold mailRecipient
  simp only [hat1, hat2, hfound, Option.or_self, hlen, List.length_eq_zero_iff]
  congr 1
  split
  · rename_i hnil
    rw [hnil, List.nil_append]
  · rw [List.take_append_of_le_length (by omega)]

theorem addressee_of_bracket {bracket : Char} {line front t mr : CString}
    (hat : ∀ d ∈ front ++ bracket :: t, d ≠ '@' ∧ d ≠ '!')
    (hbracket : bracket = '(' ∨ bracket = '<' ∧ '(' ∉ front ++ bracket :: t) (hfirst : bracket ∉ front)
    (hmr : bracket ∉ mr) (h : mailRecipient line (front ++ bracket :: t) = some mr) :
    Addressee (front ++ bracket :: t) mr := by
  rw [mailRecipient_bracket hat hbracket hfirst, Option.some.injEq] at h
  rcases List.eq_nil_or_concat front with rfl | ⟨a, c, rfl⟩
  · rw [if_pos rfl] at h
    exact absurd (h ▸ List.mem_cons_self) hmr
  · rw [List.concat_eq_append] at hat hbracket hfirst h ⊢
    rw [if_neg (List.append_ne_nil_of_right_ne_nil a (List.cons_ne_nil c [])), List.length_append,
      List.length_singleton, Nat.add_sub_cancel, List.take_left] at h
    have hsplit : a ++ [c] ++ bracket :: t = a ++ c :: bracket :: t := by simp
    rw [hsplit] at hat hbracket ⊢
    rw [← h]
    exact Addressee.comment hat hbracket fun he => hfirst (by simp [he])

/-- An address is taken where one stands, and nowhere else. -/
theorem mailRecipient_iff {b x mr : CString} (hmr : acceptsMail mr = true) :
    mailRecipient (b ++ ' ' :: x) x = some mr ↔ Addressee x mr := by
  have hgt : '>' ∉ mr := notMem_of_acceptsMail hmr rfl (by decide)
  have hsp : ' ' ∉ mr := notMem_of_acceptsMail hmr rfl (by decide)
  have hopen : '(' ∉ mr := notMem_of_acceptsMail hmr rfl (by decide)
  have hlt : '<' ∉ mr := notMem_of_acceptsMail hmr rfl (by decide)
  constructor
  · intro h
    by_cases hat : '@' ∈ x
    · obtain ⟨front, q, rfl, hfirst⟩ := List.eq_append_cons_of_mem hat
      exact addressee_of_word (Or.inl rfl) hfirst h
    by_cases hbang : '!' ∈ x
    · obtain ⟨front, q, rfl, hfirst⟩ := List.eq_append_cons_of_mem hbang
      refine addressee_of_word (Or.inr ⟨rfl, ?_⟩) hfirst h
      simp only [List.mem_append, List.mem_cons, not_or] at hat ⊢
      exact ⟨hat.1, hat.2.2⟩
    have hneither : ∀ d ∈ x, d ≠ '@' ∧ d ≠ '!' := by
      intro d hd
      exact ⟨fun he => hat (he ▸ hd), fun he => hbang (he ▸ hd)⟩
    by_cases hbr : '(' ∈ x
    · obtain ⟨front, q, rfl, hfirst⟩ := List.eq_append_cons_of_mem hbr
      exact addressee_of_bracket hneither (Or.inl rfl) hfirst hopen h
    by_cases hbr' : '<' ∈ x
    · obtain ⟨front, q, rfl, hfirst⟩ := List.eq_append_cons_of_mem hbr'
      exact addressee_of_bracket hneither (Or.inr ⟨rfl, hbr⟩) hfirst hlt h
    unfold mailRecipient at h
    simp only [strchr_eq_none hat, strchr_eq_none hbang, strchr_eq_none hbr, strchr_eq_none hbr',
      Option.or_self, Option.some.injEq] at h
    rw [← h]
    exact Addressee.text hneither
  · intro h
    cases h with
    | word hsep hfirst ha hw hword ht =>
      rw [mailRecipient_word hsep hfirst ha hw, hword, wordEnd_append hgt hsp ht]
    | @comment c bracket _ t hat hbracket hc =>
      have hfirst : bracket ∉ mr ++ [c] := by
        rw [List.mem_append, List.mem_singleton, not_or]
        refine ⟨?_, fun he => hc he.symm⟩
        rcases hbracket with rfl | ⟨rfl, -⟩
        · exact hopen
        · exact hlt
      have hsplit : mr ++ c :: bracket :: t = mr ++ [c] ++ bracket :: t := by simp
      rw [hsplit] at hat hbracket ⊢
      rw [mailRecipient_bracket hat hbracket hfirst,
        if_neg (List.append_ne_nil_of_right_ne_nil mr (List.cons_ne_nil c [])), List.length_append,
        List.length_singleton, Nat.add_sub_cancel, List.take_left]
    | text hat =>
      have h1 : strchr x '@' = none := strchr_eq_none fun hm => (hat _ hm).1 rfl
      have h2 : strchr x '!' = none := strchr_eq_none fun hm => (hat _ hm).2 rfl
      unfold mailRecipient
      simp only [h1, h2, strchr_eq_none hopen, strchr_eq_none hlt, Option.or_self]

/-! ## Markers -/

theorem fromMarker_split (h : fromMarker lang line = some ptr2) :
    ∃ b, line = b ++ ' ' :: ptr2.drop "From: ".length := by
  obtain ⟨marker, hmem, hfound⟩ := List.exists_of_findSome?_eq_some h
  obtain ⟨⟨x, rfl⟩, a, rfl⟩ := strstr_eq_some hfound
  have hmarker : ∃ m : CString, marker = m ++ [' '] ∧ m.length + 1 = "From: ".length := by
    cases lang <;> simp only [emFrom, List.mem_cons, List.not_mem_nil, or_false] at hmem <;>
      rcases hmem with rfl | rfl | rfl
    all_goals exact ⟨_, List.dropLast_append_getLast? _ rfl |>.symm, rfl⟩
  obtain ⟨m, rfl, hlen⟩ := hmarker
  refine ⟨a ++ m, ?_⟩
  have hdrop : (m ++ [' '] ++ x).drop (m.length + 1) = x := List.drop_left' (by simp)
  rw [← hlen, hdrop]
  simp

theorem fromMarker_from (text : CString) :
    fromMarker lang ("From: ".toList ++ text) = some ("From: ".toList ++ text) := by
  unfold fromMarker
  cases lang <;> rw [emFrom, List.findSome?_cons, strstr_at_start (List.prefix_append _ _)]

/-- The walk back from a separator stays behind the marker. -/
theorem exists_mailRecipient (h : fromMarker lang line = some ptr2) :
    ∃ mr, mailRecipient line (ptr2.drop "From: ".length) = some mr := by
  obtain ⟨b, hline⟩ := fromMarker_split h
  generalize ptr2.drop "From: ".length = x at hline ⊢
  unfold mailRecipient
  split
  · rename_i ptr3 hsep
    have hsuffix : ptr3 <:+ x := by
      rcases Option.or_eq_some_iff.mp hsep with hat | ⟨-, hbang⟩
      · exact strchr_suffix hat
      · exact strchr_suffix hbang
    obtain ⟨front, rfl⟩ := hsuffix
    have hsplit : line = (b ++ ' ' :: front) ++ ptr3 := by rw [hline]; simp
    rw [hsplit, take_before, wordStart, if_pos (Or.inl (by simp))]
    exact ⟨_, rfl⟩
  · split
    · exact ⟨_, rfl⟩
    · exact ⟨_, rfl⟩

/-! ## The line of the sender -/

theorem markedLine_split (h : markedLine lang body = some (line, ptr2)) :
    ∃ tb rest, body = tb ++ line :: rest ∧ (∀ l ∈ tb, fromMarker lang l = none) ∧
      fromMarker lang line = some ptr2 := by
  induction body with
  | nil => cases h
  | cons l body ih =>
    unfold markedLine at h
    split at h
    · rename_i hl
      cases h
      exact ⟨[], body, rfl, fun _ hmem => absurd hmem (List.not_mem_nil), hl⟩
    · rename_i hl
      obtain ⟨tb, rest, rfl, hnone, hline⟩ := ih h
      exact ⟨l :: tb, rest, rfl, List.forall_mem_cons.mpr ⟨hl, hnone⟩, hline⟩

theorem exists_markedLine (h : ∃ l ∈ body, (fromMarker lang l).isSome = true) :
    ∃ line ptr2, markedLine lang body = some (line, ptr2) := by
  induction body with
  | nil =>
    obtain ⟨l, hmem, -⟩ := h
    cases hmem
  | cons l body ih =>
    unfold markedLine
    split
    · exact ⟨_, _, rfl⟩
    · rename_i hl
      obtain ⟨l', hmem, hsome⟩ := h
      rcases List.mem_cons.mp hmem with rfl | hmem
      · rw [hl] at hsome
        cases hsome
      · exact ih ⟨l', hmem, hsome⟩

theorem exists_mail (hftn : ftnToAddr body = []) (h : markedLine lang body = some (line, ptr2)) :
    ∃ mr, mailRecipient line (ptr2.drop "From: ".length) = some mr ∧
      mailReply lang body = if acceptsMail mr then .mail (some mr) else .rejected := by
  obtain ⟨tb, rest, hbody, -, hline⟩ := markedLine_split h
  obtain ⟨mr, hmr⟩ := exists_mailRecipient hline
  have hne : body ≠ [] := by
    rw [hbody]
    exact List.append_ne_nil_of_right_ne_nil tb (List.cons_ne_nil line rest)
  refine ⟨mr, hmr, ?_⟩
  unfold mailReply
  rw [if_neg (not_not.mpr hftn), if_neg hne, h]
  simp only [hmr]

/-- A marked line of the header that begins as the line of the sender is that line. -/
theorem markedLine_eq
    (hfrom : (headerPart ls).filter ("From: ".toList.isPrefixOf ·) = ["From: ".toList ++ text])
    (h : fromMarker lang line = some ptr2) (hpre : "From: ".toList <+: line) (hl : line ∈ headerPart ls) :
    line = "From: ".toList ++ text ∧ ptr2 = line := by
  have hmem := List.mem_filter.mpr ⟨hl, List.isPrefixOf_iff_prefix.mpr hpre⟩
  rw [hfrom, List.mem_singleton] at hmem
  rw [hmem, fromMarker_from, Option.some.injEq] at h
  exact ⟨hmem, by rw [← h, hmem]⟩

/-! ## The forms of an address -/

theorem MailAddress.accepts (h : MailAddress addr) : acceptsMail addr = true :=
  acceptsMail_iff.mpr ⟨h.chars, h.first⟩

theorem MailAddress.split (h : MailAddress addr) :
    ∃ u v, addr = u ++ '@' :: v ∧ '@' ∉ u ∧ ∀ c ∈ u, c ≠ ' ' ∧ c ≠ '<' := by
  have hmem : '@' ∈ addr := List.count_pos_iff.mp (by rw [h.one]; exact Nat.one_pos)
  obtain ⟨u, v, hsplit, hu⟩ := List.eq_append_cons_of_mem hmem
  refine ⟨u, v, hsplit, hu, fun c hc => ?_⟩
  have hc' : c ∈ addr := by
    rw [hsplit]
    exact List.mem_append_left _ hc
  constructor
  · rintro rfl
    exact notMem_of_acceptsMail h.accepts rfl (by decide) hc'
  · rintro rfl
    exact notMem_of_acceptsMail h.accepts rfl (by decide) hc'

/-- The address of the line of the sender is taken, or else a word that is rejected. -/
theorem mailRecipient_from {b : CString} (h : MailAddress addr) (hform : FromForm addr text) :
    ∃ mr, mailRecipient (b ++ ' ' :: text) text = some mr ∧ (mr = addr ∨ acceptsMail mr = false) := by
  obtain ⟨u, v, hsplit, hu, hw⟩ := h.split
  have hgt : '>' ∉ addr := notMem_of_acceptsMail h.accepts rfl (by decide)
  have hsp : ' ' ∉ addr := notMem_of_acceptsMail h.accepts rfl (by decide)
  cases hform with
  | @angle name hname =>
    by_cases hat : '@' ∈ name
    · obtain ⟨front, rest, rfl, hfirst⟩ := List.eq_append_cons_of_mem hat
      obtain ⟨a, w, rfl, ha, hw⟩ := exists_word front
      have hlong : acceptsMail (w ++ '@' :: rest ++ ' ' :: '<' :: addr) = false := by
        rw [Bool.eq_false_iff]
        intro hacc
        exact notMem_of_acceptsMail hacc rfl (by decide) (by simp : ' ' ∈ _)
      have htext : a ++ w ++ '@' :: rest ++ ' ' :: '<' :: (addr ++ ['>']) =
          a ++ (w ++ '@' :: (rest ++ ' ' :: '<' :: (addr ++ ['>']))) := by simp
      refine ⟨_, ?_, Or.inr hlong⟩
      rw [htext, mailRecipient_word (Or.inl rfl) hfirst ha hw]
      have hword : w ++ '@' :: (rest ++ ' ' :: '<' :: (addr ++ ['>'])) =
          (w ++ '@' :: rest ++ ' ' :: '<' :: addr) ++ '>' :: [] := by simp
      have hnone : '>' ∉ w ++ '@' :: rest ++ ' ' :: '<' :: addr := by
        have hn : '>' ∉ a ++ w ++ '@' :: rest := fun hm => hname _ hm (by decide)
        simp only [List.mem_append, List.mem_cons, not_or] at hn ⊢
        exact ⟨⟨hn.1.2, hn.2⟩, by decide, by decide, hgt⟩
      rw [hword, wordEnd, cutAt_append hnone]
    · refine ⟨addr, ?_, Or.inl rfl⟩
      have htext : name ++ ' ' :: '<' :: (addr ++ ['>']) =
          (name ++ [' ', '<']) ++ (u ++ '@' :: (v ++ ['>'])) := by rw [hsplit]; simp
      have hfirst : '@' ∉ name ++ [' ', '<'] ++ u := by
        simp only [List.mem_append, not_or]
        exact ⟨⟨hat, by decide⟩, hu⟩
      have hword : u ++ '@' :: (v ++ ['>']) = addr ++ ['>'] := by rw [hsplit]; simp
      rw [htext, mailRecipient_word (Or.inl rfl) hfirst (by simp) hw, hword,
        wordEnd_append hgt hsp (Or.inr (Or.inl rfl))]
  | @comment name hname =>
    refine ⟨addr, ?_, Or.inl rfl⟩
    have htext : addr ++ ' ' :: '(' :: (name ++ [')']) =
        [] ++ (u ++ '@' :: (v ++ ' ' :: '(' :: (name ++ [')']))) := by rw [hsplit]; simp
    have hword : u ++ '@' :: (v ++ ' ' :: '(' :: (name ++ [')'])) = addr ++ ' ' :: '(' :: (name ++ [')']) := by
      rw [hsplit]
      simp
    have hname' : '>' ∉ ' ' :: '(' :: (name ++ [')']) := by
      simp only [List.mem_cons, List.mem_append, not_or]
      exact ⟨by decide, by decide, fun hm => hname _ hm (by decide), by decide⟩
    rw [htext, mailRecipient_word (Or.inl rfl) hu (by simp) hw, hword,
      wordEnd_append hgt hsp (Or.inr (Or.inr ⟨rfl, hname'⟩))]
  | bare =>
    have hend := wordEnd_append hgt hsp (Or.inl rfl)
    rw [List.append_nil] at hend
    have hscan := mailRecipient_word (a := []) (b := b) (q := v) (Or.inl rfl) hu (by simp) hw
    rw [List.nil_append, ← hsplit, hend] at hscan
    exact ⟨addr, hscan, Or.inl rfl⟩

theorem mailReply_from (hfrom : MailFrom ls addr) (hftn : ftnToAddr body = [])
    (h : markedLine lang body = some (line, ptr2)) (hpre : "From: ".toList <+: line)
    (hl : line ∈ headerPart ls) :
    mailReply lang body = .mail (some addr) ∨ mailReply lang body = .rejected := by
  obtain ⟨text, hform, hfilter⟩ := hfrom.form
  obtain ⟨mr, hmr, hreply⟩ := exists_mail hftn h
  obtain ⟨-, -, -, -, hmark⟩ := markedLine_split h
  obtain ⟨hline, hptr2⟩ := markedLine_eq hfilter hmark hpre hl
  obtain ⟨mr', hmr', hor⟩ := mailRecipient_from (b := "From:".toList) hfrom.address hform
  have hdrop : ptr2.drop "From: ".length = text := by
    rw [hptr2, hline]
    rfl
  have hsame : mr = mr' := by
    rw [hdrop, hline] at hmr
    exact Option.some.inj (hmr.symm.trans hmr')
  rcases hor with rfl | hreject
  · rw [hreply, hsame, if_pos hfrom.address.accepts]
    exact Or.inl rfl
  · rw [hreply, hsame, hreject]
    exact Or.inr rfl

/-! ## Answers -/

/-- A stored mail is answered by its lines as they are read. -/
theorem cmdCommentMail_file (lang : Language) (mail : StoredMail) :
    cmdCommentMail lang mail.file = some (mailReply lang (linesRead mail.lines)) := by
  have hread := getTextEntry_importedLinks mail.num mail.time mail.commentNum mail.oneLine mail.wholeLines mail.cl
  unfold cmdCommentMail StoredMail.file
  rw [hread]
  exact if_pos rfl

theorem NamesSenderOnly.reply (h : NamesSenderOnly lang mail.lines) : ReplyGoes lang mail := by
  have hfile := cmdCommentMail_file lang mail
  by_cases hftn : ftnToAddr (linesRead mail.lines) = []
  · obtain ⟨line, ptr2, hline⟩ := exists_markedLine (h.marked hftn)
    obtain ⟨mr, hmr, hreply⟩ := exists_mail hftn hline
    refine ⟨?_, ?_, ?_⟩
    · intro mailrec hmail
      rw [hfile, hreply] at hmail
      split at hmail
      · rename_i hacc
        cases hmail
        exact ⟨mr, rfl, (acceptsMail_iff.mp hacc).1⟩
      · cases hmail
    · rw [hfile, hreply]
      split <;> exact fun hw => by cases hw
    · intro addr hfrom
      rw [hfile, Option.some.injEq, Option.some.injEq]
      by_cases hpre : "From: ".toList <+: line ∧ line ∈ headerPart mail.lines
      · exact mailReply_from hfrom hftn hline hpre.1 hpre.2
      · rw [hreply]
        split
        · rename_i hacc
          obtain ⟨-, -, -, -, hmark⟩ := markedLine_split hline
          obtain ⟨b, hb⟩ := fromMarker_split hmark
          have haddr : Addressee (ptr2.drop "From: ".length) mr := by
            rw [← mailRecipient_iff hacc (b := b), ← hb]
            exact hmr
          rw [h.first addr line ptr2 mr hfrom hline hpre haddr hacc]
          exact Or.inl rfl
        · exact Or.inr rfl
  · have hreply : ∃ name addr, mailReply lang (linesRead mail.lines) = .netmail name addr := by
      unfold mailReply
      rw [if_pos hftn]
      exact ⟨_, _, rfl⟩
    obtain ⟨name, ftn, hreply⟩ := hreply
    refine ⟨fun mailrec hmail => ?_, ?_, fun addr hfrom => absurd (h.mail addr hfrom) hftn⟩
    · rw [hfile, hreply] at hmail
      cases hmail
    · rw [hfile, hreply]
      exact fun hw => by cases hw

theorem ReplyGoes.names (h : ReplyGoes lang mail) : NamesSenderOnly lang mail.lines := by
  have hfile := cmdCommentMail_file lang mail
  have hsender : ∀ addr, MailFrom mail.lines addr →
      mailReply lang (linesRead mail.lines) = .mail (some addr) ∨
        mailReply lang (linesRead mail.lines) = .rejected := by
    intro addr hfrom
    have hor := h.sender addr hfrom
    rwa [hfile, Option.some.injEq, Option.some.injEq] at hor
  have hnetmail : ∀ addr, MailFrom mail.lines addr → ftnToAddr (linesRead mail.lines) = [] := by
    intro addr hfrom
    by_contra hftn
    have hor := hsender addr hfrom
    unfold mailReply at hor
    rw [if_pos hftn] at hor
    rcases hor with hor | hor
    · cases hor
    · cases hor
  refine ⟨?_, hnetmail, ?_⟩
  · intro hftn
    have hbody : linesRead mail.lines ≠ [] := by
      intro hnil
      apply h.known
      rw [hfile, hnil]
      rfl
    by_contra hnone
    have hmark : markedLine lang (linesRead mail.lines) = none := by
      cases hm : markedLine lang (linesRead mail.lines) with
      | none => rfl
      | some r =>
        obtain ⟨line, ptr2⟩ := r
        obtain ⟨tb, rest, hsplit, -, hline⟩ := markedLine_split hm
        refine absurd ⟨line, ?_, ?_⟩ hnone
        · rw [hsplit]
          exact List.mem_append_right _ List.mem_cons_self
        · rw [hline]
          rfl
    have hreply : mailReply lang (linesRead mail.lines) = .mail none := by
      unfold mailReply
      rw [if_neg (not_not.mpr hftn), if_neg hbody, hmark]
    obtain ⟨mr, hmr, -⟩ := h.clean none (by rw [hfile, hreply])
    cases hmr
  · intro addr line ptr2 mr hfrom hline _ haddr hacc
    obtain ⟨mr', hmr', hreply⟩ := exists_mail (hnetmail addr hfrom) hline
    obtain ⟨-, -, -, -, hmark⟩ := markedLine_split hline
    obtain ⟨b, hb⟩ := fromMarker_split hmark
    rw [← mailRecipient_iff hacc (b := b), ← hb, hmr', Option.some.injEq] at haddr
    rw [haddr, if_pos hacc] at hreply
    rcases hsender addr hfrom with hor | hor
    · rw [hreply] at hor
      cases hor
      rfl
    · rw [hreply] at hor
      cases hor

-- a long line of the sender is cut
example : mailReply .english (linesRead ["From: Svenska Exempelbolagets kundservice i Stockholm AB ".toList ++
    "<kundtjanst@exempel.se>".toList]) = .mail (some "kundtjanst@exempel.s".toList) := by decide +kernel

/-- A mail that was sent on. -/
def resentMail : StoredMail where
  num := 7
  time := 9
  commentNum := 0
  subject := "Hej".toList
  lines := ["Resent-From: eve@x.se".toList, "From: Bo <bo@y.se>".toList, [], "Hej".toList]
  cl := []
  oneLine := by decide
  wholeLines := by decide

end SklaffKom
