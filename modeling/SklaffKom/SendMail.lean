import SklaffKom.FtnRecords
import SklaffKom.Lib.Substrings
import SklaffKom.MailParse

/-!
# Imported mail

`send_mail` stores a mail as a text of its receiver's mailbox: the decoded subject, the headers as they
came, and in place of the body what `mailbody_render_utf8_dup` makes of it, in lines of 78 characters.
-/

open CString

namespace SklaffKom

/-! ## Writing -/

def mailtossWrapCol : Nat := 78

/-- `for (j = MAILTOSS_WRAP_COL; j > 0; j--)`: where a line is cut. -/
def wrapCut (l : CString) : Nat → Nat
  | 0 => mailtossWrapCol
  | j + 1 => if l[j]?.any isBlank then (if 0 < j then j else mailtossWrapCol) else wrapCut l j

/-- A line with newlines put into it. -/
def wrapMailLine : Nat → CString → CString
  | 0, line => line
  | fuel + 1, line =>
    if line.length > mailtossWrapCol then
      let cut := wrapCut line mailtossWrapCol
      line.take cut ++ '\n' :: wrapMailLine fuel ((line.drop cut).dropWhile isBlank)
    else line

/-- The loop over the lines, which end with `\r\n`, `\r` or `\n`. -/
def wrapMailBody : Nat → CString → CString
  | 0, _ => []
  | fuel + 1, s =>
    let line := s.takeWhile fun c => !isEol c
    wrapMailLine line.length line ++
      match s.dropWhile fun c => !isEol c with
      | [] => []
      | '\r' :: '\n' :: rest => '\n' :: wrapMailBody fuel rest
      | _ :: rest => '\n' :: wrapMailBody fuel rest

def wrapMailBodyForSkom (body : CString) : CString := wrapMailBody (body.length + 1) body

def subjectLen : Nat := 70

/-- `th.subject` after `strncpy(th.subject, subject_sf7, SUBJECT_LEN - 2)`: the byte behind a long subject
is `junk` of the stack. -/
def mailSubject (junk : Char) (subject : CString) : CString :=
  if subject.length < subjectLen - 2 then subject
  else subject.take (subjectLen - 2) ++ if junk = '\x00' then [] else [junk]

def mailStorebuf (mbuf wrappedbody : CString) : CString :=
  let headers := ((headersEnd mbuf).map (before mbuf)).getD []
  if headers ≠ [] then headers ++ ['\n', '\n'] ++ wrappedbody else wrappedbody

/-- The text file of `send_mail`; `rendered` is what `mailbody_render_utf8_dup` returns. -/
def mailTextFile (num time : Int) (junk : Char) (mbuf rendered : CString) : CString :=
  let subject := mailSubject junk (utf8ToSf7 (mailSubjectUtf8 mbuf))
  let storebuf := mailStorebuf mbuf (wrapMailBodyForSkom (utf8ToSf7 rendered))
  field num ++ field 0 ++ field time ++ field 0 ++ field 0 ++ field 0 ++
    decimal (storebuf.count '\n') ++ ['\n'] ++ (subject ++ ['\n'] ++ storebuf)

/-! ## Messages -/

def mailMessage (headers : List CString) (body : CString) : CString :=
  unlines headers ++ '\n' :: body

structure HeaderLines (headers : List CString) : Prop where
  ne : headers ≠ []
  lines : ∀ h ∈ headers, h ≠ [] ∧ '\n' ∉ h

/-- The subject of the header lines, decoded and converted. -/
def sf7Subject (headers : List CString) : CString :=
  utf8ToSf7 (((headerField "Subject".toList headers).map mailRfc2047Decode).getD [])

section Message

variable {headers : List CString} {h body : CString}

theorem unlines_intercalate (hne : headers ≠ []) :
    unlines headers = ['\n'].intercalate headers ++ ['\n'] := by
  induction headers with
  | nil => exact absurd rfl hne
  | cons h headers ih =>
    cases headers with
    | nil => rw [unlines_cons, unlines_nil, List.intercalate_singleton]
    | cons h' headers =>
      rw [unlines_cons, ih (List.cons_ne_nil _ _), List.intercalate_cons_cons, List.append_assoc,
        List.append_assoc]
      rfl

theorem mailMessage_eq (hne : headers ≠ []) :
    mailMessage headers body = ['\n'].intercalate headers ++ '\n' :: '\n' :: body := by
  rw [mailMessage, unlines_intercalate hne, List.append_assoc]
  rfl

/-- The first empty line is the one behind the headers. -/
theorem strstr_mailMessage (hh : HeaderLines headers) (body : CString) :
    strstr (mailMessage headers body) ['\n', '\n'] = some ('\n' :: '\n' :: body) := by
  rw [mailMessage_eq hh.ne]
  obtain ⟨hne, hlines⟩ := hh
  induction headers with
  | nil => exact absurd rfl hne
  | cons h headers ih =>
    obtain ⟨⟨-, hnl⟩, hrest⟩ := List.forall_mem_cons.mp hlines
    have hskip : ∀ p ∈ ['\n', '\n'].head?, p ∉ h := by
      intro p hp
      cases hp
      exact hnl
    cases headers with
    | nil =>
      rw [List.intercalate_singleton, strstr_append_of_notMem hskip (List.cons_ne_nil _ _)]
      exact strstr_at_start ⟨body, rfl⟩
    | cons h' headers =>
      have hlast := ih (List.cons_ne_nil _ _) hrest
      obtain ⟨c, h', rfl⟩ := List.exists_cons_of_ne_nil (hrest h' List.mem_cons_self).1
      have hc : '\n' ≠ c := by
        rintro rfl
        exact (hrest _ List.mem_cons_self).2 List.mem_cons_self
      obtain ⟨t, ht⟩ : ∃ t, ['\n'].intercalate ((c :: h') :: headers) = c :: t := by
        cases headers with
        | nil => exact ⟨h', List.intercalate_singleton⟩
        | cons h'' headers => exact ⟨_, by rw [List.intercalate_cons_cons]; rfl⟩
      rw [List.intercalate_cons_cons, List.append_assoc, List.append_assoc, List.singleton_append,
        strstr_append_of_notMem hskip (List.cons_ne_nil _ _), strstr_cons_of_not_start, hlast]
      rw [ht, List.cons_append, List.cons_prefix_cons, List.cons_prefix_cons]
      exact fun hp => hc hp.2.1

theorem headersEnd_mailMessage (hh : HeaderLines headers)
    (hcr : strstr (mailMessage headers body) "\r\n\r\n".toList = none) :
    headersEnd (mailMessage headers body) = some ('\n' :: '\n' :: body) := by
  unfold headersEnd
  rw [hcr]
  exact strstr_mailMessage hh body

theorem before_mailMessage (hne : headers ≠ []) :
    before (mailMessage headers body) ('\n' :: '\n' :: body) = ['\n'].intercalate headers := by
  rw [before, mailMessage_eq hne, take_before]

/-- The subject is that of the header lines. -/
theorem sf7Subject_mailMessage (hh : HeaderLines headers)
    (hcr : strstr (mailMessage headers body) "\r\n\r\n".toList = none) :
    utf8ToSf7 (mailSubjectUtf8 (mailMessage headers body)) = sf7Subject headers := by
  have hvalue : mailHeaderValue (mailMessage headers body) "Subject".toList =
      headerField "Subject".toList headers := by
    rw [mailHeaderValue, headersEnd_mailMessage hh hcr, Option.getD_some, before_mailMessage hh.ne,
      List.splitOn_intercalate '\n' (fun h hm => (hh.lines h hm).2) hh.ne]
  rw [mailSubjectUtf8, hvalue, sf7Subject]
  cases headerField "Subject".toList headers with
  | none => rfl
  | some raw => rfl

/-- What is stored are the header lines, an empty line, and the new body. -/
theorem mailStorebuf_mailMessage (hh : HeaderLines headers)
    (hcr : strstr (mailMessage headers body) "\r\n\r\n".toList = none) (wrapped : CString) :
    mailStorebuf (mailMessage headers body) wrapped = mailMessage headers wrapped := by
  have hne : ['\n'].intercalate headers ≠ [] := by
    obtain ⟨h, headers, rfl⟩ := List.exists_cons_of_ne_nil hh.ne
    have hlong := (hh.lines h List.mem_cons_self).1
    cases headers with
    | nil =>
      rw [List.intercalate_singleton]
      exact hlong
    | cons h' headers =>
      rw [List.intercalate_cons_cons]
      exact List.append_ne_nil_of_left_ne_nil (List.append_ne_nil_of_left_ne_nil hlong _) _
  have hheaders : ((headersEnd (mailMessage headers body)).map
      (before (mailMessage headers body))).getD [] = ['\n'].intercalate headers := by
    rw [headersEnd_mailMessage hh hcr, Option.map_some, Option.getD_some, before_mailMessage hh.ne]
  unfold mailStorebuf
  rw [hheaders]
  dsimp only
  rw [if_pos hne, mailMessage_eq hh.ne, List.append_assoc]
  rfl

end Message

/-! ## Wrapping -/

section Wrap

variable {s line : CString} {d : Char}

/-- Every line of the text has its line end. -/
def ClosedText (s : CString) : Prop := ∀ c ∈ s.getLast?, isEol c = true

theorem wrapCut_bounds (line : CString) {j : Nat} (hj : j ≤ mailtossWrapCol) :
    0 < wrapCut line j ∧ wrapCut line j ≤ mailtossWrapCol := by
  have hcol : mailtossWrapCol = 78 := rfl
  induction j with
  | zero =>
    rw [wrapCut]
    omega
  | succ j ih =>
    have ih := ih (by omega)
    rw [wrapCut]
    split
    · split
      · omega
      · omega
    · exact ih

/-- Lines of a text that are not cut when they are read. -/
def FittingLines (ls : List CString) : Prop := ∀ l ∈ ls, '\n' ∉ l ∧ l.length ≤ 78

theorem fittingLines_singleton (hline : '\n' ∉ line) (hlen : line.length ≤ 78) :
    ∃ ls, line ++ ['\n'] = unlines ls ∧ FittingLines ls := by
  refine ⟨[line], by rw [unlines_cons, unlines_nil], ?_⟩
  rw [FittingLines, List.forall_mem_singleton]
  exact ⟨hline, hlen⟩

/-- A line becomes lines that fit. -/
theorem wrapMailLine_lines (fuel : Nat) (hline : '\n' ∉ line) (hfuel : line.length ≤ fuel) :
    ∃ ls, wrapMailLine fuel line ++ ['\n'] = unlines ls ∧ FittingLines ls := by
  have hcol : mailtossWrapCol = 78 := rfl
  induction fuel generalizing line with
  | zero =>
    rw [wrapMailLine]
    exact fittingLines_singleton hline (by omega)
  | succ fuel ih =>
    rw [wrapMailLine]
    by_cases hlong : line.length > mailtossWrapCol
    · have hcut := wrapCut_bounds line (Nat.le_refl mailtossWrapCol)
      rw [if_pos hlong]
      dsimp only
      set cut := wrapCut line mailtossWrapCol
      set rest := (line.drop cut).dropWhile isBlank with hrest
      have hsub : rest <:+ line := (List.dropWhile_suffix _).trans (List.drop_suffix cut line)
      have hrestline : '\n' ∉ rest := fun hn => hline (hsub.subset hn)
      have hlen : rest.length ≤ fuel := by
        have h1 := (List.dropWhile_suffix (l := line.drop cut) isBlank).length_le
        rw [← hrest, List.length_drop] at h1
        omega
      obtain ⟨ls, hls, hfit⟩ := ih hrestline hlen
      refine ⟨line.take cut :: ls, ?_, ?_⟩
      · rw [unlines_cons, ← hls, List.append_assoc]
        rfl
      · rw [FittingLines, List.forall_mem_cons, List.length_take]
        exact ⟨⟨fun hn => hline (List.mem_of_mem_take hn), by omega⟩, hfit⟩
    · rw [if_neg hlong]
      exact fittingLines_singleton hline (by omega)

theorem ClosedText.rest {a : CString} (h : ClosedText (a ++ s)) (hne : s ≠ []) : ClosedText s := by
  unfold ClosedText at h ⊢
  rwa [List.getLast?_append_of_ne_nil _ hne] at h

theorem wrapMailBody_lines (fuel : Nat) (hs : ClosedText s) (hfuel : s.length < fuel) :
    ∃ ls, wrapMailBody fuel s = unlines ls ∧ FittingLines ls := by
  induction fuel generalizing s with
  | zero => omega
  | succ fuel ih =>
    set l := s.takeWhile fun c => !isEol c with hl
    have hsplit : l ++ s.dropWhile (fun c => !isEol c) = s := List.takeWhile_append_dropWhile
    have hnl : '\n' ∉ l := by
      intro hn
      have := List.mem_takeWhile_imp hn
      cases this
    -- the rest behind the end of the line
    have hstep : ∀ rest, (∃ a, s = a ++ rest ∧ a ≠ []) →
        ∃ ls, wrapMailLine l.length l ++ '\n' :: wrapMailBody fuel rest = unlines ls ∧
          FittingLines ls := by
      rintro rest ⟨a, rfl, ha⟩
      have hlen := List.length_pos_iff.mpr ha
      rw [List.length_append] at hfuel
      have hrest : ClosedText rest := by
        by_cases hne : rest = []
        · rw [hne]
          exact fun c hc => by cases hc
        · exact hs.rest hne
      obtain ⟨as, has, hfirst⟩ := wrapMailLine_lines l.length hnl (Nat.le_refl _)
      obtain ⟨bs, hbs, hmore⟩ := ih hrest (by omega)
      refine ⟨as ++ bs, ?_, fun x hx => (List.mem_append.mp hx).elim (hfirst x) (hmore x)⟩
      rw [unlines_append, ← has, ← hbs, List.append_assoc]
      rfl
    rw [wrapMailBody, ← hl]
    split
    · rename_i hnil
      have hall : s = l := by rw [← hsplit, hnil, List.append_nil]
      have hempty : l = [] := by
        by_contra hne
        obtain ⟨c, hc⟩ := List.getLast?_isSome.mpr hne |> Option.isSome_iff_exists.mp
        have heol := hs c (hall ▸ hc)
        have hno := List.mem_takeWhile_imp (hl ▸ List.mem_of_getLast? hc)
        rw [heol] at hno
        cases hno
      rw [hempty]
      exact ⟨[], rfl, List.forall_mem_nil _⟩
    · rename_i rest heq
      rw [heq] at hsplit
      exact hstep rest ⟨l ++ ['\r', '\n'], by rw [← hsplit, List.append_assoc]; rfl, by simp⟩
    · rename_i c rest hne heq
      rw [heq] at hsplit
      exact hstep rest ⟨l ++ [c], by rw [← hsplit, List.append_assoc]; rfl, by simp⟩

/-- The lines of the new body. -/
theorem wrapMailBodyForSkom_lines (h : ClosedText s) :
    ∃ ls, wrapMailBodyForSkom (utf8ToSf7 s) = unlines ls ∧ FittingLines ls := by
  have hclosed : ClosedText (utf8ToSf7 s) := by
    cases hlast : s.getLast? with
    | none =>
      rw [List.getLast?_eq_none_iff] at hlast
      rw [hlast]
      exact fun c hc => by cases hc
    | some d =>
      obtain ⟨init, rfl⟩ := List.getLast?_eq_some_iff.mp hlast
      have heol := h d hlast
      have hascii : d.toNat < 128 := by
        simp only [isEol, Bool.or_eq_true, decide_eq_true_eq] at heol
        rcases heol with rfl | rfl
        · decide
        · decide
      rw [utf8ToSf7, convertLetters_append hascii rfl]
      intro c hc
      rw [convertLetters, List.getLast?_append_of_ne_nil _ (List.cons_ne_nil _ _)] at hc
      cases hc
      exact heol
  exact wrapMailBody_lines _ hclosed (Nat.lt_succ_self _)

end Wrap

/-! ## What is read -/

/-- A subject of one line in which no byte of the stack shows. -/
structure GoodSubject (junk : Char) (subject : CString) : Prop where
  oneLine : '\n' ∉ subject.take (subjectLen - 2)
  ends : subject.length < subjectLen - 2 ∨ junk = '\x00'

theorem mailSubject_eq {junk : Char} {subject : CString} (h : GoodSubject junk subject) :
    mailSubject junk subject = subject.take (subjectLen - 2) := by
  unfold mailSubject
  split
  · rename_i hlen
    exact (List.take_of_length_le (Nat.le_of_lt hlen)).symm
  · rename_i hlen
    rw [if_pos (h.ends.resolve_left hlen), List.append_nil]

/-- A stored mail is well formed: one metadata line, one line of at most 68 bytes of the subject, the
header lines, an empty line and the lines of the new body, and these are read back without comments. -/
theorem mailTextFile_stored (num time : Int) {junk : Char} {headers : List CString}
    {body rendered : CString} (hh : HeaderLines headers)
    (hcr : strstr (mailMessage headers body) "\r\n\r\n".toList = none)
    (hsubject : GoodSubject junk (sf7Subject headers)) (hrendered : ClosedText rendered) :
    ∃ ls, wrapMailBodyForSkom (utf8ToSf7 rendered) = unlines ls ∧ FittingLines ls ∧
      mailTextFile num time junk (mailMessage headers body) rendered =
        importedLine num time 0 (headers ++ [] :: ls).length ++
          '\n' :: ((sf7Subject headers).take 68 ++ '\n' :: unlines (headers ++ [] :: ls)) ∧
      getTextEntry (mailTextFile num time junk (mailMessage headers body) rendered) =
        .entry (importedEntry num time 0 ((sf7Subject headers).take 68) (headers ++ [] :: ls))
          (some []) := by
  obtain ⟨ls, hls, hfit⟩ := wrapMailBodyForSkom_lines hrendered
  have hlines : ∀ l ∈ headers ++ [] :: ls, '\n' ∉ l := by
    intro l hl
    rw [List.mem_append, List.mem_cons] at hl
    rcases hl with hl | rfl | hl
    · exact (hh.lines l hl).2
    · exact List.not_mem_nil
    · exact (hfit l hl).1
  have hstore : mailMessage headers (unlines ls) = unlines (headers ++ [] :: ls) := by
    rw [unlines_append, unlines_cons]
    rfl
  have hfile : mailTextFile num time junk (mailMessage headers body) rendered =
      importedLine num time 0 (headers ++ [] :: ls).length ++
        '\n' :: ((sf7Subject headers).take 68 ++ '\n' :: unlines (headers ++ [] :: ls)) := by
    unfold mailTextFile
    rw [sf7Subject_mailMessage hh hcr, mailSubject_eq hsubject, hls, mailStorebuf_mailMessage hh hcr,
      hstore]
    dsimp only
    rw [count_unlines hlines, importedLine]
    simp only [List.append_assoc, List.cons_append, List.nil_append]
    rfl
  refine ⟨ls, hls, hfit, hfile, ?_⟩
  rw [hfile]
  exact getTextEntry_imported num time 0 hsubject.oneLine hlines

def hejHeaders : List CString := ["From a@b".toList, "Subject: =?utf-8?Q?Hej=3A?= du".toList]

def hejBody : CString := "Rad\n".toList

theorem mailTextFile_stored_hej :
    ∃ ls, wrapMailBodyForSkom (utf8ToSf7 hejBody) = unlines ls ∧ FittingLines ls ∧
      mailTextFile 7 9 '\x01' (mailMessage hejHeaders hejBody) hejBody =
        importedLine 7 9 0 (hejHeaders ++ [] :: ls).length ++
          '\n' :: ((sf7Subject hejHeaders).take 68 ++ '\n' :: unlines (hejHeaders ++ [] :: ls)) ∧
      getTextEntry (mailTextFile 7 9 '\x01' (mailMessage hejHeaders hejBody) hejBody) =
        .entry (importedEntry 7 9 0 ((sf7Subject hejHeaders).take 68) (hejHeaders ++ [] :: ls))
          (some []) := by
  have hlines : hejHeaders.all (fun h => decide (h ≠ [] ∧ '\n' ∉ h)) = true := by decide +kernel
  have hh : HeaderLines hejHeaders := by
    refine ⟨by decide, fun h hm => ?_⟩
    exact of_decide_eq_true (List.all_eq_true.mp hlines h hm)
  have hsubject : GoodSubject '\x01' (sf7Subject hejHeaders) :=
    ⟨by decide +kernel, Or.inl (by decide +kernel)⟩
  have hclosed : ClosedText hejBody := by
    intro c hc
    have hlast : hejBody.getLast? = some '\n' := by decide +kernel
    rw [hlast] at hc
    cases hc
    rfl
  exact mailTextFile_stored 7 9 hh (by decide +kernel) hsubject hclosed

/-- The body lines of a text file as they are read. -/
def textBody (file : CString) : List CString :=
  match getTextEntry file with
  | .entry te _ => te.body
  | _ => []

/-- A triplet in a header, and a line feed in a subject. -/
def tripletHeaders : List CString := ["From a@b".toList, "X: a=20b".toList]

def feedHeaders : List CString := ["From a@b".toList, "Subject: =?utf-8?Q?a=0Ab?=".toList]

/-- A subject of 68 bytes. -/
def longHeaders : List CString :=
  ["From a@b".toList, "Subject: ".toList ++ List.replicate 68 'x']

/-- A body with an empty line that ends with `\r\n`. -/
def crBody : CString := "a\r\n\r\nb\n".toList

/-- A triplet of a header is replaced when it is read; a body with `\r\n\r\n` is taken for headers; a
line feed ends the subject line; a byte of the stack follows a long subject; and the last line of a
body is lost that does not end. -/
theorem mailTextFile_differs :
    textBody (mailTextFile 7 9 '\x00' (mailMessage tripletHeaders hejBody) hejBody) =
      ["From a@b".toList, "X: a b".toList, [], "Rad".toList] ∧
    textBody (mailTextFile 7 9 '\x00' (mailMessage hejHeaders crBody) "a\n\nb\n".toList) =
      hejHeaders ++ [[], "a".toList, [], "a".toList, [], "b".toList] ∧
    textBody (mailTextFile 7 9 '\x00' (mailMessage feedHeaders hejBody) hejBody) =
      "b".toList :: feedHeaders ++ [[]] ∧
    mailTextFile 7 9 'J' (mailMessage longHeaders hejBody) hejBody =
      importedLine 7 9 0 4 ++ '\n' :: (List.replicate 68 'x' ++ "J\n".toList ++
        unlines (longHeaders ++ [[], "Rad".toList])) ∧
    textBody (mailTextFile 7 9 '\x00' (mailMessage hejHeaders hejBody) "Rad".toList) =
      hejHeaders ++ [[]] := by
  decide +kernel

end SklaffKom
