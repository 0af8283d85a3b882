import SklaffKom.ImportedText
import SklaffKom.Netmail

/-!
# Imported records

What `get_text_entry` reads from the texts that `send_ftn` and `send_netmail_with_context` write.
-/

open CString

namespace SklaffKom

/-! ## Whole lines -/

theorem WholeLines.exists_unlines {s : CString} (h : WholeLines s) :
    ∃ ls, s = unlines ls ∧ ∀ l ∈ ls, '\n' ∉ l := by
  induction hn : s.length using Nat.strong_induction_on generalizing s with
  | _ n ih =>
    by_cases hne : s = []
    · exact ⟨[], hne, by simp⟩
    · cases hnl : strchr s '\n' with
      | none => exact absurd (h.mem hne) (notMem_of_strchr hnl)
      | some t =>
        obtain ⟨l, rest, hs, -, hl⟩ := strchr_split hnl
        have hrest : WholeLines rest := by
          have hdrop := h.drop (l.length + 1)
          have hrest' : s.drop (l.length + 1) = rest := by
            rw [hs, ← List.drop_drop, List.drop_left]
            rfl
          rwa [hrest'] at hdrop
        have hlen : rest.length < n := by
          rw [← hn, hs, List.length_append, List.length_cons]
          omega
        obtain ⟨ls, hls, hmem⟩ := ih _ hlen hrest rfl
        refine ⟨l :: ls, ?_, List.forall_mem_cons.mpr ⟨hl, hmem⟩⟩
        rw [unlines_cons, ← hls, hs]

theorem WholeLines.flatMap {α : Type*} {f : α → CString} {as : List α}
    (h : ∀ a ∈ as, WholeLines (f a)) : WholeLines (as.flatMap f) := by
  induction as with
  | nil => exact WholeLines.nil
  | cons a as ih =>
    rw [List.flatMap_cons]
    exact (h a List.mem_cons_self).append (ih fun b hb => h b (List.mem_cons_of_mem _ hb))

/-- A blank line ends every wrapped body, whatever becomes of its long lines. -/
theorem wholeLines_wrapFtnBody {body : CString} (h : WholeLines body) :
    WholeLines (wrapFtnBodyForSkom body) := by
  have hlast : ∃ init, body.splitOn '\n' = init ++ [[]] := by
    by_cases hne : body = []
    · exact ⟨[], by rw [hne]; rfl⟩
    · have hbody : body = body.dropLast ++ '\n' :: [] := by
        have hget := List.getLast?_eq_getLast_of_ne_nil hne
        have hnl := h _ hget
        conv => lhs; rw [← List.dropLast_append_getLast hne, hnl]
      refine ⟨body.dropLast.splitOn '\n', ?_⟩
      conv => lhs; rw [hbody, List.splitOn_append_cons_self]
      rfl
  obtain ⟨init, hinit⟩ := hlast
  have hnil : wrapFtnLine [] = ['\n'] := rfl
  rw [wrapFtnBodyForSkom, hinit, List.flatMap_append, List.flatMap_singleton, hnil]
  exact WholeLines.line _

theorem wholeLines_utf8ToSf7 {s : CString} (h : WholeLines s) : WholeLines (utf8ToSf7 s) := by
  obtain ⟨ls, rfl, -⟩ := h.exists_unlines
  induction ls with
  | nil => exact WholeLines.nil
  | cons l ls ih =>
    rw [unlines_cons] at h ⊢
    have hrest : WholeLines (unlines ls) := WholeLines.flatMap fun l _ => WholeLines.line l
    rw [utf8ToSf7, convertLetters_append (by decide) rfl]
    have happ := (WholeLines.line (utf8ToSf7 l)).append (ih hrest)
    rwa [List.append_assoc] at happ

theorem wholeLines_netmailToSf7 {s : CString} (h : WholeLines s) (chrs : CString) :
    WholeLines (netmailToSf7 s chrs) := by
  unfold netmailToSf7
  split
  next => exact wholeLines_utf8ToSf7 h
  next => exact h

theorem wholeLines_buildFtnMbuf (area : CString) {msg : FidoMsg} (h : WholeLines msg.cleanBody)
    (reason : CString) : WholeLines (buildFtnMbuf area msg reason) := by
  have hbody := (WholeLines.line []).append (wholeLines_wrapFtnBody h)
  unfold buildFtnMbuf
  rw [List.append_assoc]
  exact hbody.append_right (by simp) _

theorem wholeLines_buildNetmailMbuf {msg : FidoMsg} (h : WholeLines msg.cleanBody)
    (domain localAddr : CString) : WholeLines (buildNetmailMbuf msg domain localAddr) := by
  have hbody := (WholeLines.line []).append (wholeLines_netmailToSf7 h msg.chrs)
  unfold buildNetmailMbuf netmailTail
  rw [List.append_assoc _ ['\n'], ← List.append_assoc]
  exact hbody.append_right (by simp) _

/-! ## Imported messages -/

/-- A subject that is one line is stored as one. -/
theorem notMem_netmailSubject {msg : FidoMsg} (h : '\n' ∉ msg.subject) : '\n' ∉ netmailSubject msg := by
  have hsubject : '\n' ∉ if msg.subject = [] then "(no subject)".toList else msg.subject := by
    split
    next => decide
    next => exact h
  unfold netmailSubject netmailToSf7
  split
  next => exact mt (mem_convertLetters (by decide) fun _ => id) hsubject
  next => exact hsubject

/-- The text that is imported as text `n`: the lines of its message buffer, and what is read from
it. -/
def ReadBack (n now com : Int) (subject mbuf file : CString) : Prop :=
  ∃ ls, mbuf = unlines ls ∧ (∀ l ∈ ls, '\n' ∉ l) ∧
    getTextEntry file = .entry (importedEntry n now com subject ls) (some [])

theorem readBack_imported (n now com : Int) {subject mbuf : CString} (hsubject : '\n' ∉ subject)
    (hmbuf : WholeLines mbuf) : ReadBack n now com subject mbuf
      (importedLine n now com (mbuf.count '\n') ++ '\n' :: (subject ++ '\n' :: mbuf)) := by
  obtain ⟨ls, rfl, hls⟩ := hmbuf.exists_unlines
  refine ⟨ls, rfl, hls, ?_⟩
  rw [count_unlines hls]
  exact getTextEntry_imported n now com hsubject hls

/-- For every message that is read and whose subject is one line: the text of an echomail comment or
message, and the text of a netmail message, are read back with their lines, and without comments. -/
theorem imported_record_readBack {file : Option (List Char)} {msg : FidoMsg}
    (hread : readFidoMsg file = some msg) (hsubject : '\n' ∉ msg.subject) :
    (∀ (env : FtnEnv) (c : FtnConf) (com : Int) (reason : CString), com ≠ c.lastText + 1 →
      ∃ text, (sendFtn env c msg com reason).2.texts (sendFtn env c msg com reason).1 = some text ∧
        ReadBack (c.lastText + 1) (ftnTextTime env msg) com msg.subject
          (buildFtnMbuf env.area msg reason) text) ∧
    (∀ (mbox : FtnConf) (domain localAddr : CString) (now : Int),
      ∃ text, (sendNetmail mbox msg domain localAddr now).texts (mbox.lastText + 1) = some text ∧
        ReadBack (mbox.lastText + 1) now 0 (netmailSubject msg)
          (buildNetmailMbuf msg domain localAddr) text) := by
  have hbody := wholeLines_cleanBody hread
  constructor
  · intro env c com reason hcom
    refine ⟨ftnTextFile env.area (c.lastText + 1) (ftnTextTime env msg) com msg reason, ?_, ?_⟩
    · rw [sendFtn_fst]
      exact sendFtn_newText env c msg hcom reason
    · have h := readBack_imported (c.lastText + 1) (ftnTextTime env msg) com hsubject
        (wholeLines_buildFtnMbuf env.area hbody reason)
      have hfile : ftnTextFile env.area (c.lastText + 1) (ftnTextTime env msg) com msg reason =
          importedLine (c.lastText + 1) (ftnTextTime env msg) com
              ((buildFtnMbuf env.area msg reason).count '\n') ++
            '\n' :: (msg.subject ++ '\n' :: buildFtnMbuf env.area msg reason) := by
        simp [ftnTextFile, importedLine, countBodyLines]
      rwa [hfile]
  · intro mbox domain localAddr now
    refine ⟨netmailTextFile (mbox.lastText + 1) now msg domain localAddr, ?_, ?_⟩
    · exact Function.update_self _ _ _
    · have h := readBack_imported (mbox.lastText + 1) now 0 (notMem_netmailSubject hsubject)
        (wholeLines_buildNetmailMbuf hbody domain localAddr)
      have hfile : netmailTextFile (mbox.lastText + 1) now msg domain localAddr =
          importedLine (mbox.lastText + 1) now 0
              ((buildNetmailMbuf msg domain localAddr).count '\n') ++
            '\n' :: (netmailSubject msg ++ '\n' :: buildNetmailMbuf msg domain localAddr) := by
        simp [netmailTextFile, importedLine, countLines]
      rwa [hfile]

/-- The `.MSG` file with the subject and a body of one line. -/
def sampleMsg (subject : CString) : List Char :=
  List.replicate 72 'x' ++ (subject ++ List.replicate (118 - subject.length) '\x00') ++
    "Hej\r".toList

/-- A comment to the second text of a conference. -/
theorem imported_record_sample : ∃ msg text, readFidoMsg (some (sampleMsg "Hej=20".toList)) = some msg ∧
    (sendFtn ⟨"TEST".toList, fun _ => 0, 0⟩ ⟨3, fun _ => none⟩ msg 2 []).2.texts 4 = some text ∧
    ReadBack 4 (ftnTextTime ⟨"TEST".toList, fun _ => 0, 0⟩ msg) 2 msg.subject
      (buildFtnMbuf "TEST".toList msg []) text := by
  have hsubject : (readFidoMsg (some (sampleMsg "Hej=20".toList))).map (·.subject) =
      some "Hej=20".toList := by decide +kernel
  cases hread : readFidoMsg (some (sampleMsg "Hej=20".toList)) with
  | none =>
    rw [hread] at hsubject
    cases hsubject
  | some msg =>
    rw [hread, Option.map_some, Option.some.injEq] at hsubject
    obtain ⟨text, htext, hback⟩ := (imported_record_readBack hread (by rw [hsubject]; decide)).1
      ⟨"TEST".toList, fun _ => 0, 0⟩ ⟨3, fun _ => none⟩ 2 [] (by decide)
    exact ⟨msg, text, rfl, htext, hback⟩

/-- The subject that is read from a text. -/
def subjectRead (text : CString) : Option CString :=
  match getTextEntry text with
  | .entry te _ => some te.th.subject
  | _ => none

/-- A subject of 72 bytes is cut, and another subject stands for an empty one. -/
theorem imported_subject_differs :
    (∃ msg, readFidoMsg (some (sampleMsg (List.replicate 72 'a'))) = some msg ∧
      subjectRead (ftnTextFile [] 1 0 0 msg []) ≠ some (rtrim (decodeLine 'u' msg.subject))) ∧
    (∃ msg, readFidoMsg (some (sampleMsg [])) = some msg ∧
      subjectRead (netmailTextFile 1 0 msg [] []) ≠ some (rtrim (decodeLine 'u' msg.subject))) := by
  constructor
  · have hlong : (readFidoMsg (some (sampleMsg (List.replicate 72 'a')))).map (fun msg =>
        (msg.subject, subjectRead (ftnTextFile [] 1 0 0 msg []))) =
        some (List.replicate 72 'a', some (List.replicate 69 'a')) := by decide +kernel
    rw [Option.map_eq_some_iff] at hlong
    obtain ⟨msg, hread, hmsg⟩ := hlong
    rw [Prod.mk.injEq] at hmsg
    refine ⟨msg, hread, ?_⟩
    have hdecode := decodeLine_of_noTriplet 'u'
      (noTriplet_of_notMem (l := List.replicate 72 'a') (by decide))
    rw [hmsg.1, hmsg.2, hdecode]
    decide +kernel
  · have hnone : (readFidoMsg (some (sampleMsg []))).map (fun msg =>
        (msg.subject, subjectRead (netmailTextFile 1 0 msg [] []))) =
        some ([], some "(no subject)".toList) := by decide +kernel
    rw [Option.map_eq_some_iff] at hnone
    obtain ⟨msg, hread, hmsg⟩ := hnone
    rw [Prod.mk.injEq] at hmsg
    refine ⟨msg, hread, ?_⟩
    rw [hmsg.1, hmsg.2, decodeLine]
    decide +kernel

end SklaffKom
