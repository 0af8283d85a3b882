import SklaffKom.FtnRecords
import SklaffKom.Lib.Runs

/-!
# Netmail that is imported again

A message counts as imported when a stored text has its `MSGID` line and a line with its domain.
Whether these lines come from the header that the importer writes or from the message itself makes no
difference to the scan.
-/

open CString Runs

namespace SklaffKom

/-! ## Messages and mailboxes -/

/-- A message that the importer looks at: the parser has read it, and it has a `MSGID`.  The domain is
a word of the configuration, in a member of 64 bytes. -/
structure Netmail where
  file : List Char
  msg : FidoMsg
  parsed : readFidoMsg (some file) = some msg
  hasMsgid : msg.msgid ≠ []
  domain : CString
  hasDomain : domain ≠ []
  shortDomain : '\n' ∉ domain ∧ domain.length < 64
  localAddr : CString
  now : Int

/-- The lines of a file as the scan sees them, a long line in pieces. -/
def scanLines (file : CString) : List CString := (fileLines scanLineMax file).map cutEol

namespace Netmail

/-- The same message: `MSGID` and domain, ignoring the case of the domain. -/
def Same (e m : Netmail) : Prop :=
  e.msg.msgid = m.msg.msgid ∧ equalCase e.domain m.domain = true

/-- The lines that the scan sees besides the two with the `MSGID` and the domain. -/
def strayLines (e : Netmail) : List CString :=
  scanLines (netmailSubject e.msg ++ ['\n'] ++ netmailHead e.msg e.domain) ++
    scanLines (netmailAddrs e.msg e.domain e.localAddr) ++ scanLines (netmailTail e.msg)

/-- The domain is written so that the scan reads it back: no blanks before it, no carriage return in
it. -/
def PlainDomain (m : Netmail) : Prop := (cutEol m.domain).dropWhile isBlank = m.domain

/-- The text of `e` has a line with the `MSGID` of `m` and one with its domain, among its own two
lines or elsewhere. -/
def Imitates (e m : Netmail) : Prop :=
  (e.msg.msgid = m.msg.msgid ∨ "FTN-MSGID: ".toList ++ m.msg.msgid ∈ e.strayLines) ∧
    (equalCase e.domain m.domain = true ∨
      ∃ l ∈ e.strayLines, ∃ value ∈ domainValue l, equalCase value m.domain = true)

instance (e m : Netmail) : Decidable (e.Same m) :=
  inferInstanceAs (Decidable (e.msg.msgid = m.msg.msgid ∧ equalCase e.domain m.domain = true))

instance (m : Netmail) : Decidable m.PlainDomain :=
  inferInstanceAs (Decidable ((cutEol m.domain).dropWhile isBlank = m.domain))

instance (e m : Netmail) : Decidable (e.Imitates m) :=
  inferInstanceAs (Decidable ((e.msg.msgid = m.msg.msgid ∨
    "FTN-MSGID: ".toList ++ m.msg.msgid ∈ e.strayLines) ∧ (equalCase e.domain m.domain = true ∨
      ∃ l ∈ e.strayLines, ∃ value ∈ domainValue l, equalCase value m.domain = true)))

/-- The text that is stored for the message. -/
def text (e : Netmail) (n : Int) : CString := netmailTextFile n e.now e.msg e.domain e.localAddr

end Netmail

/-- The mailbox, the messages that have been stored in it, and all messages that have been looked
at. -/
structure NetmailState where
  mbox : FtnConf
  stored : List Netmail
  seen : List Netmail

/-- What `import_ftn_netmail_spool_5d` does with a message. -/
def netmailStep (s : NetmailState) (m : Netmail) : Option NetmailState :=
  if netmailAlreadyImported s.mbox m.domain m.msg.msgid then some { s with seen := s.seen ++ [m] }
  else
    some
      { mbox := sendNetmail s.mbox m.msg m.domain m.localAddr m.now
        stored := s.stored ++ [m]
        seen := s.seen ++ [m] }

/-- The message is reported as imported exactly when it has been looked at before; then nothing is
stored, otherwise it is. -/
def ReportedExactly (s : NetmailState) (m : Netmail) (s' : NetmailState) : Prop :=
  (netmailAlreadyImported s.mbox m.domain m.msg.msgid = true ↔ ∃ e ∈ s.seen, e.Same m) ∧
    s'.mbox = if ∃ e ∈ s.seen, e.Same m then s.mbox
      else sendNetmail s.mbox m.msg m.domain m.localAddr m.now

/-- No message imitates a message that has not been looked at. -/
def NotImitated (s : NetmailState) (m : Netmail) : Prop :=
  m.PlainDomain ∧ ∀ e ∈ s.stored, e.Imitates m → ∃ d ∈ s.seen, d.Same m

instance (s : NetmailState) (m : Netmail) : Decidable (NotImitated s m) :=
  inferInstanceAs (Decidable (m.PlainDomain ∧ ∀ e ∈ s.stored, e.Imitates m → ∃ d ∈ s.seen, d.Same m))

/-- A text without a line like that with a `MSGID`. -/
def NoMsgidLine (file : CString) : Prop := ∀ l ∈ scanLines file, ¬ "FTN-MSGID: ".toList <+: l

/-- A mailbox into which no netmail has been imported. -/
def NoNetmail (mbox : FtnConf) : Prop :=
  0 ≤ mbox.lastText ∧ ∀ k : Int, 0 < k → k ≤ mbox.lastText →
    ∀ file ∈ mbox.texts k, NoMsgidLine file

/-! ## The lines of a stored message -/

theorem scanLines_append {a : CString} (ha : WholeLines a) (b : CString) :
    scanLines (a ++ b) = scanLines a ++ scanLines b := by
  unfold scanLines
  rw [fileLines_append (by decide) ha, List.map_append]

theorem noEol_of_all {a : CString} (h : (a.all fun c => !isEol c) = true) :
    ∀ c ∈ a, isEol c = false := by
  intro c hc
  have hc' := List.all_eq_true.mp h c hc
  simpa using hc'

theorem cutEol_append {a : CString} (ha : ∀ c ∈ a, isEol c = false) (b : CString) :
    cutEol (a ++ b) = a ++ cutEol b := by
  unfold cutEol
  apply List.takeWhile_append_of_pos
  intro c hc
  rw [ha c hc]
  rfl

theorem cutEol_line (l : CString) : cutEol (l ++ ['\n']) = cutEol l := by
  unfold cutEol
  rw [List.takeWhile_append]
  split
  next h =>
    rw [List.takeWhile_cons_of_neg (by decide), List.append_nil]
    exact ((List.takeWhile_prefix _).eq_of_length h).symm
  next => rfl

/-- A short line is seen as one line. -/
theorem scanLines_line {l : CString} (hl : '\n' ∉ l) (hlen : l.length < 1023) :
    scanLines (l ++ ['\n']) = [cutEol l] := by
  have hnil : fileLines scanLineMax [] = [] := rfl
  unfold scanLines
  rw [fileLines_line hl (by unfold scanLineMax; omega), hnil, List.map_singleton, cutEol_line]

theorem subset_of_mem_scanLines {file l : CString} (h : l ∈ scanLines file) : l ⊆ file := by
  obtain ⟨piece, hpiece, rfl⟩ := List.mem_map.mp h
  exact List.Subset.trans (List.takeWhile_prefix _).subset
    (subset_of_mem_fileLines (by decide) hpiece)

theorem wholeLines_optionalLine (name value : CString) : WholeLines (optionalLine name value) := by
  unfold optionalLine
  split
  next => exact WholeLines.nil
  next => exact WholeLines.line _

theorem wholeLines_netmailHead (msg : FidoMsg) (domain : CString) :
    WholeLines (netmailHead msg domain) := by
  have hyes : "FTN-Netmail: yes\n".toList = "FTN-Netmail: yes".toList ++ ['\n'] := by decide
  unfold netmailHead
  rw [hyes, ← List.append_assoc]
  exact WholeLines.line _

theorem Netmail.msgid_line (e : Netmail) :
    (∀ c ∈ e.msg.msgid, isEol c = false) ∧ e.msg.msgid.length ≤ 255 :=
  readFidoMsg_msgid e.parsed

/-- The lines of a stored message that can matter to the scan. -/
theorem Netmail.mem_scanLines_text (e : Netmail) (n : Int) {l : CString} (hF : 'F' ∈ l) :
    l ∈ scanLines (e.text n) ↔ l ∈ e.strayLines ∨ l = "FTN-Domain: ".toList ++ cutEol e.domain ∨
      l = "FTN-MSGID: ".toList ++ e.msg.msgid := by
  set number := importedLine n e.now 0 (countLines (buildNetmailMbuf e.msg e.domain e.localAddr)) ++
    ['\n'] with hnumber
  set head := netmailSubject e.msg ++ ['\n'] ++ netmailHead e.msg e.domain with hhead
  set addrs := netmailAddrs e.msg e.domain e.localAddr with haddrs
  have htext : e.text n = number ++ (head ++ ("FTN-Domain: ".toList ++ e.domain ++ ['\n'] ++ (addrs ++
      ("FTN-MSGID: ".toList ++ e.msg.msgid ++ ['\n'] ++ netmailTail e.msg)))) := by
    simp [Netmail.text, netmailTextFile, buildNetmailMbuf, hnumber, hhead, haddrs, importedLine,
      optionalLine, e.hasDomain, e.hasMsgid]
  have hheadLines : WholeLines head := (WholeLines.line _).append (wholeLines_netmailHead _ _)
  have hnumberLines : WholeLines number := WholeLines.line _
  have hdomainLines : WholeLines ("FTN-Domain: ".toList ++ e.domain ++ ['\n']) := WholeLines.line _
  have hmsgidLines : WholeLines ("FTN-MSGID: ".toList ++ e.msg.msgid ++ ['\n']) := WholeLines.line _
  have haddrLines : WholeLines addrs :=
    (wholeLines_optionalLine _ _).append (wholeLines_optionalLine _ _)
  have hdomain : scanLines ("FTN-Domain: ".toList ++ e.domain ++ ['\n']) =
      ["FTN-Domain: ".toList ++ cutEol e.domain] := by
    have hnl : '\n' ∉ "FTN-Domain: ".toList ++ e.domain := by
      rw [List.mem_append, not_or]
      exact ⟨by decide, e.shortDomain.1⟩
    have hlen := e.shortDomain.2
    have hname : "FTN-Domain: ".toList.length = 12 := by decide
    rw [scanLines_line hnl (by rw [List.length_append]; omega), cutEol_append (noEol_of_all (by decide))]
  have hmsgid : scanLines ("FTN-MSGID: ".toList ++ e.msg.msgid ++ ['\n']) =
      ["FTN-MSGID: ".toList ++ e.msg.msgid] := by
    have hname : ∀ c ∈ "FTN-MSGID: ".toList, isEol c = false := noEol_of_all (by decide)
    have hline : ∀ c ∈ "FTN-MSGID: ".toList ++ e.msg.msgid, isEol c = false := by
      intro c hc
      rcases List.mem_append.mp hc with hc | hc
      · exact hname c hc
      · exact e.msgid_line.1 c hc
    have hlen := e.msgid_line.2
    have hlen' : "FTN-MSGID: ".toList.length = 11 := by decide
    have hcut := cutEol_append hline []
    rw [List.append_nil] at hcut
    rw [scanLines_line (fun h => by simpa [isEol] using hline _ h)
      (by rw [List.length_append]; omega), hcut]
    simp [cutEol]
  have hnum : l ∉ scanLines number := by
    intro hl
    have hmem := subset_of_mem_scanLines hl hF
    have hd : ∀ k : Int, 'F' ∉ decimal k := fun k => notMem_decimal rfl (by decide)
    have hf : ∀ k : Int, 'F' ∉ field k := by
      intro k
      rw [field, List.mem_append, not_or]
      exact ⟨hd k, by decide⟩
    simp [hnumber, importedLine, hd, hf] at hmem
  rw [htext, scanLines_append hnumberLines, scanLines_append hheadLines,
    scanLines_append hdomainLines, scanLines_append haddrLines, scanLines_append hmsgidLines,
    hdomain, hmsgid]
  simp only [List.mem_append, List.mem_singleton, hnum, false_or, Netmail.strayLines]
  tauto

/-! ## What the scan finds -/

theorem domainValue_some {l value : CString} (h : domainValue l = some value) :
    "FTN-Domain:".toList <+: l := by
  unfold domainValue at h
  split at h
  next hp => exact List.isPrefixOf_iff_prefix.mp hp
  next => cases h

/-- A line with a `MSGID` names no domain. -/
theorem domainValue_msgid (msgid : CString) : domainValue ("FTN-MSGID: ".toList ++ msgid) = none := by
  cases h : domainValue ("FTN-MSGID: ".toList ++ msgid) with
  | none => rfl
  | some value =>
    have hle : "FTN-Domain:".toList.length ≤ "FTN-MSGID: ".toList.length := by decide
    have hp := List.prefix_of_prefix_length_le (domainValue_some h) (List.prefix_append _ msgid) hle
    exact absurd hp (by decide)

theorem domainValue_domain (value : CString) :
    domainValue ("FTN-Domain: ".toList ++ value) = some (value.dropWhile isBlank) := by
  have hname : "FTN-Domain: ".toList = "FTN-Domain:".toList ++ [' '] := by decide
  have hlen : "FTN-Domain:".toList.length = 11 := by decide
  have hp : "FTN-Domain:".toList.isPrefixOf ("FTN-Domain: ".toList ++ value) = true := by
    rw [List.isPrefixOf_iff_prefix, hname, List.append_assoc]
    exact List.prefix_append _ _
  unfold domainValue
  rw [if_pos hp, hname, List.append_assoc, ← hlen, List.drop_left, List.singleton_append,
    List.dropWhile_cons_of_pos (by decide)]

theorem msgidNeedle_eq {msgid : CString} (h : msgid.length ≤ 255) :
    msgidNeedle msgid = "FTN-MSGID: ".toList ++ msgid := by
  have hlen : "FTN-MSGID: ".toList.length = 11 := by decide
  apply List.take_of_length_le
  rw [List.length_append]
  omega

theorem filterMap_filter_ne {α β : Type*} [DecidableEq α] {f : α → Option β} {x : α} (h : f x = none)
    (l : List α) : (l.filter (· ≠ x)).filterMap f = l.filterMap f := by
  induction l with
  | nil => rfl
  | cons y l ih =>
    by_cases hy : y = x
    · rw [List.filter_cons_of_neg (by simp [hy]), ih, List.filterMap_cons_none (hy ▸ h)]
    · rw [List.filter_cons_of_pos (by simp [hy]), List.filterMap_cons, List.filterMap_cons, ih]

/-- A text is taken for a message of a domain when it has the line with the `MSGID`, and one with the
domain or none with a domain. -/
theorem textHasMsgid_iff (file : CString) {domain msgid : CString} (hdomain : domain ≠ [])
    (hmsgid : msgid.length ≤ 255) : textHasMsgid file domain msgid = true ↔
      "FTN-MSGID: ".toList ++ msgid ∈ scanLines file ∧
        ((∀ l ∈ scanLines file, domainValue l = none) ∨
          ∃ l ∈ scanLines file, ∃ value ∈ domainValue l, equalCase value domain = true) := by
  have hnone := domainValue_msgid msgid
  unfold textHasMsgid
  rw [msgidNeedle_eq hmsgid]
  generalize "FTN-MSGID: ".toList ++ msgid = needle at hnone ⊢
  show ((scanLines file).contains _ && (decide (domain = []) ||
    decide (((scanLines file).filter _).filterMap domainValue = []) ||
    (((scanLines file).filter _).filterMap domainValue).any _)) = true ↔ _
  rw [filterMap_filter_ne hnone, Bool.and_eq_true, List.contains_iff_mem, Bool.or_eq_true, Bool.or_eq_true,
    decide_eq_true_eq, decide_eq_true_eq, List.filterMap_eq_nil_iff, List.any_eq_true]
  simp only [hdomain, false_or, List.mem_filterMap]
  apply and_congr_right
  intro _
  apply or_congr_right
  constructor
  · rintro ⟨value, ⟨l, hl, hv⟩, heq⟩
    exact ⟨l, hl, value, hv, heq⟩
  · rintro ⟨l, hl, value, hv, heq⟩
    exact ⟨value, ⟨l, hl, hv⟩, heq⟩

/-- The text of a message is taken for the messages that it imitates. -/
theorem Netmail.textHasMsgid_text {e : Netmail} (hplain : e.PlainDomain) (m : Netmail) (n : Int) :
    textHasMsgid (e.text n) m.domain m.msg.msgid = true ↔ e.Imitates m := by
  have hown : domainValue ("FTN-Domain: ".toList ++ cutEol e.domain) = some e.domain := by
    rw [domainValue_domain, hplain]
  have hownLine : "FTN-Domain: ".toList ++ cutEol e.domain ∈ scanLines (e.text n) :=
    (e.mem_scanLines_text n (List.mem_append_left _ (by decide))).mpr (Or.inr (Or.inl rfl))
  rw [textHasMsgid_iff _ m.hasDomain m.msgid_line.2,
    e.mem_scanLines_text n (List.mem_append_left _ (by decide))]
  apply and_congr
  · have hne : ¬ "FTN-MSGID: ".toList ++ m.msg.msgid = "FTN-Domain: ".toList ++ cutEol e.domain := by
      intro h
      have hvalue := domainValue_msgid m.msg.msgid
      rw [h, hown] at hvalue
      cases hvalue
    rw [List.append_cancel_left_eq]
    simp only [hne, false_or]
    rw [or_comm, eq_comm]
  · constructor
    · rintro (hnone | ⟨l, hl, value, hv, heq⟩)
      · rw [hnone _ hownLine] at hown
        cases hown
      · have hF : 'F' ∈ l := (domainValue_some hv).subset (by decide)
        rcases (e.mem_scanLines_text n hF).mp hl with hstray | rfl | rfl
        · exact Or.inr ⟨l, hstray, value, hv, heq⟩
        · rw [hown, Option.mem_some_iff] at hv
          exact Or.inl (hv ▸ heq)
        · rw [domainValue_msgid] at hv
          cases hv
    · rintro (heq | ⟨l, hl, value, hv, heq⟩)
      · exact Or.inr ⟨_, hownLine, e.domain, hown, heq⟩
      · have hF : 'F' ∈ l := (domainValue_some hv).subset (by decide)
        exact Or.inr ⟨l, (e.mem_scanLines_text n hF).mpr (Or.inl hl), value, hv, heq⟩

/-- The scan of a mailbox. -/
theorem netmailAlreadyImported_iff (mbox : FtnConf) (m : Netmail) :
    netmailAlreadyImported mbox m.domain m.msg.msgid = true ↔
      ∃ k : Int, 0 < k ∧ k ≤ mbox.lastText ∧
        ∃ file ∈ mbox.texts k, textHasMsgid file m.domain m.msg.msgid = true := by
  unfold netmailAlreadyImported
  rw [if_neg m.hasMsgid, List.any_eq_true]
  constructor
  · rintro ⟨k, hk, hfound⟩
    rw [List.mem_range] at hk
    cases hfile : mbox.texts ((k : Int) + 1) with
    | none =>
      rw [hfile] at hfound
      cases hfound
    | some file =>
      rw [hfile] at hfound
      exact ⟨(k : Int) + 1, by omega, by omega, file, hfile, hfound⟩
  · rintro ⟨k, hpos, hle, file, hfile, hfound⟩
    refine ⟨(k - 1).toNat, List.mem_range.mpr (by omega), ?_⟩
    have hk : (((k - 1).toNat : Nat) : Int) + 1 = k := by omega
    rw [hk, Option.mem_def.mp hfile]
    exact hfound

/-! ## Runs -/

namespace Netmail

theorem Same.trans {a b c : Netmail} (h : a.Same b) (h' : b.Same c) : a.Same c := by
  have h1 : a.domain.map Char.toLower = b.domain.map Char.toLower := of_decide_eq_true h.2
  have h2 : b.domain.map Char.toLower = c.domain.map Char.toLower := of_decide_eq_true h'.2
  exact ⟨h.1.trans h'.1, decide_eq_true (h1.trans h2)⟩

theorem Same.refl (a : Netmail) : a.Same a := ⟨rfl, decide_eq_true rfl⟩

theorem Same.imitates {e m : Netmail} (h : e.Same m) : e.Imitates m := ⟨Or.inl h.1, Or.inl h.2⟩

end Netmail

/-- Every text is that of a stored message or has no `MSGID` line, every stored message has its text,
and of every message that has been looked at the same one is stored. -/
structure NetmailInv (s : NetmailState) : Prop where
  last : 0 ≤ s.mbox.lastText
  texts : ∀ k, 0 < k → k ≤ s.mbox.lastText → ∀ file ∈ s.mbox.texts k,
    NoMsgidLine file ∨ ∃ e ∈ s.stored, file = e.text k
  stored : ∀ e ∈ s.stored, ∃ k, 0 < k ∧ k ≤ s.mbox.lastText ∧ s.mbox.texts k = some (e.text k)
  plain : ∀ e ∈ s.stored, e.PlainDomain
  seen : ∀ e ∈ s.seen, ∃ d ∈ s.stored, d.Same e

/-- The scan reports the messages that a stored one imitates. -/
theorem NetmailInv.reported_iff {s : NetmailState} (h : NetmailInv s) (m : Netmail) :
    netmailAlreadyImported s.mbox m.domain m.msg.msgid = true ↔ ∃ e ∈ s.stored, e.Imitates m := by
  rw [netmailAlreadyImported_iff]
  constructor
  · rintro ⟨k, hpos, hle, file, hfile, hfound⟩
    rcases h.texts k hpos hle file hfile with hno | ⟨e, he, rfl⟩
    · have hline := ((textHasMsgid_iff file m.hasDomain m.msgid_line.2).mp hfound).1
      exact absurd (List.prefix_append _ _) (hno _ hline)
    · exact ⟨e, he, (e.textHasMsgid_text (h.plain e he) m k).mp hfound⟩
  · rintro ⟨e, he, him⟩
    obtain ⟨k, hpos, hle, htext⟩ := h.stored e he
    exact ⟨k, hpos, hle, _, htext, (e.textHasMsgid_text (h.plain e he) m k).mpr him⟩

theorem netmailStep_inv {s s' : NetmailState} {m : Netmail} (h : NetmailInv s)
    (hs : netmailStep s m = some s') (hnot : NotImitated s m) :
    NetmailInv s' ∧ ReportedExactly s m s' := by
  have hiff : netmailAlreadyImported s.mbox m.domain m.msg.msgid = true ↔
      ∃ e ∈ s.seen, e.Same m := by
    rw [h.reported_iff]
    constructor
    · rintro ⟨e, he, him⟩
      exact hnot.2 e he him
    · rintro ⟨e, he, hsame⟩
      obtain ⟨d, hd, hde⟩ := h.seen e he
      exact ⟨d, hd, (hde.trans hsame).imitates⟩
  unfold netmailStep at hs
  split at hs
  next hrep =>
    cases hs
    have hsame := hiff.mp hrep
    refine ⟨{ h with seen := ?_ }, hiff, ?_⟩
    · intro e he
      rcases List.mem_append.mp he with he | he
      · exact h.seen e he
      · obtain ⟨d, hd, hdm⟩ := hsame
        obtain ⟨d', hd', hdd⟩ := h.seen d hd
        rw [List.mem_singleton.mp he]
        exact ⟨d', hd', hdd.trans hdm⟩
    · rw [if_pos hsame]
  next hrep =>
    cases hs
    refine ⟨?_, hiff, ?_⟩
    · have hlast := h.last
      -- the texts that were there stay
      have hold : ∀ k, k ≤ s.mbox.lastText →
          (sendNetmail s.mbox m.msg m.domain m.localAddr m.now).texts k = s.mbox.texts k := by
        intro k hk
        exact Function.update_of_ne (by omega) _ _
      have hnew : (sendNetmail s.mbox m.msg m.domain m.localAddr m.now).texts (s.mbox.lastText + 1) =
          some (m.text (s.mbox.lastText + 1)) := Function.update_self _ _ _
      constructor
      · show 0 ≤ s.mbox.lastText + 1
        omega
      · intro k hpos hle file hfile
        have hle : k ≤ s.mbox.lastText + 1 := hle
        by_cases hk : k = s.mbox.lastText + 1
        · rw [hk, Option.mem_def, hnew, Option.some.injEq] at hfile
          exact Or.inr ⟨m, by simp, by rw [hk, hfile]⟩
        · rw [Option.mem_def, hold k (by omega)] at hfile
          rcases h.texts k hpos (by omega) file hfile with hno | ⟨e, he, htext⟩
          · exact Or.inl hno
          · exact Or.inr ⟨e, List.mem_append_left _ he, htext⟩
      · intro e he
        rcases List.mem_append.mp he with he | he
        · obtain ⟨k, hpos, hle, htext⟩ := h.stored e he
          have hle' : k ≤ s.mbox.lastText + 1 := by omega
          exact ⟨k, hpos, hle', (hold k hle).trans htext⟩
        · rw [List.mem_singleton.mp he]
          have hle : s.mbox.lastText + 1 ≤ s.mbox.lastText + 1 := Int.le_refl _
          exact ⟨s.mbox.lastText + 1, by omega, hle, hnew⟩
      · intro e he
        rcases List.mem_append.mp he with he | he
        · exact h.plain e he
        · rw [List.mem_singleton.mp he]
          exact hnot.1
      · intro e he
        rcases List.mem_append.mp he with he | he
        · obtain ⟨d, hd, hsame⟩ := h.seen e he
          exact ⟨d, List.mem_append_left _ hd, hsame⟩
        · rw [List.mem_singleton.mp he]
          exact ⟨m, by simp, Netmail.Same.refl m⟩
    · rw [if_neg (mt hiff.mpr hrep)]

/-- In every sequence of messages for a mailbox into which no netmail has been imported, each message
is reported as imported exactly when it has been looked at before, if none imitates another one. -/
theorem netmail_reported_exactly {mbox : FtnConf} (hmbox : NoNetmail mbox) (ms : List Netmail)
    (h : AllSteps netmailStep (fun s m _ => NotImitated s m) ⟨mbox, [], []⟩ ms) :
    AllSteps netmailStep ReportedExactly ⟨mbox, [], []⟩ ms := by
  apply AllSteps.imp (I := NetmailInv) (P := ReportedExactly)
    (fun _ _ _ hI hs hnot => netmailStep_inv hI hs hnot) _ h
  exact ⟨hmbox.1, fun k hpos hle file hfile => Or.inl (hmbox.2 k hpos hle file hfile), by simp,
    by simp, by simp⟩

def freshMailbox : FtnConf := ⟨0, fun _ => none⟩

/-- A message with nothing in its header but zeros. -/
def netmailSample (body msgid rawBody cleanBody : CString)
    (h : readFidoMsg (some (List.replicate 190 '\x00' ++ body)) =
      some ⟨[], [], [], [], [], msgid, [], [], [], rawBody, cleanBody⟩) (hne : msgid ≠ []) : Netmail where
  file := List.replicate 190 '\x00' ++ body
  msg := ⟨[], [], [], [], [], msgid, [], [], [], rawBody, cleanBody⟩
  parsed := h
  hasMsgid := hne
  domain := "fidonet".toList
  hasDomain := by decide
  shortDomain := by decide
  localAddr := []
  now := 0

def netmailOne : Netmail :=
  netmailSample "\x01MSGID: 1:2/3 1\rHej\r".toList "1:2/3 1".toList "\x01MSGID: 1:2/3 1\nHej\n".toList
    "Hej\n".toList (by decide +kernel) (by decide)

def netmailTwo : Netmail :=
  netmailSample "\x01MSGID: 1:2/3 2\rHej\r".toList "1:2/3 2".toList "\x01MSGID: 1:2/3 2\nHej\n".toList
    "Hej\n".toList (by decide +kernel) (by decide)

/-- A message that quotes a line of the second one. -/
def netmailQuoting : Netmail :=
  netmailSample "\x01MSGID: 1:2/3 1\rFTN-MSGID: 1:2/3 2\r".toList "1:2/3 1".toList
    "\x01MSGID: 1:2/3 1\nFTN-MSGID: 1:2/3 2\n".toList "FTN-MSGID: 1:2/3 2\n".toList
    (by decide +kernel) (by decide)

theorem netmail_reported_exactly_sample : AllSteps netmailStep ReportedExactly
    ⟨freshMailbox, [], []⟩ [netmailOne, netmailTwo, netmailOne] := by
  apply netmail_reported_exactly
  · refine ⟨Int.le_refl 0, fun k hpos hle => ?_⟩
    have hle : k ≤ 0 := hle
    omega
  · decide +kernel

/-- The second message is reported as imported and lost. -/
theorem netmail_not_reported_exactly : ¬ AllSteps netmailStep ReportedExactly
    ⟨freshMailbox, [], []⟩ [netmailQuoting, netmailTwo] := by
  have hscan : (netmailStep ⟨freshMailbox, [], []⟩ netmailQuoting).map (fun s =>
      (netmailAlreadyImported s.mbox netmailTwo.domain netmailTwo.msg.msgid,
        decide (∃ e ∈ s.seen, e.Same netmailTwo))) = some (true, false) := by
    decide +kernel
  rintro ⟨s, hs, -, s', -, hreported, -⟩
  rw [hs, Option.map_some, Option.some.injEq, Prod.mk.injEq] at hscan
  exact absurd (hreported.1.mp hscan.1) (of_decide_eq_false hscan.2)

end SklaffKom
