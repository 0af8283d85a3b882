import SklaffKom.FtnConfs
import SklaffKom.NetmailExport
import SklaffKom.FtnDate
import SklaffKom.FtnSignature

/-!
# Texts that leave

`export_one_ftn` writes a text of a conference as a message of its area, with the signature of its author.  A
text that was written here gets the `MSGID` made of its numbers, and a comment names the `MSGID` that the text
above it came with or was exported under.
-/

open CString

namespace SklaffKom

/-! ## The export -/

/-- A body with the signature behind an empty line. -/
def signBody (body : CString) : Option CString → CString
  | none => body
  | some sig => stripEol body ++ '\n' :: '\n' :: stripEol sig

def readSkomFtnMsgid (file : CString) : Option CString :=
  (fileLines 1024 file).findSome? fun line =>
    let line := stripEol line
    if "FTN-MSGID:".toList.isPrefixOf line then
      let p := (line.drop 10).dropWhile isSpace
      if p ≠ [] then some (strlcpy 256 p) else none
    else none

/-- What the export of conferences takes from its surroundings as well. -/
structure GateEnv extends FtntossEnv where
  sklaffDb : CString
  ftnconf : Int → Option CString
  sklaffrc : Int → Option CString

/-- The text of the message; `(int)uid` for the signature. -/
def exportBody (env : GateEnv) (t : ExportText) : CString :=
  if t.uid > 0 then
    signBody (sf7ToUtf8 t.body) ((loadUserSignature env.sklaffrc (t.uid.bmod (2 ^ 32))).map sf7ToUtf8)
  else sf7ToUtf8 t.body

/-- The `reply` of a text that comments on `com`. -/
def exportReply (aka : FtnAddress) (confnum : Int) (texts : Int → Option CString) (com : Int) : CString :=
  if com > 0 then ((texts com).bind readSkomFtnMsgid).getD (exportMsgid aka confnum com) else []

/-- `export_one_ftn_loaded`: the path and the contents of the file; `none` is -1. -/
def exportOneFtnLoaded (env : GateEnv) (ce : ConfEntry) (texts : Int → Option CString) (textnum : Int) :
    Option (CString × List Char) := do
  if ce.num ≤ 0 ∨ textnum ≤ 0 then none
  else if !confIsFtn ce.type then none
  else
    let meeting ← loadMeetingFtnconf (env.ftnconf ce.num)
    match loadEchomailArea env.load env.prefs env.sklaffDb ce.name ce.name ce.num meeting with
    | .error _ => none
    | .ok (area, feed) =>
      let t ← (texts textnum).bind readSkomExportText
      let (path, _) ← nextMsgPath area.path (env.readdir area.path)
      let file ← writeFidoMsgOut env.site env.clock area.aka feed.address
        (makeSkomFromName env.toFtntossEnv t.uid) "All".toList (sf7ToUtf8 t.subject) (exportBody env t)
        (exportReply area.aka ce.num texts t.com) (exportMsgid area.aka ce.num textnum)
      some (path, file)

def exportOneFtnConf (env : GateEnv) (conffile : Option CString) (texts : Int → Int → Option CString)
    (confnum textnum : Int) : Option (CString × List Char) := do
  if confnum ≤ 0 ∨ textnum ≤ 0 then none else
  let ce ← findFtnConfNum conffile confnum
  exportOneFtnLoaded env ce (texts ce.num) textnum

/-! ## A conference that is exported -/

/-- A conference as its exports show it. -/
structure SentConf where
  num : Int
  aka : FtnAddress
  /-- the text that a text comments on -/
  com : Int → Int
  /-- the `MSGID` that a text came with -/
  stored : Int → Option CString
  subject : Int → CString

/-- The `MSGID` that a text is exported under. -/
def SentConf.msgid (a : SentConf) (n : Int) : CString := exportMsgid a.aka a.num n

/-- The `MSGID` that comments on a text name. -/
def SentConf.idOf (a : SentConf) (n : Int) : CString := (a.stored n).getD (a.msgid n)

def SentConf.reply (a : SentConf) (n : Int) : CString := if a.com n > 0 then a.idOf (a.com n) else []

/-- The area of a conference, and a free name in its directory. -/
def SentConf.HasArea (a : SentConf) (env : GateEnv) (ce : ConfEntry) : Prop :=
  ∃ meeting area feed place, loadMeetingFtnconf (env.ftnconf ce.num) = some meeting ∧
    loadEchomailArea env.load env.prefs env.sklaffDb ce.name ce.name ce.num meeting = .ok (area, feed) ∧
    area.aka = a.aka ∧ nextMsgPath area.path (env.readdir area.path) = some place

/-- A text as it is stored, whose message has no line that is taken for anything else. -/
structure PlainExport (env : GateEnv) (t : ExportText) : Prop where
  body : PlainBody (exportBody env t)
  shown : ∀ l ∈ textLines (exportBody env t), shouldHideCleanLine l = false
  sender : OneLine (makeSkomFromName env.toFtntossEnv t.uid)
  subject : ArrivesField 72 t.subject

/-- A text of the conference can be exported. -/
structure Departs (a : SentConf) (env : GateEnv) (ce : ConfEntry) (texts : Int → Option CString) (n : Int)
    (t : ExportText) : Prop where
  num : ce.num = a.num ∧ 0 < a.num ∧ 0 < n
  type : confIsFtn ce.type = true
  area : a.HasArea env ce
  text : (texts n).bind readSkomExportText = some t
  com : t.com = a.com n
  subject : t.subject = a.subject n
  stored : 0 < a.com n → (texts (a.com n)).bind readSkomFtnMsgid = a.stored (a.com n)
  kept : ∀ id ∈ a.stored (a.com n), KludgeValue 256 id
  plain : PlainExport env t
  prints : Prints env.site env.clock a.aka

/-- A line that is written to a header. -/
def ShortLine (s : CString) : Prop := '\n' ∉ s ∧ s.length < 100

/-- What the message of a text carries. -/
structure Carries (a : SentConf) (n : Int) (msg : FidoMsg) : Prop where
  msgid : msg.msgid = a.msgid n
  reply : msg.reply = a.reply n
  subject : msg.subject = sf7ToUtf8 (a.subject n)
  header : ShortLine msg.fromName ∧ ShortLine msg.toName ∧ ShortLine msg.subject ∧ ShortLine msg.date

/-- The text of the message as it is shown. -/
def CarriesBody (env : GateEnv) (a : SentConf) (t : ExportText) (msg : FidoMsg) : Prop :=
  msg.cleanBody = '\n' :: (unlines (textLines (exportBody env t)) ++
    '\n' :: unlines ((originLines env.site a.aka).map stripPipeColors))

section Departs

variable {a : SentConf} {env : GateEnv} {ce : ConfEntry} {texts : Int → Option CString} {n : Int}
  {t : ExportText}

theorem SentConf.msgid_ne_nil (a : SentConf) (n : Int) : a.msgid n ≠ [] := by
  rw [SentConf.msgid, exportMsgid, makeFtnMsgidForAka_eq]
  simp

theorem Departs.kludge (h : Departs a env ce texts n t) : KludgeValue 256 (a.reply n) := by
  unfold SentConf.reply SentConf.idOf
  split
  · cases hstored : a.stored (a.com n) with
    | none => exact kludgeValue_msgid a.aka _
    | some id => exact h.kept id hstored
  · exact ⟨fun c hc => (List.not_mem_nil hc).elim, by simp, by decide⟩

theorem Departs.reply_eq (h : Departs a env ce texts n t) :
    exportReply a.aka ce.num texts t.com = a.reply n := by
  unfold exportReply SentConf.reply SentConf.idOf SentConf.msgid
  rw [h.com, h.num.1]
  by_cases hpos : a.com n > 0
  · rw [if_pos hpos, if_pos hpos, h.stored hpos]
  · rw [if_neg hpos, if_neg hpos]

theorem shortLine_fixed {size : Nat} (hsize : size < 100) {s : CString} (h : '\n' ∉ s) :
    ShortLine (trimEnd isSpace (fixedText size s)) := by
  have hsub : trimEnd isSpace (fixedText size s) ⊆ s := fun c hc =>
    List.mem_of_mem_take (( trimEnd_prefix isSpace (fixedText size s)).subset hc)
  have hlen : (fixedText size s).length ≤ size := by
    unfold fixedText
    rw [List.length_take]
    have hcut := cutBack_le s (size - 1)
    split <;> omega
  have htrim := ( trimEnd_prefix isSpace (fixedText size s)).length_le
  exact ⟨fun hc => h (hsub hc), by omega⟩

theorem ArrivesField.kept {size : Nat} {s : CString} (h : ArrivesField size s) :
    trimEnd isSpace (fixedText size (sf7ToUtf8 s)) = sf7ToUtf8 s := by
  have hwhole : fixedText size (sf7ToUtf8 s) = sf7ToUtf8 s := by
    unfold fixedText
    rw [if_pos h.fits, List.take_length]
  rw [hwhole, trimEnd_eq_self (getLast?_sf7ToUtf8 h.trimmed)]

/-- A subject is a line. -/
theorem readSkomExportText_subject {file : CString} (h : readSkomExportText file = some t) :
    '\n' ∉ t.subject := by
  unfold readSkomExportText at h
  split at h
  · cases h
  · rename_i p hp
    split at h
    · cases h
    · cases h
      intro hc
      have hmem := List.mem_of_mem_take hc
      split at hmem
      · revert hmem
        decide
      · have hline := ( trimEnd_prefix isEol _).subset hmem
        simpa using List.mem_takeWhile_imp hline

theorem newline_notMem_sf7ToUtf8 {s : CString} (h : '\n' ∉ s) : '\n' ∉ sf7ToUtf8 s := by
  intro hc
  rcases mem_sf7ToUtf8 hc with hc | ⟨c, -, hc⟩ | ⟨hc, -⟩
  · cases hc
  · cases (sf7Second_bytes hc).2.2.1
  · exact h hc

theorem Departs.newline (h : Departs a env ce texts n t) : '\n' ∉ sf7ToUtf8 t.subject := by
  obtain ⟨file, -, hread⟩ := Option.bind_eq_some_iff.mp h.text
  exact newline_notMem_sf7ToUtf8 (readSkomExportText_subject hread)

/-- Neither the text nor the signature has a letter of the stored character set left. -/
theorem bar_notMem_exportBody (env : GateEnv) (t : ExportText) : '|' ∉ exportBody env t := by
  have hbar := bar_notMem_sf7ToUtf8
  have hstrip {s : CString} (h : '|' ∉ s) : '|' ∉ stripEol s := fun hc => h (( trimEnd_prefix isEol s).subset hc)
  unfold exportBody
  split
  · cases loadUserSignature env.sklaffrc (t.uid.bmod (2 ^ 32)) with
    | none => exact hbar _
    | some sig =>
      intro hc
      rcases List.mem_append.mp hc with hc | hc
      · exact hstrip (hbar _) hc
      · simp only [List.mem_cons] at hc
        rcases hc with hc | hc | hc
        · cases hc
        · cases hc
        · exact hstrip (hbar sig) hc
  · exact hbar _

theorem exportBody_shown (h : PlainExport env t) (clock : Clock) (msgid reply : CString) :
    unlines (((commonKludges clock msgid reply ++ textLines (exportBody env t) ++
      [] :: originLines env.site a.aka).filter fun l => !shouldHideCleanLine l).map stripPipeColors) =
      '\n' :: (unlines (textLines (exportBody env t)) ++
        '\n' :: unlines ((originLines env.site a.aka).map stripPipeColors)) := by
  have hlines : (textLines (exportBody env t)).filter (fun l => !shouldHideCleanLine l) =
      textLines (exportBody env t) := by
    rw [List.filter_eq_self]
    intro l hl
    rw [h.shown l hl]
    rfl
  have hstrip : (textLines (exportBody env t)).map stripPipeColors = textLines (exportBody env t) := by
    calc (textLines (exportBody env t)).map stripPipeColors
        = (textLines (exportBody env t)).map id := by
          apply List.map_congr_left
          intro l hl
          apply stripPipeColors_eq_self
          intro hc
          rcases List.mem_append.mp (mem_of_mem_splitLines hl hc) with hc | hc
          · exact bar_notMem_exportBody env t hc
          · cases List.mem_singleton.mp hc
      _ = textLines (exportBody env t) := List.map_id _
  have hends : ([] :: originLines env.site a.aka).filter (fun l => !shouldHideCleanLine l) =
      [] :: originLines env.site a.aka := rfl
  rw [List.filter_append, List.filter_append, filter_commonKludges, hlines, hends, List.map_append,
    List.map_append, hstrip]
  show unlines ([[]] ++ textLines _ ++ ([] :: _)) = _
  rw [List.append_assoc, unlines_append, unlines_append]
  simp [unlines]

/-- A text that is exported is a message that the other system reads. -/
theorem Departs.arrives (h : Departs a env ce texts n t) : ∃ path data msg,
    exportOneFtnLoaded env ce texts n = some (path, data) ∧ readFidoMsg (some data) = some msg ∧
      Carries a n msg ∧ CarriesBody env a t msg := by
  obtain ⟨meeting, area, feed, ⟨path, msgnum⟩, hmeeting, harea, haka, hpath⟩ := h.area
  obtain ⟨hnum, hpos, hn⟩ := h.num
  obtain ⟨data, hdata, hread⟩ := @readFidoMsg_echomail env.site env.clock a.aka feed.address
    (makeSkomFromName env.toFtntossEnv t.uid) "All".toList (sf7ToUtf8 t.subject) (exportBody env t) (a.reply n)
    (a.msgid n) h.prints h.plain.body (kludgeValue_msgid a.aka _) h.kludge (fun hc => (h.plain.sender _ hc).2 rfl)
    (by decide) (nul_notMem_sf7ToUtf8 h.plain.subject.noNul) (a.msgid_ne_nil n)
  refine ⟨path, data, _, ?_, hread, ?_, ?_⟩
  · unfold exportOneFtnLoaded
    rw [if_neg (by omega), h.type, if_neg (by decide), hmeeting]
    simp only [Option.bind_eq_bind, Option.bind_some]
    rw [harea]
    dsimp only
    rw [h.text]
    simp only [Option.bind_some]
    rw [hpath]
    simp only [Option.bind_some]
    rw [haka, h.reply_eq]
    rw [hnum, show exportMsgid a.aka a.num n = a.msgid n from rfl, hdata]
    rfl
  · refine ⟨rfl, rfl, ?_, ?_, ?_, ?_, ?_⟩
    · exact h.plain.subject.kept.trans (by rw [h.subject])
    · exact shortLine_fixed (by decide) fun hc => by simpa [isEol] using (h.plain.sender _ hc).1
    · exact shortLine_fixed (by decide) (by decide)
    · exact shortLine_fixed (by decide) h.newline
    · exact shortLine_fixed (by decide) (notMem_makeFidoDate rfl (by decide) rfl _)
  · exact exportBody_shown h.plain _ _ _

end Departs

end SklaffKom
