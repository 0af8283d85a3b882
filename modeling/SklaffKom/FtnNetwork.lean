import SklaffKom.FtnRecords
import SklaffKom.FtnThreads
import SklaffKom.Lib.Copies

/-!
# A conference on many systems

Systems with a conference for the same area post texts, export them and import what the others have sent.  The
messages between them may be lost, repeated or come in any order.  Whatever happens, no text is stored twice,
and what a text comments on is the same everywhere.
-/

open CString Sweeps

namespace SklaffKom

/-! ## The systems -/

/-- A system as the others see it: the number of its conference and its address in the area. -/
structure FtnSystem where
  num : Int
  aka : FtnAddress

/-- The `MSGID` that a system knows a text under. -/
def FtnSystem.msgidOf (sys : FtnSystem) (conf : FtnConf) (k : Int) : Option CString :=
  scanText sys.num sys.aka k (conf.texts k)

/-- What `read_skom_export_text` gets of a text. -/
def FtnConf.text (conf : FtnConf) (k : Int) : Option ExportText := (conf.texts k).bind readSkomExportText

/-- The text that a text comments on. -/
def FtnConf.com (conf : FtnConf) (k : Int) : Int := ((conf.text k).map (·.com)).getD 0

/-- The conference as its exports show it. -/
def FtnSystem.sent (sys : FtnSystem) (conf : FtnConf) : SentConf where
  num := sys.num
  aka := sys.aka
  com := conf.com
  stored := fun k => (conf.texts k).bind readSkomFtnMsgid
  subject := fun k => ((conf.text k).map (·.subject)).getD []

/-- `save_text`, and for a comment the line that `cmd_comment` adds to the text above. -/
def FtnConf.post (conf : FtnConf) (th : TextHeader) (inbuf : CString) : FtnConf :=
  let n := conf.lastText + 1
  let texts := Function.update conf.texts n (some (textBytes n th inbuf))
  { lastText := n
    texts :=
      if th.commentNum = 0 then texts
      else Function.update texts th.commentNum (some ((texts th.commentNum).getD [] ++
        linkLine ⟨n, th.author⟩)) }

/-- A text of a user, a new one or a comment on a text of the conference, without anything that is taken for a
`MSGID`. -/
structure PlainPost (conf : FtnConf) (th : TextHeader) (inbuf : CString) : Prop where
  author : 0 < th.author
  type : th.type = typeText
  com : 0 ≤ th.commentNum ∧ th.commentNum ≤ conf.lastText
  here : th.commentConf = 0
  lines : WholeLines inbuf
  scanned : firstMsgid (th.subject ++ '\n' :: inbuf) = none
  exported : readSkomFtnMsgid (th.subject ++ '\n' :: inbuf) = none

/-- A text that was written on the system. -/
structure Written (conf : FtnConf) (k : Int) : Prop where
  range : 0 < k ∧ k ≤ conf.lastText
  regenerated : Regenerated conf k

/-- The conferences, and the messages that have been sent. -/
structure Network (ι : Type*) where
  confs : ι → FtnConf
  wire : Set FidoMsg

/-- One of the conferences changes. -/
def Network.put {ι : Type*} [DecidableEq ι] (net : Network ι) (x : ι) (conf : FtnConf) : Network ι :=
  { net with confs := Function.update net.confs x conf }

/-- What can happen: a text is posted; or a text that was written on its system is sent, with a subject that
is not taken for a `MSGID`; or a system imports messages, of which its spool may hold any, in any order and
more than once. -/
inductive Network.Step {ι : Type*} [DecidableEq ι] (sys : ι → FtnSystem) (net : Network ι) : Network ι → Prop
  | post (x : ι) (th : TextHeader) (inbuf : CString) : PlainPost (net.confs x) th inbuf →
      Step sys net (net.put x ((net.confs x).post th inbuf))
  | send (x : ι) (n : Int) (msg : FidoMsg) : Written (net.confs x) n →
      Exported ((sys x).sent (net.confs x)) n msg → msgidLineValue msg.subject = none →
      Step sys net { net with wire := insert msg net.wire }
  | toss (x : ι) (env : FtnEnv) (items : List MsgItem) (k : Nat) (s : ImportState) : ShortLine env.area →
      (∀ m ∈ items, m.msg ∈ net.wire) →
      importLoop env false items k
        (.start (scanExistingSklMsgids (sys x).num (sys x).aka (net.confs x)) (net.confs x)) = some s →
      Step sys net (net.put x s.conf)

def Network.start (ι : Type*) : Network ι := ⟨fun _ => ⟨0, fun _ => none⟩, ∅⟩

/-! ## The lines of an imported text -/

/-- A line that is not taken for one with a `MSGID`. -/
theorem msgidLineValue_newline {l : CString} (h : msgidLineValue l = none) :
    msgidLineValue (l ++ ['\n']) = none := by
  unfold msgidLineValue at h ⊢
  have hbegins {p : CString} (hp : '\n' ∉ p) : p.isPrefixOf (l ++ ['\n']) = true → p.isPrefixOf l = true := by
    rw [List.isPrefixOf_iff_prefix, List.isPrefixOf_iff_prefix, List.prefix_concat_iff]
    rintro (rfl | hpl)
    · simp at hp
    · exact hpl
  split at h
  · cases h
  next h1 =>
  split at h
  · cases h
  next h2 =>
  split at h
  · cases h
  next h3 =>
  rw [if_neg fun hp => h1 (hbegins (by decide) hp), if_neg fun hp => h2 (hbegins (by decide) hp),
    if_neg fun hp => h3 (hbegins (by decide) hp)]

/-- The name of a header line that does not begin like a `MSGID` line. -/
theorem msgidLineValue_named {name : CString}
    (h : ["\x01MSGID:".toList, "^AMSGID:".toList, "FTN-MSGID:".toList].all
    (fun p => !p.isPrefixOf name && !name.isPrefixOf p) = true) (l : CString) :
    msgidLineValue (name ++ l) = none := by
  have hno : ∀ p ∈ ["\x01MSGID:".toList, "^AMSGID:".toList, "FTN-MSGID:".toList],
      ¬ p.isPrefixOf (name ++ l) = true := by
    intro p hp hpre
    have hboth := List.all_eq_true.mp h p hp
    rw [List.isPrefixOf_iff_prefix] at hpre
    rcases List.prefix_or_prefix_of_prefix hpre (List.prefix_append name l) with hpn | hnp
    · simp [List.isPrefixOf_iff_prefix.mpr hpn] at hboth
    · simp [List.isPrefixOf_iff_prefix.mpr hnp] at hboth
  unfold msgidLineValue
  rw [if_neg (hno _ List.mem_cons_self), if_neg (hno _ (List.mem_cons_of_mem _ List.mem_cons_self)),
    if_neg (hno _ (List.mem_cons_of_mem _ (List.mem_cons_of_mem _ List.mem_cons_self)))]

/-- Both readers of a text go on after such a line. -/
theorem msgid_skip (name : CString) {l : CString} (hl : ShortLine l) (hname : '\n' ∉ name ∧ name.length < 20)
    (hvalue : msgidLineValue (name ++ l) = none) (rest : CString) :
    firstMsgid (name ++ l ++ '\n' :: rest) = firstMsgid rest ∧
      readSkomFtnMsgid (name ++ l ++ '\n' :: rest) = readSkomFtnMsgid rest := by
  have hnl : '\n' ∉ name ++ l := by
    rw [List.mem_append, not_or]
    exact ⟨hname.1, hl.1⟩
  have hlen : (name ++ l).length < 120 := by
    have h1 := hl.2
    have h2 := hname.2
    rw [List.length_append]
    omega
  have hline := msgidLineValue_newline hvalue
  constructor
  · unfold firstMsgid
    rw [fileLines_line hnl (by unfold longLine; omega), List.findSome?_cons_of_isNone]
    unfold extractFtnMsgidFromLine
    rw [hline]
    rfl
  · have hno : "FTN-MSGID:".toList.isPrefixOf (stripEol (name ++ l ++ ['\n'])) = false := by
      rw [Bool.eq_false_iff]
      intro hp
      have hprefix := (List.isPrefixOf_iff_prefix.mp hp).trans ( trimEnd_prefix isEol (name ++ l ++ ['\n']))
      unfold msgidLineValue at hline
      split at hline
      · cases hline
      split at hline
      · cases hline
      rw [if_pos (List.isPrefixOf_iff_prefix.mpr hprefix)] at hline
      cases hline
    unfold readSkomFtnMsgid
    rw [fileLines_line hnl (by omega), List.findSome?_cons_of_isNone]
    dsimp only
    rw [hno]
    rfl

theorem readSkomFtnMsgid_append {a : CString} (ha : WholeLines a) (b : CString) :
    readSkomFtnMsgid (a ++ b) = (readSkomFtnMsgid a).or (readSkomFtnMsgid b) := by
  unfold readSkomFtnMsgid
  rw [fileLines_append (by decide) ha, List.findSome?_append]

theorem readSkomFtnMsgid_numbers {a : CString} (ha : ∀ c ∈ a, IsNumberChar c) : readSkomFtnMsgid a = none := by
  unfold readSkomFtnMsgid
  rw [List.findSome?_eq_none_iff]
  intro l hl
  dsimp only
  split
  · next hp =>
    have hmem : 'F' ∈ l :=
      ( trimEnd_prefix isEol l).subset ((List.isPrefixOf_iff_prefix.mp hp).subset (by decide))
    rcases ha 'F' (subset_of_mem_fileLines (by decide) hl hmem) with h | h | h | h <;> cases h
  · rfl

/-- The lines for comments are not taken for a `MSGID`. -/
theorem msgid_numbers {a b : CString} (ha : WholeLines a) (hb : ∀ c ∈ b, IsNumberChar c) :
    firstMsgid (a ++ b) = firstMsgid a ∧ readSkomFtnMsgid (a ++ b) = readSkomFtnMsgid a := by
  rw [firstMsgid_append ha, readSkomFtnMsgid_append ha, firstMsgid_numbers hb, readSkomFtnMsgid_numbers hb,
    Option.or_none, Option.or_none]
  exact ⟨rfl, rfl⟩

/-- The characters of a `MSGID` that is made here. -/
theorem isSpace_msgid {aka : FtnAddress} {num n : Int} :
    (∀ c ∈ exportMsgid aka num n, c = ' ' ∨ isSpace c = false) ∧ (exportMsgid aka num n).length < 100 := by
  have haddr : (makeFtnAddr aka).length ≤ 63 := List.length_take_le _ _
  have hhex := length_hex8 (Nat.mod_lt (makeExportOneSerial num n) (show 0 < 2 ^ 32 by decide))
  rw [exportMsgid, makeFtnMsgidForAka_eq, List.length_append, List.length_append, List.length_singleton, hhex]
  refine ⟨?_, by omega⟩
  intro c hc
  rcases List.mem_append.mp hc with hc | hc
  · rcases List.mem_append.mp hc with hc | hc
    · exact Or.inr (isSpace_makeFtnAddr hc)
    · exact Or.inl (List.mem_singleton.mp hc)
  · exact Or.inr (isSpace_hex8 hc)

theorem isSpace_msgid_head {aka : FtnAddress} {num n : Int} :
    ∀ c ∈ (exportMsgid aka num n).head?, isSpace c = false := by
  intro c hc
  refine (isSpace_msgid.1 c (List.mem_of_mem_head? hc)).resolve_left ?_
  rintro rfl
  cases (kludgeValue_msgid aka (makeExportOneSerial num n)).head ' ' hc

/-- Both readers find such a `MSGID` on its line. -/
theorem msgid_found (aka : FtnAddress) (num n : Int) (rest : CString) :
    firstMsgid (msgidHeader ++ exportMsgid aka num n ++ '\n' :: rest) = some (exportMsgid aka num n) ∧
      readSkomFtnMsgid (msgidHeader ++ exportMsgid aka num n ++ '\n' :: rest) =
        some (exportMsgid aka num n) := by
  have hkludge := kludgeValue_msgid aka (makeExportOneSerial num n)
  have hlen := (@isSpace_msgid aka num n).2
  have hne : exportMsgid aka num n ≠ [] :=
    (⟨num, aka, id, fun _ => none, fun _ => []⟩ : SentConf).msgid_ne_nil n
  have hchars : ∀ c ∈ exportMsgid aka num n, isEol c = false := fun c hc => (hkludge.chars c hc).1
  have hheader : msgidHeader.length = 11 := by decide
  refine ⟨(firstMsgid_msgidLine hne hchars rest).mpr ⟨by omega, isSpace_msgid_head⟩, ?_⟩
  have hline : ∀ c ∈ msgidHeader ++ exportMsgid aka num n, isEol c = false := by
    intro c hc
    rcases List.mem_append.mp hc with hc | hc
    · have hall : msgidHeader.all (fun c => !isEol c) = true := rfl
      simpa using List.all_eq_true.mp hall c hc
    · exact hchars c hc
  have hnl : '\n' ∉ msgidHeader ++ exportMsgid aka num n := fun hc => by simpa [isEol] using hline _ hc
  have hprefix : "FTN-MSGID:".toList.isPrefixOf (msgidHeader ++ exportMsgid aka num n) = true := by
    rw [List.isPrefixOf_iff_prefix]
    exact (show "FTN-MSGID:".toList <+: msgidHeader from ⟨[' '], by decide⟩).trans (List.prefix_append _ _)
  have hvalue : ((msgidHeader ++ exportMsgid aka num n).drop 10).dropWhile isSpace = exportMsgid aka num n := by
    have hcut : (msgidHeader ++ exportMsgid aka num n).drop 10 = ' ' :: exportMsgid aka num n := rfl
    rw [hcut, List.dropWhile_cons_of_pos (by decide)]
    obtain ⟨c, t, hct⟩ := List.exists_cons_of_ne_nil hne
    have hhead := @isSpace_msgid_head aka num n
    rw [hct] at hhead ⊢
    exact List.dropWhile_cons_of_neg (by simp [hhead c rfl])
  unfold readSkomFtnMsgid
  rw [fileLines_line hnl (by rw [List.length_append]; omega), List.findSome?_cons]
  dsimp only
  rw [stripEol_line hline, if_pos hprefix, hvalue, if_pos hne, strlcpy, List.take_of_length_le (by omega)]

/-- The lines in front of the `MSGID` of an imported text. -/
theorem msgid_imported {env : FtnEnv} {i : Imported} {aka : FtnAddress} {num n : Int}
    (hid : i.item.msg.msgid = exportMsgid aka num n) (harea : ShortLine env.area)
    (hheader : ShortLine i.item.msg.fromName ∧ ShortLine i.item.msg.toName ∧ ShortLine i.item.msg.subject ∧
      ShortLine i.item.msg.date) (hsubject : msgidLineValue i.item.msg.subject = none) :
    firstMsgid (importedFile env i) = some i.item.msg.msgid ∧
      readSkomFtnMsgid (importedFile env i) = some i.item.msg.msgid := by
  have hne : i.item.msg.msgid ≠ [] := by
    rw [hid]
    exact (⟨num, aka, id, fun _ => none, fun _ => []⟩ : SentConf).msgid_ne_nil n
  have hnumbers : ∀ c ∈ importedMeta env i, IsNumberChar c := fun c hc => isNumberChar_importedMeta hc
  have hfile : importedFile env i = importedMeta env i ++ ([] ++ i.item.msg.subject ++ '\n' ::
      ("From: ".toList ++ i.item.msg.fromName ++ '\n' :: ("To: ".toList ++ i.item.msg.toName ++ '\n' ::
        ("Subject: ".toList ++ i.item.msg.subject ++ '\n' :: ("Date: ".toList ++ i.item.msg.date ++ '\n' ::
          ("FTN-Area: ".toList ++ env.area ++ '\n' :: (msgidHeader ++ i.item.msg.msgid ++
            '\n' :: importedRest i.item.msg i.reason))))))) := by
    refine (importedFile_eq env hne).trans ?_
    unfold ftnHeaderHead
    generalize "From: ".toList = sender, "To: ".toList = recipient, "Subject: ".toList = subject,
      "Date: ".toList = date,
      "FTN-Area: ".toList = area
    simp only [List.append_assoc, List.cons_append, List.nil_append]
  obtain ⟨hfrom, hto, hsubj, hdate⟩ := hheader
  have h0 := msgid_skip [] hsubj (by decide) hsubject
  have h1 := msgid_skip "From: ".toList hfrom (by decide) (msgidLineValue_named rfl _)
  have h2 := msgid_skip "To: ".toList hto (by decide) (msgidLineValue_named rfl _)
  have h3 := msgid_skip "Subject: ".toList hsubj (by decide) (msgidLineValue_named rfl _)
  have h4 := msgid_skip "Date: ".toList hdate (by decide) (msgidLineValue_named rfl _)
  have h5 := msgid_skip "FTN-Area: ".toList harea (by decide) (msgidLineValue_named rfl _)
  rw [hfile, firstMsgid_append (wholeLines_importedMeta env i),
    readSkomFtnMsgid_append (wholeLines_importedMeta env i),
    firstMsgid_numbers hnumbers, readSkomFtnMsgid_numbers hnumbers, Option.none_or, Option.none_or, (h0 _).1,
    (h0 _).2, (h1 _).1, (h1 _).2, (h2 _).1, (h2 _).2, (h3 _).1, (h3 _).2, (h4 _).1, (h4 _).2, (h5 _).1,
    (h5 _).2, hid]
  exact msgid_found aka num n _

/-! ## The first line of a text -/

/-- The author of a text and what it comments on. -/
def exportHead (file : CString) : Option (Int × Int) := (readSkomExportText file).map fun t => (t.uid, t.com)

theorem exportHead_line {x : CString} (hx : '\n' ∉ x) (rest : CString) : exportHead (x ++ '\n' :: rest) =
    (scanTextHeader (stripEol x)).map fun h => (h.2.1, h.2.2.2) := by
  unfold exportHead readSkomExportText
  rw [strchr_append hx]
  dsimp only
  rw [List.length_append, Nat.add_sub_cancel, List.take_left]
  cases scanTextHeader (stripEol x) <;> rfl

/-- What is added to a text does not change its first line. -/
theorem exportHead_append {a : CString} (ha : '\n' ∈ a) (b : CString) : exportHead (a ++ b) = exportHead a := by
  obtain ⟨x, rest, rfl, hx⟩ := List.eq_append_cons_of_mem ha
  rw [List.append_assoc, List.cons_append, exportHead_line hx, exportHead_line hx]

/-- The first line as both programs write it. -/
theorem exportHead_fields (n uid time com : Int) (a : CString) (hline : '\n' ∉ a) (last : Int)
    (rest : CString) :
    exportHead (field n ++ (field uid ++ (field time ++ (field com ++ (a ++ decimal last)))) ++ '\n' :: rest) =
      some (uid, com) := by
  have hfield : ∀ k, '\n' ∉ field k := fun _ => notMem_field
  have hlast : '\n' ∉ decimal last := notMem_decimal rfl (by decide)
  have hstrip := stripEol_decimal (field n ++ (field uid ++ (field time ++ (field com ++ a)))) last
  simp only [List.append_assoc] at hstrip
  rw [exportHead_line (by simp [hfield, hlast, hline]), hstrip, scanTextHeader_fields]
  rfl

theorem exportHead_textBytes (n : Int) (th : TextHeader) (htype : th.type = typeText) (inbuf : CString) :
    exportHead (textBytes n th inbuf) = some (th.author, th.commentNum) := by
  have hfield : ∀ k, '\n' ∉ field k := fun _ => notMem_field
  have hhead := exportHead_fields n th.author th.time th.commentNum
    (field th.commentConf ++ (field th.commentAuthor ++ field th.size)) (by simp [hfield]) th.type
    (th.subject ++ ['\n'] ++ inbuf)
  unfold textBytes headerLine
  rw [if_pos htype, List.append_nil]
  simp only [List.append_assoc, List.cons_append, List.nil_append] at hhead ⊢
  exact hhead

theorem exportHead_imported (env : FtnEnv) {i : Imported} (hne : i.item.msg.msgid ≠ []) :
    exportHead (importedFile env i) = some (0, i.com) := by
  have hfield : ∀ k, '\n' ∉ field k := fun _ => notMem_field
  rw [importedFile_eq env hne]
  generalize i.item.msg.subject ++ ['\n'] ++ ftnHeaderHead env.area i.item.msg ++
    (msgidHeader ++ i.item.msg.msgid ++
    '\n' :: importedRest i.item.msg i.reason) = rest
  have hhead := exportHead_fields i.textnum 0 (ftnTextTime env i.item.msg) i.com (field 0 ++ field 0)
    (by simp [hfield]) (countBodyLines (buildFtnMbuf env.area i.item.msg i.reason)) rest
  unfold importedMeta
  simp only [List.append_assoc, List.cons_append, List.nil_append] at hhead ⊢
  exact hhead

/-! ## The logs -/

/-- The number of the text that an entry answers. -/
def parentNumber (e : Copies.Entry CString) : Int := e.parent.elim 0 fun j => (j : Int) + 1

/-- A text shows an entry: it was written here under the number, or has a `MSGID` from elsewhere. -/
inductive ShowsEntry (sys : FtnSystem) (n : Int) (file : CString) (e : Copies.Entry CString) : Prop
  | written {uid : Int} : e.own = true → 0 < uid → exportHead file = some (uid, parentNumber e) →
      firstMsgid file = none → readSkomFtnMsgid file = none → e.id = exportMsgid sys.aka sys.num n →
      ShowsEntry sys n file e
  | copied : e.own = false → exportHead file = some (0, parentNumber e) → firstMsgid file = some e.id →
      readSkomFtnMsgid file = some e.id → ShowsEntry sys n file e

/-- A conference holds the entries of a log, each as the text after the number of its place. -/
structure Holds (sys : FtnSystem) (conf : FtnConf) (log : List (Copies.Entry CString)) : Prop where
  lastText : conf.lastText = log.length
  ordered : Copies.Ordered log
  texts : ∀ (k : Nat) e, log[k]? = some e →
    ∃ file, conf.texts (k + 1) = some file ∧ WholeLines file ∧ '\n' ∈ file ∧
    ShowsEntry sys (k + 1) file e

section Holds

variable {sys : FtnSystem} {conf : FtnConf} {log : List (Copies.Entry CString)} {e : Copies.Entry CString}

theorem ShowsEntry.head {n : Int} {file : CString} (h : ShowsEntry sys n file e) :
    ∃ t, readSkomExportText file = some t ∧ t.com = parentNumber e := by
  have hhead : ∃ uid, exportHead file = some (uid, parentNumber e) := by
    cases h with
    | written _ _ hhead => exact ⟨_, hhead⟩
    | copied _ hhead => exact ⟨_, hhead⟩
  obtain ⟨uid, hhead⟩ := hhead
  obtain ⟨t, ht, heq⟩ := Option.map_eq_some_iff.mp hhead
  exact ⟨t, ht, (Prod.mk.inj heq).2⟩

theorem ShowsEntry.scanText {n : Int} {file : CString} (h : ShowsEntry sys n file e) :
    scanText sys.num sys.aka n (some file) = some e.id := by
  unfold SklaffKom.scanText
  rw [Option.bind_eq_bind, Option.bind_some]
  cases h with
  | written _ huid hhead hfirst _ hid =>
    obtain ⟨t, ht, heq⟩ := Option.map_eq_some_iff.mp hhead
    obtain ⟨hu, -⟩ := Prod.mk.inj heq
    rw [hfirst]
    dsimp only
    rw [ht, Option.bind_eq_bind, Option.bind_some, if_pos (hu ▸ huid), hid]
    rfl
  | copied _ _ hfirst => rw [hfirst]

theorem ShowsEntry.append {n : Int} {file links : CString} (h : ShowsEntry sys n file e)
    (hlines : WholeLines file)
    (hnl : '\n' ∈ file) (hlinks : ∀ c ∈ links, IsNumberChar c) : ShowsEntry sys n (file ++ links) e := by
  obtain ⟨hfirst, hstored⟩ := msgid_numbers hlines hlinks
  have hhead := exportHead_append hnl links
  cases h with
  | written hown huid h1 h2 h3 hid =>
    exact .written hown huid (hhead.trans h1) (hfirst.trans h2) (hstored.trans h3) hid
  | copied hown h1 h2 h3 => exact .copied hown (hhead.trans h1) (hfirst.trans h2) (hstored.trans h3)

theorem ShowsEntry.idOf {n : Int} {file : CString} (h : ShowsEntry sys n file e) :
    (readSkomFtnMsgid file).getD (exportMsgid sys.aka sys.num n) = e.id := by
  cases h with
  | written _ _ _ _ hstored hid => rw [hstored, Option.getD_none, hid]
  | copied _ _ _ hstored => rw [hstored, Option.getD_some]

theorem Holds.msgidOf (h : Holds sys conf log) {k : Nat} (hk : log[k]? = some e) :
    sys.msgidOf conf (k + 1) = some e.id := by
  obtain ⟨file, hfile, -, -, hshows⟩ := h.texts k e hk
  unfold FtnSystem.msgidOf
  rw [hfile]
  exact hshows.scanText

theorem Holds.com (h : Holds sys conf log) {k : Nat} (hk : log[k]? = some e) :
    conf.com (k + 1) = parentNumber e := by
  obtain ⟨file, hfile, -, -, hshows⟩ := h.texts k e hk
  obtain ⟨t, ht, hcom⟩ := hshows.head
  unfold FtnConf.com FtnConf.text
  rw [hfile, Option.bind_some, ht, Option.map_some, Option.getD_some, hcom]

/-- A text of the conference is the entry of its place. -/
theorem Holds.entry (h : Holds sys conf log) {n : Int} (hn : 0 < n ∧ n ≤ conf.lastText) :
    ∃ (k : Nat) (e : Copies.Entry CString), n = k + 1 ∧ log[k]? = some e := by
  have hlast := h.lastText
  obtain ⟨k, hk⟩ : ∃ k : Nat, n = k + 1 := ⟨(n - 1).toNat, by omega⟩
  exact ⟨k, _, hk, List.getElem?_eq_getElem (by omega)⟩

/-- A conference after one more text, to which comments may have been linked. -/
theorem Holds.add (h : Holds sys conf log) {conf' : FtnConf}
    (hlast : conf'.lastText = conf.lastText + 1)
    (hold : ∀ n, 0 < n → n ≤ conf.lastText →
      ∃ links, WholeLines links ∧ (∀ c ∈ links, IsNumberChar c) ∧
        ∀ file, conf.texts n = some file → conf'.texts n = some (file ++ links))
    {file : CString} (hnew : conf'.texts (conf.lastText + 1) = some file) (hlines : WholeLines file)
    (hnl : '\n' ∈ file) (hshows : ShowsEntry sys (conf.lastText + 1) file e)
    (hparent : ∀ j ∈ e.parent, j < log.length) : Holds sys conf' (log ++ [e]) := by
  have hlen := h.lastText
  refine ⟨by rw [hlast, hlen, List.length_append, List.length_singleton]; push_cast; rfl,
    h.ordered.snoc hparent, ?_⟩
  intro k a hk
  rw [List.getElem?_append] at hk
  split at hk
  · next hlt =>
    obtain ⟨old, hfile, holdLines, holdnl, holdShows⟩ := h.texts k a hk
    obtain ⟨links, hlinkLines, hlinks, htext⟩ := hold (k + 1) (by omega) (by omega)
    exact ⟨old ++ links, htext old hfile, holdLines.append hlinkLines, List.mem_append_left _ holdnl,
      holdShows.append holdLines holdnl hlinks⟩
  · next hge =>
    have hmem := List.mem_of_getElem? hk
    rw [List.mem_singleton] at hmem
    have hk0 := (List.getElem?_eq_some_iff.mp hk).1
    rw [List.length_singleton] at hk0
    have hnum : (k : Int) + 1 = conf.lastText + 1 := by omega
    rw [hnum, hmem]
    exact ⟨file, hnew, hlines, hnl, hshows⟩

/-- A post is one more entry. -/
theorem Holds.post (h : Holds sys conf log) {th : TextHeader} {inbuf : CString} (hp : PlainPost conf th inbuf) :
    ∃ parent : Option Nat, (∀ j ∈ parent, j < log.length) ∧ Holds sys (conf.post th inbuf)
      (log ++ [⟨exportMsgid sys.aka sys.num (log.length + 1), parent, true⟩]) := by
  have hlast := h.lastText
  have hcom := hp.com
  set parent : Option Nat := if th.commentNum = 0 then none else some (th.commentNum - 1).toNat with hparent
  have hnumber : ∀ id, parentNumber ⟨id, parent, true⟩ = th.commentNum := by
    intro id
    unfold parentNumber
    rw [hparent]
    split
    · next h0 => exact h0.symm
    · show ((th.commentNum - 1).toNat : Int) + 1 = _
      omega
  have hlt : ∀ j ∈ parent, j < log.length := by
    intro j hj
    rw [hparent] at hj
    split at hj
    · cases hj
    · cases hj
      omega
  refine ⟨parent, hlt, ?_⟩
  set file := textBytes (conf.lastText + 1) th inbuf with hfile
  have hsplit : file = headerLine (conf.lastText + 1) th ++ ['\n'] ++ (th.subject ++ '\n' :: inbuf) := by
    rw [hfile]
    unfold textBytes
    rw [List.append_assoc th.subject, List.singleton_append]
  have hnumbers : ∀ c ∈ headerLine (conf.lastText + 1) th ++ ['\n'], IsNumberChar c := by
    intro c hc
    unfold headerLine at hc
    rw [if_pos hp.type, List.append_nil] at hc
    simp only [List.append_assoc, List.mem_append] at hc
    rcases hc with hc | hc | hc | hc | hc | hc | hc | hc
    iterate 7 exact isNumberChar_field hc
    exact isNumberChar_decimal_line (List.mem_append.mpr hc)
  have hwhole : WholeLines (headerLine (conf.lastText + 1) th ++ ['\n']) := .line _
  have hnew : (conf.post th inbuf).texts (conf.lastText + 1) = some file := by
    unfold FtnConf.post
    dsimp only
    split
    · exact Function.update_self _ _ _
    · rw [Function.update_of_ne (by omega)]
      exact Function.update_self _ _ _
  refine h.add rfl ?_ hnew ?_ ?_ ?_ hlt
  · intro n hn hnlast
    by_cases hnum : n = th.commentNum
    · refine ⟨linkLine ⟨conf.lastText + 1, th.author⟩, .line _, ?_, ?_⟩
      · intro c hc
        unfold linkLine at hc
        rw [List.append_assoc, List.mem_append] at hc
        exact hc.elim isNumberChar_field isNumberChar_decimal_line
      · intro old hold
        unfold FtnConf.post
        dsimp only
        rw [if_neg (by omega), hnum, Function.update_self, Function.update_of_ne (by omega), ← hnum, hold,
          Option.getD_some]
    · refine ⟨[], .nil, fun c hc => (List.not_mem_nil hc).elim, ?_⟩
      intro old hold
      unfold FtnConf.post
      dsimp only
      rw [List.append_nil]
      split
      · rw [Function.update_of_ne (by omega), hold]
      · rw [Function.update_of_ne hnum, Function.update_of_ne (by omega), hold]
  · rw [hsplit]
    rw [show th.subject ++ '\n' :: inbuf = (th.subject ++ ['\n']) ++ inbuf by simp]
    exact hwhole.append ((WholeLines.line _).append hp.lines)
  · rw [hsplit]
    simp
  · refine .written rfl hp.author ?_ ?_ ?_ ?_
    · rw [hfile, exportHead_textBytes _ _ hp.type, hnumber]
    · rw [hsplit, firstMsgid_append hwhole, firstMsgid_numbers hnumbers, Option.none_or, hp.scanned]
    · rw [hsplit, readSkomFtnMsgid_append hwhole, readSkomFtnMsgid_numbers hnumbers, Option.none_or,
        hp.exported]
    · rw [hlast]

/-- An index finds the entries of a log, and nothing else. -/
structure Indexes (skrefs : List Skref) (log : List (Copies.Entry CString)) : Prop where
  found : ∀ id, Known skrefs id → ∃ j : Nat, findSkref skrefs id = j + 1 ∧ Copies.nameAt log j = some id
  known : ∀ a ∈ log, Known skrefs a.id

theorem nameAt_eq_some {k : Nat} {id : CString} : Copies.nameAt log k = some id ↔
    ∃ a, log[k]? = some a ∧ a.id = id :=
  Option.map_eq_some_iff

/-- The scan finds the texts of a conference. -/
theorem Holds.indexes (h : Holds sys conf log) :
    Indexes (scanExistingSklMsgids sys.num sys.aka conf) log := by
  refine ⟨?_, ?_⟩
  · intro id hid
    unfold Known findSkref at hid
    split at hid
    · cases hid
    next hne =>
    split at hid
    · next p hp =>
      have hfind : findSkref (scanExistingSklMsgids sys.num sys.aka conf) id = p.textnum := by
        unfold findSkref
        rw [if_neg hne, hp]
      have hpid : p.msgid = id := by simpa using List.find?_some hp
      obtain ⟨h0, hle, hscan⟩ := (mem_scan sys.num sys.aka conf p).mp (List.mem_of_find?_eq_some hp)
      obtain ⟨k, a, hk, ha⟩ := h.entry ⟨h0, hle⟩
      have hmsgid := h.msgidOf ha
      rw [← hk] at hmsgid
      rw [show scanText _ _ _ _ = some a.id from hmsgid] at hscan
      exact ⟨k, hfind.trans hk, nameAt_eq_some.mpr ⟨a, ha, (Option.some.inj hscan).trans hpid⟩⟩
    · cases hid
  · intro a ha
    obtain ⟨k, hk⟩ := List.getElem?_of_mem ha
    have hlt := (List.getElem?_eq_some_iff.mp hk).1
    have hlast := h.lastText
    have hscan := h.msgidOf hk
    have hmem := (mem_scan sys.num sys.aka conf ⟨a.id, k + 1⟩).mpr
      ⟨by show (0 : Int) < k + 1; omega, by show (k : Int) + 1 ≤ _; omega, hscan⟩
    have hne := scanText_ne_nil hscan
    unfold Known findSkref
    rw [if_neg hne]
    cases hfind : (scanExistingSklMsgids sys.num sys.aka conf).find? fun p => p.msgid = a.id with
    | none =>
      have hnone := List.find?_eq_none.mp hfind _ hmem
      simp at hnone
    | some p => exact ((mem_scan sys.num sys.aka conf p).mp (List.mem_of_find?_eq_some hfind)).1

/-- An imported text ends with a line end when the message does. -/
theorem wholeLines_importedFile (env : FtnEnv) {i : Imported} (hne : i.item.msg.msgid ≠ [])
    (hbody : WholeLines i.item.msg.cleanBody) : WholeLines (importedFile env i) := by
  have hwrap := wholeLines_wrapFtnBody hbody
  have hend : importedFile env i = (importedMeta env i ++ (i.item.msg.subject ++ ['\n'] ++
      ftnHeaderHead env.area i.item.msg ++ (msgidHeader ++ i.item.msg.msgid ++ '\n' ::
        (optionalLine "FTN-REPLY: ".toList i.item.msg.reply ++
        (optionalLine "FTN-CHRS: ".toList i.item.msg.chrs ++
          optionalLine "FTN-Unsafe: ".toList i.reason))))) ++ ['\n'] ++
            wrapFtnBodyForSkom i.item.msg.cleanBody := by
    refine (importedFile_eq env hne).trans ?_
    unfold importedRest
    generalize optionalLine "FTN-REPLY: ".toList i.item.msg.reply = reply,
      optionalLine "FTN-CHRS: ".toList i.item.msg.chrs = chrs,
      optionalLine "FTN-Unsafe: ".toList i.reason = reason, ftnHeaderHead env.area i.item.msg = head
    simp only [List.append_assoc, List.cons_append, List.nil_append]
  rw [hend]
  exact (WholeLines.line _).append hwrap

/-- A message of the network: its `MSGID` was made for a text, its header has short lines, and its last
line an end. -/
structure OnWire (sent : Set (CString × Option CString)) (msg : FidoMsg) : Prop where
  made : ∃ aka num n, msg.msgid = exportMsgid aka num n
  sent : (msg.msgid, if msg.reply = [] then none else some msg.reply) ∈ sent
  header : ShortLine msg.fromName ∧ ShortLine msg.toName ∧ ShortLine msg.subject ∧ ShortLine msg.date
  subject : msgidLineValue msg.subject = none
  body : WholeLines msg.cleanBody

/-- What a safe import goes by. -/
theorem importDecision_safe {items : List MsgItem} {skrefs : List Skref} {msg : FidoMsg} {com : Int}
    {reason : CString} (hd : importDecision false items skrefs msg = some (com, reason)) :
    ¬ Known skrefs msg.msgid ∧ (msg.reply = [] ∧ com = 0 ∨
      msg.reply ≠ [] ∧ Known skrefs msg.reply ∧ com = findSkref skrefs msg.reply) := by
  unfold importDecision at hd
  split at hd
  · cases hd
  split at hd
  · cases hd
  next hnew =>
  refine ⟨hnew, ?_⟩
  split at hd
  · next hreply =>
    split at hd
    · cases hd
    · cases hd
      exact Or.inl ⟨hreply, rfl⟩
  split at hd
  · next hreply hknown =>
    cases hd
    exact Or.inr ⟨hreply, hknown, rfl⟩
  · cases hd

/-- A stored message is a copy of what was sent. -/
theorem Holds.store (h : Holds sys conf log) {skrefs : List Skref} (hindex : Indexes skrefs log) {env : FtnEnv}
    (harea : ShortLine env.area) {sent : Set (CString × Option CString)} {items : List MsgItem} {m : MsgItem}
    (hm : OnWire sent m.msg) {com : Int} {reason : CString}
    (hd : importDecision false items skrefs m.msg = some (com, reason)) :
    ∃ e : Copies.Entry CString, e.own = false ∧ (∀ j ∈ e.parent, j < log.length) ∧
      (e.id, Copies.answered log e) ∈ sent ∧
      (∀ a ∈ log, a.id ≠ e.id) ∧ Holds sys (sendFtn env conf m.msg com reason).2 (log ++ [e]) ∧
      Indexes (addSkref skrefs m.msg.msgid (sendFtn env conf m.msg com reason).1) (log ++ [e]) := by
  have hlast := h.lastText
  obtain ⟨hnew, hparent⟩ := importDecision_safe hd
  obtain ⟨aka, num, n, hmade⟩ := hm.made
  have hne : m.msg.msgid ≠ [] := by
    rw [hmade]
    exact (⟨num, aka, id, fun _ => none, fun _ => []⟩ : SentConf).msgid_ne_nil n
  -- the entry that the message comments on
  obtain ⟨parent, hlt, hanswered, hnumber⟩ : ∃ parent : Option Nat, (∀ j ∈ parent, j < log.length) ∧
      parent.bind (Copies.nameAt log) = (if m.msg.reply = [] then none else some m.msg.reply) ∧
      com = parent.elim 0 fun j => (j : Int) + 1 := by
    rcases hparent with ⟨hreply, hcom⟩ | ⟨hreply, hknown, hcom⟩
    · refine ⟨none, (fun j hj => by cases hj), ?_, hcom⟩
      rw [if_pos hreply]
      rfl
    · obtain ⟨j, hfind, hname⟩ := hindex.found _ hknown
      obtain ⟨a, ha, -⟩ := nameAt_eq_some.mp hname
      refine ⟨some j, ?_, ?_, hcom.trans hfind⟩
      · intro i hi
        cases hi
        exact (List.getElem?_eq_some_iff.mp ha).1
      · rw [if_neg hreply]
        exact hname
  refine ⟨⟨m.msg.msgid, parent, false⟩, rfl, hlt, ?_, ?_, ?_, ?_⟩
  · unfold Copies.answered
    dsimp only
    rw [hanswered]
    exact hm.sent
  · intro a ha heq
    have hknown := hindex.known a ha
    rw [heq] at hknown
    exact hnew hknown
  · have hcom : com ≤ conf.lastText := by
      rw [hnumber]
      cases hp : parent with
      | none =>
        show (0 : Int) ≤ _
        omega
      | some j =>
        have := hlt j hp
        show (j : Int) + 1 ≤ _
        omega
    have htexts := sendFtn_texts env conf m.msg hcom (by omega) reason
    set i : Imported := ⟨m, conf.lastText + 1, com, reason⟩ with hi
    have hfile :
      (sendFtn env conf m.msg com reason).2.texts (conf.lastText + 1) = some (importedFile env i) := by
      rw [htexts, if_pos rfl]
      rfl
    have hnl : '\n' ∈ importedFile env i := by
      rw [importedFile_eq env hne]
      simp [importedMeta]
    obtain ⟨hfirst, hstored⟩ := @msgid_imported env i _ _ _ hmade harea hm.header hm.subject
    refine h.add (sendFtn_lastText env conf m.msg com reason) ?_ hfile (wholeLines_importedFile env hne hm.body) hnl
      (.copied rfl ?_ hfirst hstored) hlt
    · intro k hk hkle
      refine ⟨if 0 < com ∧ k = com then linkLine ⟨conf.lastText + 1, 0⟩ else [], ?_, ?_, ?_⟩
      · split
        · exact .line _
        · exact .nil
      · intro c hc
        split at hc
        · unfold linkLine at hc
          rw [List.append_assoc, List.mem_append] at hc
          exact hc.elim isNumberChar_field isNumberChar_decimal_line
        · cases hc
      · intro old hold
        rw [htexts, if_neg (by omega)]
        split
        · rw [hold, Option.getD_some]
        · rw [hold, List.append_nil]
    · rw [exportHead_imported env hne]
      unfold parentNumber
      rw [← hnumber]
  · rw [sendFtn_fst]
    have hfind := fun id => findSkref_addSkref skrefs hne (n := conf.lastText + 1) (by omega) id
    refine ⟨?_, ?_⟩
    · intro id hid
      unfold Known at hid
      rw [hfind] at hid ⊢
      by_cases heq : id = m.msg.msgid
      · rw [if_pos heq]
        refine ⟨log.length, by rw [hlast], ?_⟩
        rw [nameAt_eq_some]
        exact ⟨_, List.getElem?_concat_length, heq.symm⟩
      · rw [if_neg heq] at hid ⊢
        obtain ⟨j, hj, hname⟩ := hindex.found id hid
        obtain ⟨a, ha, -⟩ := nameAt_eq_some.mp hname
        refine ⟨j, hj, ?_⟩
        rw [Copies.nameAt_append (List.getElem?_eq_some_iff.mp ha).1, hname]
    · intro a ha
      unfold Known
      rw [hfind]
      rcases List.mem_append.mp ha with ha | ha
      · split
        · omega
        · exact hindex.known a ha
      · rw [List.mem_singleton.mp ha, if_pos rfl]
        omega

/-! ## The network -/

/-- What a text is exported as is the name of its entry, and of the one that it answers. -/
theorem Holds.send (h : Holds sys conf log) {n : Int} (hn : Written conf n) {msg : FidoMsg}
    (hmsg : Exported (sys.sent conf) n msg) (hsubject : msgidLineValue msg.subject = none)
    (sent : Set (CString × Option CString)) : ∃ (k : Nat) (e : Copies.Entry CString), log[k]? = some e ∧
      e.own = true ∧ OnWire (insert (e.id, Copies.answered log e) sent) msg := by
  obtain ⟨k, e, rfl, hk⟩ := h.entry hn.range
  obtain ⟨hcarries, env, t, hbody⟩ := hmsg.carries
  obtain ⟨hown, hid⟩ : e.own = true ∧ e.id = exportMsgid sys.aka sys.num (k + 1) := by
    obtain ⟨file, hfile, -, -, hshows⟩ := h.texts k e hk
    obtain ⟨file', t', hfile', hfirst, -⟩ := hn.regenerated
    rw [hfile] at hfile'
    cases hfile'
    cases hshows with
    | written hown _ _ _ _ hid => exact ⟨hown, hid⟩
    | copied _ _ hcopied =>
      rw [hfirst] at hcopied
      cases hcopied
  have hmsgid : msg.msgid = e.id := hcarries.msgid.trans hid.symm
  refine ⟨k, e, hk, hown, ⟨_, _, _, hcarries.msgid⟩, Or.inl ?_, hcarries.header, hsubject, ?_⟩
  · rw [hmsgid]
    congr 1
    have hreply := hmsg.reply
    have hcom : (sys.sent conf).com (k + 1) = parentNumber e := h.com hk
    rw [hcom] at hreply
    unfold Copies.answered
    cases hparent : e.parent with
    | none =>
      have hzero : parentNumber e = 0 := by
        unfold parentNumber
        rw [hparent]
        rfl
      rw [hzero, if_neg (by decide)] at hreply
      rw [if_pos hreply]
      rfl
    | some j =>
      have hnumber : parentNumber e = j + 1 := by
        unfold parentNumber
        rw [hparent]
        rfl
      have hj := h.ordered k e hk j hparent
      have hlt := (List.getElem?_eq_some_iff.mp hk).1
      obtain ⟨a, ha⟩ : ∃ a, log[j]? = some a := ⟨_, List.getElem?_eq_getElem (by omega)⟩
      obtain ⟨file, hfile, -, -, hshows⟩ := h.texts j a ha
      rw [hnumber, if_pos (by omega)] at hreply
      have hidOf : (sys.sent conf).idOf (j + 1) = a.id := by
        unfold SentConf.idOf
        show (((conf.texts (j + 1)).bind readSkomFtnMsgid).getD _) = _
        rw [hfile, Option.bind_some]
        exact hshows.idOf
      rw [if_neg (by rw [hreply.1]; exact hreply.2), hreply.1, hidOf, Option.bind_some, Copies.nameAt, ha]
      rfl
  · unfold CarriesBody at hbody
    rw [hbody]
    have hlines : ∀ ls : List CString, WholeLines (unlines ls) := fun ls =>
      WholeLines.flatMap fun l _ => WholeLines.line l
    rw [show ∀ a b : CString, '\n' :: (a ++ '\n' :: b) = ('\n' :: a ++ ['\n']) ++ b by simp]
    exact (WholeLines.line _).append (hlines _)

end Holds

/-- The names that the systems give. -/
def madeMsgid {ι : Type*} (sys : ι → FtnSystem) (x : ι) (k : Nat) : CString :=
  exportMsgid (sys x).aka (sys x).num (k + 1)

/-- The conferences hold logs, and the messages are what has been sent of them. -/
structure Refines {ι : Type*} (sys : ι → FtnSystem) (net : Network ι) (s : Copies.State ι CString) : Prop where
  confs : ∀ x, Holds (sys x) (net.confs x) (s.logs x)
  wire : ∀ msg ∈ net.wire, OnWire s.sent msg

section Network

variable {ι : Type*} [DecidableEq ι] {sys : ι → FtnSystem} {net net' : Network ι} {s : Copies.State ι CString}

theorem OnWire.mono {sent sent' : Set (CString × Option CString)} (hsub : sent ⊆ sent') {msg : FidoMsg}
    (h : OnWire sent msg) : OnWire sent' msg := ⟨h.made, hsub h.sent, h.header, h.subject, h.body⟩

omit [DecidableEq ι] in
theorem refines_start : Refines sys (Network.start ι) Copies.State.start where
  confs := fun x => ⟨rfl, (fun k e hk => by cases hk), (fun k e hk => by cases hk)⟩
  wire := fun msg hmsg => hmsg.elim

/-- One conference and its log change. -/
theorem Refines.update (h : Refines sys net s) (x : ι) {conf : FtnConf} {e : Copies.Entry CString}
    (hconf : Holds (sys x) conf (s.logs x ++ [e])) :
    Refines sys (net.put x conf) (s.add x e) := by
  refine ⟨?_, h.wire⟩
  intro y
  unfold Network.put
  dsimp only
  rw [Copies.logs_add]
  by_cases hy : y = x
  · rw [hy, if_pos rfl, Function.update_self]
    exact hconf
  · rw [if_neg hy, List.append_nil, Function.update_of_ne hy]
    exact h.confs y

/-- An import takes entries over one after another. -/
theorem Refines.toss (h : Refines sys net s) (x : ι) {env : FtnEnv} (harea : ShortLine env.area)
    {items : List MsgItem} (hitems : ∀ m ∈ items, m.msg ∈ net.wire) {skrefs : List Skref}
    (hindex : Indexes skrefs (s.logs x)) {hist : List MsgItem}
    (hg : Grows (imports env false items (.start skrefs (net.confs x))) items [] hist) :
    ∃ s', Relation.ReflTransGen (Copies.Step (madeMsgid sys)) s s' ∧
      Refines sys (net.put x (importAfter env false items (.start skrefs (net.confs x)) hist).conf) s' ∧
      Indexes (importAfter env false items (.start skrefs (net.confs x)) hist).skrefs (s'.logs x) := by
  induction hg with
  | refl =>
    refine ⟨s, .refl, ?_, hindex⟩
    have hput : net.put x (net.confs x) = net := by
      unfold Network.put
      rw [Function.update_eq_self]
    exact hput.symm ▸ h
  | @take r m hr hm hf ih =>
    obtain ⟨t, hsteps, hrefines, hindex⟩ := ih
    obtain ⟨⟨com, reason⟩, hd⟩ := Option.isSome_iff_exists.mp hf
    rw [importAfter_snoc, importItem, hd]
    have hconf := hrefines.confs x
    rw [show (net.put x _).confs x = _ from Function.update_self _ _ _] at hconf
    obtain ⟨e, hown, hparent, hsent, hfresh, hholds, hindex'⟩ :=
      hconf.store hindex harea (hrefines.wire m.msg (hitems m hm)) hd
    refine ⟨t.add x e, hsteps.tail (.take x e hown hparent hsent hfresh), ?_, ?_⟩
    · have hupdate := hrefines.update x hholds
      unfold Network.put at hupdate ⊢
      dsimp only at hupdate
      rw [Function.update_idem] at hupdate
      exact hupdate
    · rw [Copies.logs_add, if_pos rfl]
      exact hindex'

/-- A step of the network is a run of the logs. -/
theorem Refines.step (h : Refines sys net s) (hstep : Network.Step sys net net') :
    ∃ s', Relation.ReflTransGen (Copies.Step (madeMsgid sys)) s s' ∧ Refines sys net' s' := by
  cases hstep with
  | post x th inbuf hp =>
    obtain ⟨parent, hparent, hholds⟩ := (h.confs x).post hp
    exact ⟨_, .single (.write x parent hparent), h.update x hholds⟩
  | send x n msg hn hmsg hsubject =>
    obtain ⟨k, e, hk, hown, honwire⟩ := (h.confs x).send hn hmsg hsubject s.sent
    refine ⟨_, .single (.send x k e hk hown), h.confs, ?_⟩
    rintro m (rfl | hm)
    · exact honwire
    · exact (h.wire m hm).mono (Set.subset_insert _ _)
  | toss x env items k st harea hitems hst =>
    have hlast := (h.confs x).lastText
    obtain ⟨hist, hg, -, rfl⟩ := importLoop_some (by omega) hst
    obtain ⟨s', hsteps, hrefines, -⟩ := h.toss x harea hitems (h.confs x).indexes hg
    exact ⟨s', hsteps, hrefines⟩

/-- The conferences of a network that can be reached hold logs that can be reached. -/
theorem refines_of_reachable (h : Relation.ReflTransGen (Network.Step sys) (Network.start ι) net) :
    ∃ s, Relation.ReflTransGen (Copies.Step (madeMsgid sys)) Copies.State.start s ∧ Refines sys net s := by
  induction h with
  | refl => exact ⟨_, .refl, refines_start⟩
  | tail _ hstep ih =>
    obtain ⟨s, hs, hrefines⟩ := ih
    obtain ⟨s', hs', hrefines'⟩ := hrefines.step hstep
    exact ⟨s', hs.trans hs', hrefines'⟩

/-! ## Agreement -/

/-- A number of a text. -/
def HasText (conf : FtnConf) (k : Int) : Prop := 0 < k ∧ k ≤ conf.lastText

/-- Every text of every conference was written somewhere, and no conference has it twice.  Conferences that have the
same text have it as a comment on the same text, or both as a comment on none. -/
structure SameTrees (sys : ι → FtnSystem) (net : Network ι) : Prop where
  origin : ∀ x k, HasText (net.confs x) k → ∃ y n, HasText (net.confs y) n ∧ Regenerated (net.confs y) n ∧
    (sys x).msgidOf (net.confs x) k = some (exportMsgid (sys y).aka (sys y).num n)
  once : ∀ x k l, HasText (net.confs x) k → HasText (net.confs x) l →
    (sys x).msgidOf (net.confs x) k = (sys x).msgidOf (net.confs x) l → k = l
  comments : ∀ x y k l, HasText (net.confs x) k → HasText (net.confs y) l →
    (sys x).msgidOf (net.confs x) k = (sys y).msgidOf (net.confs y) l →
    ((net.confs x).com k = 0 ∧ (net.confs y).com l = 0) ∨
      (0 < (net.confs x).com k ∧ (net.confs x).com k < k) ∧
      (0 < (net.confs y).com l ∧ (net.confs y).com l < l) ∧
        (sys x).msgidOf (net.confs x) ((net.confs x).com k) = (sys y).msgidOf (net.confs y)
        ((net.confs y).com l)

omit [DecidableEq ι] in
theorem distinct_madeMsgid (haddr : ∀ x y, makeFtnAddr (sys x).aka = makeFtnAddr (sys y).aka → x = y)
    (hnum : ∀ x, 1 ≤ (sys x).num ∧ (sys x).num ≤ 65535) : Copies.Distinct (madeMsgid sys) 65536 := by
  intro x y m n hm hn heq
  have horigin := congrArg (ftnMsgidOrigin 128) heq
  unfold madeMsgid exportMsgid at horigin
  rw [ftnMsgidOrigin_made, ftnMsgidOrigin_made] at horigin
  obtain rfl := haddr x y horigin
  have hmod := ((exportMsgid_inj (sys x).aka (hnum x) (hnum x)).mp heq).2
  exact ⟨rfl, by omega⟩

omit [DecidableEq ι] in
/-- A text is a copy unless it was written where it stands. -/
theorem Refines.regenerated (h : Refines sys net s) {x : ι} {k : Nat} {e : Copies.Entry CString}
    (hk : (s.logs x)[k]? = some e) (hown : e.own = true) : Regenerated (net.confs x) (k + 1) := by
  obtain ⟨file, hfile, -, -, hshows⟩ := (h.confs x).texts k e hk
  cases hshows with
  | written _ huid hhead hfirst =>
    obtain ⟨t, ht, heq⟩ := Option.map_eq_some_iff.mp hhead
    exact ⟨file, t, hfile, hfirst, ht, (Prod.mk.inj heq).1 ▸ huid⟩
  | copied hno =>
    rw [hown] at hno
    cases hno

/-- What a text comments on is what its entry answers. -/
theorem Holds.answered {sys : FtnSystem} {conf : FtnConf} {log : List (Copies.Entry CString)}
    {e : Copies.Entry CString} (h : Holds sys conf log) {k : Nat} (hk : log[k]? = some e) :
    (conf.com (k + 1) = 0 ∧ Copies.answered log e = none) ∨
      (0 < conf.com (k + 1) ∧ conf.com (k + 1) < k + 1) ∧
        ∃ id, Copies.answered log e = some id ∧ sys.msgidOf conf (conf.com (k + 1)) = some id := by
  rw [h.com hk]
  unfold parentNumber Copies.answered
  cases hparent : e.parent with
  | none => exact Or.inl ⟨rfl, rfl⟩
  | some j =>
    have hj := h.ordered k e hk j hparent
    have hlt := (List.getElem?_eq_some_iff.mp hk).1
    obtain ⟨a, ha⟩ : ∃ a, log[j]? = some a := ⟨_, List.getElem?_eq_getElem (by omega)⟩
    rw [Option.elim_some, Option.bind_some]
    exact Or.inr ⟨⟨by omega, by omega⟩, a.id, nameAt_eq_some.mpr ⟨a, ha, rfl⟩, h.msgidOf ha⟩

omit [DecidableEq ι] in
theorem agrees_of_refines (h : Refines sys net s) (hname : Copies.Distinct (madeMsgid sys) 65536)
    (hinv : Copies.Inv (madeMsgid sys) s) (hbound : ∀ x, (net.confs x).lastText ≤ 65536) :
    SameTrees sys net := by
  have hlen : ∀ x, (s.logs x).length ≤ 65536 := fun x => by
    have hlast := (h.confs x).lastText
    have hx := hbound x
    omega
  refine ⟨?_, ?_, ?_⟩
  · intro x k hk
    obtain ⟨i, e, rfl, hi⟩ := (h.confs x).entry hk
    obtain ⟨y, n, a, hn, hown, hid, -⟩ := hinv.origin x e (List.mem_of_getElem? hi)
    have hlt := (List.getElem?_eq_some_iff.mp hn).1
    have hlast := (h.confs y).lastText
    refine ⟨y, n + 1, ⟨by omega, by omega⟩, h.regenerated hn hown, ?_⟩
    rw [(h.confs x).msgidOf hi, ← hid, hinv.named y n a hn hown]
    rfl
  · intro x k l hk hl heq
    obtain ⟨i, e, rfl, hi⟩ := (h.confs x).entry hk
    obtain ⟨j, a, rfl, hj⟩ := (h.confs x).entry hl
    rw [(h.confs x).msgidOf hi, (h.confs x).msgidOf hj] at heq
    have hids : ((s.logs x).map (·.id))[i]? = ((s.logs x).map (·.id))[j]? := by
      rw [List.getElem?_map, List.getElem?_map, hi, hj]
      exact heq
    have hilt := (List.getElem?_eq_some_iff.mp hi).1
    have hij := (List.getElem?_inj (by rw [List.length_map]; exact hilt) (hinv.once x)).mp hids
    rw [hij]
  · intro x y k l hk hl heq
    obtain ⟨i, e, rfl, hi⟩ := (h.confs x).entry hk
    obtain ⟨j, a, rfl, hj⟩ := (h.confs y).entry hl
    rw [(h.confs x).msgidOf hi, (h.confs y).msgidOf hj] at heq
    have hanswered := hinv.agree hname hlen (List.mem_of_getElem? hi) (List.mem_of_getElem? hj)
      (Option.some.inj heq)
    rcases (h.confs x).answered hi with ⟨hcom, hnone⟩ | ⟨hcom, id, hsome, hid⟩
    · rcases (h.confs y).answered hj with ⟨hcom', -⟩ | ⟨-, id', hsome', -⟩
      · exact Or.inl ⟨hcom, hcom'⟩
      · rw [hnone, hsome'] at hanswered
        cases hanswered
    · rcases (h.confs y).answered hj with ⟨-, hnone'⟩ | ⟨hcom', id', hsome', hid'⟩
      · rw [hsome, hnone'] at hanswered
        cases hanswered
      · rw [hsome, hsome'] at hanswered
        refine Or.inr ⟨hcom, hcom', ?_⟩
        rw [hid, hid', Option.some.inj hanswered]

/-- Whatever the systems post, send and import, in whatever order, no text is stored twice, every text
was written by one of them, and the comments of a text hang under the same text on all of them. -/
theorem trees_agree (sys : ι → FtnSystem)
    (haddr : ∀ x y, makeFtnAddr (sys x).aka = makeFtnAddr (sys y).aka → x = y)
    (hnum : ∀ x, 1 ≤ (sys x).num ∧ (sys x).num ≤ 65535) (net : Network ι)
    (h : Relation.ReflTransGen (Network.Step sys) (Network.start ι) net)
    (hbound : ∀ x, (net.confs x).lastText ≤ 65536) : SameTrees sys net := by
  have hname := distinct_madeMsgid haddr hnum
  obtain ⟨s, hs, hrefines⟩ := refines_of_reachable h
  have hinv := Copies.inv_of_reachable hname hs fun x => by
    have hlast := (hrefines.confs x).lastText
    have hx := hbound x
    omega
  exact agrees_of_refines hrefines hname hinv hbound

end Network

/-! ## Two systems -/

def systemsExample (x : Bool) : FtnSystem := if x then ⟨5, ⟨2, 201, 329, 0⟩⟩ else ⟨2, ⟨2, 201, 1, 0⟩⟩

def greeting : TextHeader where
  num := 0
  author := 7
  time := 0
  commentNum := 0
  commentConf := 0
  commentAuthor := 0
  size := 1
  subject := "H\x7blsning".toList
  type := 0
  sh := ⟨0, 0⟩

/-- The conference after the first text. -/
def greeted : FtnConf := (⟨0, fun _ => none⟩ : FtnConf).post greeting "Hej\n".toList

theorem plainPost_greeting : PlainPost ⟨0, fun _ => none⟩ greeting "Hej\n".toList where
  author := by decide
  type := rfl
  com := by decide
  here := rfl
  lines := by
    intro c hc
    cases hc
    rfl
  scanned := by decide +kernel
  exported := by decide +kernel

theorem written_greeting : Written greeted 1 where
  range := by decide
  regenerated := ⟨_, threadText 1, rfl, by decide +kernel, rfl, by decide⟩

theorem departs_greeting : Departs ((systemsExample false).sent greeted) threadEnv
    ⟨2, 3, 7, 0, 7, 0, 0, "SYNC".toList⟩ greeted.texts 1 (threadText 1) where
  num := ⟨rfl, by decide, by decide⟩
  type := rfl
  area := threadConf_area
  text := rfl
  com := rfl
  subject := rfl
  stored := fun h => by cases h
  kept := fun id hid => by cases hid
  plain := plainExport_example (Or.inl rfl)
  prints := prints_example

/-- It is exported as a message. -/
theorem exported_greeting : ∃ msg, Exported ((systemsExample false).sent greeted) 1 msg ∧
    msgidLineValue msg.subject = none := by
  obtain ⟨path, data, msg, hexport, hread, hcarries, -⟩ := departs_greeting.arrives
  have hentry : ftnListExample.entry 2 = some ⟨2, 3, 7, 0, 7, 0, 0, "SYNC".toList⟩ := rfl
  rw [← @exportOneFtnConf_eq threadEnv ftnListExample inLine_example (fun _ => greeted.texts) 2 1 (by decide)
    (by decide) _ hentry rfl] at hexport
  refine ⟨msg, ⟨threadEnv, ftnListExample, fun _ => greeted.texts, _, _, path, data, inLine_example, hentry,
    departs_greeting, hexport, hread⟩, ?_⟩
  rw [hcarries.subject]
  decide +kernel

/-- A safe import has no more texts than messages. -/
theorem lastText_importAfter_le {env : FtnEnv} {items : List MsgItem} {skrefs : List Skref} {conf : FtnConf}
    (hlast : 0 ≤ conf.lastText) {hist : List MsgItem}
    (hg : Grows (imports env false items (.start skrefs conf)) items [] hist) :
    (importAfter env false items (.start skrefs conf) hist).conf.lastText ≤ conf.lastText + items.length := by
  have hp := passed_of_grows hlast hg
  have hsub : hist ⊆ items := fun m hm => (hg.mem hm).resolve_left List.not_mem_nil
  have hle := (hp.nodup.of_map.subperm hsub).length_le
  rw [hp.lastText]
  omega

/-- The network after it, with what has been sent. -/
def greetedNet (wire : Set FidoMsg) : Network Bool := ⟨fun x => if x then ⟨0, fun _ => none⟩ else greeted, wire⟩

theorem post_greeting : Network.Step systemsExample (Network.start Bool) (greetedNet ∅) := by
  have hput : (Network.start Bool).put false greeted = greetedNet ∅ := by
    unfold Network.put greetedNet
    congr 1
    funext x
    cases x
    · exact Function.update_self _ _ _
    · exact Function.update_of_ne (by decide) _ _
  rw [← hput]
  exact .post false greeting "Hej\n".toList plainPost_greeting

/-- A text is posted on one system, sent, and imported on the other. -/
theorem trees_agree_example : ∃ net, Relation.ReflTransGen (Network.Step systemsExample)
    (Network.start Bool) net ∧
    HasText (net.confs false) 1 ∧ net.wire.Nonempty ∧ SameTrees systemsExample net := by
  obtain ⟨msg, hexported, hsubject⟩ := exported_greeting
  have hsend : Network.Step systemsExample (greetedNet ∅) (greetedNet (insert msg ∅)) :=
    .send false 1 msg written_greeting hexported hsubject
  obtain ⟨hist, hg, -, -, hloop⟩ := @importLoop_total ftnEnvExample [⟨"8.msg".toList, msg⟩]
    (scanExistingSklMsgids 5 ⟨2, 201, 329, 0⟩ emptyFtnConf) emptyFtnConf (by decide) false
  have hlen := lastText_importAfter_le (by decide) hg
  have htoss : Network.Step systemsExample (greetedNet (insert msg ∅)) _ :=
    .toss true ftnEnvExample [⟨"8.msg".toList, msg⟩] 2 _ ⟨by decide, by decide⟩ (by simp [greetedNet])
      (hloop 2 (Nat.lt_succ_self 1))
  have hrun := ((Relation.ReflTransGen.single post_greeting).tail hsend).tail htoss
  have hgreeted : greeted.lastText = 1 := rfl
  refine ⟨_, hrun, ⟨Int.one_pos, Int.le_of_eq hgreeted.symm⟩, ⟨msg, Or.inl rfl⟩, ?_⟩
  apply trees_agree systemsExample (by decide +kernel) (by decide) _ hrun
  intro x
  unfold Network.put
  dsimp only
  cases x
  · rw [Function.update_of_ne (by decide)]
    exact Int.le_trans (Int.le_of_eq hgreeted) (by decide)
  · rw [Function.update_self]
    exact hlen.trans (show (0 : Int) + 1 ≤ 65536 by decide)

end SklaffKom
