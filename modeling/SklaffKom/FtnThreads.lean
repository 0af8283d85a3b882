import SklaffKom.FtnGate

/-!
# Threads between systems

The texts of a conference go out as messages, and another system imports them from its spool, in whatever
order they lie there and among messages of other systems.  What belongs together by comments belongs together
there.
-/

open CString Sweeps

namespace SklaffKom

/-! ## Messages of another system -/

/-- A message is what `export_one_ftn_conf` wrote of a text. -/
def Exported (a : SentConf) (n : Int) (msg : FidoMsg) : Prop :=
  ∃ (env : GateEnv) (l : ConfFile) (texts : Int → Int → Option CString) (ce : ConfEntry) (t : ExportText)
    (path : CString) (data : List Char), (∀ e ∈ l.entries, e.InLine) ∧ l.entry a.num = some ce ∧
    Departs a env ce (texts a.num) n t ∧ exportOneFtnConf env (some l.bytes) texts a.num n = some (path, data) ∧
    readFidoMsg (some data) = some msg

/-- Texts of a conference have come to a spool, where no other message has the `MSGID` of one of them. -/
structure Receives (a : SentConf) (ns : Set Int) (items : List MsgItem) (skrefs : List Skref) : Prop where
  written : ∀ n ∈ ns, a.stored n = none
  arrives : ∀ n ∈ ns, ∃ m ∈ items, Exported a n m.msg
  only : ∀ n ∈ ns, ∀ m ∈ items, m.msg.msgid = a.msgid n → Exported a n m.msg
  unknown : ∀ n ∈ ns, ¬ Known skrefs (a.msgid n)
  distinct : Set.InjOn a.msgid ns

/-- The texts that are connected with what the other system has: they open a thread, or comment on a
text that it has or gets, from this system or another. -/
inductive SentConf.Reaches (a : SentConf) (ns : Set Int) (items : List MsgItem) (skrefs : List Skref) :
  Int → Prop
  | opens {n : Int} : n ∈ ns → a.com n ≤ 0 → subjectLooksLikeReply (a.subject n) = false →
      Reaches a ns items skrefs n
  | answers {n : Int} : n ∈ ns → 0 < a.com n → Known skrefs (a.idOf (a.com n)) ∨
      a.com n ∉ ns ∧ Importable items skrefs (a.idOf (a.com n)) → Reaches a ns items skrefs n
  | comments {n : Int} : n ∈ ns → 0 < a.com n → Reaches a ns items skrefs (a.com n) →
    Reaches a ns items skrefs n

/-- The number of a text on the other system, 0 when it is not there. -/
def SentConf.number (a : SentConf) (skrefs : List Skref) (n : Int) : Int := findSkref skrefs (a.idOf n)

/-- What an import makes of the texts of the other system.  Those that can be reached become texts after the
old ones, each with a number of its own; a comment follows on the text that it comments on, which has a line
for it. -/
structure Mirrors (env : FtnEnv) (a : SentConf) (ns : Set Int) (items : List MsgItem) (skrefs : List Skref)
    (lastText : Int) (s : ImportState) : Prop where
  arrived : ∀ n ∈ ns, a.Reaches ns items skrefs n ↔ lastText < a.number s.skrefs n
  missing : ∀ n ∈ ns, ¬ a.Reaches ns items skrefs n → a.number s.skrefs n = 0
  distinct : ∀ n ∈ ns, ∀ q ∈ ns, 0 < a.number s.skrefs n → a.number s.skrefs n = a.number s.skrefs q → n = q
  text : ∀ n, a.Reaches ns items skrefs n → ∃ i ∈ s.imported, Exported a n i.item.msg ∧
    i.textnum = a.number s.skrefs n ∧ i.com = (if 0 < a.com n then a.number s.skrefs (a.com n) else 0) ∧
    ∃ links, s.conf.texts i.textnum = some (importedFile env i ++ links)
  comments : ∀ n, a.Reaches ns items skrefs n → 0 < a.com n →
    0 < a.number s.skrefs (a.com n) ∧ a.number s.skrefs (a.com n) < a.number s.skrefs n ∧
    ∃ before after, s.conf.texts (a.number s.skrefs (a.com n)) =
      some (before ++ linkLine ⟨a.number s.skrefs n, 0⟩ ++ after)

/-! ## What the messages carry -/

theorem exportOneFtnConf_eq {env : GateEnv} {l : ConfFile} (h : ∀ e ∈ l.entries, e.InLine)
    {texts : Int → Int → Option CString} {num n : Int} (hnum : 0 < num) (hn : 0 < n) {ce : ConfEntry}
    (hce : l.entry num = some ce) (hcenum : ce.num = num) :
    exportOneFtnConf env (some l.bytes) texts num n = exportOneFtnLoaded env ce (texts num) n := by
  unfold exportOneFtnConf
  rw [if_neg (by omega), findFtnConfNum_entry l h, if_neg (by omega), hce, Option.bind_eq_bind,
    Option.bind_some,
    hcenum]

/-- The message has the numbers of the text, and the text. -/
theorem Exported.carries {a : SentConf} {n : Int} {msg : FidoMsg} (h : Exported a n msg) :
    Carries a n msg ∧ ∃ env t, CarriesBody env a t msg := by
  obtain ⟨env, l, texts, ce, t, path, data, hinLine, hce, hdeparts, hexport, hread⟩ := h
  obtain ⟨hnum, hpos, hn⟩ := hdeparts.num
  obtain ⟨path', data', msg', hexport', hread', hcarries, hbody⟩ := hdeparts.arrives
  rw [exportOneFtnConf_eq hinLine hpos hn hce hnum, hexport'] at hexport
  cases hexport
  rw [hread'] at hread
  cases hread
  exact ⟨hcarries, env, t, hbody⟩

theorem readSkomFtnMsgid_ne_nil {file id : CString} (h : readSkomFtnMsgid file = some id) : id ≠ [] := by
  unfold readSkomFtnMsgid at h
  obtain ⟨l, -, hl⟩ := List.exists_of_findSome?_eq_some h
  dsimp only at hl
  split at hl
  · split at hl
    · next hne =>
      cases hl
      unfold strlcpy
      simpa using hne
    · cases hl
  · cases hl

/-- A comment names a text. -/
theorem Exported.reply {a : SentConf} {n : Int} {msg : FidoMsg} (h : Exported a n msg) :
    if 0 < a.com n then msg.reply = a.idOf (a.com n) ∧ a.idOf (a.com n) ≠ [] else msg.reply = [] := by
  have hreply := h.carries.1.reply
  obtain ⟨env, l, texts, ce, t, path, data, -, -, hdeparts, -, -⟩ := h
  unfold SentConf.reply at hreply
  by_cases hcom : a.com n > 0
  · rw [if_pos hcom] at hreply ⊢
    refine ⟨hreply, ?_⟩
    have hstored := hdeparts.stored hcom
    unfold SentConf.idOf
    cases hid : a.stored (a.com n) with
    | none => exact a.msgid_ne_nil _
    | some id =>
      rw [hid] at hstored
      obtain ⟨file, -, hfile⟩ := Option.bind_eq_some_iff.mp hstored
      exact readSkomFtnMsgid_ne_nil hfile
  · rw [if_neg hcom] at hreply ⊢
    exact hreply

/-- The characters that a subject is taken for a reply by. -/
def isMark (c : Char) : Bool := isBlank c || c = 'R' || c = 'r' || c = 'E' || c = 'e' || c = ':'

/-- They are not converted. -/
theorem isMark_of_sf7Second {c d : Char} (h : sf7Second c = some d) : isMark c = false := by
  unfold sf7Second at h
  split at h
  next hc => rw [hc]; rfl
  split at h
  next hc => rw [hc]; rfl
  split at h
  next hc => rw [hc]; rfl
  split at h
  next hc => rw [hc]; rfl
  split at h
  next hc => rw [hc]; rfl
  split at h
  next hc => rw [hc]; rfl
  next => cases h

theorem sf7Second_of_isMark {c : Char} (h : isMark c = true) : sf7Second c = none := by
  cases hc : sf7Second c with
  | none => rfl
  | some d =>
    rw [isMark_of_sf7Second hc] at h
    cases h

theorem dropWhile_sf7ToUtf8 (s : CString) :
    (sf7ToUtf8 s).dropWhile isBlank = sf7ToUtf8 (s.dropWhile isBlank) := by
  induction s with
  | nil => rfl
  | cons c s ih =>
    cases hc : sf7Second c with
    | none =>
      rw [sf7ToUtf8_plain hc]
      by_cases hb : isBlank c = true
      · rw [List.dropWhile_cons_of_pos hb, List.dropWhile_cons_of_pos hb, ih]
      · rw [List.dropWhile_cons_of_neg hb, List.dropWhile_cons_of_neg hb, sf7ToUtf8_plain hc]
    | some d =>
      have hb : ¬ isBlank c = true := fun hb => by
        have hmark := isMark_of_sf7Second hc
        simp [isMark, hb] at hmark
      rw [sf7ToUtf8_letter hc, List.dropWhile_cons_of_neg (by decide), List.dropWhile_cons_of_neg hb,
        sf7ToUtf8_letter hc]

/-- A subject that looks like a reply. -/
theorem subjectLooksLikeReply_iff (s : CString) : subjectLooksLikeReply s = true ↔ ∃ r e rest,
    s.dropWhile isBlank = r :: e :: ':' :: rest ∧ (r = 'R' ∨ r = 'r') ∧ (e = 'E' ∨ e = 'e') := by
  unfold subjectLooksLikeReply
  split
  · next r e rest hs =>
    rw [hs]
    simp
  · next hno =>
    refine iff_of_false Bool.false_ne_true ?_
    rintro ⟨r, e, rest, hs, -⟩
    exact hno r e rest hs

theorem sf7ToUtf8_eq_cons {c : Char} (hc : isMark c = true) {s u : CString} (h : sf7ToUtf8 s = c :: u) :
    ∃ t, s = c :: t ∧ sf7ToUtf8 t = u := by
  cases s with
  | nil => cases h
  | cons x t =>
    cases hx : sf7Second x with
    | none =>
      rw [sf7ToUtf8_plain hx] at h
      obtain ⟨rfl, hu⟩ := List.cons.inj h
      exact ⟨t, rfl, hu⟩
    | some d =>
      rw [sf7ToUtf8_letter hx] at h
      obtain ⟨rfl, -⟩ := List.cons.inj h
      cases hc

/-- A subject looks like a reply on both systems or on none. -/
theorem subjectLooksLikeReply_sf7ToUtf8 (s : CString) :
    subjectLooksLikeReply (sf7ToUtf8 s) = subjectLooksLikeReply s := by
  have hr : ∀ r, r = 'R' ∨ r = 'r' → isMark r = true := by
    rintro r (rfl | rfl) <;> rfl
  have he : ∀ e, e = 'E' ∨ e = 'e' → isMark e = true := by
    rintro e (rfl | rfl) <;> rfl
  rw [Bool.eq_iff_iff, subjectLooksLikeReply_iff, subjectLooksLikeReply_iff, dropWhile_sf7ToUtf8]
  constructor
  · rintro ⟨r, e, rest, hs, hre⟩
    obtain ⟨t, hst, ht⟩ := sf7ToUtf8_eq_cons (hr r hre.1) hs
    obtain ⟨u, htu, hu⟩ := sf7ToUtf8_eq_cons (he e hre.2) ht
    obtain ⟨v, huv, -⟩ := sf7ToUtf8_eq_cons rfl hu
    exact ⟨r, e, v, by rw [hst, htu, huv], hre⟩
  · rintro ⟨r, e, rest, hs, hre⟩
    refine ⟨r, e, sf7ToUtf8 rest, ?_, hre⟩
    rw [hs, sf7ToUtf8_plain (sf7Second_of_isMark (hr r hre.1)),
      sf7ToUtf8_plain (sf7Second_of_isMark (he e hre.2)), sf7ToUtf8_plain rfl]

/-! ## The import -/

section Import

variable {env : FtnEnv} {items : List MsgItem} {skrefs : List Skref} {conf : FtnConf}

/-- An imported message is found under its number. -/
theorem findSkref_imported (hlast : 0 ≤ conf.lastText) {h : List MsgItem}
    (hg : Grows (imports env false items (.start skrefs conf)) items [] h) {i : Imported}
    (hi : i ∈ (importAfter env false items (.start skrefs conf) h).imported) :
    findSkref (importAfter env false items (.start skrefs conf) h).skrefs i.item.msg.msgid = i.textnum := by
  have hp := passed_of_grows hlast hg
  have hitem : i.item ∈ h := hp.items_eq ▸ List.mem_map_of_mem hi
  obtain ⟨-, hnew⟩ := hp.isNew _ hitem
  rcases findSkref_importAfter hlast hg i.item.msg.msgid with ⟨j, hj, hid, hval⟩ | hval
  · have hnodup := hp.nodup
    rw [← hp.items_eq, List.map_map] at hnodup
    rw [hval, List.inj_on_of_nodup_map hnodup hj hi hid]
  · exfalso
    have hknown := (@known_indexAfter skrefs (conf.lastText + 1) (by omega) h
      (fun m hm => (hp.isNew m hm).1) i.item.msg.msgid).mpr (Or.inl ⟨_, hitem, rfl⟩)
    rw [← hp.skrefs_eq] at hknown
    unfold Known at hknown hnew
    omega

/-- A `MSGID` that was known keeps its number. -/
theorem findSkref_known (hlast : 0 ≤ conf.lastText) {h : List MsgItem}
    (hg : Grows (imports env false items (.start skrefs conf)) items [] h) {id : CString}
    (hid : Known skrefs id) : findSkref (importAfter env false items (.start skrefs conf) h).skrefs id =
      findSkref skrefs id := by
  have hp := passed_of_grows hlast hg
  rcases findSkref_importAfter hlast hg id with ⟨j, hj, hjid, -⟩ | hval
  · have hitem : j.item ∈ h := hp.items_eq ▸ List.mem_map_of_mem hj
    exact absurd (hjid ▸ hid) (hp.isNew _ hitem).2
  · exact hval

/-- An imported message comments on the text that its `REPLY` is found under. -/
theorem com_imported (hlast : 0 ≤ conf.lastText) (hindex : IndexOf conf.lastText skrefs) {h : List MsgItem}
    (hg : Grows (imports env false items (.start skrefs conf)) items [] h) {i : Imported}
    (hi : i ∈ (importAfter env false items (.start skrefs conf) h).imported) :
    i.com = findSkref (importAfter env false items (.start skrefs conf) h).skrefs i.item.msg.reply := by
  rcases hasParent_importAfter hlast hindex hg hi with ⟨hcom, hu | hreply⟩ | ⟨hknown, hcom⟩ | ⟨j, hj, hid,
    -, hcom⟩
  · cases hu
  · rw [hcom, hreply, findSkref_nil]
  · rw [hcom, findSkref_known hlast hg hknown]
  · rw [hcom, ← hid, findSkref_imported hlast hg hj]

variable {a : SentConf} {ns : Set Int} {n : Int}

theorem SentConf.Reaches.mem (h : a.Reaches ns items skrefs n) : n ∈ ns := by
  cases h with
  | opens hn => exact hn
  | answers hn => exact hn
  | comments hn => exact hn

theorem Receives.idOf (h : Receives a ns items skrefs) (hn : n ∈ ns) : a.idOf n = a.msgid n := by
  unfold SentConf.idOf
  rw [h.written n hn, Option.getD_none]

theorem Importable.msgid_ne_nil {id : CString} (h : Importable items skrefs id) : id ≠ [] := by
  cases h with
  | opens _ hnew => exact hnew.1
  | answer _ hnew => exact hnew.1
  | child _ hnew => exact hnew.1

theorem Receives.isNew (h : Receives a ns items skrefs) (hn : n ∈ ns) :
    ∃ m ∈ items, Exported a n m.msg ∧ m.msg.msgid = a.msgid n ∧ IsNew skrefs m.msg := by
  obtain ⟨m, hm, hexported⟩ := h.arrives n hn
  have hid := hexported.carries.1.msgid
  refine ⟨m, hm, hexported, hid, ?_⟩
  unfold IsNew
  rw [hid]
  exact ⟨a.msgid_ne_nil n, h.unknown n hn⟩

/-- A text that can be reached is one whose message can be imported. -/
theorem Receives.importable (h : Receives a ns items skrefs) (hn : a.Reaches ns items skrefs n) :
    Importable items skrefs (a.msgid n) := by
  induction hn with
  | @opens n hn hcom hsubject =>
    obtain ⟨m, hm, hexported, hid, hnew⟩ := h.isNew hn
    have hreply := hexported.reply
    rw [if_neg (by omega)] at hreply
    rw [← hid]
    refine .opens hm hnew ⟨hreply, ?_⟩
    rw [hexported.carries.1.subject, subjectLooksLikeReply_sf7ToUtf8]
    exact hsubject
  | @answers n hn hcom hparent =>
    obtain ⟨m, hm, hexported, hid, hnew⟩ := h.isNew hn
    have hreply := hexported.reply
    rw [if_pos hcom] at hreply
    rw [← hreply.1] at hparent
    rw [← hid]
    rcases hparent with hknown | ⟨-, himportable⟩
    · exact .answer hm hnew hknown
    · exact .child hm hnew himportable
  | @comments n hn hcom hparent ih =>
    obtain ⟨m, hm, hexported, hid, hnew⟩ := h.isNew hn
    have hreply := hexported.reply
    rw [if_pos hcom, h.idOf hparent.mem] at hreply
    rw [← hreply.1] at ih
    rw [← hid]
    exact .child hm hnew ih

theorem Receives.reaches (h : Receives a ns items skrefs) {id : CString} (hid : Importable items skrefs id) :
    ∀ n ∈ ns, id = a.msgid n → a.Reaches ns items skrefs n := by
  induction hid with
  | @opens m hm hnew hopens =>
    intro n hn hid
    have hexported := h.only n hn m hm hid
    have hcom : ¬ 0 < a.com n := by
      intro hcom
      have hreply := hexported.reply
      rw [if_pos hcom] at hreply
      exact hreply.2 (hreply.1.symm.trans hopens.1)
    refine .opens hn (by omega) ?_
    rw [← subjectLooksLikeReply_sf7ToUtf8, ← hexported.carries.1.subject]
    exact hopens.2
  | @answer m hm hnew hknown =>
    intro n hn hid
    have hreply := (h.only n hn m hm hid).reply
    by_cases hcom : 0 < a.com n
    · rw [if_pos hcom] at hreply
      exact .answers hn hcom (Or.inl (hreply.1 ▸ hknown))
    · rw [if_neg hcom] at hreply
      rw [hreply] at hknown
      cases hknown
  | @child m hm hnew himportable ih =>
    intro n hn hid
    have hreply := (h.only n hn m hm hid).reply
    by_cases hcom : 0 < a.com n
    · rw [if_pos hcom] at hreply
      by_cases hparent : a.com n ∈ ns
      · exact .comments hn hcom (ih (a.com n) hparent (hreply.1.trans (h.idOf hparent)))
      · exact .answers hn hcom (Or.inr ⟨hparent, hreply.1 ▸ himportable⟩)
    · rw [if_neg hcom] at hreply
      exact absurd hreply himportable.msgid_ne_nil

/-- The number of a text is that of the message it was imported from. -/
theorem Receives.number_eq (h : Receives a ns items skrefs) (hlast : 0 ≤ conf.lastText) {hist : List MsgItem}
    (hg : Grows (imports env false items (.start skrefs conf)) items [] hist)
    (hstable : ∀ m ∈ items, imports env false items (.start skrefs conf) hist m = false)
    (hn : a.Reaches ns items skrefs n) :
    ∃ i ∈ (importAfter env false items (.start skrefs conf) hist).imported, i.item.msg.msgid = a.msgid n ∧
      Exported a n i.item.msg ∧
      i.textnum = a.number (importAfter env false items (.start skrefs conf) hist).skrefs n := by
  have hitems := (passed_of_grows hlast hg).items_eq
  obtain ⟨m, hm, hid⟩ := mem_of_importable hlast hg hstable (h.importable hn)
  rw [← hitems] at hm
  obtain ⟨i, hi, rfl⟩ := List.mem_map.mp hm
  have hmem : i.item ∈ items := (hg.mem (hitems ▸ hm)).resolve_left List.not_mem_nil
  refine ⟨i, hi, hid, h.only n hn.mem _ hmem hid, ?_⟩
  rw [SentConf.number, h.idOf hn.mem, ← hid]
  exact (findSkref_imported hlast hg hi).symm

theorem Receives.missing (h : Receives a ns items skrefs) (hlast : 0 ≤ conf.lastText)
    (hindex : IndexOf conf.lastText skrefs) {hist : List MsgItem}
    (hg : Grows (imports env false items (.start skrefs conf)) items [] hist) (hn : n ∈ ns)
    (hno : ¬ a.Reaches ns items skrefs n) :
    a.number (importAfter env false items (.start skrefs conf) hist).skrefs n = 0 := by
  have hitems := (passed_of_grows hlast hg).items_eq
  rw [SentConf.number, h.idOf hn]
  rcases findSkref_importAfter hlast hg (a.msgid n) with ⟨i, hi, hid, -⟩ | hval
  · exact absurd (h.reaches (importable_of_grows hlast hg _ (hitems ▸ List.mem_map_of_mem hi)) n hn hid) hno
  · have hle := findSkref_le hlast hindex (a.msgid n)
    have hunknown := h.unknown n hn
    unfold Known at hunknown
    omega

/-- What is imported belongs together as it did. -/
theorem Receives.mirrors (h : Receives a ns items skrefs) (hlast : 0 ≤ conf.lastText)
    (hindex : IndexOf conf.lastText skrefs) {hist : List MsgItem}
    (hg : Grows (imports env false items (.start skrefs conf)) items [] hist)
    (hstable : ∀ m ∈ items, imports env false items (.start skrefs conf) hist m = false) :
    Mirrors env a ns items skrefs conf.lastText (importAfter env false items (.start skrefs conf) hist) := by
  have hst := stores_importAfter hlast hindex hg
  have hnumber : ∀ n, a.Reaches ns items skrefs n →
      conf.lastText < a.number (importAfter env false items (.start skrefs conf) hist).skrefs n := by
    intro n hn
    obtain ⟨i, hi, -, -, hnum⟩ := h.number_eq hlast hg hstable hn
    rw [← hnum]
    exact (hst.range i hi).2.1
  have hparent : ∀ n, a.Reaches ns items skrefs n → ∃ i ∈ (importAfter env false items (.start skrefs conf)
      hist).imported, Exported a n i.item.msg ∧
        i.textnum = a.number (importAfter env false items (.start skrefs conf) hist).skrefs n ∧
        i.com = if 0 < a.com n then
          a.number (importAfter env false items (.start skrefs conf) hist).skrefs (a.com n) else 0 := by
    intro n hn
    obtain ⟨i, hi, -, hexported, hnum⟩ := h.number_eq hlast hg hstable hn
    refine ⟨i, hi, hexported, hnum, ?_⟩
    have hcom := com_imported hlast hindex hg hi
    have hreply := hexported.reply
    split at hreply
    · next hpos => rw [if_pos hpos, hcom, hreply.1, SentConf.number]
    · next hpos => rw [if_neg hpos, hcom, hreply, findSkref_nil]
  refine ⟨?_, ?_, ?_, ?_, ?_⟩
  · intro n hn
    constructor
    · exact hnumber n
    · intro hlt
      by_contra hno
      rw [h.missing hlast hindex hg hn hno] at hlt
      omega
  · intro n hn hno
    exact h.missing hlast hindex hg hn hno
  · intro n hn q hq hpos heq
    have hreach : ∀ p ∈ ns, 0 < a.number (importAfter env false items (.start skrefs conf) hist).skrefs p →
        a.Reaches ns items skrefs p := by
      intro p hp hlt
      by_contra hno
      rw [h.missing hlast hindex hg hp hno] at hlt
      omega
    obtain ⟨i, hi, hiid, -, hinum⟩ := h.number_eq hlast hg hstable (hreach n hn hpos)
    obtain ⟨j, hj, hjid, -, hjnum⟩ := h.number_eq hlast hg hstable (hreach q hq (heq ▸ hpos))
    have hnodup : ((importAfter env false items (.start skrefs conf) hist).imported.map (·.textnum)).Nodup := by
      rw [(passed_of_grows hlast hg).textnums]
      refine List.Nodup.map ?_ List.nodup_range
      intro x y hxy
      simpa using hxy
    have hij : i = j := List.inj_on_of_nodup_map hnodup hi hj (by rw [hinum, hjnum, heq])
    refine h.distinct hn hq ?_
    rw [← hiid, ← hjid, hij]
  · intro n hn
    obtain ⟨i, hi, hexported, hnum, hcom⟩ := hparent n hn
    exact ⟨i, hi, hexported, hnum, hcom, _, hst.new i hi⟩
  · intro n hn hpos
    obtain ⟨i, hi, hexported, hnum, hcom⟩ := hparent n hn
    have hreply := hexported.reply
    rw [if_pos hpos] at hreply hcom
    have hpar : HasParent skrefs (importAfter env false items (.start skrefs conf) hist).imported i := by
      rcases hasParent_importAfter hlast hindex hg hi with ⟨-, hu | hnil⟩ | hpar
      · cases hu
      · exact absurd (hreply.1.symm.trans hnil) hreply.2
      · exact hpar
    obtain ⟨-, before, after, hline⟩ := linked_importAfter hlast hindex hg hi hpar
    have hrange := hst.range i hi
    have hcompos : 0 < i.com := by
      rcases hpar with ⟨hknown, hcom⟩ | ⟨j, hj, -, -, hcom⟩
      · rw [hcom]
        exact hknown
      · have hj := hst.range j hj
        omega
    rw [← hnum, ← hcom]
    exact ⟨hcompos, hrange.1, before, after, hline⟩

end Import

/-- A system with the area of the second conference. -/
def threadEnv : GateEnv :=
  { envExample with
    prefs := some
      ⟨"AKA 2:201/1\nDOMAIN fidonet\nAREA SYNC 2:201/1 MSG /ftn/sync\nEXPORT %2:201/329\n".toList, false⟩
    sklaffDb := "/sklaff/db".toList
    ftnconf := fun _ => none
    sklaffrc := fun _ => none }

def threadTexts (n : Int) : Option CString :=
  if n = 1 then some "1:7:0:0:0:0:1\nH\x7blsning\nHej\n".toList
  else if n = 2 then some "2:8:0:1:7:0:1\nRe: H\x7blsning\nSvar\n".toList
  else none

def threadConf : SentConf where
  num := 2
  aka := ⟨2, 201, 1, 0⟩
  com := fun n => if n = 2 then 1 else 0
  stored := fun _ => none
  subject := fun n => if n = 2 then "Re: H\x7blsning".toList else "H\x7blsning".toList

def threadText (n : Int) : ExportText :=
  if n = 1 then ⟨7, 0, 0, "H\x7blsning".toList, "Hej\n".toList⟩
  else ⟨8, 0, 1, "Re: H\x7blsning".toList, "Svar\n".toList⟩

theorem threadConf_area : threadConf.HasArea threadEnv ⟨2, 3, 7, 0, 7, 0, 0, "SYNC".toList⟩ := by
  refine ⟨none, ⟨.echomail, "SYNC".toList, "fidonet".toList, "MSG".toList, "/ftn/sync".toList,
    ⟨2, 201, 1, 0⟩, [⟨⟨2, 201, 329, 0⟩, '%'⟩]⟩, ⟨⟨2, 201, 329, 0⟩, '%'⟩,
    ("/ftn/sync/8.msg".toList, 8), rfl, ?_, rfl, ?_⟩
  · decide +kernel
  · decide +kernel

theorem plainBody_of_lines {body : CString} {lines : List CString} (hlines : textLines body = lines)
    (hall : ∀ l ∈ lines, TextLine l ∧ shouldHideCleanLine l = false) (hnul : '\x00' ∉ body) :
    PlainBody body ∧ ∀ l ∈ textLines body, shouldHideCleanLine l = false := by
  rw [hlines]
  exact ⟨⟨fun l hl => (hall l (hlines ▸ hl)).1, hnul⟩, fun l hl => (hall l hl).2⟩

theorem plainExport_example {n : Int} (hn : n = 1 ∨ n = 2) : PlainExport threadEnv (threadText n) := by
  have hname : makeSkomFromName threadEnv.toFtntossEnv (threadText n).uid = "Anna Ek".toList := by
    rcases hn with rfl | rfl <;> decide +kernel
  have hline : ∀ l ∈ ["Hej".toList, "Svar".toList, []], TextLine l ∧ shouldHideCleanLine l = false := by
    simp only [List.mem_cons, List.not_mem_nil, or_false]
    rintro l (rfl | rfl | rfl)
    all_goals exact ⟨⟨plainLine_of_all rfl (by decide), by decide⟩, rfl⟩
  have hlines : (∀ l ∈ ["Hej".toList, []], TextLine l ∧ shouldHideCleanLine l = false) ∧
      ∀ l ∈ ["Svar".toList, []], TextLine l ∧ shouldHideCleanLine l = false :=
    ⟨fun l hl => hline l (by simp at hl ⊢; tauto), fun l hl => hline l (by simp at hl ⊢; tauto)⟩
  have hbody : PlainBody (exportBody threadEnv (threadText n)) ∧
      ∀ l ∈ textLines (exportBody threadEnv (threadText n)), shouldHideCleanLine l = false := by
    rcases hn with rfl | rfl
    · exact @plainBody_of_lines _ ["Hej".toList, []] (by decide +kernel) hlines.1 (by decide +kernel)
    · exact @plainBody_of_lines _ ["Svar".toList, []] (by decide +kernel) hlines.2 (by decide +kernel)
  refine ⟨hbody.1, hbody.2, ?_, ?_⟩
  · rw [hname]
    exact oneLine_of_all rfl
  · rcases hn with rfl | rfl
    · exact @arrivesField_of_ascii 72 "H\x7blsning".toList rfl (by decide) rfl
    · exact @arrivesField_of_ascii 72 "Re: H\x7blsning".toList rfl (by decide) rfl

theorem departs_example {n : Int} (hn : n = 1 ∨ n = 2) : Departs threadConf threadEnv
    ⟨2, 3, 7, 0, 7, 0, 0, "SYNC".toList⟩ threadTexts n (threadText n) := by
  have htext : (threadTexts n).bind readSkomExportText = some (threadText n) := by
    rcases hn with rfl | rfl
    · rfl
    · rfl
  refine ⟨⟨rfl, by decide, by omega⟩, rfl, threadConf_area, htext, ?_, ?_, ?_, ?_, plainExport_example hn, ?_⟩
  · rcases hn with rfl | rfl <;> rfl
  · rcases hn with rfl | rfl <;> rfl
  · intro hcom
    rcases hn with rfl | rfl
    · cases hcom
    · rfl
  · intro id hid
    cases hid
  · exact prints_example

@[irreducible] def threadMsg (n : Int) : FidoMsg :=
  ((exportOneFtnConf threadEnv (some ftnListExample.bytes) (fun _ => threadTexts) 2 n).bind fun p =>
    readFidoMsg (some p.2)).getD (spoolMsg "" "" "")

theorem exported_example {n : Int} (hn : n = 1 ∨ n = 2) : Exported threadConf n (threadMsg n) := by
  have hdeparts := departs_example hn
  obtain ⟨path, data, msg, hexport, hread, -⟩ := hdeparts.arrives
  have hentry : ftnListExample.entry 2 = some ⟨2, 3, 7, 0, 7, 0, 0, "SYNC".toList⟩ := rfl
  rw [← @exportOneFtnConf_eq threadEnv ftnListExample inLine_example (fun _ => threadTexts) 2 n (by decide)
    hdeparts.num.2.2 _ hentry rfl] at hexport
  have hmsg : threadMsg n = msg := by
    unfold threadMsg
    rw [hexport, Option.bind_some, hread, Option.getD_some]
  exact ⟨threadEnv, ftnListExample, fun _ => threadTexts, _, _, path, data, inLine_example, hentry, hdeparts,
    hexport, hmsg ▸ hread⟩

/-- The comment lies in front of the text. -/
def threadItems : List MsgItem := [⟨"4.msg".toList, threadMsg 2⟩, ⟨"9.msg".toList, threadMsg 1⟩]

theorem receives_example : Receives threadConf {1, 2} threadItems [] where
  written := fun _ _ => rfl
  arrives := by
    rintro n (rfl | rfl)
    · exact ⟨_, List.mem_cons_of_mem _ List.mem_cons_self, exported_example (Or.inl rfl)⟩
    · exact ⟨_, List.mem_cons_self, exported_example (Or.inr rfl)⟩
  only := by
    have hne : threadConf.msgid 1 ≠ threadConf.msgid 2 := by decide +kernel
    have h1 := (exported_example (Or.inl rfl)).carries.1.msgid
    have h2 := (exported_example (Or.inr rfl)).carries.1.msgid
    intro n hn m hm hid
    simp only [threadItems, List.mem_cons, List.not_mem_nil, or_false] at hm
    rcases hm with rfl | rfl <;> rcases hn with rfl | rfl
    · exact absurd (hid.symm.trans h2) hne
    · exact exported_example (Or.inr rfl)
    · exact exported_example (Or.inl rfl)
    · exact absurd (h1.symm.trans hid) hne
  unknown := fun n _ => by
    unfold Known findSkref
    simp [threadConf.msgid_ne_nil n]
  distinct := by
    have hne : threadConf.msgid 1 ≠ threadConf.msgid 2 := by decide +kernel
    rintro n (rfl | rfl) q (rfl | rfl) heq
    · rfl
    · exact absurd heq hne
    · exact absurd heq.symm hne
    · rfl

end SklaffKom
