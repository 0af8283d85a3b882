import SklaffKom.FtnText
import SklaffKom.Lib.Sweeps

/-!
# Importing an echomail area

`import_all_ftn` goes through the spool again and again.  A message is stored when its `MSGID` is
not known yet and, in a safe import, when it starts a thread or its parent is known; the index of
known `MSGID`s grows with every message.
-/

open CString Sweeps

namespace SklaffKom

/-- `struct msgitem`, with the message that its file holds. -/
structure MsgItem where
  filename : CString
  msg : FidoMsg
deriving DecidableEq, Repr

structure Skref where
  msgid : CString
  textnum : Int
deriving DecidableEq, Repr

def addSkref (list : List Skref) (msgid : CString) (textnum : Int) : List Skref :=
  if msgid = [] ∨ textnum ≤ 0 then list else ⟨msgid, textnum⟩ :: list

def findSkref (list : List Skref) (msgid : CString) : Int :=
  if msgid = [] then 0
  else
    match list.find? fun p => p.msgid = msgid with
    | some p => p.textnum
    | none => 0

/-- `find_msgref(refs, msgid) != NULL` for the index of the spool. -/
def findMsgref (items : List MsgItem) (msgid : CString) : Bool :=
  msgid ≠ [] ∧ items.any fun m => m.msg.msgid = msgid

def subjectLooksLikeReply (subject : CString) : Bool :=
  match subject.dropWhile isBlank with
  | r :: e :: ':' :: _ => (r = 'R' || r = 'r') && (e = 'E' || e = 'e')
  | _ => false

def unsafeReason (items : List MsgItem) (msg : FidoMsg) : CString :=
  if msg.reply = [] then "re-no-reply".toList
  else if findMsgref items msg.reply then "deferred".toList
  else "orphan".toList

/-- Whether a message is imported: the text it comments on, and why the import is not safe. -/
def importDecision (includeUnsafe : Bool) (items : List MsgItem) (skrefs : List Skref)
    (msg : FidoMsg) : Option (Int × CString) :=
  if msg.msgid = [] then none
  else if findSkref skrefs msg.msgid > 0 then none
  else if msg.reply = [] then
    if subjectLooksLikeReply msg.subject then
      if includeUnsafe then some (0, unsafeReason items msg) else none
    else some (0, [])
  else if findSkref skrefs msg.reply > 0 then some (findSkref skrefs msg.reply, [])
  else if includeUnsafe then some (0, unsafeReason items msg)
  else none

/-- A message that has been stored. -/
structure Imported where
  item : MsgItem
  textnum : Int
  com : Int
  reason : CString
deriving DecidableEq

/-- The index, the conference and what has been imported. -/
structure ImportState where
  skrefs : List Skref
  conf : FtnConf
  imported : List Imported

/-- `send_ftn` and `add_skref` for a message. -/
def storeItem (env : FtnEnv) (s : ImportState) (m : MsgItem) (com : Int) (reason : CString) :
    ImportState :=
  let r := sendFtn env s.conf m.msg com reason
  { skrefs := addSkref s.skrefs m.msg.msgid r.1
    conf := r.2
    imported := s.imported ++ [⟨m, r.1, com, reason⟩] }

/-- A pass over the items; `none` is `goto cleanup` after a failed `send_ftn`. -/
def importPass (env : FtnEnv) (includeUnsafe : Bool) (items : List MsgItem) :
    List MsgItem → ImportState → Option ImportState
  | [], s => some s
  | m :: ms, s =>
    match importDecision includeUnsafe items s.skrefs m.msg with
    | none => importPass env includeUnsafe items ms s
    | some (com, reason) =>
      if (sendFtn env s.conf m.msg com reason).1 ≤ 0 then none
      else importPass env includeUnsafe items ms (storeItem env s m com reason)

/-- `do { changed = 0; ... } while (changed)` of `import_all_ftn`. -/
def importLoop (env : FtnEnv) (includeUnsafe : Bool) (items : List MsgItem) :
    Nat → ImportState → Option ImportState
  | 0, _ => none
  | n + 1, s =>
    match importPass env includeUnsafe items items s with
    | none => none
    | some s' =>
      if s'.imported.length = s.imported.length then some s'
      else importLoop env includeUnsafe items n s'

/-- The state of `import_all_ftn` before the first pass. -/
def ImportState.start (skrefs : List Skref) (conf : FtnConf) : ImportState := ⟨skrefs, conf, []⟩

/-! ## The index -/

theorem findSkref_nil (list : List Skref) : findSkref list [] = 0 := rfl

theorem findSkref_addSkref (list : List Skref) {msgid : CString} (hne : msgid ≠ []) {n : Int}
    (hn : 0 < n) (id : CString) :
    findSkref (addSkref list msgid n) id = if id = msgid then n else findSkref list id := by
  unfold addSkref
  rw [if_neg (by simp only [hne, false_or]; omega)]
  by_cases hid : id = msgid
  · subst hid
    rw [if_pos rfl, findSkref, if_neg hne, List.find?_cons_of_pos (by simp)]
  · rw [if_neg hid]
    unfold findSkref
    rw [List.find?_cons_of_neg (by simpa using fun h => hid h.symm)]

/-- The entries of an index are texts of the conference. -/
def IndexOf (lastText : Int) (skrefs : List Skref) : Prop :=
  ∀ r ∈ skrefs, 0 < r.textnum ∧ r.textnum ≤ lastText

theorem findSkref_le {lastText : Int} (h0 : 0 ≤ lastText) {skrefs : List Skref}
    (h : IndexOf lastText skrefs) (id : CString) :
    0 ≤ findSkref skrefs id ∧ findSkref skrefs id ≤ lastText := by
  unfold findSkref
  split
  · exact ⟨Int.le_refl 0, h0⟩
  · split
    · next p hp =>
      have hb := h p (List.mem_of_find?_eq_some hp)
      exact ⟨Int.le_of_lt hb.1, hb.2⟩
    · exact ⟨Int.le_refl 0, h0⟩

/-- The index after a list of messages has been stored from the number `n` on. -/
def indexAfter (skrefs : List Skref) : Int → List MsgItem → List Skref
  | _, [] => skrefs
  | n, m :: h => indexAfter (addSkref skrefs m.msg.msgid n) (n + 1) h

theorem indexAfter_snoc (skrefs : List Skref) (n : Int) (h : List MsgItem) (m : MsgItem) :
    indexAfter skrefs n (h ++ [m]) =
      addSkref (indexAfter skrefs n h) m.msg.msgid (n + h.length) := by
  induction h generalizing skrefs n with
  | nil => simp [indexAfter]
  | cons a h ih =>
    rw [List.cons_append, indexAfter, ih, indexAfter, List.length_cons]
    congr 1
    push_cast
    omega

/-! ## The passes as sweeps -/

section Refinement

variable (env : FtnEnv) (includeUnsafe : Bool) (items : List MsgItem) (start : ImportState)

/-- What a pass does with an item, when `send_ftn` succeeds. -/
def importItem (s : ImportState) (m : MsgItem) : ImportState :=
  match importDecision includeUnsafe items s.skrefs m.msg with
  | none => s
  | some (com, reason) => storeItem env s m com reason

/-- The state after the messages of a history. -/
def importAfter (h : List MsgItem) : ImportState :=
  h.foldl (importItem env includeUnsafe items) start

/-- Whether an item is imported after a history. -/
def imports (h : List MsgItem) (m : MsgItem) : Bool :=
  (importDecision includeUnsafe items (importAfter env includeUnsafe items start h).skrefs m.msg).isSome

variable {env includeUnsafe items start}

theorem importAfter_snoc (h : List MsgItem) (m : MsgItem) :
    importAfter env includeUnsafe items start (h ++ [m]) =
      importItem env includeUnsafe items (importAfter env includeUnsafe items start h) m := by
  unfold importAfter
  rw [List.foldl_append, List.foldl_cons, List.foldl_nil]

theorem importPass_eq (h0 : ∀ h, Grows (imports env includeUnsafe items start) items [] h →
    0 ≤ (importAfter env includeUnsafe items start h).conf.lastText) {ms h : List MsgItem}
    (hms : ms ⊆ items) (hh : Grows (imports env includeUnsafe items start) items [] h) :
    importPass env includeUnsafe items ms (importAfter env includeUnsafe items start h) =
      some (importAfter env includeUnsafe items start
        (h ++ sweep (imports env includeUnsafe items start) h ms)) := by
  induction ms generalizing h with
  | nil =>
    rw [importPass, sweep_nil, List.append_nil]
  | cons m ms ih =>
    obtain ⟨hm, hms⟩ := List.cons_subset.mp hms
    rw [importPass]
    cases hd : importDecision includeUnsafe items
        (importAfter env includeUnsafe items start h).skrefs m.msg with
    | none =>
      have hf : imports env includeUnsafe items start h m = false := by rw [imports, hd]; rfl
      rw [sweep_of_not hf]
      exact ih hms hh
    | some d =>
      obtain ⟨com, reason⟩ := d
      have hf : imports env includeUnsafe items start h m = true := by rw [imports, hd]; rfl
      have hnext : importAfter env includeUnsafe items start (h ++ [m]) =
          storeItem env (importAfter env includeUnsafe items start h) m com reason := by
        rw [importAfter_snoc, importItem, hd]
      have hpos := h0 h hh
      rw [sweep_of_fires hf, List.append_cons]
      dsimp only
      rw [sendFtn_fst, if_neg (by omega), ← hnext]
      exact ih hms (.take hh hm hf)

theorem length_importAfter {h : List MsgItem}
    (hh : Grows (imports env includeUnsafe items start) items [] h) :
    (importAfter env includeUnsafe items start h).imported.length =
      start.imported.length + h.length := by
  induction hh with
  | refl => rfl
  | @take r m hr hm hf ih =>
    obtain ⟨d, hd⟩ := Option.isSome_iff_exists.mp hf
    rw [importAfter_snoc, importItem, hd, List.length_append]
    show ((importAfter env includeUnsafe items start r).imported ++ [_]).length = _
    rw [List.length_append, ih]
    rfl

/-- The loop of `import_all_ftn` is the repeated sweep. -/
theorem importLoop_eq (h0 : ∀ h, Grows (imports env includeUnsafe items start) items [] h →
    0 ≤ (importAfter env includeUnsafe items start h).conf.lastText) (n : Nat) {h : List MsgItem}
    (hh : Grows (imports env includeUnsafe items start) items [] h) :
    importLoop env includeUnsafe items n (importAfter env includeUnsafe items start h) =
      (sweeps (imports env includeUnsafe items start) items n h).map
        (importAfter env includeUnsafe items start) := by
  induction n generalizing h with
  | zero => rfl
  | succ n ih =>
    have hgrow := hh.trans (grows_sweep h items)
    rw [importLoop, importPass_eq h0 (List.Subset.refl items) hh, sweeps]
    dsimp only
    rw [length_importAfter hgrow, length_importAfter hh, List.length_append]
    by_cases hnil : sweep (imports env includeUnsafe items start) h items = []
    · rw [if_pos hnil, hnil, List.append_nil, List.length_nil, if_pos (by omega)]
      rfl
    · have hpos := List.length_pos_iff.mpr hnil
      rw [if_neg (by omega), if_neg hnil]
      exact ih hgrow

end Refinement

/-! ## What a history leaves -/

/-- A `MSGID` of the index. -/
def Known (skrefs : List Skref) (msgid : CString) : Prop := 0 < findSkref skrefs msgid

instance (skrefs : List Skref) (msgid : CString) : Decidable (Known skrefs msgid) :=
  inferInstanceAs (Decidable (0 < _))

/-- A message that starts a thread: it names no parent and does not look like a reply. -/
def OpensThread (msg : FidoMsg) : Prop :=
  msg.reply = [] ∧ subjectLooksLikeReply msg.subject = false

instance (msg : FidoMsg) : Decidable (OpensThread msg) := inferInstanceAs (Decidable (_ ∧ _))

/-- A message that is not stored and has a `MSGID` to be stored under. -/
def IsNew (skrefs : List Skref) (msg : FidoMsg) : Prop := msg.msgid ≠ [] ∧ ¬ Known skrefs msg.msgid

instance (skrefs : List Skref) (msg : FidoMsg) : Decidable (IsNew skrefs msg) :=
  inferInstanceAs (Decidable (_ ∧ _))

theorem importDecision_isSome (includeUnsafe : Bool) (items : List MsgItem) (skrefs : List Skref)
    (msg : FidoMsg) : (importDecision includeUnsafe items skrefs msg).isSome = true ↔
      IsNew skrefs msg ∧ (includeUnsafe = true ∨ OpensThread msg ∨ Known skrefs msg.reply) := by
  unfold importDecision
  by_cases hid : msg.msgid = []
  · rw [if_pos hid]
    exact iff_of_false Bool.false_ne_true fun h => h.1.1 hid
  rw [if_neg hid]
  by_cases hk : findSkref skrefs msg.msgid > 0
  · rw [if_pos hk]
    exact iff_of_false Bool.false_ne_true fun h => h.1.2 hk
  rw [if_neg hk, and_iff_right (show IsNew skrefs msg from ⟨hid, hk⟩)]
  by_cases hr : msg.reply = []
  · have hp : ¬ Known skrefs msg.reply := by
      rw [hr]
      exact Int.lt_irrefl 0
    rw [if_pos hr]
    unfold OpensThread
    rw [hr] at hp ⊢
    cases hre : subjectLooksLikeReply msg.subject <;> cases includeUnsafe <;> simp [hp]
  · have ho : ¬ OpensThread msg := fun h => hr h.1
    rw [if_neg hr]
    by_cases hp : findSkref skrefs msg.reply > 0
    · rw [if_pos hp]
      exact iff_of_true rfl (Or.inr (Or.inr hp))
    · have hp' : ¬ Known skrefs msg.reply := hp
      rw [if_neg hp]
      cases includeUnsafe <;> simp [ho, hp']

/-- The text that an imported message comments on is the one its `REPLY` is found under. -/
theorem importDecision_com {includeUnsafe : Bool} {items : List MsgItem} {skrefs : List Skref}
    {msg : FidoMsg} (h0 : 0 ≤ findSkref skrefs msg.reply) {com : Int} {reason : CString}
    (h : importDecision includeUnsafe items skrefs msg = some (com, reason)) :
    com = findSkref skrefs msg.reply := by
  unfold importDecision at h
  split at h
  · cases h
  split at h
  · cases h
  split at h
  · next hr =>
    rw [hr, findSkref_nil]
    split at h
    · split at h
      · cases h
        rfl
      · cases h
    · cases h
      rfl
  split at h
  · cases h
    rfl
  · next hp =>
    split at h
    · cases h
      omega
    · cases h

theorem known_indexAfter {skrefs : List Skref} {n : Int} (hn : 0 < n) {h : List MsgItem}
    (hne : ∀ m ∈ h, m.msg.msgid ≠ []) (id : CString) :
    Known (indexAfter skrefs n h) id ↔ (∃ m ∈ h, m.msg.msgid = id) ∨ Known skrefs id := by
  induction h using List.reverseRecOn with
  | nil => simp [indexAfter]
  | append_singleton h m ih =>
    have hm := hne m (List.mem_append_right _ List.mem_cons_self)
    have ih := ih fun m hm => hne m (List.mem_append_left _ hm)
    rw [indexAfter_snoc]
    unfold Known at ih ⊢
    rw [findSkref_addSkref _ hm (by omega)]
    by_cases hid : id = m.msg.msgid
    · rw [if_pos hid]
      refine iff_of_true (by omega) (Or.inl ⟨m, by simp, hid.symm⟩)
    · rw [if_neg hid, ih]
      simp only [List.mem_append, List.mem_singleton, or_and_right, exists_or, exists_eq_left]
      have hid' : ¬ m.msg.msgid = id := fun he => hid he.symm
      simp [hid']

/-- The index and the log after a history of imports. -/
structure Passed (skrefs : List Skref) (conf : FtnConf) (h : List MsgItem) (s : ImportState) :
    Prop where
  skrefs_eq : s.skrefs = indexAfter skrefs (conf.lastText + 1) h
  items_eq : s.imported.map (·.item) = h
  textnums : s.imported.map (·.textnum) =
    (List.range h.length).map fun k : Nat => conf.lastText + 1 + k
  lastText : s.conf.lastText = conf.lastText + h.length
  isNew : ∀ m ∈ h, IsNew skrefs m.msg
  nodup : (h.map (·.msg.msgid)).Nodup

section History

variable {env : FtnEnv} {includeUnsafe : Bool} {items : List MsgItem} {skrefs : List Skref}
  {conf : FtnConf}

/-- The rule of a pass after a history. -/
theorem imports_iff (hlast : 0 ≤ conf.lastText) {h : List MsgItem}
    (hp : Passed skrefs conf h (importAfter env includeUnsafe items (.start skrefs conf) h))
    (m : MsgItem) : imports env includeUnsafe items (.start skrefs conf) h m = true ↔
      (IsNew skrefs m.msg ∧ ∀ a ∈ h, a.msg.msgid ≠ m.msg.msgid) ∧
        (includeUnsafe = true ∨ OpensThread m.msg ∨ (∃ a ∈ h, a.msg.msgid = m.msg.reply) ∨
          Known skrefs m.msg.reply) := by
  have hknown := @known_indexAfter skrefs (conf.lastText + 1) (by omega) _
    fun m hm => (hp.isNew m hm).1
  have hnew : IsNew (indexAfter skrefs (conf.lastText + 1) h) m.msg ↔
      IsNew skrefs m.msg ∧ ∀ a ∈ h, a.msg.msgid ≠ m.msg.msgid := by
    unfold IsNew
    rw [hknown, not_or, and_left_comm, and_comm]
    simp only [not_exists, not_and, ne_eq, and_assoc]
  unfold imports
  rw [importDecision_isSome, hp.skrefs_eq, hnew, hknown]

theorem passed_snoc (hlast : 0 ≤ conf.lastText) {h : List MsgItem} {m : MsgItem}
    (hp : Passed skrefs conf h (importAfter env includeUnsafe items (.start skrefs conf) h))
    (hf : imports env includeUnsafe items (.start skrefs conf) h m = true) :
    Passed skrefs conf (h ++ [m])
      (importAfter env includeUnsafe items (.start skrefs conf) (h ++ [m])) := by
  obtain ⟨⟨hnew, hfresh⟩, -⟩ := (imports_iff hlast hp m).mp hf
  obtain ⟨⟨com, reason⟩, hd⟩ := Option.isSome_iff_exists.mp hf
  rw [importAfter_snoc, importItem, hd]
  refine ⟨?_, ?_, ?_, ?_, ?_, ?_⟩
  · show addSkref _ _ (_ + 1) = _
    rw [hp.skrefs_eq, indexAfter_snoc, hp.lastText]
    congr 1
    omega
  · show List.map _ (_ ++ [_]) = _
    rw [List.map_append, hp.items_eq]
    rfl
  · show List.map _ (_ ++ [_]) = _
    rw [List.map_append, hp.textnums, List.length_append, List.length_singleton, List.range_succ,
      List.map_append]
    show _ ++ [(importAfter _ _ _ _ _).conf.lastText + 1] = _ ++ [conf.lastText + 1 + (h.length : Int)]
    rw [hp.lastText]
    congr 2
    omega
  · show (sendFtn _ _ _ _ _).2.lastText = _
    rw [sendFtn_lastText, hp.lastText, List.length_append, List.length_singleton]
    push_cast
    omega
  · intro a ha
    rw [List.mem_append, List.mem_singleton] at ha
    cases ha with
    | inl ha => exact hp.isNew a ha
    | inr ha => exact ha ▸ hnew
  · rw [List.map_append, List.nodup_append]
    refine ⟨hp.nodup, by simp, ?_⟩
    intro a ha b hb
    obtain ⟨c, hc, rfl⟩ := List.mem_map.mp ha
    rw [List.map_singleton, List.mem_singleton] at hb
    rw [hb]
    exact hfresh c hc

theorem passed_of_grows (hlast : 0 ≤ conf.lastText) {h : List MsgItem}
    (hg : Grows (imports env includeUnsafe items (.start skrefs conf)) items [] h) :
    Passed skrefs conf h (importAfter env includeUnsafe items (.start skrefs conf) h) :=
  hg.invariant
    (I := fun h => Passed skrefs conf h (importAfter env includeUnsafe items (.start skrefs conf) h))
    (fun _ _ hp _ hf => passed_snoc hlast hp hf)
    ⟨rfl, rfl, rfl, by simp [importAfter, ImportState.start], by simp, by simp⟩

/-- The text under which a `MSGID` is found is the imported one, or the one it was stored as. -/
theorem findSkref_importAfter (hlast : 0 ≤ conf.lastText) {h : List MsgItem}
    (hg : Grows (imports env includeUnsafe items (.start skrefs conf)) items [] h) (id : CString) :
    let s := importAfter env includeUnsafe items (.start skrefs conf) h
    (∃ j ∈ s.imported, j.item.msg.msgid = id ∧ findSkref s.skrefs id = j.textnum) ∨
      findSkref s.skrefs id = findSkref skrefs id := by
  induction hg with
  | refl => exact Or.inr rfl
  | @take r m hr _ hf ih =>
    have hp := passed_of_grows hlast hr
    obtain ⟨⟨⟨hne, -⟩, -⟩, -⟩ := (imports_iff hlast hp m).mp hf
    obtain ⟨⟨com, reason⟩, hd⟩ := Option.isSome_iff_exists.mp hf
    rw [importAfter_snoc, importItem, hd]
    intro s
    have hpos : 0 < (sendFtn env (importAfter env includeUnsafe items (.start skrefs conf) r).conf
        m.msg com reason).1 := by
      rw [sendFtn_fst, hp.lastText]
      omega
    have hfind := findSkref_addSkref (importAfter env includeUnsafe items (.start skrefs conf) r).skrefs
      hne hpos id
    by_cases hid : id = m.msg.msgid
    · rw [if_pos hid] at hfind
      exact Or.inl ⟨_, List.mem_append_right _ List.mem_cons_self, hid.symm, hfind⟩
    · rw [if_neg hid] at hfind
      show (∃ j ∈ _, _ ∧ findSkref (addSkref _ _ _) id = _) ∨ findSkref (addSkref _ _ _) id = _
      rw [hfind]
      exact ih.imp_left fun ⟨j, hj, h1, h2⟩ => ⟨j, List.mem_append_left _ hj, h1, h2⟩

/-- The parent of an imported message. -/
def HasParent (skrefs : List Skref) (imported : List Imported) (i : Imported) : Prop :=
  (Known skrefs i.item.msg.reply ∧ i.com = findSkref skrefs i.item.msg.reply) ∨
    ∃ j ∈ imported, j.item.msg.msgid = i.item.msg.reply ∧ j.textnum < i.textnum ∧ i.com = j.textnum

theorem hasParent_importAfter (hlast : 0 ≤ conf.lastText) (hindex : IndexOf conf.lastText skrefs)
    {h : List MsgItem} (hg : Grows (imports env includeUnsafe items (.start skrefs conf)) items [] h)
    {i : Imported} (hi : i ∈ (importAfter env includeUnsafe items (.start skrefs conf) h).imported) :
    (i.com = 0 ∧ (includeUnsafe = true ∨ i.item.msg.reply = [])) ∨
      HasParent skrefs (importAfter env includeUnsafe items (.start skrefs conf) h).imported i := by
  induction hg with
  | refl => cases hi
  | @take r m hr _ hf ih =>
    have hp := passed_of_grows hlast hr
    obtain ⟨-, hrule⟩ := (imports_iff hlast hp m).mp hf
    obtain ⟨⟨com, reason⟩, hd⟩ := Option.isSome_iff_exists.mp hf
    rw [importAfter_snoc, importItem, hd] at hi ⊢
    have hi : i ∈ (importAfter env includeUnsafe items (.start skrefs conf) r).imported ++ [_] := hi
    rw [List.mem_append, List.mem_singleton] at hi
    cases hi with
    | inl hi =>
      refine (ih hi).imp_right fun hpar => hpar.imp_right ?_
      rintro ⟨j, hj, hrest⟩
      exact ⟨j, List.mem_append_left _ hj, hrest⟩
    | inr hi =>
      subst hi
      dsimp only
      have hfound := findSkref_importAfter hlast hr m.msg.reply
      have hold := findSkref_le hlast hindex m.msg.reply
      -- the number of a text that was imported before
      have hlt : ∀ j ∈ (importAfter env includeUnsafe items (.start skrefs conf) r).imported,
          0 < j.textnum ∧ j.textnum < conf.lastText + r.length + 1 := by
        intro j hj
        have hmem := List.mem_map_of_mem (f := (·.textnum)) hj
        rw [hp.textnums] at hmem
        obtain ⟨k, hk, hkj⟩ := List.mem_map.mp hmem
        rw [List.mem_range] at hk
        omega
      have hcom : com = findSkref (importAfter env includeUnsafe items (.start skrefs conf) r).skrefs
          m.msg.reply := by
        refine importDecision_com ?_ hd
        rcases hfound with ⟨j, hj, -, hval⟩ | hval
        · have := hlt j hj
          omega
        · omega
      rw [hcom]
      rcases hfound with ⟨j, hj, hid, hval⟩ | hval
      · refine Or.inr (Or.inr ⟨j, List.mem_append_left _ hj, hid, ?_, hval⟩)
        show j.textnum < _ + 1
        rw [hp.lastText]
        exact (hlt j hj).2
      · by_cases hk : Known skrefs m.msg.reply
        · exact Or.inr (Or.inl ⟨hk, hval⟩)
        · refine Or.inl ⟨?_, ?_⟩
          · unfold Known at hk
            omega
          · rcases hrule with hu | ho | hpar
            · exact Or.inl hu
            · exact Or.inr ho.1
            · exfalso
              have hknown := (@known_indexAfter skrefs (conf.lastText + 1) (by omega) _
                (fun m hm => (hp.isNew m hm).1) m.msg.reply).mpr hpar
              rw [← hp.skrefs_eq] at hknown
              unfold Known at hknown hk
              omega

def childLinks (imported : List Imported) (n : Int) : CString :=
  (imported.filter fun i => i.com = n).flatMap fun i => linkLine ⟨i.textnum, 0⟩

theorem childLinks_snoc (imported : List Imported) (i : Imported) (n : Int) :
    childLinks (imported ++ [i]) n =
      childLinks imported n ++ if i.com = n then linkLine ⟨i.textnum, 0⟩ else [] := by
  unfold childLinks
  rw [List.filter_append, List.flatMap_append]
  by_cases hi : i.com = n
  · simp [hi]
  · simp [hi]

/-- The file of an imported text when it is written. -/
def importedFile (env : FtnEnv) (i : Imported) : CString :=
  ftnTextFile env.area i.textnum (ftnTextTime env i.item.msg) i.com i.item.msg i.reason

/-- The text files after a history: what they were, with the lines for the new comments. -/
structure Stores (env : FtnEnv) (conf : FtnConf) (s : ImportState) : Prop where
  old : ∀ k, 0 < k → k ≤ conf.lastText → s.conf.texts k =
    if childLinks s.imported k = [] then conf.texts k
    else some ((conf.texts k).getD [] ++ childLinks s.imported k)
  new : ∀ i ∈ s.imported, s.conf.texts i.textnum =
    some (importedFile env i ++ childLinks s.imported i.textnum)
  range : ∀ i ∈ s.imported, i.com < i.textnum ∧ conf.lastText < i.textnum ∧
    i.textnum ≤ s.conf.lastText

theorem linkLine_ne_nil (c : CommentLink) : linkLine c ≠ [] := by
  simp [linkLine]

theorem stores_importAfter (hlast : 0 ≤ conf.lastText) (hindex : IndexOf conf.lastText skrefs)
    {h : List MsgItem} (hg : Grows (imports env includeUnsafe items (.start skrefs conf)) items [] h) :
    Stores env conf (importAfter env includeUnsafe items (.start skrefs conf) h) := by
  induction hg with
  | refl =>
    refine ⟨?_, ?_, ?_⟩
    · intro k _ _
      exact (if_pos rfl).symm
    · intro i hi
      cases hi
    · intro i hi
      cases hi
  | @take r m hr hm hf ih =>
    have hp := passed_of_grows hlast hr
    have hpar := @hasParent_importAfter env includeUnsafe items skrefs conf hlast hindex _ (hr.take hm hf)
    obtain ⟨⟨com, reason⟩, hd⟩ := Option.isSome_iff_exists.mp hf
    rw [importAfter_snoc, importItem, hd] at hpar ⊢
    set s := importAfter env includeUnsafe items (.start skrefs conf) r with hs
    -- the number of the parent is that of a text before this one
    have hcom : com ≤ s.conf.lastText := by
      rcases hpar (List.mem_append_right _ List.mem_cons_self) with ⟨h0, -⟩ | ⟨-, hk⟩ | ⟨j, hj, -, hlt, hj'⟩
      · have h0 : com = 0 := h0
        rw [h0, hp.lastText]
        omega
      · have hk : com = findSkref skrefs m.msg.reply := hk
        have hle := findSkref_le hlast hindex m.msg.reply
        rw [hk, hp.lastText]
        omega
      · have hlt : j.textnum < s.conf.lastText + 1 := hlt
        have hj' : com = j.textnum := hj'
        omega
    have hpos : 0 ≤ s.conf.lastText := by
      rw [hp.lastText]
      omega
    have htexts := sendFtn_texts env s.conf m.msg hcom hpos reason
    have hlastText : (storeItem env s m com reason).conf.lastText = s.conf.lastText + 1 :=
      sendFtn_lastText env s.conf m.msg com reason
    have himported : (storeItem env s m com reason).imported =
        s.imported ++ [⟨m, s.conf.lastText + 1, com, reason⟩] := rfl
    refine ⟨?_, ?_, ?_⟩
    · intro k hk0 hk
      rw [himported, childLinks_snoc]
      show (sendFtn env s.conf m.msg com reason).2.texts k = _
      rw [htexts, if_neg (by rw [hp.lastText]; omega), ih.old k hk0 hk]
      by_cases hkc : com = k
      · have hne : ¬ childLinks s.imported k ++ linkLine ⟨s.conf.lastText + 1, 0⟩ = [] := by
          simp [linkLine_ne_nil]
        rw [if_pos ⟨by omega, hkc.symm⟩, if_pos hkc, if_neg hne]
        split
        · next hnil => rw [hnil, List.nil_append]
        · rw [Option.getD_some, List.append_assoc]
      · rw [if_neg (fun h => hkc h.2.symm), if_neg hkc, List.append_nil]
    · intro i hi
      rw [himported, childLinks_snoc]
      show (sendFtn env s.conf m.msg com reason).2.texts i.textnum = _
      rw [htexts]
      rw [himported, List.mem_append, List.mem_singleton] at hi
      cases hi with
      | inl hi =>
        have hrange := ih.range i hi
        rw [if_neg (by omega), ih.new i hi]
        by_cases hkc : com = i.textnum
        · rw [if_pos ⟨by omega, hkc.symm⟩, if_pos hkc, Option.getD_some, List.append_assoc]
        · rw [if_neg (fun h => hkc h.2.symm), if_neg hkc, List.append_nil]
      | inr hi =>
        subst hi
        have hnone : childLinks s.imported (s.conf.lastText + 1) = [] := by
          unfold childLinks
          rw [List.flatMap_eq_nil_iff]
          intro j hj
          obtain ⟨hj, hjc⟩ := List.mem_filter.mp hj
          have hrange := ih.range j hj
          have hjc := of_decide_eq_true hjc
          omega
        rw [if_pos rfl]
        dsimp only
        rw [hnone, if_neg (by omega), List.append_nil, List.append_nil]
        rfl
    · intro i hi
      rw [himported, List.mem_append, List.mem_singleton] at hi
      rw [hlastText]
      cases hi with
      | inl hi =>
        have hrange := ih.range i hi
        omega
      | inr hi =>
        subst hi
        dsimp only
        rw [hp.lastText] at hcom ⊢
        omega

end History

/-! ## The safe import -/

/-- The `MSGID`s a safe import can reach: of threads, of replies to stored texts, and of replies to
messages that it can reach. -/
inductive Importable (items : List MsgItem) (skrefs : List Skref) : CString → Prop
  | opens {m : MsgItem} : m ∈ items → IsNew skrefs m.msg → OpensThread m.msg →
      Importable items skrefs m.msg.msgid
  | answer {m : MsgItem} : m ∈ items → IsNew skrefs m.msg → Known skrefs m.msg.reply →
      Importable items skrefs m.msg.msgid
  | child {m : MsgItem} : m ∈ items → IsNew skrefs m.msg → Importable items skrefs m.msg.reply →
      Importable items skrefs m.msg.msgid

theorem Importable.mono {items items' : List MsgItem} {skrefs : List Skref} (hsub : items ⊆ items')
    {id : CString} (h : Importable items skrefs id) : Importable items' skrefs id := by
  induction h with
  | opens hm hnew ho => exact .opens (hsub hm) hnew ho
  | answer hm hnew hk => exact .answer (hsub hm) hnew hk
  | child hm hnew _ ih => exact .child (hsub hm) hnew ih

section Safe

variable {env : FtnEnv} {items : List MsgItem} {skrefs : List Skref} {conf : FtnConf}

theorem importable_of_grows (hlast : 0 ≤ conf.lastText) {h : List MsgItem}
    (hg : Grows (imports env false items (.start skrefs conf)) items [] h) :
    ∀ m ∈ h, Importable items skrefs m.msg.msgid := by
  induction hg with
  | refl => simp
  | @take r m hr hm hf ih =>
    obtain ⟨⟨hnew, -⟩, hrule⟩ := (imports_iff hlast (passed_of_grows hlast hr) m).mp hf
    intro a ha
    rw [List.mem_append, List.mem_singleton] at ha
    cases ha with
    | inl ha => exact ih a ha
    | inr ha =>
      subst ha
      rcases hrule with hu | ho | ⟨b, hb, hid⟩ | hk
      · cases hu
      · exact .opens hm hnew ho
      · exact .child hm hnew (hid ▸ ih b hb)
      · exact .answer hm hnew hk

/-- When no item is taken any more, all that can be reached is there. -/
theorem mem_of_importable (hlast : 0 ≤ conf.lastText) {h : List MsgItem}
    (hg : Grows (imports env false items (.start skrefs conf)) items [] h)
    (hstable : ∀ m ∈ items, imports env false items (.start skrefs conf) h m = false) {id : CString}
    (hid : Importable items skrefs id) : ∃ m ∈ h, m.msg.msgid = id := by
  have hp := passed_of_grows hlast hg
  have hmem : ∀ m ∈ items, IsNew skrefs m.msg → (OpensThread m.msg ∨
      (∃ a ∈ h, a.msg.msgid = m.msg.reply) ∨ Known skrefs m.msg.reply) →
      ∃ a ∈ h, a.msg.msgid = m.msg.msgid := by
    intro m hm hnew hrule
    by_contra hnone
    have hfresh : ∀ a ∈ h, a.msg.msgid ≠ m.msg.msgid := fun a ha he => hnone ⟨a, ha, he⟩
    have hf := (imports_iff hlast hp m).mpr ⟨⟨hnew, hfresh⟩, Or.inr hrule⟩
    rw [hstable m hm] at hf
    cases hf
  induction hid with
  | opens hm hnew ho => exact hmem _ hm hnew (Or.inl ho)
  | answer hm hnew hk => exact hmem _ hm hnew (Or.inr (Or.inr hk))
  | child hm hnew _ ih => exact hmem _ hm hnew (Or.inr (Or.inl ih))

/-- The repeated passes come to an end, whatever the order of the items. -/
theorem importLoop_total (hlast : 0 ≤ conf.lastText) (includeUnsafe : Bool) :
    ∃ h, Grows (imports env includeUnsafe items (.start skrefs conf)) items [] h ∧
      (∀ m ∈ items, imports env includeUnsafe items (.start skrefs conf) h m = false) ∧
      sweeps (imports env includeUnsafe items (.start skrefs conf)) items (items.length + 1) [] =
        some h ∧
      ∀ n, items.length < n → importLoop env includeUnsafe items n (.start skrefs conf) =
        some (importAfter env includeUnsafe items (.start skrefs conf) h) := by
  -- a stored message is known, so it is taken once
  have hself : ∀ r m, Grows (imports env includeUnsafe items (.start skrefs conf)) items [] r →
      m ∈ r → imports env includeUnsafe items (.start skrefs conf) r m = false := by
    intro r m hr hm
    rw [Bool.eq_false_iff]
    intro hf
    exact ((imports_iff hlast (passed_of_grows hlast hr) m).mp hf).1.2 m hm rfl
  have hcount : items.countP (fun a => decide (a ∉ ([] : List MsgItem))) < items.length + 1 :=
    Nat.lt_succ_of_le List.countP_le_length
  obtain ⟨h, hh⟩ := sweeps_total hself .refl hcount
  have hlastText : ∀ r, Grows (imports env includeUnsafe items (.start skrefs conf)) items [] r →
      0 ≤ (importAfter env includeUnsafe items (.start skrefs conf) r).conf.lastText := by
    intro r hr
    rw [(passed_of_grows hlast hr).lastText]
    omega
  refine ⟨h, sweeps_grows hh, sweeps_stable hh, hh, ?_⟩
  intro n hn
  have hloop := importLoop_eq hlastText n (h := []) .refl
  rw [sweeps_mono hn hh] at hloop
  exact hloop

/-- A message is linked to a text: its header line names the text, and the text has a line for it. -/
def Linked (env : FtnEnv) (conf : FtnConf) (i : Imported) : Prop :=
  (∃ rest, conf.texts i.textnum = some (importedFile env i ++ rest)) ∧
    ∃ a b, conf.texts i.com = some (a ++ linkLine ⟨i.textnum, 0⟩ ++ b)

theorem linked_importAfter (hlast : 0 ≤ conf.lastText) (hindex : IndexOf conf.lastText skrefs)
    {h : List MsgItem} (hg : Grows (imports env false items (.start skrefs conf)) items [] h)
    {i : Imported} (hi : i ∈ (importAfter env false items (.start skrefs conf) h).imported)
    (hpar : HasParent skrefs (importAfter env false items (.start skrefs conf) h).imported i) :
    Linked env (importAfter env false items (.start skrefs conf) h).conf i := by
  have hst := stores_importAfter hlast hindex hg
  set s := importAfter env false items (.start skrefs conf) h
  refine ⟨⟨_, hst.new i hi⟩, ?_⟩
  have hmem : i ∈ s.imported.filter fun j => j.com = i.com :=
    List.mem_filter.mpr ⟨hi, decide_eq_true rfl⟩
  obtain ⟨x, y, hxy⟩ := List.append_of_mem hmem
  have hlinks : childLinks s.imported i.com = (x.flatMap fun j => linkLine ⟨j.textnum, 0⟩) ++
      linkLine ⟨i.textnum, 0⟩ ++ (y.flatMap fun j => linkLine ⟨j.textnum, 0⟩) := by
    unfold childLinks
    rw [hxy, List.flatMap_append, List.flatMap_cons, List.append_assoc]
  rcases hpar with ⟨hk, hcom⟩ | ⟨j, hj, -, -, hcom⟩
  · have hle := findSkref_le hlast hindex i.item.msg.reply
    have hne : ¬ childLinks s.imported i.com = [] := by
      rw [hlinks]
      simp [linkLine_ne_nil]
    have hold := hst.old i.com (by rw [hcom]; exact hk) (by rw [hcom]; exact hle.2)
    rw [if_neg hne, hlinks] at hold
    exact ⟨_ ++ _, _, by rw [hold]; simp only [List.append_assoc]; rfl⟩
  · have hnew := hst.new j hj
    rw [← hcom, hlinks] at hnew
    exact ⟨_ ++ _, _, by rw [hnew]; simp only [List.append_assoc]; rfl⟩

theorem importLoop_some (hlast : 0 ≤ conf.lastText) {includeUnsafe : Bool} {n : Nat}
    {s : ImportState} (hs : importLoop env includeUnsafe items n (.start skrefs conf) = some s) :
    ∃ h, Grows (imports env includeUnsafe items (.start skrefs conf)) items [] h ∧
      (∀ m ∈ items, imports env includeUnsafe items (.start skrefs conf) h m = false) ∧
      s = importAfter env includeUnsafe items (.start skrefs conf) h := by
  have hlastText : ∀ r, Grows (imports env includeUnsafe items (.start skrefs conf)) items [] r →
      0 ≤ (importAfter env includeUnsafe items (.start skrefs conf) r).conf.lastText := by
    intro r hr
    rw [(passed_of_grows hlast hr).lastText]
    omega
  have hloop := importLoop_eq hlastText n (h := []) .refl
  have hstart : importAfter env includeUnsafe items (.start skrefs conf) [] = .start skrefs conf := rfl
  rw [hstart, hs] at hloop
  obtain ⟨h, hh, hs⟩ := Option.map_eq_some_iff.mp hloop.symm
  exact ⟨h, sweeps_grows hh, sweeps_stable hh, hs.symm⟩

/-- The imported `MSGID`s are the ones that can be reached. -/
theorem importLoop_msgids (hlast : 0 ≤ conf.lastText) {n : Nat} {s : ImportState}
    (hs : importLoop env false items n (.start skrefs conf) = some s) (id : CString) :
    (∃ i ∈ s.imported, i.item.msg.msgid = id) ↔ Importable items skrefs id := by
  obtain ⟨h, hg, hstable, rfl⟩ := importLoop_some hlast hs
  have hitems := (passed_of_grows hlast hg).items_eq
  have hiff : (∃ i ∈ (importAfter env false items (.start skrefs conf) h).imported,
      i.item.msg.msgid = id) ↔ ∃ m ∈ h, m.msg.msgid = id := by
    conv_rhs => rw [← hitems]
    simp only [List.mem_map, exists_exists_and_eq_and]
  rw [hiff]
  constructor
  · rintro ⟨m, hm, rfl⟩
    exact importable_of_grows hlast hg m hm
  · exact mem_of_importable hlast hg hstable

/-- What a safe import of a spool ends with. -/
structure SafeImport (env : FtnEnv) (items : List MsgItem) (skrefs : List Skref) (conf : FtnConf)
    (s : ImportState) : Prop where
  msgids : ∀ id, (∃ i ∈ s.imported, i.item.msg.msgid = id) ↔ Importable items skrefs id
  anyOrder : ∀ items' n s', items'.Perm items →
    importLoop env false items' n (.start skrefs conf) = some s' →
    ∀ id, (∃ i ∈ s'.imported, i.item.msg.msgid = id) ↔ ∃ i ∈ s.imported, i.item.msg.msgid = id
  once : (s.imported.map (·.item.msg.msgid)).Nodup
  textnums : s.imported.map (·.textnum) =
    (List.range s.imported.length).map fun k : Nat => conf.lastText + 1 + k
  parents : ∀ i ∈ s.imported, i.item ∈ items ∧
    (i.item.msg.reply = [] ∧ i.com = 0 ∨ HasParent skrefs s.imported i ∧ Linked env s.conf i)

/-- The safe import of a spool.  It ends; what it imports is the least set of new `MSGID`s that
start a thread or answer a stored or imported message, in whatever order the spool is; every
`MSGID` is imported once, under the numbers after the last text; and every reply is linked to the
text that its parent is stored as. -/
theorem importAllFtn_safe (env : FtnEnv) (items : List MsgItem) (skrefs : List Skref)
    (conf : FtnConf) (hlast : 0 ≤ conf.lastText) (hindex : IndexOf conf.lastText skrefs) :
    ∃ s, (∀ n, items.length < n → importLoop env false items n (.start skrefs conf) = some s) ∧
      SafeImport env items skrefs conf s := by
  obtain ⟨h, hg, hstable, -, hloop⟩ := @importLoop_total env items skrefs conf hlast false
  have hp := passed_of_grows hlast hg
  have hids := importLoop_msgids hlast (hloop (items.length + 1) (Nat.lt_succ_self _))
  refine ⟨_, hloop, hids, ?_, ?_, ?_, ?_⟩
  · intro items' n s' hperm hs' id
    rw [importLoop_msgids hlast hs', hids]
    exact ⟨fun h => h.mono hperm.subset, fun h => h.mono hperm.symm.subset⟩
  · have hnodup := hp.nodup
    rw [← hp.items_eq, List.map_map] at hnodup
    exact hnodup
  · have hlen := congrArg List.length hp.items_eq
    rw [List.length_map] at hlen
    rw [hlen]
    exact hp.textnums
  · intro i hi
    refine ⟨?_, ?_⟩
    · have hmem := List.mem_map_of_mem (f := Imported.item) hi
      rw [hp.items_eq] at hmem
      exact (hg.mem hmem).resolve_left (List.not_mem_nil)
    · rcases hasParent_importAfter hlast hindex hg hi with ⟨hcom, hu | hreply⟩ | hpar
      · cases hu
      · exact Or.inl ⟨hreply, hcom⟩
      · exact Or.inr ⟨hpar, linked_importAfter hlast hindex hg hi hpar⟩

end Safe

def spoolMsg (msgid reply subject : String) : FidoMsg where
  fromName := "Anna".toList
  toName := "All".toList
  subject := subject.toList
  date := "14 Jun 26  21:55:49".toList
  chrs := []
  msgid := msgid.toList
  reply := reply.toList
  tid := []
  tzutc := []
  rawBody := []
  cleanBody := "Hej\n".toList

/-- The files `1.msg`, `2.msg` and so on. -/
def spool (msgs : List FidoMsg) : List MsgItem :=
  msgs.zipIdx.map fun m => ⟨decimal (m.2 + 1) ++ ".msg".toList, m.1⟩

def ftnEnvExample : FtnEnv := ⟨"SKLAFF".toList, fun _ => 0, 0⟩

def emptyFtnConf : FtnConf := ⟨0, fun _ => none⟩

theorem importAllFtn_safe_thread :
    ∃ s, (∀ n, 2 < n → importLoop ftnEnvExample false
        (spool [spoolMsg "B" "A" "Re: hej", spoolMsg "A" "" "hej"]) n (.start [] emptyFtnConf) =
          some s) ∧
      SafeImport ftnEnvExample (spool [spoolMsg "B" "A" "Re: hej", spoolMsg "A" "" "hej"]) []
        emptyFtnConf s :=
  importAllFtn_safe ftnEnvExample (spool [spoolMsg "B" "A" "Re: hej", spoolMsg "A" "" "hej"]) []
    emptyFtnConf (by decide) (by simp [IndexOf])

end SklaffKom
