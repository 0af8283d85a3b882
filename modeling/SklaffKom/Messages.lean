import SklaffKom.TextFile
import SklaffKom.Lib.Runs

/-!
# Messages between users

`send_msg` appends the line `uid:type:text` to the message file of another user.  The receiver's
`display_msg` takes over all that the file holds and empties it, and then parses, keeps and shows
one message after the other.
-/

open CString Runs

namespace SklaffKom

/-- `MSG_SAY`, ... -/
def msgSay : Int := 1
def msgYell : Int := 2
def msgLogin : Int := 3
def msgLogout : Int := 4
def msgI : Int := 5
def msgSms : Int := 6
def msgMy : Int := 7

structure MsgEntry where
  num : Int
  type : Int
  msg : CString
  direct : Bool
deriving DecidableEq, Repr

/-- What `check_flag` finds in the receiver's preferences (-1 for no flag), and
`user_is_avail`. -/
structure Receiver where
  say : Int
  shout : Int
  avail : Bool

/-- A message: one line of at most 78 characters. -/
abbrev MsgText := { m : CString // '\n' ∉ m ∧ m.length ≤ 78 }

/-- A call of `send_msg`.  `own` when it is the receiver's own session that sends. -/
structure SendCall where
  uid : Int
  type : Int
  msg : MsgText
  rc : Receiver
  own : Bool

/-- The checks of `send_msg`: a receiver may refuse what is said or shouted, or be away. -/
def sendAllowed (c : SendCall) : Bool :=
  !(c.type == msgSay && c.rc.say == 0) &&
  !((c.type == msgYell || c.type == msgI || c.type == msgSms || c.type == msgMy) &&
    c.rc.shout == 0) &&
  c.rc.avail

/-- `while (msg[b] == ' ') b++;` -/
def skipBlanks (msg : CString) : CString := msg.dropWhile (· = ' ')

/-- The number in front of a message: an SMS has no sender. -/
def senderNum (c : SendCall) : Int := if c.type = msgSms then 0 else c.uid

/-- `"%d:%d:%s\n"` -/
def msgLine (num type : Int) (text : CString) : CString :=
  field num ++ field type ++ text ++ ['\n']

/-- `send_msg`: the receiver's file, and what enters the sender's own history. -/
def sendMsg (receiver : Int) (c : SendCall) (buf : CString) : CString × Option MsgEntry :=
  if sendAllowed c then
    (buf ++ msgLine (senderNum c) c.type (skipBlanks c.msg.val),
      if c.type = msgSay then some ⟨receiver, c.type, skipBlanks c.msg.val, true⟩ else none)
  else (buf, none)

/-- `get_msg_entry`, with the position after the line and the line ends that follow it. -/
def getMsgEntry (buf : CString) : Option (MsgEntry × CString) := do
  let c1 ← strchr buf ':'
  let c2 ← strchr c1.tail ':'
  let nl ← strchr c2.tail '\n'
  let next ← strchr buf '\n'
  pure ({ num := atol (buf.take (buf.length - c1.length))
          type := atol (c1.tail.take (c1.tail.length - c2.length))
          msg := rtrim (c2.tail.take (c2.tail.length - nl.length))
          direct := false }, next.dropWhile (· = '\n'))

/-- The globals that choose what `display_msg` shows. -/
structure ShowFlags where
  say : Bool
  shout : Bool
  present : Bool
  special : Bool

/-- `display_msg` prints the message, so that `output` can report an abort. -/
def showsMsg (f : ShowFlags) (type : Int) : Bool :=
  if type = msgSay then f.say
  else if type = msgYell ∨ type = msgI ∨ type = msgMy ∨ type = msgSms then f.shout
  else if type = msgLogin ∨ type = msgLogout then f.present || f.special
  else true

/-- The loop of `display_msg`: `add_to_mlist` comes first, then the output of the message number
`i`, and every branch breaks on an abort. -/
def displayLoop (f : ShowFlags) (aborts : Nat → Bool) :
    Nat → Nat → CString → List MsgEntry → List MsgEntry
  | 0, _, _, mlist => mlist
  | fuel + 1, i, buf, mlist =>
    match getMsgEntry buf with
    | none => mlist
    | some (me, next) =>
      -- what is left in the buffer is lost
      if showsMsg f me.type && aborts i then me :: mlist
      else displayLoop f aborts fuel (i + 1) next (me :: mlist)

/-! ## Sessions -/

/-- The message file of the receiver, `Change_msg`, what `display_msg` has read from the file while
it is at work, and the receiver's history, newest first.  `sent` are the messages that were
appended, as the receiver should get them, and `taken` those appended before the last time the file
was read. -/
structure MsgState where
  file : CString
  changeMsg : Bool
  buf : Option CString
  mlist : List MsgEntry
  sent : List MsgEntry
  taken : List MsgEntry

/-- A message is sent, the signal of it arrives, or `display_msg` reads and empties the file, or
goes through what it read. -/
inductive MsgEvent where
  | send (c : SendCall)
  | newmsg
  | read
  | finish (f : ShowFlags) (aborts : Nat → Bool)

/-- A text without its leading and trailing blanks. -/
def stripBlanks (s : CString) : CString :=
  ((s.dropWhile (· = ' ')).reverse.dropWhile (· = ' ')).reverse

/-- The message as the receiver should get it. -/
def SendCall.entry (c : SendCall) : MsgEntry :=
  ⟨senderNum c, c.type, stripBlanks c.msg.val, false⟩

/-- One step.  Each access to the locked file is a step of its own. -/
def msgStep (receiver : Int) (s : MsgState) : MsgEvent → Option MsgState
  | .send c =>
    let r := sendMsg receiver c s.file
    some { s with file := r.1,
                  mlist := (if c.own then r.2.toList else []) ++ s.mlist,
                  sent := if sendAllowed c then s.sent ++ [c.entry] else s.sent }
  | .newmsg => some { s with changeMsg := true }
  | .read =>
    match s.buf with
    | some _ => none
    | none =>
      -- without a new message the file is not looked at
      if s.changeMsg then some { s with file := [], buf := some s.file, taken := s.sent }
      else some s
  | .finish f aborts =>
    match s.buf with
    | none => none
    | some buf =>
      some { s with buf := none,
                    mlist := displayLoop f aborts (buf.length + 1) 0 buf s.mlist,
                    changeMsg := false }

def MsgState.start : MsgState := ⟨[], false, none, [], [], []⟩

/-- What the receiver got from others, oldest first. -/
def MsgState.received (s : MsgState) : List MsgEntry := (s.mlist.filter (! ·.direct)).reverse

/-- After `display_msg` every message that was appended before it read the file is in the history,
once and in order. -/
def Handed (s' : MsgState) : MsgEvent → Prop
  | .finish _ _ => s'.received = s'.taken
  | _ => True

/-- The messages that `display_msg` is at work on. -/
def MsgState.pending (s : MsgState) : List MsgEntry := s.taken.drop s.received.length

/-- Output is not aborted before the last message. -/
def NoEarlyAbort (s : MsgState) : MsgEvent → Prop
  | .finish f aborts => ∀ i me, s.pending[i]? = some me → i + 1 < s.pending.length →
      showsMsg f me.type = true → aborts i = false
  | _ => True

/-! ## Reading a message back -/

/-- A line of the message file. -/
structure MsgRecord where
  num : Int
  type : Int
  text : CString
  oneLine : '\n' ∉ text

def MsgRecord.line (m : MsgRecord) : CString := msgLine m.num m.type m.text

def MsgRecord.entry (m : MsgRecord) : MsgEntry := ⟨m.num, m.type, rtrim m.text, false⟩

def msgBytes (ms : List MsgRecord) : CString := ms.flatMap MsgRecord.line

theorem msgBytes_cons (m : MsgRecord) (ms : List MsgRecord) :
    msgBytes (m :: ms) = m.line ++ msgBytes ms := by
  simp [msgBytes]

theorem length_le_msgBytes (ms : List MsgRecord) : ms.length ≤ (msgBytes ms).length := by
  induction ms with
  | nil => exact Nat.le_refl 0
  | cons m ms ih =>
    rw [msgBytes_cons, List.length_append, List.length_cons]
    simp only [MsgRecord.line, msgLine, List.length_append, List.length_cons]
    omega

/-- No line of the file is empty. -/
theorem msgBytes_dropWhile (ms : List MsgRecord) :
    (msgBytes ms).dropWhile (· = '\n') = msgBytes ms := by
  cases ms with
  | nil => rfl
  | cons m ms =>
    obtain ⟨c, t, ht⟩ := List.exists_cons_of_ne_nil (decimal_ne_nil m.num)
    have hnl : '\n' ∉ decimal m.num := notMem_decimal rfl (by decide)
    rw [ht] at hnl
    have hc : c ≠ '\n' := fun h => hnl (h ▸ List.mem_cons_self)
    rw [msgBytes_cons]
    simp only [MsgRecord.line, msgLine, field, ht, List.cons_append, List.append_assoc]
    rw [List.dropWhile_cons_of_neg (by simpa using hc)]

/-- `get_msg_entry` reads the first line, whatever its text holds. -/
theorem getMsgEntry_bytes (m : MsgRecord) (ms : List MsgRecord) :
    getMsgEntry (msgBytes (m :: ms)) = some (m.entry, msgBytes ms) := by
  have hcolon : ∀ n : Int, ':' ∉ decimal n := fun n => notMem_decimal rfl (by decide)
  have hbuf : msgBytes (m :: ms) =
      decimal m.num ++ ':' :: (decimal m.type ++ ':' :: (m.text ++ '\n' :: msgBytes ms)) := by
    simp [msgBytes_cons, MsgRecord.line, msgLine, field]
  have hline : msgBytes (m :: ms) =
      (field m.num ++ field m.type ++ m.text) ++ '\n' :: msgBytes ms := by
    simp [msgBytes_cons, MsgRecord.line, msgLine]
  have hnl : '\n' ∉ field m.num ++ field m.type ++ m.text := by
    have := m.oneLine
    simp [notMem_field, this]
  -- no number holds a colon, and no text a newline
  have h1 : strchr (msgBytes (m :: ms)) ':' = some (':' :: (decimal m.type ++
      ':' :: (m.text ++ '\n' :: msgBytes ms))) := by
    rw [hbuf]
    exact strchr_append (hcolon _)
  have h4 : strchr (msgBytes (m :: ms)) '\n' = some ('\n' :: msgBytes ms) := by
    rw [hline]
    exact strchr_append hnl
  have hnum : atol ((msgBytes (m :: ms)).take ((msgBytes (m :: ms)).length -
      (':' :: (decimal m.type ++ ':' :: (m.text ++ '\n' :: msgBytes ms))).length)) = m.num := by
    rw [hbuf, take_before]
    simpa using atol_decimal m.num noDigit_nil
  have htype : atol (decimal m.type) = m.type := by
    simpa using atol_decimal m.type noDigit_nil
  unfold getMsgEntry
  simp only [h1, h4, Option.bind_eq_bind, Option.bind_some, List.tail_cons,
    strchr_append (hcolon m.type), strchr_append m.oneLine, take_before, hnum, htype,
    List.dropWhile_cons_of_pos, decide_true, msgBytes_dropWhile]
  rfl

/-- Without its leading blanks a text does not consist of blanks, so `rtrim` removes all the
trailing ones. -/
theorem rtrim_skipBlanks (s : CString) : rtrim (skipBlanks s) = stripBlanks s := by
  unfold stripBlanks skipBlanks
  cases hs : s.dropWhile (· = ' ') with
  | nil => rfl
  | cons x t =>
    -- the first character stays, so all the blanks at the end are behind it
    have hx : x ≠ ' ' := by simpa using dropWhile_head hs
    rw [rtrim, List.reverse_cons, List.dropWhile_append]
    split
    · rename_i ht
      have ht' : t.reverse.dropWhile (· = ' ') = [] := by simpa using ht
      rw [ht', List.dropWhile_cons_of_neg (by simpa using hx)]
      rfl
    · rw [List.reverse_append]
      rfl

/-! ## What `display_msg` keeps -/

/-- The messages that enter the history, of those read from the file. -/
def keptMsgs (f : ShowFlags) (aborts : Nat → Bool) : Nat → List MsgEntry → List MsgEntry
  | _, [] => []
  | i, me :: rest =>
    me :: if showsMsg f me.type && aborts i then [] else keptMsgs f aborts (i + 1) rest

theorem displayLoop_bytes (f : ShowFlags) (aborts : Nat → Bool) (ms : List MsgRecord)
    (fuel i : Nat) (mlist : List MsgEntry) (hf : ms.length < fuel) :
    displayLoop f aborts fuel i (msgBytes ms) mlist =
      (keptMsgs f aborts i (ms.map MsgRecord.entry)).reverse ++ mlist := by
  induction ms generalizing fuel i mlist with
  | nil =>
    cases fuel with
    | zero => omega
    | succ fuel => rfl
  | cons m ms ih =>
    cases fuel with
    | zero => omega
    | succ fuel =>
      rw [displayLoop, getMsgEntry_bytes, List.map_cons, keptMsgs, List.reverse_cons]
      dsimp only
      split
      · simp
      · rw [ih fuel (i + 1) _ (by rw [List.length_cons] at hf; omega)]
        simp

/-- All messages are kept exactly when none before the last one is aborted. -/
theorem keptMsgs_eq_self (f : ShowFlags) (aborts : Nat → Bool) (es : List MsgEntry) (i : Nat) :
    keptMsgs f aborts i es = es ↔ ∀ j me, es[j]? = some me → j + 1 < es.length →
      showsMsg f me.type = true → aborts (i + j) = false := by
  induction es generalizing i with
  | nil => simp [keptMsgs]
  | cons me es ih =>
    rw [keptMsgs, List.cons_eq_cons]
    by_cases hb : (showsMsg f me.type && aborts i) = true
    · -- an abort here loses what comes after it
      rw [if_pos hb]
      rw [Bool.and_eq_true] at hb
      constructor
      · intro h j me' hj hlt
        rw [← h.2] at hlt
        simp at hlt
      · intro h
        refine ⟨rfl, ?_⟩
        by_contra hne
        have hpos : 0 < es.length := List.length_pos_iff.mpr (Ne.symm hne)
        have := h 0 me rfl (by rw [List.length_cons]; omega) hb.1
        rw [Nat.add_zero, hb.2] at this
        cases this
    -- the message `i` is kept in any case, and the others are numbered from `i + 1`
    · rw [if_neg hb, ih (i + 1)]
      constructor
      · rintro ⟨-, h⟩ j me' hj hlt hshow
        cases j with
        | zero =>
          cases hj
          rw [Bool.and_eq_true, not_and, Bool.not_eq_true] at hb
          exact hb hshow
        | succ j =>
          rw [show i + (j + 1) = i + 1 + j by omega]
          exact h j me' hj (by rw [List.length_cons] at hlt; omega) hshow
      · intro h
        refine ⟨rfl, fun j me' hj hlt hshow => ?_⟩
        rw [show i + 1 + j = i + (j + 1) by omega]
        exact h (j + 1) me' hj (by rw [List.length_cons]; omega) hshow

theorem direct_of_mem_keptMsgs {f : ShowFlags} {aborts : Nat → Bool} {i : Nat}
    {ms : List MsgRecord} {me : MsgEntry}
    (h : me ∈ keptMsgs f aborts i (ms.map MsgRecord.entry)) : me.direct = false := by
  induction ms generalizing i with
  | nil => cases h
  | cons m ms ih =>
    rw [List.map_cons, keptMsgs, List.mem_cons] at h
    rcases h with rfl | h
    · rfl
    · split at h
      · cases h
      · exact ih h

/-! ## Runs -/

/-- The messages of the file follow those taken; what `display_msg` is at work on follows what the
receiver has. -/
structure MsgInv (s : MsgState) : Prop where
  file : ∃ ms : List MsgRecord, s.file = msgBytes ms ∧ s.sent = s.taken ++ ms.map MsgRecord.entry
  idle : s.buf = none → s.received = s.taken
  busy : ∀ b, s.buf = some b → ∃ ms : List MsgRecord, b = msgBytes ms ∧
    s.taken = s.received ++ ms.map MsgRecord.entry

section Runs

variable {receiver : Int} {s s' : MsgState}

/-- The receiver's own messages do not count as received. -/
theorem received_send (receiver : Int) (c : SendCall) :
    (({ s with mlist := (if c.own then (sendMsg receiver c s.file).2.toList else []) ++ s.mlist } :
      MsgState)).received = s.received := by
  have hown : ((if c.own then (sendMsg receiver c s.file).2.toList else []).filter
      (! ·.direct)) = [] := by
    rw [List.filter_eq_nil_iff]
    intro me hme
    split at hme
    · unfold sendMsg at hme
      split at hme
      · split at hme
        · rw [List.mem_singleton.mp hme]
          simp
        · cases hme
      · cases hme
    · cases hme
  unfold MsgState.received
  rw [List.filter_append, hown, List.nil_append]

theorem msgInv_send (hI : MsgInv s) (c : SendCall)
    (hs : msgStep receiver s (.send c) = some s') : MsgInv s' := by
  cases hs
  obtain ⟨⟨ms, hfile, hsent⟩, hidle, hbusy⟩ := hI
  -- only the file grows: what `display_msg` is at work on stays
  refine ⟨?_, fun h => (received_send receiver c).trans (hidle h), fun b hb => ?_⟩
  · by_cases ha : sendAllowed c = true
    · have hnl : '\n' ∉ skipBlanks c.msg.val := by
        intro h
        exact c.msg.property.1 ((List.dropWhile_sublist _).subset h)
      refine ⟨ms ++ [⟨senderNum c, c.type, skipBlanks c.msg.val, hnl⟩], ?_, ?_⟩
      · show (sendMsg receiver c s.file).1 = _
        unfold sendMsg
        rw [if_pos ha, hfile]
        simp [msgBytes, MsgRecord.line]
      · show (if sendAllowed c then s.sent ++ [c.entry] else s.sent) = _
        rw [if_pos ha, hsent, List.map_append, List.append_assoc]
        simp only [MsgRecord.entry, rtrim_skipBlanks, SendCall.entry, List.map_cons, List.map_nil]
    · refine ⟨ms, ?_, ?_⟩
      · show (sendMsg receiver c s.file).1 = _
        unfold sendMsg
        rw [if_neg ha]
        exact hfile
      · show (if sendAllowed c then s.sent ++ [c.entry] else s.sent) = _
        rw [if_neg ha]
        exact hsent
  · obtain ⟨ms', hb', htaken⟩ := hbusy b hb
    refine ⟨ms', hb', htaken.trans ?_⟩
    rw [← received_send receiver c]
    rfl

theorem msgInv_read (hI : MsgInv s) (hs : msgStep receiver s .read = some s') : MsgInv s' := by
  obtain ⟨⟨ms, hfile, hsent⟩, hidle, hbusy⟩ := hI
  unfold msgStep at hs
  cases hb : s.buf with
  | some b =>
    rw [hb] at hs
    cases hs
  | none =>
    rw [hb] at hs
    dsimp only at hs
    split at hs
    · -- the file is read and emptied
      cases hs
      refine ⟨⟨[], rfl, (List.append_nil _).symm⟩, fun h => (by cases h), ?_⟩
      intro b hb'
      cases hb'
      refine ⟨ms, hfile, ?_⟩
      show s.sent = s.received ++ _
      rw [hidle hb, hsent]
    · cases hs
      exact ⟨⟨ms, hfile, hsent⟩, hidle, hbusy⟩

/-- The history after the messages that `display_msg` is at work on. -/
theorem received_finish (hI : MsgInv s) {f : ShowFlags} {aborts : Nat → Bool}
    (hs : msgStep receiver s (.finish f aborts) = some s') :
    s'.received = s.received ++ keptMsgs f aborts 0 s.pending ∧ s'.buf = none ∧
      s'.file = s.file ∧ s'.sent = s.sent ∧ s'.taken = s.taken ∧
      s.taken = s.received ++ s.pending := by
  unfold msgStep at hs
  cases hb : s.buf with
  | none =>
    rw [hb] at hs
    cases hs
  | some b =>
    rw [hb] at hs
    cases hs
    obtain ⟨ms, rfl, htaken⟩ := hI.busy b hb
    have hpending : s.pending = ms.map MsgRecord.entry := by
      unfold MsgState.pending
      rw [htaken, List.drop_left' rfl]
    -- messages that are read from the file are never direct ones
    have hkept : (keptMsgs f aborts 0 (ms.map MsgRecord.entry)).filter (! ·.direct) =
        keptMsgs f aborts 0 (ms.map MsgRecord.entry) := by
      rw [List.filter_eq_self]
      intro me hme
      rw [direct_of_mem_keptMsgs hme]
      rfl
    have hlen := length_le_msgBytes ms
    refine ⟨?_, rfl, rfl, rfl, rfl, by rw [hpending]; exact htaken⟩
    unfold MsgState.received
    dsimp only
    rw [displayLoop_bytes f aborts ms _ 0 s.mlist (by omega), List.filter_append,
      List.filter_reverse, hkept, List.reverse_append, List.reverse_reverse, hpending]

theorem handed_finish_iff (hI : MsgInv s) {f : ShowFlags} {aborts : Nat → Bool}
    (hs : msgStep receiver s (.finish f aborts) = some s') :
    Handed s' (.finish f aborts) ↔ NoEarlyAbort s (.finish f aborts) := by
  obtain ⟨hrec, -, -, -, htaken, hsplit⟩ := received_finish hI hs
  show s'.received = s'.taken ↔ _
  rw [hrec, htaken, hsplit, List.append_cancel_left_eq, keptMsgs_eq_self]
  simp only [Nat.zero_add]
  rfl

theorem msgInv_finish (hI : MsgInv s) {f : ShowFlags} {aborts : Nat → Bool}
    (hs : msgStep receiver s (.finish f aborts) = some s')
    (hq : NoEarlyAbort s (.finish f aborts)) : MsgInv s' := by
  have hhanded := (handed_finish_iff hI hs).mpr hq
  obtain ⟨-, hbuf, hfile, hsent, htaken, -⟩ := received_finish hI hs
  obtain ⟨ms, hms, hsent'⟩ := hI.file
  refine ⟨⟨ms, hfile.trans hms, ?_⟩, fun _ => hhanded, fun b hb => ?_⟩
  · rw [hsent, htaken]
    exact hsent'
  · rw [hbuf] at hb
    cases hb

end Runs

/-- In every interleaving of senders with the receiver, each message that was appended before
`display_msg` read the file reaches the history once and in order, exactly as long as no output is
aborted before the last message that was read. -/
theorem messages_handed_iff (receiver : Int) (events : List MsgEvent) :
    AllSteps (msgStep receiver) (fun _ e s' => Handed s' e) .start events ↔
      AllSteps (msgStep receiver) (fun s e _ => NoEarlyAbort s e) .start events := by
  apply allSteps_iff (I := MsgInv)
  · intro s e s' hI hs
    cases e with
    | send c => exact ⟨Iff.rfl, fun _ => msgInv_send hI c hs⟩
    | newmsg =>
      cases hs
      exact ⟨Iff.rfl, fun _ => ⟨hI.file, hI.idle, hI.busy⟩⟩
    | read => exact ⟨Iff.rfl, fun _ => msgInv_read hI hs⟩
    | finish f aborts => exact ⟨handed_finish_iff hI hs, msgInv_finish hI hs⟩
  · refine ⟨⟨[], rfl, rfl⟩, fun _ => rfl, ?_⟩
    intro b hb
    cases hb

/-- User 5 shouts or says something to user 7. -/
def callOf (type : Int) (msg : MsgText) : SendCall :=
  { uid := 5, type := type, msg := msg, rc := ⟨1, 1, true⟩, own := false }

/-- Two messages are waiting, and the output of the first one is aborted. -/
theorem abort_loses_message :
    (run (msgStep 7) .start [.send (callOf msgSay ⟨" one: 1 ".toList, by decide⟩),
        .send (callOf msgYell ⟨"two".toList, by decide⟩), .newmsg, .read,
        .finish ⟨true, true, true, true⟩ (fun _ => true)]).map
      (fun s => (s.received, s.taken, s.file)) =
      some ([⟨5, 1, "one: 1".toList, false⟩],
        [⟨5, 1, "one: 1".toList, false⟩, ⟨5, 2, "two".toList, false⟩], []) := by
  decide +kernel

end SklaffKom
