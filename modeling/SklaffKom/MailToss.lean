import SklaffKom.Lib.Runs
import SklaffKom.SendMail

/-!
# The mail importer

`mailtoss` reads a mail spool, unlocks it, truncates it, and stores the messages it has read one after
the other.  The mail server appends messages to the spool at any time.
-/

open CString Runs

namespace SklaffKom

/-! ## One mail -/

/-- The list of a mailbox and its texts. -/
structure TossMailbox where
  conf : CString
  texts : Int → Option CString

/-- Where else a call of `send_mail` fails. -/
inductive SendFault where
  /-- Before it has changed anything. -/
  | opening
  /-- After it has created the text file, with what is in the file then. -/
  | text (file : CString)
  /-- Where it closes the list, which is written. -/
  | closing
deriving DecidableEq, Repr

/-- `send_mail`: the mailbox and whether 0 is returned; `none` is a crash.  `render` is
`mailbody_render_utf8_dup`. -/
def sendMail (render : CString → Option CString) (fault : Option SendFault) (time : Int) (junk : Char)
    (mbuf : CString) (box : TossMailbox) : Option (TossMailbox × Bool) :=
  if fault = some .opening then some (box, false)
  else
    match confEntry 0 box.conf with
    | .crash => none
    | .null => some (box, false)
    | .entry ce _ =>
      let ce := { ce with lastText := ce.lastText + 1 }
      match replaceConf ce box.conf with
      | none => none
      | some none => some (box, false)
      | some (some nbuf) =>
        let fill (file : CString) : Int → Option CString := fun n =>
          if n = ce.lastText then some file else box.texts n
        match render mbuf, fault with
        -- the text file has been created
        | none, _ => some ({ box with texts := fill ((box.texts ce.lastText).getD []) }, false)
        | some _, some (.text file) => some ({ box with texts := fill file }, false)
        | some rendered, fault =>
          some (⟨nbuf, fill (mailTextFile ce.lastText time junk mbuf rendered)⟩, fault.isNone)

/-! ## The spool -/

/-- `"\nFrom "` -/
def fromLine : CString := '\n' :: "From ".toList

/-- The messages that `count_mbox_messages` counts after the first. -/
def countFromLines : CString → Nat
  | [] => 0
  | c :: s => (if fromLine.isPrefixOf (c :: s) then 1 else 0) + countFromLines s

def countMboxMessages (buf : CString) : Nat :=
  if buf.length < 50 then 0 else 1 + countFromLines buf

/-- `ptr2`, the last newline behind the first character of the buffer, or its beginning. -/
def lastNewline : Nat → CString → CString
  | 0, ptr => ptr
  | fuel + 1, ptr =>
    match strchr ptr.tail '\n' with
    | some next => lastNewline fuel next
    | none => ptr

/-- The message at the beginning of the buffer. -/
def firstMessage (buf : CString) : CString :=
  match strstr buf fromLine with
  | some ptr => before buf ptr
  | none => before buf (lastNewline buf.length buf)

/-- Where `main` of `mailtoss` is: `buf` is what it has read, or the rest of it. -/
inductive TossPc where
  | idle
  | opened
  | read (buf : CString)
  | closed (buf : CString)
  | sending (buf : CString)
deriving DecidableEq, Repr

/-- A message as the mail server writes it: a `From ` line, no other line that begins so, and a newline
at the end. -/
abbrev SpoolMessage : Type :=
  { m : CString // "From ".toList <+: m ∧ m.getLast? = some '\n' ∧ strstr m fromLine = none }

/-- The spool, the mailbox, and all messages that were delivered so far. -/
structure TossState where
  pc : TossPc
  spool : CString
  box : TossMailbox
  delivered : List SpoolMessage

inductive TossEvent where
  /-- The mail server appends a message. -/
  | deliver (m : SpoolMessage)
  /-- The next file operation of `mailtoss`, which is started if it does not run, or a call of `send_mail`. -/
  | toss (time : Int) (junk : Char) (fault : Option SendFault)

/-- What `main` does with the message at the beginning of the buffer. -/
def tossMessage (render : CString → Option CString) (fault : Option SendFault) (time : Int) (junk : Char)
    (s : TossState) (buf : CString) : Option TossState :=
  (sendMail render fault time junk (firstMessage buf) s.box).map fun r =>
    match r.2, strstr buf fromLine with
    | true, some ptr => { s with box := r.1, pc := .sending ptr.tail }
    | _, _ => { s with box := r.1, pc := .idle }

/-- A step; `none` is a crash. -/
def tossStep (render : CString → Option CString) (s : TossState) : TossEvent → Option TossState
  | .deliver m => some { s with spool := s.spool ++ m.val, delivered := s.delivered ++ [m] }
  | .toss time junk fault =>
    match s.pc with
    | .idle => some { s with pc := .opened }
    | .opened => some { s with pc := .read s.spool }
    | .read buf => some { s with pc := .closed buf }
    | .closed buf =>
      if countMboxMessages buf = 0 then some { s with pc := .idle }
      -- `truncate_spool`
      else some { s with spool := [], pc := .sending buf }
    | .sending buf => tossMessage render fault time junk s buf

/-! ## What is kept -/

def spoolBytes (ms : List SpoolMessage) : CString := ms.flatMap (·.val)

/-- A mailbox file with the entry of the mailbox at its beginning. -/
structure MailboxFile where
  box : ConfEntry
  others : List ConfEntry
  isMailbox : box.num = 0
  oneLine : ∀ e ∈ box :: others, '\n' ∉ e.name

def MailboxFile.bytes (f : MailboxFile) : CString := confBytes (f.box :: f.others)

/-- The file of a text holds the message, without its last newline, as `send_mail` stores it. -/
def StoredAs (render : CString → Option CString) (num : Int) (file : Option CString)
    (m : SpoolMessage) : Prop :=
  ∃ time junk rendered, render m.val.dropLast = some rendered ∧
    file = some (mailTextFile num time junk m.val.dropLast rendered)

/-- The texts of the mailbox after `first` are the messages, in their order. -/
structure BoxHas (render : CString → Option CString) (first : Int) (box : TossMailbox)
    (stored : List SpoolMessage) : Prop where
  conf : ∃ f : MailboxFile, box.conf = f.bytes ∧ f.box.lastText = first + stored.length
  texts : ∀ (i : Nat) m, stored[i]? = some m →
    StoredAs render (first + 1 + i) (box.texts (first + 1 + i)) m

/-- The delivered messages are those stored, those in memory, and those in the spool, each once. -/
structure Accounts (render : CString → Option CString) (first : Int) (s : TossState)
    (stored pending waiting : List SpoolMessage) : Prop where
  delivered : s.delivered = stored ++ pending ++ waiting
  spool : s.spool = spoolBytes waiting
  box : BoxHas render first s.box stored

/-- The messages that are only in memory: none, unless messages are being stored. -/
def InMemory : TossPc → List SpoolMessage → Prop
  | .sending buf, pending => buf = spoolBytes pending
  | _, pending => pending = []

/-- No message is lost, and none is stored twice. -/
def MailKept (render : CString → Option CString) (first : Int) (s : TossState) : Prop :=
  ∃ stored pending waiting, Accounts render first s stored pending waiting ∧ InMemory s.pc pending

/-- The message has a text, and nothing fails; or it is the last one and only the closing of the list fails. -/
def Sends (render : CString → Option CString) (fault : Option SendFault) (buf : CString) : Prop :=
  (render (firstMessage buf)).isSome ∧ (fault = none ∨ fault = some .closing ∧ strstr buf fromLine = none)

/-- The condition on a step: where the spool is truncated it holds what was read, and no message fails. -/
def SafeToss (render : CString → Option CString) (s : TossState) : TossEvent → Prop
  | .deliver _ => True
  | .toss _ _ fault =>
    match s.pc with
    | .closed buf => countMboxMessages buf ≠ 0 → s.spool = buf
    | .sending buf => Sends render fault buf
    | _ => True

/-- A spool of messages, before the importer is started. -/
def TossState.start (ms : List SpoolMessage) (f : MailboxFile) (texts : Int → Option CString) :
    TossState :=
  ⟨.idle, spoolBytes ms, ⟨f.bytes, texts⟩, ms⟩

/-! ## Messages in a buffer -/

section Buffer

variable {m : SpoolMessage} {ms : List SpoolMessage} {x rest : CString}

theorem spoolBytes_cons (m : SpoolMessage) (ms : List SpoolMessage) :
    spoolBytes (m :: ms) = m.val ++ spoolBytes ms := rfl

theorem spoolBytes_append (as bs : List SpoolMessage) :
    spoolBytes (as ++ bs) = spoolBytes as ++ spoolBytes bs := List.flatMap_append

theorem SpoolMessage.ne_nil (m : SpoolMessage) : m.val ≠ [] := by
  intro h
  have hlast := m.property.2.1
  rw [h] at hlast
  cases hlast

theorem spoolBytes_eq_nil : spoolBytes ms = [] ↔ ms = [] := by
  cases ms with
  | nil => exact iff_of_true rfl rfl
  | cons m ms =>
    rw [spoolBytes_cons]
    exact iff_of_false (List.append_ne_nil_of_left_ne_nil m.ne_nil _) (List.cons_ne_nil _ _)

theorem SpoolMessage.dropLast_append (m : SpoolMessage) : m.val.dropLast ++ ['\n'] = m.val := by
  obtain ⟨x, hx⟩ := List.getLast?_eq_some_iff.mp m.property.2.1
  rw [hx, List.dropLast_concat]

/-- The next message begins behind the newline at the end of one. -/
theorem strstr_fromLine (h : strstr (x ++ ['\n']) fromLine = none) (hrest : "From ".toList <+: rest) :
    strstr (x ++ '\n' :: rest) fromLine = some ('\n' :: rest) := by
  induction x with
  | nil => exact strstr_at_start (List.cons_prefix_cons.mpr ⟨rfl, hrest⟩)
  | cons c x ih =>
    have hsep : '\n' ∉ "From ".toList := by decide +kernel
    have hno : ∀ t, fromLine <+: c :: (x ++ '\n' :: t) ↔ '\n' = c ∧ "From ".toList <+: x := by
      intro t
      rw [fromLine, List.cons_prefix_cons, prefix_append_sep hsep]
    have hstart : ¬ fromLine <+: c :: (x ++ ['\n']) := by
      intro hp
      rw [List.cons_append, strstr_at_start hp] at h
      cases h
    rw [List.cons_append, strstr_cons_of_not_start hstart] at h
    rw [List.cons_append, strstr_cons_of_not_start, ih h]
    exact fun hp => hstart ((hno []).mpr ((hno rest).mp hp))

theorem lastNewline_end (fuel : Nat) (hfuel : x.length ≤ fuel) :
    lastNewline fuel (x ++ ['\n']) = ['\n'] := by
  induction fuel generalizing x with
  | zero =>
    rw [List.length_eq_zero_iff.mp (Nat.le_zero.mp hfuel)]
    rfl
  | succ fuel ih =>
    rw [lastNewline]
    cases x with
    | nil => rfl
    | cons c x =>
      rw [List.cons_append, List.tail_cons]
      cases hnl : strchr (x ++ ['\n']) '\n' with
      | none => exact absurd (List.mem_append_right _ List.mem_cons_self) (notMem_of_strchr hnl)
      | some next =>
        obtain ⟨a, t, hs, hnext, -⟩ := strchr_split hnl
        have hlast : next.getLast? = some '\n' := by
          have h := congrArg List.getLast? hs
          rw [List.getLast?_concat, ← hnext, List.getLast?_append_of_ne_nil _ (by simp [hnext])] at h
          exact h.symm
        obtain ⟨y, rfl⟩ := List.getLast?_eq_some_iff.mp hlast
        have hlen := congrArg List.length hs
        rw [← hnext] at hlen
        simp only [List.length_append, List.length_cons, List.length_nil] at hlen hfuel
        exact ih (by omega)

/-- The message that is stored next, and where the buffer goes on. -/
theorem firstMessage_spool (m : SpoolMessage) (ms : List SpoolMessage) :
    firstMessage (spoolBytes (m :: ms)) = m.val.dropLast ∧
      strstr (spoolBytes (m :: ms)) fromLine =
        if ms = [] then none else some ('\n' :: spoolBytes ms) := by
  have hm := m.dropLast_append
  cases ms with
  | nil =>
    have hbytes : spoolBytes [m] = m.val := List.append_nil _
    have hnone : strstr (spoolBytes [m]) fromLine = none := by
      rw [hbytes]
      exact m.property.2.2
    refine ⟨?_, hnone⟩
    rw [firstMessage, hnone, hbytes]
    dsimp only
    rw [← hm, lastNewline_end _ (by rw [List.length_append]; omega), before, take_before, hm]
  | cons m' ms =>
    have hrest : "From ".toList <+: spoolBytes (m' :: ms) :=
      m'.property.1.trans (List.prefix_append _ _)
    have hone : strstr (m.val.dropLast ++ ['\n']) fromLine = none := by
      rw [hm]
      exact m.property.2.2
    have hsplit : spoolBytes (m :: m' :: ms) = m.val.dropLast ++ '\n' :: spoolBytes (m' :: ms) := by
      rw [spoolBytes_cons, ← hm, List.append_assoc, hm]
      rfl
    have hsome := strstr_fromLine hone hrest
    rw [if_neg (List.cons_ne_nil _ _), firstMessage, hsplit, hsome]
    refine ⟨?_, rfl⟩
    dsimp only
    rw [before, take_before]

end Buffer

/-! ## The mailbox -/

/-- The mailbox with another last text. -/
def MailboxFile.setLast (f : MailboxFile) (n : Int) : MailboxFile where
  box := { f.box with lastText := n }
  others := f.others
  isMailbox := f.isMailbox
  oneLine := List.forall_mem_cons.mpr (List.forall_mem_cons.mp f.oneLine)

theorem MailboxFile.confEntry_bytes (f : MailboxFile) :
    confEntry 0 f.bytes = .entry f.box (confBytes f.others) :=
  findConfEntry_append (List.forall_mem_nil _) (f.oneLine _ List.mem_cons_self) f.isMailbox _
    (Nat.succ_pos _)

theorem MailboxFile.replaceConf_bytes (f : MailboxFile) (n : Int) :
    replaceConf { f.box with lastText := n } f.bytes = some (some (f.setLast n).bytes) := by
  have htake := @take_lineStart_confBytes [] f.box f.others fun a ha =>
    f.oneLine a (List.mem_singleton.mp ha ▸ List.mem_cons_self)
  have hentry := f.confEntry_bytes
  rw [← f.isMailbox] at hentry
  rw [List.nil_append, confBytes_nil] at htake
  simp only [replaceConf, hentry]
  rw [bytes, htake, List.nil_append]
  rfl

section Box

variable {render : CString → Option CString} {first time : Int} {junk : Char} {mbuf : CString}
  {box box' : TossMailbox} {stored stored' : List SpoolMessage} {m : SpoolMessage}

/-- How many texts are stored can be read from the mailbox. -/
theorem BoxHas.length (h : BoxHas render first box stored) (h' : BoxHas render first box' stored')
    (hconf : box'.conf = box.conf) : stored'.length = stored.length := by
  obtain ⟨f, hf, hlast⟩ := h.conf
  obtain ⟨f', hf', hlast'⟩ := h'.conf
  have hentry := f.confEntry_bytes
  rw [← hf, ← hconf, hf', f'.confEntry_bytes, ConfScan.entry.injEq] at hentry
  rw [hentry.1] at hlast'
  omega

/-- A text after those that are stored changes none of them. -/
theorem BoxHas.fill (h : BoxHas render first box stored) (file : CString) (i : Nat)
    (hi : stored[i]? = some m) :
    StoredAs render (first + 1 + i) (if first + 1 + i = first + stored.length + 1 then some file
      else box.texts (first + 1 + i)) m := by
  have hlt : i < stored.length := (List.getElem?_eq_some_iff.mp hi).1
  rw [if_neg (by omega)]
  exact h.texts i m hi

/-- A message is stored as the next text of the mailbox. -/
theorem BoxHas.send {rendered : CString} (h : BoxHas render first box stored)
    (hrender : render m.val.dropLast = some rendered) {fault : Option SendFault}
    (hfault : fault = none ∨ fault = some .closing) (time : Int) (junk : Char) :
    ∃ box', sendMail render fault time junk m.val.dropLast box = some (box', fault.isNone) ∧
      BoxHas render first box' (stored ++ [m]) := by
  obtain ⟨f, hf, hlast⟩ := h.conf
  have hsend : sendMail render fault time junk m.val.dropLast box = some
      (⟨(f.setLast (f.box.lastText + 1)).bytes, fun n =>
        if n = f.box.lastText + 1 then
          some (mailTextFile (f.box.lastText + 1) time junk m.val.dropLast rendered)
        else box.texts n⟩, fault.isNone) := by
    unfold sendMail
    rw [hf, f.confEntry_bytes]
    dsimp only
    rw [f.replaceConf_bytes, hrender]
    rcases hfault with rfl | rfl
    · rfl
    · rfl
  refine ⟨_, hsend, ⟨⟨_, rfl, ?_⟩, fun i m' hi => ?_⟩⟩
  · rw [List.length_append, List.length_singleton]
    show f.box.lastText + 1 = _
    omega
  · rw [hlast]
    by_cases hnew : i = stored.length
    · rw [hnew, List.getElem?_concat_length, Option.some.injEq] at hi
      rw [← hi, hnew]
      refine ⟨time, junk, rendered, hrender, ?_⟩
      dsimp only
      rw [if_pos (by omega)]
      congr 2
      omega
    · have hlt : i < stored.length := by
        have := (List.getElem?_eq_some_iff.mp hi).1
        rw [List.length_append, List.length_singleton] at this
        omega
      rw [List.getElem?_append_left hlt] at hi
      exact h.fill _ i hi

/-- A message that is not stored leaves the mailbox as it is, but for a file of no text. -/
theorem BoxHas.fail (h : BoxHas render first box stored) {fault : Option SendFault}
    (hfail : render mbuf = none ∨ fault ≠ none ∧ fault ≠ some .closing) (time : Int) (junk : Char) :
    ∃ box', sendMail render fault time junk mbuf box = some (box', false) ∧
      BoxHas render first box' stored := by
  by_cases hopen : fault = some .opening
  · exact ⟨box, by rw [sendMail, if_pos hopen], h⟩
  · obtain ⟨f, hf, hlast⟩ := h.conf
    obtain ⟨file, hsend⟩ : ∃ file, sendMail render fault time junk mbuf box = some
        (⟨box.conf, fun n => if n = f.box.lastText + 1 then some file else box.texts n⟩, false) := by
      unfold sendMail
      rw [if_neg hopen, hf, f.confEntry_bytes]
      dsimp only
      rw [f.replaceConf_bytes]
      dsimp only
      cases hrender : render mbuf with
      | none => exact ⟨_, rfl⟩
      | some rendered =>
        rw [hrender] at hfail
        rcases hfail with hnone | ⟨hne, hnc⟩
        · cases hnone
        · cases fault with
          | none => exact absurd rfl hne
          | some fault =>
            cases fault with
            | opening => exact absurd rfl hopen
            | text file => exact ⟨file, rfl⟩
            | closing => exact absurd rfl hnc
    refine ⟨_, hsend, ⟨⟨f, hf, hlast⟩, fun i m hi => ?_⟩⟩
    rw [hlast]
    exact h.fill _ i hi

end Box

/-! ## Runs -/

/-- The messages that the position stands for: those read are the first in the spool. -/
def PcFits : TossPc → List SpoolMessage → List SpoolMessage → Prop
  | .read buf, pending, waiting | .closed buf, pending, waiting =>
    pending = [] ∧ ∃ seen, seen <+: waiting ∧ buf = spoolBytes seen
  | .sending buf, pending, _ => pending ≠ [] ∧ buf = spoolBytes pending
  | _, pending, _ => pending = []

/-- The state of a run in which no message was lost so far. -/
def Tossing (render : CString → Option CString) (first : Int) (s : TossState) : Prop :=
  ∃ stored pending waiting, Accounts render first s stored pending waiting ∧
    PcFits s.pc pending waiting

section Steps

variable {render : CString → Option CString} {first : Int} {s : TossState} {buf : CString}
  {stored pending waiting : List SpoolMessage}

theorem PcFits.inMemory {pc : TossPc} (h : PcFits pc pending waiting) : InMemory pc pending := by
  cases pc with
  | idle => exact h
  | opened => exact h
  | read buf => exact h.1
  | closed buf => exact h.1
  | sending buf => exact h.2

theorem Tossing.kept (h : Tossing render first s) : MailKept render first s := by
  obtain ⟨stored, pending, waiting, hacc, hpc⟩ := h
  exact ⟨stored, pending, waiting, hacc, hpc.inMemory⟩

theorem Accounts.move (h : Accounts render first s stored pending waiting) (pc : TossPc) :
    Accounts render first { s with pc := pc } stored pending waiting :=
  ⟨h.delivered, h.spool, h.box⟩

/-- A message is appended to the spool. -/
theorem Tossing.deliver (h : Tossing render first s) (m : SpoolMessage) :
    Tossing render first
      { s with spool := s.spool ++ m.val, delivered := s.delivered ++ [m] } := by
  obtain ⟨stored, pending, waiting, ⟨hdel, hspool, hbox⟩, hpc⟩ := h
  refine ⟨stored, pending, waiting ++ [m], ⟨?_, ?_, hbox⟩, ?_⟩
  · rw [hdel, List.append_assoc]
  · rw [hspool, spoolBytes_append]
    exact congrArg _ (List.append_nil m.val).symm
  · cases hp : s.pc with
    | idle => exact (hp ▸ hpc :)
    | opened => exact (hp ▸ hpc :)
    | read buf =>
      rw [hp] at hpc
      obtain ⟨hnil, seen, hseen, hbuf⟩ := hpc
      exact ⟨hnil, seen, hseen.trans (List.prefix_append _ _), hbuf⟩
    | closed buf =>
      rw [hp] at hpc
      obtain ⟨hnil, seen, hseen, hbuf⟩ := hpc
      exact ⟨hnil, seen, hseen.trans (List.prefix_append _ _), hbuf⟩
    | sending buf => exact (hp ▸ hpc :)

/-- The same messages are accounted for in two ways only if as many of them are in the spool. -/
theorem Accounts.rest {s' : TossState} {stored' pending' waiting' : List SpoolMessage}
    (h : Accounts render first s stored pending waiting)
    (h' : Accounts render first s' stored' pending' waiting') (hdel : s'.delivered = s.delivered)
    (hlen : stored'.length = stored.length) : pending' ++ waiting' = pending ++ waiting := by
  have heq := hdel
  rw [h.delivered, h'.delivered, List.append_assoc, List.append_assoc] at heq
  exact (List.append_inj heq hlen).2

/-- The truncation loses no message just where the spool holds what was read. -/
theorem Tossing.truncate (h : Tossing render first s) (hpc : s.pc = .closed buf)
    (hcount : countMboxMessages buf ≠ 0) :
    (MailKept render first { s with spool := [], pc := .sending buf } ↔ s.spool = buf) ∧
      (s.spool = buf → Tossing render first { s with spool := [], pc := .sending buf }) := by
  obtain ⟨stored, pending, waiting, hacc, hfits⟩ := h
  rw [hpc] at hfits
  obtain ⟨rfl, seen, ⟨more, rfl⟩, rfl⟩ := hfits
  have hkeep : s.spool = spoolBytes seen →
      Tossing render first { s with spool := [], pc := .sending (spoolBytes seen) } := by
    intro hspool
    have hmore : more = [] := by
      rw [hacc.spool, spoolBytes_append, List.append_right_eq_self] at hspool
      exact spoolBytes_eq_nil.mp hspool
    refine ⟨stored, seen, [], ⟨?_, rfl, hacc.box⟩, ?_, rfl⟩
    · rw [hmore, List.append_nil] at hacc
      rw [hacc.delivered, List.append_nil, List.append_nil]
    · rintro rfl
      exact hcount rfl
  refine ⟨⟨?_, fun hspool => (hkeep hspool).kept⟩, hkeep⟩
  rintro ⟨stored', pending', waiting', hacc', hmem⟩
  have hrest := hacc.rest hacc' rfl (hacc.box.length hacc'.box rfl)
  have hnil : waiting' = [] := spoolBytes_eq_nil.mp hacc'.spool.symm
  rw [hnil, List.append_nil, List.nil_append] at hrest
  rw [hacc.spool, ← hrest]
  exact hmem.symm

/-- When a call fails, the messages that were in memory are nowhere. -/
theorem not_kept_of_idle {box' : TossMailbox} (hacc : Accounts render first s stored pending waiting)
    (hbox : BoxHas render first box' stored) (hne : pending ≠ []) :
    ¬ MailKept render first { s with box := box', pc := .idle } := by
  rintro ⟨stored', pending', waiting', hacc', rfl⟩
  have hrest := congrArg spoolBytes (hacc.rest hacc' rfl (hbox.length hacc'.box rfl))
  rw [List.nil_append, ← hacc'.spool, spoolBytes_append, hacc.spool, List.self_eq_append_left,
    spoolBytes_eq_nil] at hrest
  exact hne hrest

/-- Storing a message loses none just where `send_mail` stores it. -/
theorem Tossing.send (h : Tossing render first s) (hpc : s.pc = .sending buf) (fault : Option SendFault)
    (time : Int) (junk : Char) :
    ∃ s', tossMessage render fault time junk s buf = some s' ∧
      (MailKept render first s' ↔ Sends render fault buf) ∧
      (Sends render fault buf → Tossing render first s') := by
  obtain ⟨stored, pending, waiting, hacc, hfits⟩ := h
  rw [hpc] at hfits
  obtain ⟨hne, rfl⟩ := hfits
  obtain ⟨m, ms, rfl⟩ := List.exists_cons_of_ne_nil hne
  obtain ⟨hfirst, hnext⟩ := firstMessage_spool m ms
  unfold tossMessage Sends
  rw [hfirst, hnext]
  by_cases hstores : (render m.val.dropLast).isSome ∧ (fault = none ∨ fault = some .closing)
  · obtain ⟨hrender, hfault⟩ := hstores
    obtain ⟨rendered, hrender⟩ := Option.isSome_iff_exists.mp hrender
    obtain ⟨box', hsend, hbox⟩ := hacc.box.send hrender hfault time junk
    have hdel : s.delivered = stored ++ [m] ++ ms ++ waiting := by
      rw [hacc.delivered, List.append_assoc stored [m]]
      rfl
    have hacc' : Accounts render first { s with box := box' } (stored ++ [m]) ms waiting :=
      ⟨hdel, hacc.spool, hbox⟩
    rw [hsend, hrender]
    dsimp only [Option.map_some]
    by_cases hms : ms = []
    · have hkeep : Tossing render first { s with box := box', pc := .idle } :=
        ⟨stored ++ [m], ms, waiting, hacc'.move .idle, hms⟩
      rw [if_pos hms]
      have hright : (some rendered).isSome = true ∧
          (fault = none ∨ fault = some .closing ∧ (none : Option CString) = none) :=
        ⟨rfl, hfault.imp_right fun h => ⟨h, rfl⟩⟩
      refine ⟨_, rfl, ?_⟩
      split
      · rename_i hstr
        cases hstr
      · exact ⟨iff_of_true hkeep.kept hright, fun _ => hkeep⟩
    · rw [if_neg hms]
      rcases hfault with rfl | rfl
      · have hkeep : Tossing render first { s with box := box', pc := .sending (spoolBytes ms) } :=
          ⟨stored ++ [m], ms, waiting, hacc'.move _, hms, rfl⟩
        exact ⟨_, rfl, iff_of_true hkeep.kept ⟨rfl, .inl rfl⟩, fun _ => hkeep⟩
      · -- `main` ends, and the messages behind this one are lost
        refine ⟨_, rfl, iff_of_false (not_kept_of_idle (s := { s with box := box' }) hacc' hbox hms) ?_, ?_⟩
        · rintro ⟨-, hnone | ⟨-, hstr⟩⟩
          · cases hnone
          · cases hstr
        · rintro ⟨-, hnone | ⟨-, hstr⟩⟩
          · cases hnone
          · cases hstr
  · have hfail : render m.val.dropLast = none ∨ fault ≠ none ∧ fault ≠ some .closing := by
      rwa [not_and_or, Bool.not_eq_true, Option.isSome_eq_false_iff, Option.isNone_iff_eq_none, not_or] at hstores
    have hnot : ¬ ((render m.val.dropLast).isSome = true ∧ (fault = none ∨ fault = some .closing ∧
        (if ms = [] then none else some ('\n' :: spoolBytes ms)) = none)) := fun hsends =>
      hstores ⟨hsends.1, hsends.2.imp_right And.left⟩
    obtain ⟨box', hsend, hbox⟩ := hacc.box.fail hfail time junk
    rw [hsend]
    exact ⟨_, rfl, iff_of_false (not_kept_of_idle hacc hbox (List.cons_ne_nil m ms)) hnot,
      fun hsends => absurd hsends hnot⟩

theorem tossing_step (h : Tossing render first s) (e : TossEvent) :
    ∃ s', tossStep render s e = some s' ∧ (MailKept render first s' ↔ SafeToss render s e) ∧
      (SafeToss render s e → Tossing render first s') := by
  cases e with
  | deliver m =>
    have hkeep := h.deliver m
    exact ⟨_, rfl, iff_of_true hkeep.kept trivial, fun _ => hkeep⟩
  | toss time junk fault =>
    have hstay : ∀ s', tossStep render s (.toss time junk fault) = some s' →
        SafeToss render s (.toss time junk fault) →
        Tossing render first s' → ∃ s', tossStep render s (.toss time junk fault) = some s' ∧
          (MailKept render first s' ↔ SafeToss render s (.toss time junk fault)) ∧
          (SafeToss render s (.toss time junk fault) → Tossing render first s') := fun s' hs' hsafe hkeep =>
      ⟨s', hs', iff_of_true hkeep.kept hsafe, fun _ => hkeep⟩
    obtain ⟨stored, pending, waiting, hacc, hfits⟩ := id h
    unfold tossStep SafeToss at *
    cases hpc : s.pc with
    | idle =>
      simp only [hpc] at hstay hfits ⊢
      exact hstay _ rfl trivial ⟨stored, pending, waiting, hacc.move _, hfits⟩
    | opened =>
      simp only [hpc] at hstay hfits ⊢
      exact hstay _ rfl trivial
        ⟨stored, pending, waiting, hacc.move _, hfits, waiting, List.prefix_rfl, hacc.spool⟩
    | read buf =>
      simp only [hpc] at hstay hfits ⊢
      exact hstay _ rfl trivial ⟨stored, pending, waiting, hacc.move _, hfits⟩
    | closed buf =>
      simp only [hpc] at hstay hfits ⊢
      by_cases hcount : countMboxMessages buf = 0
      · simp only [hcount] at hstay ⊢
        exact hstay _ rfl (fun hne => absurd rfl hne)
          ⟨stored, pending, waiting, hacc.move _, hfits.1⟩
      · obtain ⟨hiff, hkeep⟩ := h.truncate hpc hcount
        rw [if_neg hcount]
        exact ⟨_, rfl, hiff.trans ⟨fun heq _ => heq, fun heq => heq hcount⟩,
          fun heq => hkeep (heq hcount)⟩
    | sending buf => exact h.send hpc fault time junk

end Steps

/-- The mail importer loses no message and stores none twice, over runs of any number of starts, just
where the spool is as it was read when it is truncated, and `send_mail` stores every message. -/
theorem mailtoss_keeps_iff (render : CString → Option CString) (f : MailboxFile)
    (texts : Int → Option CString) (ms : List SpoolMessage) (es : List TossEvent) :
    AllSteps (tossStep render) (fun _ _ s => MailKept render f.box.lastText s) (.start ms f texts) es ↔
      AllPre (tossStep render) (SafeToss render) (.start ms f texts) es := by
  have hbox : BoxHas render f.box.lastText ⟨f.bytes, texts⟩ [] :=
    ⟨⟨f, rfl, (Int.add_zero _).symm⟩, fun i m hi => by cases hi⟩
  have hstart : Tossing render f.box.lastText (.start ms f texts) :=
    ⟨[], [], ms, ⟨rfl, rfl, hbox⟩, rfl⟩
  exact allSteps_iff_allPre (fun s e h => tossing_step h e) hstart es

def annMail : SpoolMessage :=
  ⟨"From ann@a Mon\nSubject: Fika\n\nVi ses klockan tre i dag.\n".toList, by decide +kernel⟩

def boMail : SpoolMessage :=
  ⟨"From bo@b Tue\nSubject: Te\n\nJag kommer lite senare.\n".toList, by decide +kernel⟩

def newMailbox : MailboxFile where
  box := ⟨0, 0, 5, 9, 0, 0, 0, "Mailbox".toList⟩
  others := []
  isMailbox := rfl
  oneLine := by decide +kernel

/-- A message is delivered after the spool was read. -/
def raceRun : Option TossState :=
  run (tossStep some) (.start [annMail] newMailbox fun _ => none)
    [.toss 9 'J' none, .toss 9 'J' none, .deliver boMail, .toss 9 'J' none, .toss 9 'J' none, .toss 9 'J' none]

/-- The first message has no text. -/
def noTextRun : Option TossState :=
  run (tossStep fun _ => none) (.start [annMail, boMail] newMailbox fun _ => none)
    [.toss 9 'J' none, .toss 9 'J' none, .toss 9 'J' none, .toss 9 'J' none, .toss 9 'J' none]

/-- A message that comes between the reading and the truncation is neither in the spool nor stored; nor
are a message without a text and those behind it. -/
theorem mailtoss_loses :
    (raceRun.map fun s => (s.pc, s.spool, s.delivered.length)) = some (.idle, [], 2) ∧
    (raceRun.map fun s => (s.box.texts 1, s.box.texts 2)) =
      some (some (mailTextFile 1 9 'J' annMail.val.dropLast annMail.val.dropLast), none) ∧
    (noTextRun.map fun s => (s.pc, s.spool, s.delivered.length)) = some (.idle, [], 2) ∧
    (noTextRun.map fun s => (s.box.texts 1, s.box.texts 2)) = some (some [], none) := by
  decide +kernel

end SklaffKom
