import SklaffKom.NextText
import SklaffKom.Rights

/-!
# Subscribing, and the order of the conferences

Subscribing appends a line to `confs` and unsubscribing cuts one out.  `cmd_prio` and `cmd_deprio`
write the file anew from two passes over its lines, each with a filter of its own.
-/

open CString IntervalList Runs

namespace SklaffKom

/-- What the commands tell the user; `error` is the return of -1 without a message. -/
inductive SubReply where
  | alreadySub
  | notAllow
  | subOk
  | noUsubMail
  | noSub
  | usubOk
  | noPrioMbox
  | prio
  | deprio
  | error
deriving DecidableEq, Repr

def memberOf (conf : Int) (buf : CString) : Option Bool :=
  match confsEntry conf buf with
  | .crash => none
  | .entry _ (some _) => some true
  | _ => some false

/-- `subscribe_conf_num`; `confrc` holds that file of each conference. -/
def subscribeConfNum (d : Disk) (uid : Int) (confrc : Int → CString) (conf : Int)
    (buf : CString) : Option (SubReply × CString) := do
  if ← memberOf conf buf then pure (.alreadySub, buf)
  else
    let ce ← ← getConfStruct conf d.conffile
    if confRight (getConfrcStruct conf (confrc conf)) uid ce.type ce.creator ≠ 0 then
      pure (.notAllow, buf)
    else
      let first ← firstText d conf
      -- the texts that are gone already are marked as read
      pure (.subOk, buf ++ if first > 1 then jumpLine conf first else decimal conf ++ [':', '\n'])

/-- The marks of a new line: the texts that are gone already are read. -/
def goneMarks (first : Int) : List IntRange := if first > 1 then [⟨1, first - 1⟩] else []

/-- The lines for a conference that is new to the user: one if the user has the right to it. -/
def subscribedLines (d : Disk) (uid : Int) (confrc : Int → CString) (conf : Int) : Option (List ConfsEntry) := do
  let ce ← ← getConfStruct conf d.conffile
  if confRight (getConfrcStruct conf (confrc conf)) uid ce.type ce.creator ≠ 0 then pure []
  else
    let first ← firstText d conf
    pure [⟨conf, goneMarks first⟩]

def unsubscribeConfNum (conf : Int) (buf : CString) : Option (SubReply × CString) := do
  if conf ≤ 0 then pure (.noUsubMail, buf)
  else if ← memberOf conf buf then
    match confsEntry conf buf with
    | .crash => none
    | .null => pure (.error, buf)
    | .entry _ none => none
    | .entry _ (some next) => pure (.usubOk, replaceLine buf next [])
  else pure (.noSub, buf)

/-- What `strcat(nbuf, tmpbuf)` copies: the line that ends just before `next`. -/
def lineBefore (obuf next : CString) : CString :=
  let stop := obuf.length - next.length
  (obuf.take stop).drop (lineStart obuf stop)

/-- One pass of `cmd_prio`: `get_confs_entry` from `buf` on, copying the lines of the conferences
that the filter keeps.  The loop runs at most once for each line. -/
def copyLines (obuf : CString) (keep : Int → Bool) : Nat → CString → Option CString
  | 0, _ => none
  | fuel + 1, buf =>
    match getConfsEntry buf with
    | .crash => none
    | .null => some []
    | .entry _ none => some []
    | .entry ce (some next) =>
      (copyLines obuf keep fuel next).map fun rest =>
        (if keep ce.num then lineBefore obuf next else []) ++ rest

/-- `cmd_prio` on the conference that the name stands for. -/
def cmdPrio (conf : Int) (oldbuf : CString) : Option (SubReply × CString) :=
  if conf = 0 then some (.noPrioMbox, oldbuf)
  else match getConfsEntry oldbuf with
    | .entry _ (some buf) => do
      -- the first pass begins after the mailbox
      let chosen ← copyLines oldbuf (· = conf) (oldbuf.length + 1) buf
      -- the second pass begins at the mailbox again and drops it with its filter
      let others ← copyLines oldbuf (fun num => num ≠ conf ∧ num ≠ 0) (oldbuf.length + 1) oldbuf
      pure (.prio, oldbuf.take (oldbuf.length - buf.length) ++ chosen ++ others)
    | _ => none

/-- `cmd_deprio` on the conference that the name stands for. -/
def cmdDeprio (conf : Int) (oldbuf : CString) : Option (SubReply × CString) :=
  if conf = 0 then some (.noPrioMbox, oldbuf)
  else match getConfsEntry oldbuf with
    | .entry _ (some buf) => do
      let others ← copyLines oldbuf (fun num => num ≠ conf ∧ num ≠ 0) (oldbuf.length + 1) buf
      let chosen ← copyLines oldbuf (· = conf) (oldbuf.length + 1) oldbuf
      pure (.deprio, oldbuf.take (oldbuf.length - buf.length) ++ others ++ chosen)
    | _ => none

/-! ## The passes over a file -/

theorem lineBefore_confsBytes (as bs : List ConfsEntry) (e : ConfsEntry) :
    lineBefore (confsBytes (as ++ e :: bs)) (confsBytes bs) = stringifyConfsStruct e := by
  have htake : (confsBytes (as ++ e :: bs)).take
      ((confsBytes (as ++ e :: bs)).length - (confsBytes bs).length) =
      confsBytes as ++ stringifyConfsStruct e := by
    rw [confsBytes_append, confsBytes_cons, ← List.append_assoc, take_before]
  simp only [lineBefore]
  rw [lineStart_confsBytes, htake, List.drop_left' rfl]

/-- A pass copies the lines of the entries that it keeps, in their order. -/
theorem copyLines_confsBytes (keep : Int → Bool) (as bs : List ConfsEntry)
    (hbs : ∀ b ∈ bs, ReadMarks b.il) (fuel : Nat) (hf : bs.length < fuel) :
    copyLines (confsBytes (as ++ bs)) keep fuel (confsBytes bs) =
      some (confsBytes (bs.filter fun e => keep e.num)) := by
  induction bs generalizing as fuel with
  | nil =>
    cases fuel with
    | zero => omega
    | succ fuel => rfl
  | cons e bs ih =>
    cases fuel with
    | zero => omega
    | succ fuel =>
      have hih := ih (as ++ [e]) (fun b hb => hbs b (List.mem_cons_of_mem _ hb)) fuel
        (by simp at hf; omega)
      -- the line just before `next` is that of the entry that was read
      rw [List.append_assoc, List.singleton_append] at hih
      unfold copyLines
      rw [show getConfsEntry (confsBytes (e :: bs)) = .entry e (some (confsBytes bs)) by
        rw [confsBytes_cons]
        exact getConfsEntry_stringify (hbs e List.mem_cons_self) _]
      simp only [hih, Option.map_some, lineBefore_confsBytes, List.filter_cons]
      split <;> simp

/-! ## Files that begin with the mailbox -/

/-- A file with the mailbox in its first line and one line for each conference. -/
@[ext] structure Subscriptions where
  mailbox : ConfsEntry
  confs : List ConfsEntry
  isMailbox : mailbox.num = 0
  marks : ∀ e ∈ mailbox :: confs, ReadMarks e.il
  distinct : ((mailbox :: confs).map (·.num)).Nodup

namespace Subscriptions

def toConfsFile (f : Subscriptions) : ConfsFile where
  entries := f.mailbox :: f.confs
  marks := f.marks
  distinct := f.distinct

def bytes (f : Subscriptions) : CString := f.toConfsFile.bytes

variable (f : Subscriptions)

theorem bytes_eq : f.bytes = stringifyConfsStruct f.mailbox ++ confsBytes f.confs :=
  confsBytes_cons f.mailbox f.confs

/-- The conferences besides the mailbox. -/
def nums : List Int := f.confs.map (·.num)

theorem nodup_nums : f.nums.Nodup := (List.nodup_cons.mp f.distinct).2

theorem num_ne_zero {e : ConfsEntry} (he : e ∈ f.confs) : e.num ≠ 0 := by
  intro h
  apply (List.nodup_cons.mp f.distinct).1
  show f.mailbox.num ∈ f.confs.map (·.num)
  rw [f.isMailbox, ← h]
  exact List.mem_map_of_mem he

/-- The file with some of its lines, in any order. -/
def select (confs : List ConfsEntry) (h : confs.Subperm f.confs) : Subscriptions where
  mailbox := f.mailbox
  confs := confs
  isMailbox := f.isMailbox
  marks := by
    intro e he
    apply f.marks e
    rw [List.mem_cons] at he ⊢
    exact he.imp_right fun h' => h.subset h'
  distinct := by
    have hd := List.nodup_cons.mp f.distinct
    have hmap : (confs.map (·.num)).Subperm (f.confs.map (·.num)) := by
      obtain ⟨es, hperm, hsub⟩ := h
      exact ⟨es.map (·.num), hperm.map _, hsub.map _⟩
    show (f.mailbox.num :: confs.map (·.num)).Nodup
    rw [List.nodup_cons]
    constructor
    -- what was there once is there once at most
    · intro hm
      exact hd.1 (hmap.subset hm)
    · obtain ⟨ns, hperm, hsub⟩ := hmap
      exact hperm.nodup_iff.mp (hsub.nodup hd.2)

/-- The file with a line for another conference. -/
def subscribe (conf : Int) (il : List IntRange) (hil : ReadMarks il) (h0 : conf ≠ 0)
    (hc : conf ∉ f.nums) : Subscriptions where
  mailbox := f.mailbox
  confs := f.confs ++ [⟨conf, il⟩]
  isMailbox := f.isMailbox
  marks := by
    intro e he
    rw [← List.cons_append, List.mem_append, List.mem_singleton] at he
    rcases he with he | rfl
    · exact f.marks e he
    · exact hil
  distinct := by
    have hm : f.mailbox.num ≠ conf := by
      rw [f.isMailbox]
      exact h0.symm
    rw [← List.cons_append, List.map_append, List.nodup_append]
    refine ⟨f.distinct, List.nodup_singleton _, ?_⟩
    intro a ha b hb
    simp only [List.map_cons, List.map_nil, List.mem_cons, List.not_mem_nil, or_false] at ha hb
    rw [hb]
    rcases ha with rfl | ha
    · exact hm
    · exact fun h => hc (h ▸ ha)

/-- The line of a conference, none or one. -/
def chosen (conf : Int) : List ConfsEntry := f.confs.filter (·.num = conf)

/-- The lines of the other conferences. -/
def others (conf : Int) : List ConfsEntry := f.confs.filter (·.num ≠ conf)

theorem chosen_append_others (conf : Int) : (f.chosen conf ++ f.others conf).Perm f.confs := by
  have h := List.filter_append_perm (fun e : ConfsEntry => decide (e.num = conf)) f.confs
  simpa only [chosen, others, decide_not] using h

def unsubscribe (conf : Int) : Subscriptions :=
  f.select (f.others conf) List.filter_sublist.subperm

def prio (conf : Int) : Subscriptions :=
  f.select (f.chosen conf ++ f.others conf) (f.chosen_append_others conf).subperm

def deprio (conf : Int) : Subscriptions :=
  f.select (f.others conf ++ f.chosen conf)
    (List.perm_append_comm.trans (f.chosen_append_others conf)).subperm

theorem chosen_split {conf : Int} {as bs : List ConfsEntry} {e : ConfsEntry}
    (hs : f.confs = as ++ e :: bs) (he : e.num = conf) :
    f.chosen conf = [e] ∧ f.others conf = as ++ bs := by
  have hd := f.nodup_nums
  rw [nums, hs, List.map_append, List.map_cons, List.nodup_append] at hd
  have has : ∀ a ∈ as, a.num ≠ conf := by
    intro a ha
    rw [← he]
    exact hd.2.2 a.num (List.mem_map_of_mem ha) e.num (by simp)
  have hbs : ∀ b ∈ bs, b.num ≠ conf := by
    intro b hb hbn
    exact (List.nodup_cons.mp hd.2.1).1 (List.mem_map.mpr ⟨b, hb, hbn.trans he.symm⟩)
  -- no other line has the number
  have hnone : ∀ es : List ConfsEntry, (∀ a ∈ es, a.num ≠ conf) →
      es.filter (·.num = conf) = [] ∧ es.filter (·.num ≠ conf) = es := by
    intro es hes
    constructor
    · rw [List.filter_eq_nil_iff]
      simpa using hes
    · rw [List.filter_eq_self]
      simpa using hes
  unfold chosen others
  rw [hs, List.filter_append, List.filter_append, List.filter_cons, List.filter_cons,
    (hnone as has).1, (hnone as has).2, (hnone bs hbs).1, (hnone bs hbs).2]
  simp [he]

theorem chosen_absent {conf : Int} (h : conf ∉ f.nums) :
    f.chosen conf = [] ∧ f.others conf = f.confs := by
  have hne : ∀ a ∈ f.confs, a.num ≠ conf := by
    intro a ha hn
    exact h (hn ▸ List.mem_map_of_mem ha)
  constructor
  · show f.confs.filter _ = []
    rw [List.filter_eq_nil_iff]
    simpa using hne
  · show f.confs.filter _ = f.confs
    rw [List.filter_eq_self]
    simpa using hne

/-! ## The commands on such a file -/

theorem lookup_isSome {conf : Int} (h0 : conf ≠ 0) :
    (f.toConfsFile.lookup conf).isSome ↔ conf ∈ f.nums := by
  rw [ConfsFile.lookup_isSome]
  show conf ∈ f.mailbox.num :: f.nums ↔ _
  rw [List.mem_cons, f.isMailbox, or_iff_right h0]

theorem memberOf_bytes (conf : Int) :
    memberOf conf f.bytes = some (decide (f.toConfsFile.lookup conf).isSome) := by
  unfold memberOf bytes
  cases hl : f.toConfsFile.lookup conf with
  | none =>
    rw [f.toConfsFile.confsEntry_bytes_none hl]
    rfl
  | some il =>
    obtain ⟨as, bs, -, -, -, hfind⟩ := f.toConfsFile.confsEntry_bytes hl
    rw [hfind]
    rfl

theorem readMarks_gone (first : Int) : ReadMarks (goneMarks first) := by
  unfold goneMarks
  by_cases h : first > 1
  · rw [if_pos h]
    refine ⟨?_, by simp⟩
    rw [canonical_cons]
    exact ⟨by show (1 : Int) ≤ first - 1; omega, by simp, by simp⟩
  · rw [if_neg h]
    exact ⟨by simp, by simp⟩

/-- The two lines that `subscribe_conf_num` can append. -/
theorem subscribe_line (conf first : Int) :
    (if first > 1 then jumpLine conf first else decimal conf ++ [':', '\n']) =
      stringifyConfsStruct ⟨conf, goneMarks first⟩ := by
  -- one interval up to the first text, or none
  unfold goneMarks
  by_cases h : first > 1
  · rw [if_pos h, if_pos h, jumpLine_eq]
  · rw [if_neg h, if_neg h]
    rfl

theorem getConfsEntry_bytes :
    getConfsEntry f.bytes = .entry f.mailbox (some (confsBytes f.confs)) := by
  rw [bytes_eq]
  exact getConfsEntry_stringify (f.marks _ List.mem_cons_self) _

theorem length_lt_bytes : f.confs.length + 1 < f.bytes.length + 1 := by
  have := length_le_confsBytes (f.mailbox :: f.confs)
  rw [List.length_cons] at this
  show f.confs.length + 1 < (confsBytes (f.mailbox :: f.confs)).length + 1
  omega

/-- A pass over the lines after the mailbox. -/
theorem copyLines_confs (keep : Int → Bool) :
    copyLines f.bytes keep (f.bytes.length + 1) (confsBytes f.confs) =
      some (confsBytes (f.confs.filter fun e => keep e.num)) := by
  have := f.length_lt_bytes
  exact copyLines_confsBytes keep [f.mailbox] f.confs
    (fun b hb => f.marks b (List.mem_cons_of_mem _ hb)) _ (by omega)

/-- A pass over the whole file, with a filter that drops the mailbox. -/
theorem copyLines_bytes (keep : Int → Bool) (h0 : keep 0 = false) :
    copyLines f.bytes keep (f.bytes.length + 1) f.bytes =
      some (confsBytes (f.confs.filter fun e => keep e.num)) := by
  have hlen := f.length_lt_bytes
  have h := copyLines_confsBytes keep [] (f.mailbox :: f.confs) f.marks (f.bytes.length + 1)
    (by simpa using hlen)
  rw [List.filter_cons, f.isMailbox, h0] at h
  exact h

theorem take_bytes :
    f.bytes.take (f.bytes.length - (confsBytes f.confs).length) =
      stringifyConfsStruct f.mailbox := by
  rw [bytes_eq, take_before]

theorem filter_others (conf : Int) :
    (f.confs.filter fun e => decide (e.num ≠ conf ∧ e.num ≠ 0)) = f.others conf := by
  unfold others
  apply List.filter_congr
  intro e he
  simp [f.num_ne_zero he]

theorem cmdPrio_bytes {conf : Int} (h0 : conf ≠ 0) :
    cmdPrio conf f.bytes = some (.prio, (f.prio conf).bytes) := by
  unfold cmdPrio
  rw [if_neg h0, f.getConfsEntry_bytes]
  simp only [f.copyLines_confs, f.copyLines_bytes (fun num => decide (num ≠ conf ∧ num ≠ 0))
    (by simp), Option.bind_eq_bind, Option.bind_some, f.take_bytes, f.filter_others]
  rw [bytes_eq]
  show some (SubReply.prio, stringifyConfsStruct f.mailbox ++ confsBytes (f.chosen conf) ++
    confsBytes (f.others conf)) = some (.prio, stringifyConfsStruct f.mailbox ++
      confsBytes (f.chosen conf ++ f.others conf))
  rw [confsBytes_append, List.append_assoc]

theorem cmdDeprio_bytes {conf : Int} (h0 : conf ≠ 0) :
    cmdDeprio conf f.bytes = some (.deprio, (f.deprio conf).bytes) := by
  unfold cmdDeprio
  rw [if_neg h0, f.getConfsEntry_bytes]
  simp only [f.copyLines_confs, f.copyLines_bytes (fun num => decide (num = conf))
    (by simpa using h0.symm), Option.bind_eq_bind, Option.bind_some, f.take_bytes,
    f.filter_others]
  rw [bytes_eq]
  show some (SubReply.deprio, stringifyConfsStruct f.mailbox ++ confsBytes (f.others conf) ++
    confsBytes (f.chosen conf)) = some (.deprio, stringifyConfsStruct f.mailbox ++
      confsBytes (f.others conf ++ f.chosen conf))
  rw [confsBytes_append, List.append_assoc]

theorem unsubscribeConfNum_absent {conf : Int} (hc : conf ∉ f.nums) :
    ∃ r, unsubscribeConfNum conf f.bytes = some (r, f.bytes) := by
  unfold unsubscribeConfNum
  by_cases h0 : conf ≤ 0
  · rw [if_pos h0]
    exact ⟨_, rfl⟩
  · have hl : ¬ (f.toConfsFile.lookup conf).isSome := by
      rw [f.lookup_isSome (by omega)]
      exact hc
    rw [if_neg h0, f.memberOf_bytes, decide_eq_false hl]
    exact ⟨_, rfl⟩

theorem unsubscribeConfNum_nonpos {conf : Int} (h0 : conf ≤ 0) :
    unsubscribeConfNum conf f.bytes = some (.noUsubMail, f.bytes) := by
  unfold unsubscribeConfNum
  rw [if_pos h0]
  rfl

theorem unsubscribeConfNum_bytes {conf : Int} (h0 : 0 < conf) (hc : conf ∈ f.nums) :
    unsubscribeConfNum conf f.bytes = some (.usubOk, (f.unsubscribe conf).bytes) := by
  have hl : (f.toConfsFile.lookup conf).isSome := (f.lookup_isSome (by omega)).mpr hc
  obtain ⟨il, hil⟩ := Option.isSome_iff_exists.mp hl
  obtain ⟨as, bs, hs, -, -, hfind⟩ := f.toConfsFile.confsEntry_bytes hil
  -- the line is not the first one
  obtain ⟨as, rfl, hconfs⟩ : ∃ as', as = f.mailbox :: as' ∧ f.confs = as' ++ ⟨conf, il⟩ :: bs := by
    cases as with
    | nil =>
      have hm : f.mailbox.num = conf := by rw [(List.cons.inj hs).1]
      have := f.isMailbox
      omega
    | cons a as =>
      obtain ⟨h1, h2⟩ := List.cons.inj hs
      exact ⟨as, by rw [h1], h2⟩
  have hfile : f.bytes = confsBytes (f.mailbox :: as ++ ⟨conf, il⟩ :: bs) :=
    congrArg confsBytes hs
  unfold unsubscribeConfNum
  rw [if_neg (by omega), f.memberOf_bytes, decide_eq_true hl]
  show (match confsEntry conf f.bytes with
    | .crash => none
    | .null => some (SubReply.error, f.bytes)
    | .entry _ none => none
    | .entry _ (some next) => some (.usubOk, replaceLine f.bytes next [])) = _
  rw [show confsEntry conf f.bytes = _ from hfind, hfile]
  simp only [replaceLine_confsBytes]
  rw [bytes_eq]
  show some (SubReply.usubOk, confsBytes (f.mailbox :: as) ++ [] ++ confsBytes bs) =
    some (.usubOk, stringifyConfsStruct f.mailbox ++ confsBytes (f.others conf))
  rw [(f.chosen_split hconfs rfl).2, confsBytes_cons, confsBytes_append, List.append_nil,
    List.append_assoc]

/-- A conference that the user has is left alone; otherwise the file gets the lines of
`subscribedLines` at its end. -/
theorem subscribeConfNum_bytes {d : Disk} {l : ConfFile} (hd : d.conffile = l.bytes) {conf : Int}
    {ce : ConfEntry} (he : l.entry conf = some ce) (uid : Int) (confrc : Int → CString) :
    (∃ r, subscribeConfNum d uid confrc conf f.bytes = some (r, f.bytes) ∧
      (conf ∉ f.nums → subscribedLines d uid confrc conf = some [])) ∨
      ∃ first, ∃ h0 : conf ≠ 0, ∃ hc : conf ∉ f.nums,
        subscribeConfNum d uid confrc conf f.bytes =
          some (.subOk, (f.subscribe conf (goneMarks first) (readMarks_gone first) h0 hc).bytes) ∧
        subscribedLines d uid confrc conf = some [⟨conf, goneMarks first⟩] := by
  -- the conference list has no mailbox
  have hpos : 0 < conf := by
    rw [← (l.exists_split he).1]
    exact l.positive ce (l.mem_of_entry he)
  have h0 : conf ≠ 0 := by omega
  unfold subscribeConfNum subscribedLines
  rw [f.memberOf_bytes, hd, getConfStruct_bytes he]
  by_cases hl : (f.toConfsFile.lookup conf).isSome
  · rw [decide_eq_true hl]
    exact Or.inl ⟨_, rfl, fun hc => absurd ((f.lookup_isSome h0).mp hl) hc⟩
  · have hc : conf ∉ f.nums := by
      rw [← f.lookup_isSome h0]
      exact hl
    rw [decide_eq_false hl]
    by_cases hr : confRight (getConfrcStruct conf (confrc conf)) uid ce.type ce.creator ≠ 0
    · left
      refine ⟨.notAllow, ?_, fun _ => ?_⟩
      · show (if _ then _ else _) = _
        rw [if_pos hr]
        rfl
      · show (if _ then _ else _) = _
        rw [if_pos hr]
        rfl
    · right
      obtain ⟨first, hfirst⟩ : ∃ first, firstText d conf = some first := by
        unfold firstText
        rw [hd, l.lastText_bytes _ he]
        exact ⟨_, rfl⟩
      refine ⟨first, h0, hc, ?_, ?_⟩
      · show (if _ then _ else _) = _
        rw [if_neg hr, hfirst]
        show some (SubReply.subOk, f.bytes ++ if first > 1 then _ else _) = _
        rw [subscribe_line, bytes_eq, bytes_eq]
        show _ = some (SubReply.subOk, stringifyConfsStruct f.mailbox ++
          confsBytes (f.confs ++ [⟨conf, goneMarks first⟩]))
        simp
      · show (if _ then _ else _) = _
        rw [if_neg hr, hfirst]
        rfl

end Subscriptions

/-! ## Runs of the commands -/

/-- A command, on the conference that its argument stands for.  The conference list, the texts and
the `confrc` files are those at the time of the command. -/
inductive SubEvent where
  | subscribe (d : Disk) (confrc : Int → CString) (conf : Int)
  | unsubscribe (conf : Int)
  | prio (conf : Int)
  | deprio (conf : Int)

def SubEvent.conf : SubEvent → Int
  | subscribe _ _ conf => conf
  | unsubscribe conf => conf
  | prio conf => conf
  | deprio conf => conf

def subStep (uid : Int) (buf : CString) : SubEvent → Option CString
  | .subscribe d confrc conf => (subscribeConfNum d uid confrc conf buf).map Prod.snd
  | .unsubscribe conf => (unsubscribeConfNum conf buf).map Prod.snd
  | .prio conf => (cmdPrio conf buf).map Prod.snd
  | .deprio conf => (cmdDeprio conf buf).map Prod.snd

/-- A name to subscribe to was found in the conference list. -/
def SubEvent.Known : SubEvent → Prop
  | subscribe d _ conf => ∃ l : ConfFile, d.conffile = l.bytes ∧ (l.entry conf).isSome
  | _ => True

/-- What a command does to the line of its conference, between the lines `as` and `bs`. -/
def SubEvent.result (as : List ConfsEntry) (line : ConfsEntry) (bs : List ConfsEntry) :
    SubEvent → List ConfsEntry
  | subscribe _ _ _ => as ++ line :: bs
  | unsubscribe conf => if conf ≤ 0 then as ++ line :: bs else as ++ bs
  | prio _ => line :: (as ++ bs)
  | deprio _ => as ++ bs ++ [line]

/-- What a command adds for a conference that the user does not have. -/
def SubEvent.added (uid : Int) : SubEvent → Option (List ConfsEntry)
  | subscribe d confrc conf => subscribedLines d uid confrc conf
  | _ => some []

structure SubKept (uid : Int) (f : Subscriptions) (e : SubEvent) (f' : Subscriptions) : Prop where
  mailbox : f'.mailbox = f.mailbox
  others : f'.others e.conf = f.others e.conf
  noMailbox : e.conf = 0 → f' = f
  line : ∀ as line bs, f.confs = as ++ line :: bs → line.num = e.conf →
    f'.confs = e.result as line bs
  absent : e.conf ∉ f.nums → ∃ lines, e.added uid = some lines ∧ f'.confs = f.confs ++ lines

section Kept

variable {f : Subscriptions} {uid conf : Int}

theorem num_mem_of_split {as bs : List ConfsEntry} {line : ConfsEntry}
    (hs : f.confs = as ++ line :: bs) (hn : line.num = conf) : conf ∈ f.nums := by
  show conf ∈ f.confs.map (·.num)
  rw [hs, ← hn]
  simp

theorem zero_notMem_nums : (0 : Int) ∉ f.nums := by
  intro h
  obtain ⟨e, he, h0⟩ := List.mem_map.mp h
  exact f.num_ne_zero he h0

/-- The file may stay as it is: on subscribing to what the user has, and where there is nothing to
move. -/
theorem subKept_same {e : SubEvent}
    (h : ∀ as line bs, f.confs = as ++ line :: bs → line.num = e.conf →
      e.result as line bs = as ++ line :: bs)
    (habsent : e.conf ∉ f.nums → e.added uid = some []) : SubKept uid f e f where
  mailbox := rfl
  others := rfl
  noMailbox _ := rfl
  line as line bs hs hn := by rw [h as line bs hs hn, hs]
  absent hc := ⟨[], habsent hc, (List.append_nil f.confs).symm⟩

theorem subKept_absent {e : SubEvent} (h : e.conf ∉ f.nums) (hadded : e.added uid = some []) :
    SubKept uid f e f :=
  subKept_same (fun _ _ _ hs hn => absurd (num_mem_of_split hs hn) h) fun _ => hadded

/-- A file with the chosen line and the other lines in another arrangement. -/
theorem subKept_select {e : SubEvent} {confs : List ConfsEntry} (h : confs.Subperm f.confs)
    (h0 : e.conf ≠ 0) (hothers : confs.filter (·.num ≠ e.conf) = f.others e.conf)
    (hline : ∀ as line bs, f.confs = as ++ line :: bs → line.num = e.conf →
      confs = e.result as line bs)
    (habsent : e.conf ∉ f.nums → confs = f.confs) (hadded : e.added uid = some []) :
    SubKept uid f e (f.select confs h) where
  mailbox := rfl
  others := hothers
  noMailbox h := absurd h h0
  line := hline
  absent hc := ⟨[], hadded, (habsent hc).trans (List.append_nil f.confs).symm⟩

theorem filter_ne_chosen : (f.chosen conf).filter (·.num ≠ conf) = [] := by
  rw [List.filter_eq_nil_iff]
  intro e he
  simpa using (List.mem_filter.mp he).2

theorem filter_ne_others : (f.others conf).filter (·.num ≠ conf) = f.others conf := by
  rw [List.filter_eq_self]
  intro e he
  exact (List.mem_filter.mp he).2

theorem subKept_prio (h0 : conf ≠ 0) : SubKept uid f (.prio conf) (f.prio conf) := by
  apply subKept_select
  · exact h0
  · show (f.chosen conf ++ f.others conf).filter (·.num ≠ conf) = f.others conf
    rw [List.filter_append, filter_ne_chosen, filter_ne_others, List.nil_append]
  · intro as line bs hs (hn : line.num = conf)
    obtain ⟨h1, h2⟩ := f.chosen_split hs hn
    rw [h1, h2]
    rfl
  · intro (hc : conf ∉ f.nums)
    rw [(f.chosen_absent hc).1, (f.chosen_absent hc).2, List.nil_append]
  · rfl

theorem subKept_deprio (h0 : conf ≠ 0) : SubKept uid f (.deprio conf) (f.deprio conf) := by
  apply subKept_select
  · exact h0
  · show (f.others conf ++ f.chosen conf).filter (·.num ≠ conf) = f.others conf
    rw [List.filter_append, filter_ne_chosen, filter_ne_others, List.append_nil]
  · intro as line bs hs (hn : line.num = conf)
    obtain ⟨h1, h2⟩ := f.chosen_split hs hn
    rw [h1, h2]
    rfl
  · intro (hc : conf ∉ f.nums)
    rw [(f.chosen_absent hc).1, (f.chosen_absent hc).2, List.append_nil]
  · rfl

theorem subKept_unsubscribe (h0 : 0 < conf) :
    SubKept uid f (.unsubscribe conf) (f.unsubscribe conf) := by
  apply subKept_select
  · show conf ≠ 0
    omega
  · exact filter_ne_others
  · intro as line bs hs (hn : line.num = conf)
    show f.others conf = if conf ≤ 0 then _ else _
    rw [if_neg (by omega), (f.chosen_split hs hn).2]
  · intro (hc : conf ∉ f.nums)
    exact (f.chosen_absent hc).2
  · rfl

theorem subKept_subscribe {first : Int} (h0 : conf ≠ 0) (hc : conf ∉ f.nums) {d : Disk}
    {confrc : Int → CString} (hadded : subscribedLines d uid confrc conf = some [⟨conf, goneMarks first⟩]) :
    SubKept uid f (.subscribe d confrc conf)
      (f.subscribe conf (goneMarks first) (Subscriptions.readMarks_gone first) h0 hc) where
  mailbox := rfl
  others := by
    show List.filter (fun e : ConfsEntry => decide (e.num ≠ conf)) (f.confs ++ [⟨conf, goneMarks first⟩]) =
      f.others conf
    rw [List.filter_append]
    simp [Subscriptions.others]
  noMailbox h := absurd h h0
  line as line bs hs hn := absurd (num_mem_of_split hs hn) hc
  absent _ := ⟨_, hadded, rfl⟩

/-- One command from a file with the mailbox in front. -/
theorem subStep_bytes (uid : Int) (f : Subscriptions) {e : SubEvent} (he : e.Known) :
    ∃ f' : Subscriptions, subStep uid f.bytes e = some f'.bytes ∧ SubKept uid f e f' := by
  cases e with
  | subscribe d confrc conf =>
    obtain ⟨l, hd, hl⟩ := he
    obtain ⟨ce, hce⟩ := Option.isSome_iff_exists.mp hl
    rcases f.subscribeConfNum_bytes hd hce uid confrc with ⟨r, h, hnone⟩ | ⟨first, h0, hc, h, hline⟩
    · exact ⟨f, by rw [subStep, h]; rfl, subKept_same (fun _ _ _ _ _ => rfl) hnone⟩
    · exact ⟨_, by rw [subStep, h]; rfl, subKept_subscribe h0 hc hline⟩
  | unsubscribe conf =>
    by_cases h0 : conf ≤ 0
    · refine ⟨f, by rw [subStep, f.unsubscribeConfNum_nonpos h0]; rfl, subKept_same ?_ fun _ => rfl⟩
      intro as line bs _ _
      exact if_pos h0
    · by_cases hc : conf ∈ f.nums
      · exact ⟨_, by rw [subStep, f.unsubscribeConfNum_bytes (by omega) hc]; rfl,
          subKept_unsubscribe (by omega)⟩
      · obtain ⟨r, h⟩ := f.unsubscribeConfNum_absent hc
        exact ⟨f, by rw [subStep, h]; rfl, subKept_absent hc rfl⟩
  | prio conf =>
    by_cases h0 : conf = 0
    · subst h0
      exact ⟨f, by rw [subStep, cmdPrio, if_pos rfl]; rfl, subKept_absent zero_notMem_nums rfl⟩
    · exact ⟨_, by rw [subStep, f.cmdPrio_bytes h0]; rfl, subKept_prio h0⟩
  | deprio conf =>
    by_cases h0 : conf = 0
    · subst h0
      exact ⟨f, by rw [subStep, cmdDeprio, if_pos rfl]; rfl, subKept_absent zero_notMem_nums rfl⟩
    · exact ⟨_, by rw [subStep, f.cmdDeprio_bytes h0]; rfl, subKept_deprio h0⟩

/-- Along any run of the four commands the file keeps the mailbox in front and one line for each
conference; a command moves or removes the line of its conference only. -/
theorem subscriptions_over_runs (uid : Int) (f : Subscriptions) (events : List SubEvent)
    (hknown : ∀ e ∈ events, e.Known) :
    AllSteps (subStep uid) (fun buf e buf' => ∃ f f' : Subscriptions, buf = f.bytes ∧
      buf' = f'.bytes ∧ SubKept uid f e f') f.bytes events := by
  apply allSteps_of_invariant (I := fun buf => ∃ f : Subscriptions, buf = f.bytes)
    (E := SubEvent.Known)
  · rintro _ e ⟨f, rfl⟩ he
    obtain ⟨f', hf', hkept⟩ := subStep_bytes uid f he
    exact ⟨f'.bytes, hf', ⟨f', rfl⟩, f, f', rfl, rfl, hkept⟩
  · exact ⟨f, rfl⟩
  · exact hknown

end Kept

def mailAndTwo : Subscriptions where
  mailbox := ⟨0, [⟨1, 3⟩]⟩
  confs := [⟨2, [⟨1, 4⟩, ⟨6, 6⟩]⟩, ⟨5, []⟩]
  isMailbox := rfl
  marks := by decide
  distinct := by decide

/-- The disk of a user who subscribes to conference 1, which has a text 1 only. -/
def oneTextDisk : Disk where
  mailbox := "0:3:0:0:0:0:0:\n".toList
  conffile := emptyConference.bytes
  fileExists conf n := conf = 1 ∧ n = 1

theorem subscriptions_over_runs_mailAndTwo :
    AllSteps (subStep 7) (fun buf e buf' => ∃ f f' : Subscriptions, buf = f.bytes ∧
      buf' = f'.bytes ∧ SubKept 7 f e f') mailAndTwo.bytes
      [.subscribe oneTextDisk (fun _ => []) 1, .prio 5, .deprio 2, .unsubscribe 1, .prio 0] := by
  apply subscriptions_over_runs
  intro e he
  simp only [List.mem_cons, List.not_mem_nil, or_false] at he
  rcases he with rfl | rfl | rfl | rfl | rfl
  · exact ⟨emptyConference, rfl, rfl⟩
  all_goals trivial

end SklaffKom
