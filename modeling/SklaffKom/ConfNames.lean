import Mathlib.Data.List.Nodup
import Mathlib.Logic.Function.Basic
import SklaffKom.Lib.Runs
import SklaffKom.TextFile

/-!
# The names of conferences

`cmd_create_conf` and `cmd_change_cname` ask `conf_num` whether a name is taken, and write the name
later, in a locked step of its own.  `conf_num` first compares the name with that of the mailbox, by
`cmp_strings`, which takes abbreviations.
-/

open CString Runs

namespace SklaffKom

/-! ## Comparing abbreviations -/

/-- `up_string`; characters above 127 are negative. -/
def upString (str : CString) : CString :=
  str.map fun c => if 0x60 < c.toNat ∧ c.toNat < 0x7e then Char.ofNat (c.toNat - 32) else c

/-- `s[i]` -/
def charAt (s : CString) (i : Nat) : Char := s.getD i '\x00'

/-- `isspace(c) || c == '.'` -/
def isBreak (c : Char) : Bool := isSpace c || c = '.'

mutual

/-- `skip_beyond_rpar`; without a right parenthesis it goes on behind the end of the string. -/
def skipBeyondRpar (s : CString) : Nat → Nat → Nat
  | 0, i => i
  | fuel + 1, i =>
    if charAt s i ≠ ')' ∧ charAt s i ≠ '\x00' then
      skipBeyondRpar s fuel (if charAt s (i + 1) = '(' then skipBeyondRpar s fuel (i + 1) else i + 1)
    else if isBreak (charAt s (i + 1)) then skipBeyondSpace s fuel (i + 1)
    else i + 1

def skipBeyondSpace (s : CString) : Nat → Nat → Nat
  | 0, i => i
  | fuel + 1, i =>
    let i := i + ((s.drop i).takeWhile fun c => !isBreak c && c ≠ '\x00').length
    let i := i + ((s.drop i).takeWhile isBreak).length
    if charAt s i = '(' then skipBeyondRpar s fuel i else i

end

/-- `if (s[p] == '(') skip_beyond_rpar(s, &p)` -/
def skipParentheses (s : CString) (fuel p : Nat) : Nat :=
  if charAt s p = '(' then skipBeyondRpar s fuel p else p

/-- The loop over the characters that agree. -/
def cmpRun (s1 s2 : CString) : Nat → Nat × Nat → Nat × Nat
  | 0, p => p
  | fuel + 1, (p1, p2) =>
    if charAt s1 p1 = charAt s2 p2 ∧ charAt s1 p1 ≠ '\x00' then
      cmpRun s1 s2 fuel
        (if isBreak (charAt s2 p2) then (skipBeyondSpace s1 fuel p1, skipBeyondSpace s2 fuel p2)
          else (p1 + 1, p2 + 1))
    else (p1, p2)

def cmpLoop (s1 s2 : CString) : Nat → Nat × Nat → Bool
  | 0, _ => false
  | fuel + 1, (p1, p2) =>
    let p1 := skipParentheses s1 fuel p1
    let p2 := skipParentheses s2 fuel p2
    if charAt s1 p1 ≠ charAt s2 p2 then false
    else
      let (p1, p2) := cmpRun s1 s2 fuel (p1, p2)
      let p1 := skipParentheses s1 fuel p1
      let p2 := skipParentheses s2 fuel p2
      let (p1, p2) := if isBreak (charAt s2 p2) then
          (skipBeyondSpace s1 fuel p1, skipBeyondSpace s2 fuel p2)
        else (p1, p2)
      if charAt s1 p1 = '\x00' then charAt s2 p2 = '\x00'
      else if charAt s2 p2 = '\x00' then true
      else cmpLoop s1 s2 fuel (p1, p2)

/-- `cmp_strings`; `old1` and `old2` are left in its buffers behind the copies. -/
def cmpStrings (old1 old2 s1 s2 : CString) : Bool :=
  let tmp1 := upString (rtrim s1) ++ '\x00' :: old1
  let tmp2 := upString (rtrim s2) ++ '\x00' :: old2
  cmpLoop tmp1 tmp2 (tmp1.length + tmp2.length + 1) (0, 0)

example : cmpStrings [] [] "Brevl\x7ddan".toList "br".toList = true := by decide

/-! ## The number of a name -/

/-- What `conf_num` finds in memory: the buffers of `cmp_strings`, and a `ce.name` without a value. -/
structure ConfNumMem where
  old1 : CString
  old2 : CString
  name : CString

/-- The loop of `conf_num`; `last` is the name in `ce`. -/
def findConfName (name : CString) : Nat → CString → CString → Option Int
  | 0, _, _ => some (-1)
  | fuel + 1, last, buf =>
    match getConfEntry buf with
    | .crash => none
    -- at the end `ce.num` is 0
    | .null => some (if name = last then 0 else -1)
    | .entry ce next => if name = ce.name then some ce.num else findConfName name fuel ce.name next

/-- `conf_num`, which trims the name in its place. -/
def confNum (msgMailbox : CString) (mem : ConfNumMem) (conffile name : CString) : Option Int :=
  if cmpStrings mem.old1 mem.old2 msgMailbox name then some 0
  else findConfName (rtrim name) (conffile.length + 1) mem.name conffile

/-! ## Sessions -/

def TypedName : Type := { s : CString // '\n' ∉ s ∧ s.length ≤ 78 }

/-- A session between the test of its name and the write: the name, and the conference that is
renamed, if it is no new one.  `since` are the names that other sessions have written since the
test. -/
structure NamePending where
  cNum : Option Int
  name : CString
  since : List CString

/-- `etc/conf` and the sessions. -/
structure NameSystem where
  conffile : CString
  pending : Nat → Option NamePending

def NameSystem.init : NameSystem := ⟨[], fun _ => none⟩

/-- What a new entry has beside its number and name. -/
structure ConfStamp where
  creator : Int
  time : Int
  type : Int
  life : Int

inductive NameEvent where
  /-- `cmd_create_conf` up to the questions -/
  | testCreate (i : Nat) (args : TypedName) (mem : ConfNumMem)
  /-- `cmd_change_cname` by the creator of the conference; `oldname` is what `conf_name` has read -/
  | testRename (i : Nat) (cNum : Int) (oldname : CString) (input : TypedName) (mem : ConfNumMem)
  /-- the locked step of either command -/
  | write (i : Nat) (stamp : ConfStamp)

/-- The number of the last entry, 0 without one. -/
def lastConfNum : Nat → Int → CString → Option Int
  | 0, confnum, _ => some confnum
  | fuel + 1, confnum, buf =>
    match getConfEntry buf with
    | .crash => none
    | .null => some confnum
    | .entry ce next => lastConfNum fuel ce.num next

/-- The locked step of `cmd_create_conf`. -/
def createConf (conffile name : CString) (stamp : ConfStamp) : Option CString := do
  let confnum ← lastConfNum (conffile.length + 1) 0 conffile
  let ce : ConfEntry :=
    { num := confnum + 1, lastText := 0, creator := stamp.creator, time := stamp.time,
      type := stamp.type, life := stamp.life, comconf := 0, name := name }
  pure (conffile ++ stringifyConfStruct ce)

/-- The locked step of `cmd_change_cname`: the new file, or the old one when the conference is
missing. -/
def changeCname (conffile : CString) (cNum : Int) (name : CString) : Option CString :=
  match confEntry cNum conffile with
  | .crash => none
  | .null => some conffile
  | .entry ce _ => (replaceConf { ce with name := name } conffile).map (·.getD conffile)

/-- The others know what a session has written. -/
def noteWrite (name : CString) (p : NamePending) : NamePending := { p with since := name :: p.since }

variable (msgMailbox : CString)

/-- The step of a session; `none` is a crash. -/
def nameStep (s : NameSystem) : NameEvent → Option NameSystem
  | .testCreate i args mem => do
    let confname := ltrim args.val
    let n ← confNum msgMailbox mem s.conffile confname
    let confname := rtrim confname
    if n > 0 ∨ confname = [] then pure s
    else pure { s with pending := Function.update s.pending i (some ⟨none, confname, []⟩) }
  | .testRename i cNum oldname input mem => do
    let newname := ltrim input.val
    if newname = [] ∨ oldname = newname then pure s
    else
      let existingNum ← confNum msgMailbox mem s.conffile newname
      if existingNum > 0 ∧ existingNum ≠ cNum then pure s
      else pure { s with pending := Function.update s.pending i (some ⟨some cNum, rtrim newname, []⟩) }
  | .write i stamp =>
    match s.pending i with
    | none => some s
    | some p => do
      let conffile ← match p.cNum with
        | none => createConf s.conffile p.name stamp
        | some cNum => changeCname s.conffile cNum p.name
      pure
        { conffile := conffile
          pending := Function.update (fun j => (s.pending j).map (noteWrite p.name)) i none }

/-! ## Names and numbers of a list -/

theorem cmpStrings_rtrim (old1 old2 s1 s2 : CString) :
    cmpStrings old1 old2 s1 (rtrim s2) = cmpStrings old1 old2 s1 s2 := by
  unfold cmpStrings
  rw [rtrim_rtrim]

/-- The loop of `conf_num` over a list of entries. -/
theorem findConfName_bytes {es : List ConfEntry} (hes : ∀ e ∈ es, '\n' ∉ e.name) (name last : CString)
    (fuel : Nat) (hf : es.length < fuel) :
    ∃ n, findConfName name fuel last (confBytes es) = some n ∧
      (n ≤ 0 ∧ (∀ e ∈ es, e.name ≠ name) ∨ ∃ e ∈ es, e.name = name ∧ e.num = n) := by
  induction es generalizing fuel last with
  | nil =>
    obtain ⟨fuel, rfl⟩ : ∃ k, fuel = k + 1 := ⟨fuel - 1, by simp at hf; omega⟩
    have hnull : getConfEntry (confBytes []) = .null := rfl
    rw [findConfName, hnull]
    refine ⟨_, rfl, Or.inl ⟨?_, by simp⟩⟩
    split <;> decide
  | cons e es ih =>
    obtain ⟨fuel, rfl⟩ : ∃ k, fuel = k + 1 := ⟨fuel - 1, by simp at hf; omega⟩
    obtain ⟨he, hes⟩ := List.forall_mem_cons.mp hes
    rw [confBytes_cons, findConfName, getConfEntry_stringify he]
    dsimp only
    by_cases heq : name = e.name
    · rw [if_pos heq]
      exact ⟨e.num, rfl, Or.inr ⟨e, List.mem_cons_self, heq.symm, rfl⟩⟩
    · rw [if_neg heq]
      obtain ⟨n, hn, hfound⟩ := ih hes e.name fuel (by simp at hf; omega)
      refine ⟨n, hn, ?_⟩
      rcases hfound with ⟨hle, hne⟩ | ⟨d, hd, hname, hnum⟩
      · exact Or.inl ⟨hle, List.forall_mem_cons.mpr ⟨fun h => heq h.symm, hne⟩⟩
      · exact Or.inr ⟨d, List.mem_cons_of_mem _ hd, hname, hnum⟩

theorem lastConfNum_bytes {es : List ConfEntry} (hes : ∀ e ∈ es, '\n' ∉ e.name) (n : Int) (fuel : Nat)
    (hf : es.length < fuel) :
    lastConfNum fuel n (confBytes es) = some ((es.getLast?.map (·.num)).getD n) := by
  induction es generalizing fuel n with
  | nil =>
    obtain ⟨fuel, rfl⟩ : ∃ k, fuel = k + 1 := ⟨fuel - 1, by simp at hf; omega⟩
    rfl
  | cons e es ih =>
    obtain ⟨fuel, rfl⟩ : ∃ k, fuel = k + 1 := ⟨fuel - 1, by simp at hf; omega⟩
    obtain ⟨he, hes⟩ := List.forall_mem_cons.mp hes
    rw [confBytes_cons, lastConfNum, getConfEntry_stringify he]
    dsimp only
    rw [ih hes e.num fuel (by simp at hf; omega)]
    cases es with
    | nil => rfl
    | cons d es =>
      obtain ⟨a, ha⟩ : ∃ a, (d :: es).getLast? = some a := ⟨_, List.getLast?_eq_some_getLast (by simp)⟩
      rw [List.getLast?_cons_cons, ha]
      rfl

/-! ## Lists with one entry for each name -/

/-- `cmp_strings` never takes the name for that of the mailbox. -/
def NotMailbox (name : CString) : Prop := ∀ old1 old2, cmpStrings old1 old2 msgMailbox name = false

/-- The numbers are 1, 2, 3, ... and no name is there twice or is taken for the mailbox. -/
structure NamedList (es : List ConfEntry) : Prop where
  oneLine : ∀ e ∈ es, '\n' ∉ e.name
  nums : es.map (·.num) = (List.range es.length).map fun i : Nat => (i : Int) + 1
  names : (es.map (·.name)).Nodup
  trimmed : ∀ e ∈ es, rtrim e.name = e.name
  notMailbox : ∀ e ∈ es, NotMailbox msgMailbox e.name

variable {msgMailbox} {es : List ConfEntry}

theorem NamedList.confFile (h : NamedList msgMailbox es) : ∃ l : ConfFile, l.entries = es := by
  have hnum : ∀ e ∈ es, 0 < e.num := by
    intro e he
    have hmem := List.mem_map_of_mem (f := (·.num)) he
    rw [h.nums] at hmem
    obtain ⟨i, -, hi⟩ := List.mem_map.mp hmem
    omega
  refine ⟨⟨es, h.oneLine, ?_, hnum⟩, rfl⟩
  rw [h.nums, List.pairwise_map]
  exact List.pairwise_lt_range.imp fun hlt => by omega

/-- `conf_num` finds each name. -/
theorem NamedList.confNum (h : NamedList msgMailbox es) {e : ConfEntry} (he : e ∈ es) (mem : ConfNumMem) :
    confNum msgMailbox mem (confBytes es) e.name = some e.num := by
  have hlen := length_le_confBytes es
  obtain ⟨n, hn, hfound⟩ := findConfName_bytes h.oneLine (rtrim e.name) mem.name
    ((confBytes es).length + 1) (by omega)
  unfold SklaffKom.confNum
  rw [h.notMailbox e he, if_neg (by decide), hn]
  rw [h.trimmed e he] at hfound
  rcases hfound with ⟨-, hne⟩ | ⟨d, hd, hname, hnum⟩
  · exact absurd rfl (hne e he)
  · rw [List.inj_on_of_nodup_map h.names hd he hname] at hnum
    rw [hnum]

/-- What `conf_num` says about any name. -/
theorem NamedList.confNum_result (h : NamedList msgMailbox es) (name : CString) (mem : ConfNumMem) :
    ∃ n, SklaffKom.confNum msgMailbox mem (confBytes es) name = some n ∧
      ∀ e ∈ es, e.name = rtrim name → n = e.num := by
  by_cases hmem : ∃ e ∈ es, e.name = rtrim name
  · obtain ⟨e, he, hname⟩ := hmem
    have hnum := h.confNum he mem
    refine ⟨e.num, ?_, fun d hd hd' => ?_⟩
    · rw [← hnum, hname]
      unfold SklaffKom.confNum
      rw [cmpStrings_rtrim, rtrim_rtrim]
    · rw [List.inj_on_of_nodup_map h.names hd he (hd'.trans hname.symm)]
  · have hlen := length_le_confBytes es
    obtain ⟨n, hn, -⟩ := findConfName_bytes h.oneLine (rtrim name) mem.name
      ((confBytes es).length + 1) (by omega)
    unfold SklaffKom.confNum
    split
    · exact ⟨0, rfl, fun e he hname => absurd ⟨e, he, hname⟩ hmem⟩
    · exact ⟨n, hn, fun e he hname => absurd ⟨e, he, hname⟩ hmem⟩

theorem NamedList.num_pos (h : NamedList msgMailbox es) {e : ConfEntry} (he : e ∈ es) : 0 < e.num := by
  obtain ⟨l, rfl⟩ := h.confFile
  exact l.positive e he

/-- A new conference gets the next number. -/
theorem NamedList.create (h : NamedList msgMailbox es) {name : CString} (hline : '\n' ∉ name)
    (htrim : rtrim name = name) (hmailbox : NotMailbox msgMailbox name) (hnew : ∀ e ∈ es, e.name ≠ name)
    (stamp : ConfStamp) : ∃ ce : ConfEntry, ce.name = name ∧
      createConf (confBytes es) name stamp = some (confBytes (es ++ [ce])) ∧
      NamedList msgMailbox (es ++ [ce]) := by
  have hlen := length_le_confBytes es
  have hlast : (es.getLast?.map (·.num)).getD 0 = (es.length : Int) := by
    rw [← List.getLast?_map, h.nums]
    cases hn : es.length with
    | zero => rfl
    | succ n => simp [List.range_succ]
  refine ⟨⟨es.length + 1, 0, stamp.creator, stamp.time, stamp.type, stamp.life, 0, name⟩, rfl, ?_, ?_⟩
  · unfold createConf
    rw [lastConfNum_bytes h.oneLine 0 _ (by omega), hlast]
    simp
  · constructor
    · intro e he
      rcases List.mem_append.mp he with he | he
      · exact h.oneLine e he
      · cases List.mem_singleton.mp he
        exact hline
    · rw [List.map_append, h.nums, List.length_append, List.length_singleton, List.range_succ,
        List.map_append]
      rfl
    · rw [List.map_append, List.nodup_append]
      refine ⟨h.names, List.nodup_singleton _, ?_⟩
      intro a ha b hb heq
      obtain ⟨e, he, rfl⟩ := List.mem_map.mp ha
      rw [List.map_singleton, List.mem_singleton] at hb
      exact hnew e he (heq.trans hb)
    · intro e he
      rcases List.mem_append.mp he with he | he
      · exact h.trimmed e he
      · cases List.mem_singleton.mp he
        exact htrim
    · intro e he
      rcases List.mem_append.mp he with he | he
      · exact h.notMailbox e he
      · cases List.mem_singleton.mp he
        exact hmailbox

/-- A conference gets another name. -/
theorem NamedList.rename (h : NamedList msgMailbox es) {name : CString} (hline : '\n' ∉ name)
    (htrim : rtrim name = name) (hmailbox : NotMailbox msgMailbox name) {cNum : Int}
    (hnew : ∀ e ∈ es, e.name = name → e.num = cNum) :
    ∃ es', changeCname (confBytes es) cNum name = some (confBytes es') ∧ NamedList msgMailbox es' ∧
      ∀ e ∈ es', e.name = name ∨ e ∈ es := by
  obtain ⟨l, rfl⟩ := h.confFile
  cases hentry : l.entry cNum with
  | none =>
    -- the conference is missing
    have hnull := l.confEntry_bytes_none hentry
    refine ⟨l.entries, ?_, h, fun e he => Or.inr he⟩
    unfold changeCname
    rw [show confEntry cNum (confBytes l.entries) = .null from hnull]
  | some old =>
    obtain ⟨hnum, as, bs, hsplit, has⟩ := l.exists_split hentry
    obtain ⟨as', bs', -, -, hfind⟩ := l.confEntry_bytes hentry
    set ce : ConfEntry := { old with name := name }
    have hreplace := @ConfFile.replaceConf_bytes l cNum old ce hline hentry hnum
    have hentries := @ConfFile.entries_update l as bs old ce hline hsplit rfl
    have hnums : (as ++ ce :: bs).map (·.num) = l.entries.map (·.num) := by
      rw [hsplit, List.map_append, List.map_append]
      rfl
    have hmem : ∀ e ∈ as ++ ce :: bs, e = ce ∨ e ∈ l.entries := by
      intro e he
      rw [hsplit]
      rcases List.mem_append.mp he with he | he
      · exact Or.inr (List.mem_append_left _ he)
      · rcases List.mem_cons.mp he with he | he
        · exact Or.inl he
        · exact Or.inr (List.mem_append_right _ (List.mem_cons_of_mem _ he))
    refine ⟨as ++ ce :: bs, ?_, ?_, ?_⟩
    · unfold changeCname
      rw [show confEntry cNum (confBytes l.entries) = .entry old (confBytes bs') from hfind]
      dsimp only
      rw [show replaceConf ce (confBytes l.entries) = _ from hreplace]
      show some (l.update ce hline).bytes = _
      rw [ConfFile.bytes, hentries]
    · constructor
      · intro e he
        rcases hmem e he with rfl | he
        · exact hline
        · exact h.oneLine e he
      · rw [hnums, h.nums, hsplit]
        simp
      · -- the other entries have other names
        have hnames := h.names
        have hother : ∀ e ∈ as ++ bs, e.name ≠ name := by
          intro e he hname
          have hin : e ∈ l.entries := by
            rw [hsplit]
            rcases List.mem_append.mp he with he | he
            · exact List.mem_append_left _ he
            · exact List.mem_append_right _ (List.mem_cons_of_mem _ he)
          have hsame : e.num = old.num := (hnew e hin hname).trans hnum.symm
          have hnd := l.numbered.imp fun hlt => Int.ne_of_lt hlt
          rw [hsplit, List.map_append, List.map_cons] at hnd
          obtain ⟨-, hcons, hcross⟩ := List.nodup_append.mp hnd
          rcases List.mem_append.mp he with he | he
          · exact hcross _ (List.mem_map_of_mem he) _ List.mem_cons_self hsame
          · exact (List.nodup_cons.mp hcons).1 (hsame ▸ List.mem_map_of_mem he)
        rw [hsplit, List.map_append, List.map_cons, List.nodup_append, List.nodup_cons] at hnames
        rw [List.map_append, List.map_cons, List.nodup_append, List.nodup_cons]
        refine ⟨hnames.1, ⟨?_, hnames.2.1.2⟩, ?_⟩
        · intro hin
          obtain ⟨e, he, hname⟩ := List.mem_map.mp hin
          exact hother e (List.mem_append_right _ he) hname
        · intro a ha b hb heq
          rcases List.mem_cons.mp hb with rfl | hb
          · obtain ⟨e, he, hname⟩ := List.mem_map.mp ha
            exact hother e (List.mem_append_left _ he) (hname.trans heq)
          · exact hnames.2.2 a ha b (List.mem_cons_of_mem _ hb) heq
      · intro e he
        rcases hmem e he with rfl | he
        · exact htrim
        · exact h.trimmed e he
      · intro e he
        rcases hmem e he with rfl | he
        · exact hmailbox
        · exact h.notMailbox e he
    · intro e he
      rcases hmem e he with rfl | he
      · exact Or.inl rfl
      · exact Or.inr he

/-! ## Runs -/

/-- What a session knows: its name is in no entry but that of its conference, or has been written by
another session since. -/
structure NamePending.Fresh (es : List ConfEntry) (p : NamePending) : Prop where
  oneLine : '\n' ∉ p.name
  trimmed : rtrim p.name = p.name
  tested : ∀ e ∈ es, e.name = p.name → e.name ∈ p.since ∨ p.cNum = some e.num

variable (msgMailbox) in
/-- The invariant of the sessions. -/
def NamesKept (s : NameSystem) : Prop :=
  ∃ es, s.conffile = confBytes es ∧ NamedList msgMailbox es ∧ ∀ i, ∀ p ∈ s.pending i, p.Fresh es

variable (msgMailbox) in
/-- A session writes its name: no other session has written it since the test, and `cmp_strings` does
not take it for the mailbox. -/
def WritesFreeName (s : NameSystem) : NameEvent → Prop
  | .write i _ => ∀ p ∈ s.pending i, p.name ∉ p.since ∧ NotMailbox msgMailbox p.name
  | _ => True

variable (msgMailbox) in
/-- The entries have the numbers 1, 2, 3, ... in their order and names of their own, and `conf_num`
gives the number of each name. -/
def NamesUnique (_ : NameSystem) (_ : NameEvent) (s : NameSystem) : Prop :=
  ∃ es : List ConfEntry, s.conffile = confBytes es ∧ (∀ e ∈ es, '\n' ∉ e.name) ∧
    es.map (·.num) = (List.range es.length).map (fun i : Nat => (i : Int) + 1) ∧
    (es.map (·.name)).Nodup ∧
    ∀ e ∈ es, ∀ mem, confNum msgMailbox mem s.conffile e.name = some e.num

theorem NamesKept.unique {s s' : NameSystem} {e : NameEvent} (h : NamesKept msgMailbox s') :
    NamesUnique msgMailbox s e s' := by
  obtain ⟨es, hfile, hes, -⟩ := h
  refine ⟨es, hfile, hes.oneLine, hes.nums, hes.names, fun d hd mem => ?_⟩
  rw [hfile]
  exact hes.confNum hd mem

/-- A session that has tested its name. -/
theorem NamesKept.tested {s : NameSystem} (h : NamesKept msgMailbox s) (i : Nat) {p : NamePending}
    (hp : ∀ es, s.conffile = confBytes es → NamedList msgMailbox es → p.Fresh es) :
    NamesKept msgMailbox { s with pending := Function.update s.pending i (some p) } := by
  obtain ⟨es, hfile, hes, hpending⟩ := h
  refine ⟨es, hfile, hes, fun j q hq => ?_⟩
  dsimp only at hq
  rw [Function.update_apply] at hq
  split at hq
  · cases hq
    exact hp es hfile hes
  · exact hpending j q hq

/-- A session that has written. -/
theorem NamesKept.written {s : NameSystem} {es es' : List ConfEntry} (name : CString) (i : Nat)
    (hpending : ∀ j, ∀ p ∈ s.pending j, p.Fresh es) (hes' : NamedList msgMailbox es')
    (hmem : ∀ e ∈ es', e.name = name ∨ e ∈ es) :
    NamesKept msgMailbox
      { conffile := confBytes es'
        pending := Function.update (fun j => (s.pending j).map (noteWrite name)) i none } := by
  refine ⟨es', rfl, hes', fun j q hq => ?_⟩
  dsimp only at hq
  rw [Function.update_apply] at hq
  split at hq
  · cases hq
  · obtain ⟨p, hp, rfl⟩ := Option.map_eq_some_iff.mp hq
    have hfresh := hpending j p hp
    refine ⟨hfresh.oneLine, hfresh.trimmed, fun e he hname => ?_⟩
    rcases hmem e he with hwritten | hold
    · left
      rw [hwritten]
      exact List.mem_cons_self
    · rcases hfresh.tested e hold hname with hsince | hnum
      · exact Or.inl (List.mem_cons_of_mem _ hsince)
      · exact Or.inr hnum

theorem notMem_ltrim {s : CString} (h : '\n' ∉ s) : '\n' ∉ ltrim s := fun hmem =>
  h ((List.dropWhile_suffix _).subset hmem)

/-- Every event has a step, which keeps the invariant when a free name is written. -/
theorem namesKept_step {s : NameSystem} {e : NameEvent} (h : NamesKept msgMailbox s)
    (hfree : WritesFreeName msgMailbox s e) :
    ∃ s', nameStep msgMailbox s e = some s' ∧ NamesKept msgMailbox s' := by
  obtain ⟨es, hfile, hes, hpending⟩ := h
  have hkept : NamesKept msgMailbox s := ⟨es, hfile, hes, hpending⟩
  cases e with
  | testCreate i args mem =>
    have hline := notMem_ltrim args.property.1
    obtain ⟨n, hn, -⟩ := hes.confNum_result (ltrim args.val) mem
    rw [← hfile] at hn
    unfold nameStep
    dsimp only
    rw [hn, Option.bind_eq_bind, Option.bind_some]
    split
    · exact ⟨s, rfl, hkept⟩
    · next hpos =>
      rw [not_or] at hpos
      refine ⟨_, rfl, hkept.tested i fun ds hds hnamed => ?_⟩
      refine ⟨fun hmem => hline (mem_rtrim hmem), rtrim_rtrim _, fun e he hname => ?_⟩
      -- a name that is there has a positive number
      obtain ⟨m, hm, hfound⟩ := hnamed.confNum_result (ltrim args.val) mem
      rw [← hds, hn] at hm
      cases hm
      have hnum := hfound e he hname
      have hepos := hnamed.num_pos he
      omega
  | testRename i cNum oldname input mem =>
    have hline := notMem_ltrim input.property.1
    obtain ⟨n, hn, -⟩ := hes.confNum_result (ltrim input.val) mem
    rw [← hfile] at hn
    unfold nameStep
    dsimp only
    split
    · exact ⟨s, rfl, hkept⟩
    · rw [hn, Option.bind_eq_bind, Option.bind_some]
      split
      · exact ⟨s, rfl, hkept⟩
      · next hother =>
        refine ⟨_, rfl, hkept.tested i fun ds hds hnamed => ?_⟩
        refine ⟨fun hmem => hline (mem_rtrim hmem), rtrim_rtrim _, fun e he hname => ?_⟩
        -- a name that is there is that of the conference
        obtain ⟨m, hm, hfound⟩ := hnamed.confNum_result (ltrim input.val) mem
        rw [← hds, hn] at hm
        cases hm
        have hnum := hfound e he hname
        have hepos := hnamed.num_pos he
        right
        by_contra hne
        exact hother ⟨by omega, fun heq => hne (by rw [← heq, hnum])⟩
  | write i stamp =>
    unfold nameStep
    dsimp only
    cases hp : s.pending i with
    | none => exact ⟨s, rfl, hkept⟩
    | some p =>
      obtain ⟨hsince, hmailbox⟩ := hfree p hp
      have hfresh := hpending i p hp
      have htested : ∀ e ∈ es, e.name = p.name → p.cNum = some e.num := by
        intro e he hname
        rcases hfresh.tested e he hname with hwritten | hnum
        · exact absurd (hname ▸ hwritten) hsince
        · exact hnum
      dsimp only
      cases hc : p.cNum with
      | none =>
        have hnew : ∀ e ∈ es, e.name ≠ p.name := by
          intro e he hname
          have hnum := htested e he hname
          rw [hc] at hnum
          cases hnum
        obtain ⟨ce, hname, hcreate, hnamed⟩ :=
          hes.create hfresh.oneLine hfresh.trimmed hmailbox hnew stamp
        dsimp only
        rw [hfile, hcreate]
        refine ⟨_, rfl, NamesKept.written p.name i hpending hnamed fun e he => ?_⟩
        rcases List.mem_append.mp he with he | he
        · exact Or.inr he
        · rw [List.mem_singleton] at he
          exact Or.inl (he ▸ hname)
      | some cNum =>
        have hnew : ∀ e ∈ es, e.name = p.name → e.num = cNum := by
          intro e he hname
          have hnum := htested e he hname
          rw [hc] at hnum
          exact (Option.some.inj hnum).symm
        obtain ⟨es', hchange, hnamed, hmem⟩ :=
          hes.rename hfresh.oneLine hfresh.trimmed hmailbox hnew
        dsimp only
        rw [hfile, hchange]
        exact ⟨_, rfl, NamesKept.written p.name i hpending hnamed hmem⟩

/-- Numbers and names stay unique and usable along every run whose sessions write names that no other
session has written since they were tested and that are not taken for the mailbox. -/
theorem conference_names_unique (msgMailbox : CString) (events : List NameEvent)
    (h : AllPre (nameStep msgMailbox) (WritesFreeName msgMailbox) NameSystem.init events) :
    AllSteps (nameStep msgMailbox) (NamesUnique msgMailbox) NameSystem.init events := by
  refine AllPre.allSteps (I := NamesKept msgMailbox) (fun s e hs hq => ?_) ?_ h
  · obtain ⟨s', hs', hkept⟩ := namesKept_step hs hq
    exact ⟨s', hs', hkept, hkept.unique⟩
  · refine ⟨[], rfl, ⟨by simp, rfl, List.nodup_nil, by simp, by simp⟩, fun i p hp => ?_⟩
    cases hp

/-! ## Short runs -/

/-- A name with another first letter is not taken for the mailbox. -/
theorem notMailbox_of_head {name : CString} {a b : Char} {m n : CString}
    (hm : upString (rtrim msgMailbox) = a :: m) (hn : upString (rtrim name) = b :: n) (hab : a ≠ b)
    (ha : a ≠ '(') (hb : b ≠ '(') : NotMailbox msgMailbox name := by
  intro old1 old2
  unfold cmpStrings
  rw [hm, hn]
  dsimp only
  have hskip1 : ∀ fuel, skipParentheses (a :: m ++ '\x00' :: old1) fuel 0 = 0 := fun fuel => if_neg ha
  have hskip2 : ∀ fuel, skipParentheses (b :: n ++ '\x00' :: old2) fuel 0 = 0 := fun fuel => if_neg hb
  rw [cmpLoop, hskip1, hskip2]
  exact if_pos hab

def msgMailboxSwedish : CString := "Brevl\x7ddan".toList

/-- Memory without anything in it. -/
def emptyMem : ConfNumMem := ⟨[], [], []⟩

def typedName (s : CString) (h : '\n' ∉ s ∧ s.length ≤ 78 := by decide) : TypedName := ⟨s, h⟩

theorem conference_names_unique_example :
    AllSteps (nameStep msgMailboxSwedish) (NamesUnique msgMailboxSwedish) NameSystem.init
      [.testCreate 0 (typedName "Nyheter".toList) emptyMem, .write 0 ⟨1, 0, 0, 0⟩,
       .testRename 1 1 "Nyheter".toList (typedName "Tips".toList) emptyMem, .write 1 ⟨0, 0, 0, 0⟩] := by
  apply conference_names_unique
  refine ⟨trivial, fun s₁ h₁ => ?_⟩
  cases h₁
  refine ⟨fun p hp => ?_, fun s₂ h₂ => ?_⟩
  · cases hp
    exact ⟨by simp, notMailbox_of_head rfl rfl (by decide) (by decide) (by decide)⟩
  cases h₂
  refine ⟨trivial, fun s₃ h₃ => ?_⟩
  cases h₃
  refine ⟨fun p hp => ?_, fun s₄ h₄ => trivial⟩
  cases hp
  exact ⟨by simp, notMailbox_of_head rfl rfl (by decide) (by decide) (by decide)⟩

/-- Two sessions test a name before either of them writes it. -/
def twoSessions : List NameEvent :=
  [.testCreate 0 (typedName "Tips".toList) emptyMem, .testCreate 1 (typedName "Tips".toList) emptyMem,
    .write 0 ⟨1, 0, 0, 0⟩]

theorem create_name_twice :
    ∃ events, (Runs.run (nameStep msgMailboxSwedish) NameSystem.init events).isSome = true ∧
      ¬ AllSteps (nameStep msgMailboxSwedish) (NamesUnique msgMailboxSwedish) NameSystem.init events := by
  refine ⟨twoSessions ++ [.write 1 ⟨2, 0, 0, 0⟩], by decide +kernel, fun h => ?_⟩
  have hbytes : (Runs.run (nameStep msgMailboxSwedish) NameSystem.init
      (twoSessions ++ [.write 1 ⟨2, 0, 0, 0⟩])).map (·.conffile) =
      some (confBytes [⟨1, 0, 1, 0, 0, 0, 0, "Tips".toList⟩, ⟨2, 0, 2, 0, 0, 0, 0, "Tips".toList⟩]) := by
    decide +kernel
  obtain ⟨t, s', hrun, es, hfile, hline, -, hnames, -⟩ := h.last
  rw [hrun, Option.map_some, hfile] at hbytes
  rw [confBytes_inj hline (by decide) (Option.some.inj hbytes)] at hnames
  exact absurd hnames (by decide)

end SklaffKom
