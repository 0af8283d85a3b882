import SklaffKom.Lib.CString
import Mathlib.Data.List.Pairwise

/-!
# The conference list

`etc/conf` (and a user's `mailbox`) holds one line for each conference:
`num:last_text:creator:time:type:life:comconf:name`.
-/

open CString

namespace SklaffKom

structure ConfEntry where
  num : Int
  lastText : Int
  creator : Int
  time : Int
  type : Int
  life : Int
  comconf : Int
  name : CString
deriving DecidableEq, Repr

/-- What a call of `get_conf_entry` does.  On `NULL` it leaves `ce->num` zero. -/
inductive ConfScan where
  | crash
  | null
  | entry (ce : ConfEntry) (next : CString)
deriving DecidableEq

/-- `strchr(ptr, ':') + 1` -/
def nextField (ptr : CString) : Option CString := (strchr ptr ':').map List.tail

/-- The fields of an entry and the position after its line. -/
def confFields (num : Int) (buf : CString) : Option (ConfEntry × CString) := do
  let p1 ← nextField buf
  let p2 ← nextField p1
  let p3 ← nextField p2
  let p4 ← nextField p3
  let p5 ← nextField p4
  let p6 ← nextField p5
  let p7 ← nextField p6
  let nl ← strchr p7 '\n'
  pure ({ num := num, lastText := atol p1, creator := atol p2, time := atol p3, type := atol p4,
          life := atol p5, comconf := atol p6, name := p7.take (p7.length - nl.length) }, nl.tail)

def getConfEntry (buf : CString) : ConfScan :=
  let r := strtol buf
  if r.2 = buf then .null
  else match confFields r.1 buf with
    | none => .crash
    | some (ce, next) => .entry ce next

/-- `while ((buf = get_conf_entry(buf, &ce))) { if (ce.num == conf) break; }` -/
def findConfEntry (conf : Int) : Nat → CString → ConfScan
  | 0, _ => .null
  | fuel + 1, buf =>
    match getConfEntry buf with
    | .crash => .crash
    | .null => .null
    | .entry ce next => if ce.num = conf then .entry ce next else findConfEntry conf fuel next

/-- The entry of `conf` in a whole file. -/
def confEntry (conf : Int) (buf : CString) : ConfScan := findConfEntry conf (buf.length + 1) buf

/-- `last_text`: the mailbox for conference 0, otherwise the conference list; -1 without an
entry. -/
def lastText (mailbox conffile : CString) (conf : Int) : Option Int :=
  let inList : Option Int :=
    match confEntry conf conffile with
    | .crash => none
    | .null => some (-1)
    | .entry ce _ => some ce.lastText
  if conf = 0 then
    match getConfEntry mailbox with
    | .crash => none
    | .null => inList
    | .entry ce _ => some ce.lastText
  else inList

/-- `"%d:"` -/
def field (n : Int) : CString := decimal n ++ [':']

def stringifyConfStruct (ce : ConfEntry) : CString :=
  field ce.num ++ field ce.lastText ++ field ce.creator ++ field ce.time ++ field ce.type ++
    field ce.life ++ field ce.comconf ++ ce.name ++ ['\n']

/-- `replace_conf`, `NULL` being `some none`. -/
def replaceConf (ce : ConfEntry) (buf : CString) : Option (Option CString) :=
  match confEntry ce.num buf with
  | .crash => none
  | .null => some none
  | .entry _ next =>
    some (some (buf.take (lineStart buf (buf.length - next.length)) ++ stringifyConfStruct ce ++
      next))

theorem confEntry_num {conf : Int} {buf next : CString} {ce : ConfEntry}
    (h : confEntry conf buf = .entry ce next) : ce.num = conf := by
  have hfind : ∀ fuel b, findConfEntry conf fuel b = .entry ce next → ce.num = conf := by
    intro fuel
    induction fuel with
    | zero => intro b hb; cases hb
    | succ fuel ih =>
      intro b hb
      rw [findConfEntry] at hb
      split at hb
      next => cases hb
      next => cases hb
      next ce' next' _ =>
        split at hb
        next hnum =>
          cases hb
          exact hnum
        next => exact ih _ hb
  exact hfind _ _ h

/-- An entry that was found can be replaced. -/
theorem replaceConf_entry {conf : Int} {buf next : CString} {ce : ConfEntry}
    (h : confEntry conf buf = .entry ce next) (ce' : ConfEntry) (hnum : ce'.num = ce.num) :
    ∃ nbuf, replaceConf ce' buf = some (some nbuf) := by
  simp only [replaceConf, hnum, confEntry_num h, h]
  exact ⟨_, rfl⟩

/-! ## Lines that the program wrote -/

theorem nextField_field (n : Int) (s : CString) : nextField (field n ++ s) = some s := by
  rw [nextField, field, List.append_assoc, List.singleton_append,
    strchr_append (notMem_decimal rfl (by decide))]
  rfl

theorem atol_field (n : Int) (s : CString) : atol (field n ++ s) = n := by
  rw [field, List.append_assoc, List.singleton_append]
  exact atol_decimal n (noDigit_cons.mpr rfl)

theorem notMem_field {n : Int} : '\n' ∉ field n := by
  simp [field, notMem_decimal (n := n) (c := '\n') rfl (by decide)]

theorem length_field_int {n : Int} (h : -2147483648 ≤ n ∧ n < 2147483648) : (field n).length ≤ 12 := by
  have hdec := length_decimal (n := n) (k := 10) (by decide) (by omega)
  unfold field
  rw [List.length_append, List.length_singleton]
  omega

/-- The part of a printed entry before the line end. -/
theorem stringifyConfStruct_line {ce : ConfEntry} (h : '\n' ∉ ce.name) :
    ∃ l, stringifyConfStruct ce = l ++ ['\n'] ∧ l ≠ [] ∧ '\n' ∉ l := by
  refine ⟨_, rfl, ?_, ?_⟩
  · simp [field]
  · simp only [List.mem_append, not_or]
    simp [notMem_field, h]

/-- `get_conf_entry` reads back the entry at the head of the buffer. -/
theorem getConfEntry_stringify {ce : ConfEntry} (h : '\n' ∉ ce.name) (rest : CString) :
    getConfEntry (stringifyConfStruct ce ++ rest) = .entry ce rest := by
  set tail := field ce.lastText ++ (field ce.creator ++ (field ce.time ++ (field ce.type ++
    (field ce.life ++ (field ce.comconf ++ (ce.name ++ '\n' :: rest)))))) with htail
  have hb : stringifyConfStruct ce ++ rest = field ce.num ++ tail := by
    simp [stringifyConfStruct, htail]
  have hnum : strtol (field ce.num ++ tail) = (ce.num, ':' :: tail) := by
    rw [field, List.append_assoc, List.singleton_append]
    exact strtol_decimal ce.num (noDigit_cons.mpr rfl)
  have hmoved : ¬ ':' :: tail = field ce.num ++ tail := by
    intro he
    have hlen := congrArg List.length he
    have hpos := List.length_pos_iff.mpr (decimal_ne_nil ce.num)
    simp only [field, List.length_cons, List.length_append, List.length_nil] at hlen
    omega
  have hnl : strchr (ce.name ++ '\n' :: rest) '\n' = some ('\n' :: rest) := strchr_append h
  have hfields : confFields ce.num (field ce.num ++ tail) = some (ce, rest) := by
    simp only [confFields, htail, nextField_field, atol_field, Option.bind_eq_bind,
      Option.bind_some, hnl, take_before, List.tail_cons, Option.pure_def]
  rw [hb, getConfEntry, hnum]
  simp only [hfields, if_neg hmoved]

def confBytes (es : List ConfEntry) : CString := es.flatMap stringifyConfStruct

@[simp] theorem confBytes_nil : confBytes [] = [] := rfl

@[simp] theorem confBytes_cons (e : ConfEntry) (es : List ConfEntry) :
    confBytes (e :: es) = stringifyConfStruct e ++ confBytes es := by
  simp [confBytes]

@[simp] theorem confBytes_append (as bs : List ConfEntry) :
    confBytes (as ++ bs) = confBytes as ++ confBytes bs := by
  simp [confBytes]

theorem endsLine_confBytes {es : List ConfEntry} (h : ∀ e ∈ es, '\n' ∉ e.name) :
    EndsLine (confBytes es) := by
  induction es with
  | nil => exact Or.inl rfl
  | cons e es ih =>
    obtain ⟨l, hl, hne, -⟩ := stringifyConfStruct_line (h e List.mem_cons_self)
    rw [confBytes_cons, hl]
    exact (EndsLine.line hne).append (ih fun a ha => h a (List.mem_cons_of_mem _ ha))

theorem length_le_confBytes (es : List ConfEntry) : es.length ≤ (confBytes es).length := by
  induction es with
  | nil => simp
  | cons e es ih =>
    simp only [confBytes_cons, stringifyConfStruct, List.length_append, List.length_cons,
      List.length_nil]
    omega

theorem confBytes_inj {es ds : List ConfEntry} (hes : ∀ e ∈ es, '\n' ∉ e.name)
    (hds : ∀ e ∈ ds, '\n' ∉ e.name)
    (h : confBytes es = confBytes ds) : es = ds := by
  induction es generalizing ds with
  | nil =>
    cases ds with
    | nil => rfl
    | cons d ds =>
      have hlen := length_le_confBytes (d :: ds)
      rw [← h] at hlen
      cases hlen
  | cons e es ih =>
    cases ds with
    | nil =>
      have hlen := length_le_confBytes (e :: es)
      rw [h] at hlen
      cases hlen
    | cons d ds =>
      obtain ⟨he, hes'⟩ := List.forall_mem_cons.mp hes
      obtain ⟨hd, hds'⟩ := List.forall_mem_cons.mp hds
      rw [confBytes_cons, confBytes_cons] at h
      have hread := getConfEntry_stringify he (confBytes es)
      rw [h, getConfEntry_stringify hd] at hread
      obtain ⟨rfl, hrest⟩ := ConfScan.entry.inj hread
      rw [ih hes' hds' hrest.symm]

theorem findConfEntry_append {as bs : List ConfEntry} {e : ConfEntry} {conf : Int}
    (has : ∀ a ∈ as, '\n' ∉ a.name ∧ a.num ≠ conf) (he : '\n' ∉ e.name) (hnum : e.num = conf)
    (fuel : Nat) (hf : as.length < fuel) :
    findConfEntry conf fuel (confBytes (as ++ e :: bs)) = .entry e (confBytes bs) := by
  induction as generalizing fuel with
  | nil =>
    obtain ⟨fuel, rfl⟩ : ∃ k, fuel = k + 1 := ⟨fuel - 1, by simp at hf; omega⟩
    rw [List.nil_append, confBytes_cons, findConfEntry, getConfEntry_stringify he]
    simp [hnum]
  | cons a as ih =>
    obtain ⟨fuel, rfl⟩ : ∃ k, fuel = k + 1 := ⟨fuel - 1, by simp at hf; omega⟩
    have ha := has a List.mem_cons_self
    rw [List.cons_append, confBytes_cons, findConfEntry, getConfEntry_stringify ha.1]
    simp only [if_neg ha.2]
    exact ih (fun b hb => has b (List.mem_cons_of_mem _ hb)) fuel (by simp at hf; omega)

theorem findConfEntry_none {es : List ConfEntry} {conf : Int}
    (hes : ∀ a ∈ es, '\n' ∉ a.name ∧ a.num ≠ conf) (fuel : Nat) :
    findConfEntry conf fuel (confBytes es) = .null := by
  induction es generalizing fuel with
  | nil => cases fuel <;> rfl
  | cons a es ih =>
    cases fuel with
    | zero => rfl
    | succ fuel =>
      have ha := hes a List.mem_cons_self
      rw [confBytes_cons, findConfEntry, getConfEntry_stringify ha.1]
      simp only [if_neg ha.2]
      exact ih (fun b hb => hes b (List.mem_cons_of_mem _ hb)) fuel

/-- What stands before the line of an entry, found by walking back from the following one. -/
theorem take_lineStart_confBytes {as : List ConfEntry} {old : ConfEntry} (bs : List ConfEntry)
    (h : ∀ a ∈ as ++ [old], '\n' ∉ a.name) :
    (confBytes (as ++ old :: bs)).take (lineStart (confBytes (as ++ old :: bs))
      ((confBytes (as ++ old :: bs)).length - (confBytes bs).length)) = confBytes as := by
  obtain ⟨t, ht, hne, hnl⟩ := stringifyConfStruct_line (h old (by simp))
  have hb : confBytes (as ++ old :: bs) = confBytes as ++ t ++ '\n' :: confBytes bs := by
    simp [ht]
  have hlen : (confBytes (as ++ old :: bs)).length - (confBytes bs).length =
      (confBytes as).length + t.length + 1 := by
    simp only [hb, List.length_append, List.length_cons]
    omega
  have hends : EndsLine (confBytes as) := endsLine_confBytes fun a ha => h a (by simp [ha])
  rw [hlen, hb, lineStart_append hends hne hnl, List.append_assoc (confBytes as),
    List.take_left' rfl]

/-- A conference list as `cmd_create_conf` numbers it: positive numbers in increasing order, and
names of one line. -/
structure ConfFile where
  entries : List ConfEntry
  oneLine : ∀ e ∈ entries, '\n' ∉ e.name
  numbered : (entries.map (·.num)).Pairwise (· < ·)
  positive : ∀ e ∈ entries, 0 < e.num

namespace ConfFile

variable (l : ConfFile)

def bytes : CString := confBytes l.entries

def entry (conf : Int) : Option ConfEntry := l.entries.find? (·.num = conf)

theorem exists_split {conf : Int} {e : ConfEntry} (h : l.entry conf = some e) :
    e.num = conf ∧ ∃ as bs, l.entries = as ++ e :: bs ∧ ∀ a ∈ as, a.num ≠ conf := by
  obtain ⟨hnum, as, bs, hs, has⟩ := List.find?_eq_some_iff_append.mp h
  refine ⟨by simpa using hnum, as, bs, hs, fun a ha => ?_⟩
  simpa using has a ha

theorem mem_of_entry {conf : Int} {e : ConfEntry} (h : l.entry conf = some e) :
    e ∈ l.entries := List.mem_of_find?_eq_some h

theorem confEntry_bytes {conf : Int} {e : ConfEntry} (h : l.entry conf = some e) :
    ∃ as bs, l.entries = as ++ e :: bs ∧ (∀ a ∈ as, a.num ≠ conf) ∧
      confEntry conf l.bytes = .entry e (confBytes bs) := by
  obtain ⟨hnum, as, bs, hs, has⟩ := l.exists_split h
  have hlen := length_le_confBytes l.entries
  have hone : ∀ a ∈ as, '\n' ∉ a.name ∧ a.num ≠ conf := by
    intro a ha
    exact ⟨l.oneLine a (by rw [hs]; simp [ha]), has a ha⟩
  refine ⟨as, bs, hs, has, ?_⟩
  rw [confEntry, bytes, hs]
  rw [hs, List.length_append] at hlen
  exact findConfEntry_append hone (l.oneLine e (l.mem_of_entry h)) hnum _ (by omega)

theorem confEntry_bytes_none {conf : Int} (h : l.entry conf = none) :
    confEntry conf l.bytes = .null := by
  apply findConfEntry_none
  intro a ha
  refine ⟨l.oneLine a ha, ?_⟩
  have := List.find?_eq_none.mp h a ha
  simpa using this

/-- `last_text` of a conference in the list. -/
theorem lastText_bytes (mailbox : CString) {conf : Int} {e : ConfEntry}
    (h : l.entry conf = some e) : lastText mailbox l.bytes conf = some e.lastText := by
  obtain ⟨as, bs, hs, -, hfind⟩ := l.confEntry_bytes h
  have hpos : conf ≠ 0 := by
    have := l.positive e (l.mem_of_entry h)
    rw [(l.exists_split h).1] at this
    omega
  simp only [lastText, if_neg hpos, hfind]

/-- The list with another entry for its conference. -/
def update (ce : ConfEntry) (h : '\n' ∉ ce.name) : ConfFile where
  entries := l.entries.map fun e => if e.num = ce.num then ce else e
  oneLine := by
    intro e he
    obtain ⟨a, ha, rfl⟩ := List.mem_map.mp he
    split
    · exact h
    · exact l.oneLine a ha
  numbered := by
    have hm : (l.entries.map fun e => if e.num = ce.num then ce else e).map (·.num) =
        l.entries.map (·.num) := by
      rw [List.map_map]
      apply List.map_congr_left
      intro e _
      simp only [Function.comp]
      split
      · next he => exact he.symm
      · rfl
    rw [hm]
    exact l.numbered
  positive := by
    intro e he
    obtain ⟨a, ha, rfl⟩ := List.mem_map.mp he
    split
    · next hn => exact hn ▸ l.positive a ha
    · exact l.positive a ha

theorem entries_update {as bs : List ConfEntry} {old ce : ConfEntry} (h : '\n' ∉ ce.name)
    (hs : l.entries = as ++ old :: bs) (hnum : old.num = ce.num) :
    (l.update ce h).entries = as ++ ce :: bs := by
  have hnd := l.numbered
  rw [hs, List.map_append, List.map_cons, List.pairwise_append, List.pairwise_cons] at hnd
  have hmap : ∀ es : List ConfEntry, (∀ a ∈ es, a.num ≠ ce.num) →
      es.map (fun e => if e.num = ce.num then ce else e) = es := by
    intro es hes
    conv_rhs => rw [← List.map_id es]
    apply List.map_congr_left
    intro a ha
    simp [hes a ha]
  have has : ∀ a ∈ as, a.num ≠ ce.num := by
    intro a ha
    have := hnd.2.2 a.num (List.mem_map_of_mem ha) old.num (by simp)
    omega
  have hbs : ∀ b ∈ bs, b.num ≠ ce.num := by
    intro b hb
    have := hnd.2.1.1 b.num (List.mem_map_of_mem hb)
    omega
  simp only [update, hs, List.map_append, List.map_cons, hmap as has, hmap bs hbs, if_pos hnum]

theorem entry_update_self {conf : Int} {old ce : ConfEntry} (h : '\n' ∉ ce.name)
    (he : l.entry conf = some old) (hc : ce.num = conf) :
    (l.update ce h).entry conf = some ce := by
  subst hc
  obtain ⟨hnum, as, bs, hs, has⟩ := l.exists_split he
  have hfind : as.find? (·.num = ce.num) = none := by simpa using has
  rw [entry, l.entries_update h hs hnum, List.find?_append, hfind]
  simp

theorem entry_update_ne {ce : ConfEntry} {conf : Int} (h : '\n' ∉ ce.name)
    (hc : conf ≠ ce.num) : (l.update ce h).entry conf = l.entry conf := by
  show (l.entries.map fun e => if e.num = ce.num then ce else e).find? (·.num = conf) =
    l.entries.find? (·.num = conf)
  induction l.entries with
  | nil => rfl
  | cons e es ih =>
    rw [List.map_cons, List.find?_cons, List.find?_cons, ih]
    by_cases he : e.num = ce.num
    · rw [if_pos he, decide_eq_false (Ne.symm hc), decide_eq_false (by rw [he]; exact Ne.symm hc)]
    · rw [if_neg he]

/-- `replace_conf` writes the list with the new entry. -/
theorem replaceConf_bytes {conf : Int} {old ce : ConfEntry} (h : '\n' ∉ ce.name)
    (he : l.entry conf = some old) (hc : ce.num = conf) :
    replaceConf ce l.bytes = some (some (l.update ce h).bytes) := by
  subst hc
  obtain ⟨as, bs, hs, -, hfind⟩ := l.confEntry_bytes he
  have hnum := (l.exists_split he).1
  have hlines : ∀ a ∈ as ++ [old], '\n' ∉ a.name := fun a ha => l.oneLine a (by
    rw [hs]
    simp only [List.mem_append, List.mem_cons, List.not_mem_nil, or_false] at ha ⊢
    exact ha.imp_right Or.inl)
  simp only [replaceConf, hfind]
  rw [bytes, hs, take_lineStart_confBytes bs hlines, bytes, l.entries_update h hs hnum,
    confBytes_append, confBytes_cons, List.append_assoc]

end ConfFile

end SklaffKom
