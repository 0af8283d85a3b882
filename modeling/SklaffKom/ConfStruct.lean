import SklaffKom.ConfFile

/-!
# Looking up and storing one conference

`get_conf_struct` parses all entries into one record, whose number the call at the end of the list
overwrites as well, and looks at the number afterwards.  `conf_store_entry` writes the list with a
line that has gone through a buffer of `LONG_LINE_LEN` bytes into one that has `LINE_LEN` bytes to
spare.
-/

open CString

namespace SklaffKom

/-- `get_conf_entry` on a record that is in use: the record and the position afterwards. -/
def readConf (ce : ConfEntry) (buf : CString) : Option (ConfEntry × Option CString) :=
  match getConfEntry buf with
  | .crash => none
  | .null => some ({ ce with num := 0 }, none)
  | .entry ce next => some (ce, some next)

/-- `while ((ce.num != num) && buf) buf = get_conf_entry(buf, &ce);` -/
def confLoop (num : Int) : Nat → ConfEntry → Option CString → Option ConfEntry
  | _, ce, none => some ce
  | 0, _, some _ => none
  | fuel + 1, ce, some buf =>
    if ce.num = num then some ce
    else do
      let r ← readConf ce buf
      confLoop num fuel r.1 r.2

/-- `get_conf_struct`, with what its static record held before; `NULL` is `some none`. -/
def getConfStructIn (static : ConfEntry) (num : Int) (buf : CString) : Option (Option ConfEntry) :=
  do
    let r ← readConf static buf
    let ce ← confLoop num (buf.length + 1) r.1 r.2
    pure (if ce.num = num then some ce else none)

/-- `get_conf_struct`, called for the first time. -/
def getConfStruct (num : Int) (buf : CString) : Option (Option ConfEntry) :=
  getConfStructIn ⟨0, 0, 0, 0, 0, 0, 0, []⟩ num buf

/-- `conf_name`, which has a record of its own and a name for the mailbox. -/
def confName (msgMailbox : CString) (uninit : ConfEntry) (num : Int) (buf : CString) :
    Option (Option CString) :=
  if num = 0 then some (some msgMailbox)
  else (getConfStructIn uninit num buf).map fun ce => ce.map (·.name)

def lineLen : Nat := 79

def longLineLen : Nat := 2 * lineLen

/-- `replace_conf` with its buffers: `snprintf` cuts the line, and what does not fit into `nbuf`
overruns it. -/
def replaceConfSized (ce : ConfEntry) (buf : CString) : Option (Option CString) :=
  match confEntry ce.num buf with
  | .crash => none
  | .null => some none
  | .entry _ next =>
    let nbuf := buf.take (lineStart buf (buf.length - next.length)) ++
      (stringifyConfStruct ce).take longLineLen ++ next
    if nbuf.length < buf.length + lineLen then some (some nbuf) else none

/-- `conf_store_entry`: what it returns, and the file afterwards. -/
def confStoreEntrySized (ce : ConfEntry) (buf : CString) : Option (Int × CString) :=
  match replaceConfSized ce buf with
  | none => none
  | some none => some (-1, buf)
  | some (some newbuf) => some (0, newbuf)

/-! ## Looking up -/

theorem nextField_length {s t : CString} (h : nextField s = some t) : t.length < s.length := by
  obtain ⟨u, hu, rfl⟩ := Option.map_eq_some_iff.mp h
  obtain ⟨r, rfl⟩ := strchr_eq_some hu
  have := (strchr_suffix hu).length_le
  rw [List.length_cons] at this
  rw [List.tail_cons]
  omega

/-- Each entry takes at least a character. -/
theorem getConfEntry_length {buf next : CString} {ce : ConfEntry}
    (h : getConfEntry buf = .entry ce next) : next.length < buf.length := by
  rw [getConfEntry] at h
  split at h
  · cases h
  split at h
  · cases h
  next ce' next' hf =>
    cases h
    simp only [confFields, Option.bind_eq_bind, Option.bind_eq_some_iff, Option.pure_def,
      Option.some.injEq, Prod.mk.injEq] at hf
    obtain ⟨p1, h1, p2, h2, p3, h3, p4, h4, p5, h5, p6, h6, p7, h7, nl, hnl, -, rfl⟩ := hf
    have l1 := nextField_length h1
    have l2 := nextField_length h2
    have l3 := nextField_length h3
    have l4 := nextField_length h4
    have l5 := nextField_length h5
    have l6 := nextField_length h6
    have l7 := nextField_length h7
    have l8 := (strchr_suffix hnl).length_le
    have l9 := List.length_tail (l := nl)
    omega

/-- For a number other than zero the record that is left decides as well as the position does. -/
theorem confLoop_eq {num : Int} (hnum : num ≠ 0) (fuel : Nat) (ce : ConfEntry) (buf : CString)
    (hfuel : buf.length < fuel) :
    ((do let r ← readConf ce buf
         let ce ← confLoop num fuel r.1 r.2
         pure (if ce.num = num then some ce else none)) : Option (Option ConfEntry)) =
      match findConfEntry num fuel buf with
      | .crash => none
      | .null => some none
      | .entry ce _ => some (some ce) := by
  induction fuel generalizing ce buf with
  | zero => omega
  | succ fuel ih =>
    rw [findConfEntry, readConf]
    cases hscan : getConfEntry buf with
    | crash => rfl
    | null =>
      -- the number is zero now
      have h0 : ¬ (0 : Int) = num := fun h => hnum h.symm
      simp [confLoop, h0]
    | entry ce' next =>
      have hlen := getConfEntry_length hscan
      dsimp only
      simp only [Option.bind_eq_bind, Option.bind_some, confLoop]
      by_cases hce : ce'.num = num
      · simp [hce]
      · rw [if_neg hce, if_neg hce, ← ih ce' next (by omega)]
        simp only [Option.bind_eq_bind, Option.bind_assoc]

/-- A number other than zero is looked up. -/
theorem getConfStructIn_eq {num : Int} (hnum : num ≠ 0) (static : ConfEntry) (buf : CString) :
    getConfStructIn static num buf =
      match confEntry num buf with
      | .crash => none
      | .null => some none
      | .entry ce _ => some (some ce) :=
  confLoop_eq hnum (buf.length + 1) static buf (Nat.lt_succ_self _)

theorem getConfStruct_eq {num : Int} (hnum : num ≠ 0) (buf : CString) :
    getConfStruct num buf =
      match confEntry num buf with
      | .crash => none
      | .null => some none
      | .entry ce _ => some (some ce) := getConfStructIn_eq hnum _ buf

/-- A conference of the list is found. -/
theorem getConfStruct_bytes {l : ConfFile} {conf : Int} {ce : ConfEntry}
    (he : l.entry conf = some ce) : getConfStruct conf l.bytes = some (some ce) := by
  have hpos := l.positive ce (l.mem_of_entry he)
  obtain ⟨as, bs, -, -, hfind⟩ := l.confEntry_bytes he
  rw [(l.exists_split he).1] at hpos
  rw [getConfStruct_eq (by omega), hfind]

/-- A list of conferences as the program keeps it: distinct positive numbers, and names of one line
that fit a `LINE`. -/
structure ConfLines (es : List ConfEntry) : Prop where
  distinct : (es.map (·.num)).Nodup
  positive : ∀ e ∈ es, 0 < e.num
  names : ∀ e ∈ es, '\n' ∉ e.name ∧ e.name.length ≤ 78

/-- `get_conf_struct` finds exactly the listed conferences. -/
def LookedUp (static : ConfEntry) (es : List ConfEntry) (n : Int) : Prop :=
  (∀ e ∈ es, e.num = n → getConfStructIn static n (confBytes es) = some (some e)) ∧
    ((∀ e ∈ es, e.num ≠ n) → getConfStructIn static n (confBytes es) = some none)

/-- `conf_store_entry` replaces the line of the conference by one that reads back as `e`. -/
def StoredInPlace (es : List ConfEntry) (e : ConfEntry) : Prop :=
  ∀ as old bs, es = as ++ old :: bs → old.num = e.num → ∃ line, '\n' ∉ line ∧
    confStoreEntrySized e (confBytes es) = some (0, confBytes as ++ (line ++ '\n' :: confBytes bs)) ∧
    getConfEntry (line ++ '\n' :: confBytes bs) = .entry e (confBytes bs)

/-- The line of `e` fits a `LONG_LINE`, and it is less than `LINE_LEN` longer than the one it
replaces. -/
def LineFits (es : List ConfEntry) (e : ConfEntry) : Prop :=
  (stringifyConfStruct e).length ≤ longLineLen ∧
    ∀ old ∈ es, old.num = e.num →
      (stringifyConfStruct e).length < (stringifyConfStruct old).length + lineLen

section Lines

variable {es as bs : List ConfEntry} {e old static : ConfEntry} {n : Int}

/-- The record that the parse of a list with positive numbers leaves behind has the number zero. -/
theorem confLoop_zero (hpos : ∀ e ∈ es, 0 < e.num) (hnames : ∀ e ∈ es, '\n' ∉ e.name)
    (fuel : Nat) (ce : ConfEntry) (hfuel : es.length ≤ fuel) :
    ∃ r, readConf ce (confBytes es) = some r ∧
      confLoop 0 fuel r.1 r.2 = some { es.getLastD ce with num := 0 } := by
  induction es generalizing fuel ce with
  | nil =>
    refine ⟨({ ce with num := 0 }, none), rfl, ?_⟩
    rw [confLoop]
    rfl
  | cons a es ih =>
    obtain ⟨fuel, rfl⟩ : ∃ k, fuel = k + 1 := ⟨fuel - 1, by rw [List.length_cons] at hfuel; omega⟩
    have ha := hpos a List.mem_cons_self
    obtain ⟨r, hread, hloop⟩ := ih (fun b hb => hpos b (List.mem_cons_of_mem _ hb))
      (fun b hb => hnames b (List.mem_cons_of_mem _ hb)) fuel a (by rw [List.length_cons] at hfuel; omega)
    refine ⟨(a, some (confBytes es)), ?_, ?_⟩
    · rw [readConf, confBytes_cons, getConfEntry_stringify (hnames a List.mem_cons_self)]
    · rw [confLoop, if_neg (by dsimp only; omega)]
      dsimp only
      rw [hread, Option.bind_eq_bind, Option.bind_some, hloop, List.getLastD_cons]

/-- For the number zero the last entry is returned, with the number zero. -/
theorem getConfStructIn_zero (h : ConfLines es) (static : ConfEntry) :
    getConfStructIn static 0 (confBytes es) =
      some (some { es.getLastD static with num := 0 }) := by
  have hlen := length_le_confBytes es
  obtain ⟨r, hread, hloop⟩ := confLoop_zero h.positive (fun e he => (h.names e he).1)
    ((confBytes es).length + 1) static (by omega)
  rw [getConfStructIn, hread, Option.bind_eq_bind, Option.bind_some, hloop]
  rfl

/-- The entry of a listed conference, and what follows its line. -/
theorem ConfLines.confEntry_append (h : ConfLines (as ++ old :: bs)) :
    confEntry old.num (confBytes (as ++ old :: bs)) = .entry old (confBytes bs) := by
  have hdist := h.distinct
  rw [List.map_append, List.map_cons, List.nodup_append] at hdist
  have hbefore : ∀ a ∈ as, '\n' ∉ a.name ∧ a.num ≠ old.num := by
    intro a ha
    refine ⟨(h.names a (List.mem_append_left _ ha)).1, ?_⟩
    exact hdist.2.2 a.num (List.mem_map_of_mem ha) old.num List.mem_cons_self
  have hlen := length_le_confBytes (as ++ old :: bs)
  rw [List.length_append] at hlen
  exact findConfEntry_append hbefore (h.names old (by simp)).1 rfl _ (by omega)

theorem ConfLines.confEntry_mem (h : ConfLines es) (he : e ∈ es) :
    ∃ next, confEntry e.num (confBytes es) = .entry e next := by
  obtain ⟨as, bs, rfl⟩ := List.append_of_mem he
  exact ⟨_, h.confEntry_append⟩

theorem ConfLines.confEntry_none (h : ConfLines es) (hother : ∀ e ∈ es, e.num ≠ n) :
    confEntry n (confBytes es) = .null :=
  findConfEntry_none (fun a ha => ⟨(h.names a ha).1, hother a ha⟩) _

/-- `last_text` of a listed conference. -/
theorem ConfLines.lastText (h : ConfLines es) (he : e ∈ es) (mailbox : CString) :
    lastText mailbox (confBytes es) e.num = some e.lastText := by
  have hpos := h.positive e he
  obtain ⟨next, hentry⟩ := h.confEntry_mem he
  simp only [SklaffKom.lastText, hentry, if_neg (show ¬ e.num = 0 by omega)]

theorem ConfLines.getConfStructIn (h : ConfLines es) (he : e ∈ es) (static : ConfEntry) :
    getConfStructIn static e.num (confBytes es) = some (some e) := by
  have hpos := h.positive e he
  obtain ⟨next, hentry⟩ := h.confEntry_mem he
  rw [getConfStructIn_eq (by omega), hentry]

theorem lookedUp_iff (h : ConfLines es) (static : ConfEntry) (n : Int) :
    LookedUp static es n ↔ n ≠ 0 := by
  constructor
  · rintro hlook rfl
    have hnone := hlook.2 fun e he => by
      have := h.positive e he
      omega
    rw [getConfStructIn_zero h] at hnone
    cases hnone
  · intro hn
    refine ⟨fun e he hnum => ?_, fun hother => ?_⟩
    · rw [← hnum]
      exact h.getConfStructIn he static
    · rw [getConfStructIn_eq hn, h.confEntry_none hother]

/-- The file that `conf_store_entry` writes. -/
theorem confStoreEntrySized_bytes (h : ConfLines (as ++ old :: bs)) (hnum : old.num = e.num) :
    confStoreEntrySized e (confBytes (as ++ old :: bs)) =
      if ((stringifyConfStruct e).take longLineLen).length <
          (stringifyConfStruct old).length + lineLen then
        some (0, confBytes as ++ ((stringifyConfStruct e).take longLineLen ++ confBytes bs))
      else none := by
  have hlines : ∀ a ∈ as ++ [old], '\n' ∉ a.name := fun a ha => (h.names a (by
    simp only [List.mem_append, List.mem_cons, List.not_mem_nil, or_false] at ha ⊢
    exact ha.imp_right Or.inl)).1
  rw [confStoreEntrySized, replaceConfSized, ← hnum, h.confEntry_append]
  dsimp only
  rw [take_lineStart_confBytes bs hlines]
  by_cases hfit : ((stringifyConfStruct e).take longLineLen).length <
      (stringifyConfStruct old).length + lineLen
  · rw [if_pos hfit, if_pos (by
        simp only [confBytes_append, confBytes_cons, List.length_append]
        omega), List.append_assoc]
  · rw [if_neg hfit, if_neg (by
        simp only [confBytes_append, confBytes_cons, List.length_append]
        omega)]

/-- A line that is cut short has no line end. -/
theorem notMem_take_stringify (he : '\n' ∉ e.name)
    (hlong : longLineLen < (stringifyConfStruct e).length) :
    '\n' ∉ (stringifyConfStruct e).take longLineLen := by
  obtain ⟨l, hl, -, hnl⟩ := stringifyConfStruct_line he
  rw [hl] at hlong ⊢
  rw [List.length_append, List.length_singleton] at hlong
  rw [List.take_append_of_le_length (by omega)]
  exact fun hm => hnl (List.mem_of_mem_take hm)

theorem storedInPlace_iff (h : ConfLines es) (he : '\n' ∉ e.name)
    (hlisted : ∃ old ∈ es, old.num = e.num) : StoredInPlace es e ↔ LineFits es e := by
  obtain ⟨l, hl, -, hnl⟩ := stringifyConfStruct_line he
  constructor
  · intro hstore
    have hfits : ∀ old ∈ es, old.num = e.num → (stringifyConfStruct e).length ≤ longLineLen ∧
        (stringifyConfStruct e).length < (stringifyConfStruct old).length + lineLen := by
      intro old hold hnum
      obtain ⟨as, bs, rfl⟩ := List.append_of_mem hold
      obtain ⟨line, hline, hfile, -⟩ := hstore as old bs rfl hnum
      rw [confStoreEntrySized_bytes h hnum] at hfile
      by_cases hroom : ((stringifyConfStruct e).take longLineLen).length <
          (stringifyConfStruct old).length + lineLen
      · rw [if_pos hroom, Option.some.injEq, Prod.mk.injEq] at hfile
        have htail := List.append_cancel_left hfile.2
        rw [← List.singleton_append, ← List.append_assoc] at htail
        have hcut := List.append_cancel_right htail
        have hshort : (stringifyConfStruct e).length ≤ longLineLen := by
          by_contra hlong
          apply notMem_take_stringify he (by omega)
          rw [hcut]
          exact List.mem_append_right _ (List.mem_singleton.mpr rfl)
        rw [List.take_of_length_le hshort] at hroom
        exact ⟨hshort, hroom⟩
      · rw [if_neg hroom] at hfile
        cases hfile
    obtain ⟨old, hold, hnum⟩ := hlisted
    exact ⟨(hfits old hold hnum).1, fun o ho hn => (hfits o ho hn).2⟩
  · rintro ⟨hshort, hroom⟩ as old bs rfl hnum
    refine ⟨l, hnl, ?_, ?_⟩
    · rw [confStoreEntrySized_bytes h hnum, List.take_of_length_le hshort,
        if_pos (hroom old (by simp) hnum), hl, List.append_assoc, List.singleton_append]
    · have hread := getConfEntry_stringify he (confBytes bs)
      rwa [hl, List.append_assoc, List.singleton_append] at hread

/-- Looking up a number and storing an entry work on every list of conferences, for numbers other
than zero and for entries whose lines fit the buffers. -/
theorem confList_iff (h : ConfLines es) (he : '\n' ∉ e.name ∧ e.name.length ≤ 78)
    (hlisted : ∃ old ∈ es, old.num = e.num) (static : ConfEntry) (n : Int) :
    LookedUp static es n ∧ StoredInPlace es e ↔ n ≠ 0 ∧ LineFits es e := by
  rw [lookedUp_iff h, storedInPlace_iff h he.1 hlisted]

end Lines

/-- Two conferences, the name of one beginning with a number. -/
def twoConfLines : List ConfEntry :=
  [⟨1, 4, 2, 0, 1, 0, 0, "Test".toList⟩, ⟨2, 0, 2, 0, 1, 30, 1, "3:e testet".toList⟩]

theorem confLines_twoConfLines : ConfLines twoConfLines where
  distinct := by decide
  positive := by decide
  names := by decide

/-- No conference has the number zero. -/
theorem getConfStruct_zero_found : ¬ LookedUp ⟨0, 0, 0, 0, 0, 0, 0, []⟩ twoConfLines 0 := by
  intro h
  exact absurd (h.2 (by decide)) (by decide +kernel)

theorem confList_iff_twoConfLines :
    LookedUp ⟨0, 0, 0, 0, 0, 0, 0, []⟩ twoConfLines 2 ∧
        StoredInPlace twoConfLines ⟨2, 7, 2, 0, 1, 30, 1, "Prov".toList⟩ ↔
      (2 : Int) ≠ 0 ∧ LineFits twoConfLines ⟨2, 7, 2, 0, 1, 30, 1, "Prov".toList⟩ :=
  confList_iff confLines_twoConfLines (by decide) (by decide) _ 2

end SklaffKom
