import SklaffKom.ActiveFile
import SklaffKom.TextFile
import SklaffKom.Stdio

/-!
# Changes of the active users

`set_avail` and `set_from` read the entry of a user, change one field and let `replace_active` write
the line anew.  The fields stand between colons without escaping, and `cmd_from` stores what the user
types.
-/

open CString Runs

namespace SklaffKom

def fromFieldLen : Nat := 28

/-- `LINE_LEN`, the room that `replace_active` adds for the new line. -/
def activeRoom : Nat := 79

/-- `replace_active`; `none` is a crash or a write past the end of one of the buffers. -/
def replaceActive (ae : ActiveEntry) (obuf : CString) : Option CString :=
  match findActiveEntry ae.user (obuf.length + 1) obuf with
  | .crash => none
  -- the last call of `get_active_entry` has left zero in `tae.user`
  | .null => if ae.user = 0 then none else some []
  | .entry _ buf =>
    let tmp := activeLine ae ++ ['\n']
    let nbuf := obuf.take (lineStart obuf (obuf.length - buf.length)) ++ tmp ++ buf
    if tmp.length < 256 ∧ nbuf.length < obuf.length + activeRoom then some nbuf else none

/-- The entry of `uid` is read, changed and written; without one `replace_active` looks for user zero. -/
def changeActive (uid : Int) (change : ActiveEntry → ActiveEntry) (oldbuf : CString) : Option CString :=
  match findActiveEntry uid (oldbuf.length + 1) oldbuf with
  | .crash => none
  | .null => none
  | .entry ae _ => replaceActive (change ae) oldbuf

def setAvail (uid value : Int) : CString → Option CString :=
  changeActive uid fun ae => { ae with avail := value }

def setFrom (uid : Int) (value : CString) : CString → Option CString :=
  changeActive uid fun ae => { ae with fromField := strlcpy fromFieldLen value }

/-- The text that `cmd_from` stores: what was typed, or the name of the host. -/
def newFrom (host args : CString) : CString :=
  if rtrim args = [] then '*' :: host.take (fromFieldLen - 2)
  else ' ' :: (rtrim args).take (fromFieldLen - 2)

def cmdFrom (uid : Int) (host args : CString) : CString → Option CString :=
  setFrom uid (newFrom host args)

/-! ## The table -/

/-- An entry whose fields have the sizes of `struct ACTIVE_ENTRY`. -/
structure ActiveEntry.Stored (ae : ActiveEntry) : Prop extends ae.Fits where
  uid : ae.user < 2147483648
  pid : -2147483648 ≤ ae.pid ∧ ae.pid < 2147483648
  loginTime : ae.loginTime.natAbs ≤ longMax
  avail : -2147483648 ≤ ae.avail ∧ ae.avail < 2147483648
  fromLength : ae.fromField.length < fromFieldLen
  ttyLength : ae.tty.length < 50

/-- The table with the first entry of a user changed. -/
def changeEntry (uid : Int) (change : ActiveEntry → ActiveEntry) : List ActiveEntry → List ActiveEntry
  | [] => []
  | e :: es => if e.user = uid then change e :: es else e :: changeEntry uid change es

theorem changeEntry_append {as : List ActiveEntry} {uid : Int} (has : ∀ a ∈ as, a.user ≠ uid)
    {e : ActiveEntry} (he : e.user = uid) (bs : List ActiveEntry) (change : ActiveEntry → ActiveEntry) :
    changeEntry uid change (as ++ e :: bs) = as ++ change e :: bs := by
  induction as with
  | nil => rw [List.nil_append, changeEntry, if_pos he, List.nil_append]
  | cons a as ih =>
    obtain ⟨ha, has⟩ := List.forall_mem_cons.mp has
    rw [List.cons_append, changeEntry, if_neg ha, ih has, List.cons_append]

/-- The fields of a line with their separators. -/
theorem length_activeLine (ae : ActiveEntry) :
    (activeLine ae).length = (field ae.user).length + (field ae.pid).length +
      (field ae.loginTime).length + (field ae.avail).length + ae.fromField.length + ae.tty.length + 13 := by
  unfold activeLine
  simp only [List.length_append, List.length_singleton]
  have hdum : ":dum:dum:dum".toList.length = 12 := rfl
  omega

theorem ActiveEntry.Stored.length_line {ae : ActiveEntry} (h : ae.Stored) :
    (activeLine ae).length < 255 := by
  have huser := length_field_int ⟨by have := h.user; omega, h.uid⟩
  have hpid := length_field_int h.pid
  have havail := length_field_int h.avail
  have htime : (field ae.loginTime).length ≤ 21 := by
    have hdec := length_decimal_long h.loginTime
    unfold field
    rw [List.length_append, List.length_singleton]
    omega
  have hfrom := h.fromLength
  have htty := h.ttyLength
  unfold fromFieldLen at hfrom
  rw [length_activeLine]
  omega

/-- The new line is longer than the old one by less than `LINE_LEN`. -/
theorem length_changed {e e' : ActiveEntry} (hsame : e'.user = e.user ∧ e'.pid = e.pid ∧
    e'.loginTime = e.loginTime ∧ e'.tty = e.tty) (h' : e'.Stored) :
    (activeLine e').length + 1 ≤ (activeLine e).length + activeRoom := by
  obtain ⟨huser, hpid, htime, htty⟩ := hsame
  have havail := length_field_int h'.avail
  have hfrom := h'.fromLength
  unfold fromFieldLen at hfrom
  rw [length_activeLine, length_activeLine, huser, hpid, htime, htty]
  unfold activeRoom
  omega

/-- What `replace_active` writes: the line of the entry that was found is now that of `e'`, whose
`from` text may hold a separator. -/
theorem replaceActive_bytes {as bs : List ActiveEntry} {e e' : ActiveEntry} (he : e.Fits)
    (hfind : findActiveEntry e'.user ((activeBytes (as ++ e :: bs)).length + 1)
      (activeBytes (as ++ e :: bs)) = .entry e (activeBytes bs))
    (hlen : (activeLine e').length < 255)
    (hroom : (activeLine e').length + 1 ≤ (activeLine e).length + activeRoom) :
    replaceActive e' (activeBytes (as ++ e :: bs)) = some (activeBytes (as ++ e' :: bs)) := by
  have hbytes : activeBytes (as ++ e :: bs) = activeBytes as ++ activeLine e ++ '\n' :: activeBytes bs := by
    rw [activeBytes_append, activeBytes_cons, List.append_assoc]
  have hbytes' : activeBytes (as ++ e' :: bs) = activeBytes as ++ (activeLine e' ++ ['\n']) ++ activeBytes bs := by
    rw [activeBytes_append, activeBytes_cons]
    simp
  have hline : (activeBytes (as ++ e :: bs)).length =
      (activeBytes as).length + (activeLine e).length + 1 + (activeBytes bs).length := by
    rw [hbytes, List.length_append, List.length_append, List.length_cons]
    omega
  have hstart : (activeBytes (as ++ e :: bs)).take (lineStart (activeBytes (as ++ e :: bs))
      ((activeBytes (as ++ e :: bs)).length - (activeBytes bs).length)) = activeBytes as := by
    have hend : (activeBytes (as ++ e :: bs)).length - (activeBytes bs).length =
        (activeBytes as).length + (activeLine e).length + 1 := by omega
    rw [hend, hbytes, lineStart_append (endsLine_activeBytes as) (activeLine_ne_nil e)
      (notMem_activeLine he.oneLine), List.append_assoc, List.take_left' rfl]
  unfold replaceActive
  rw [hfind]
  dsimp only
  rw [hstart, if_pos, hbytes']
  simp only [List.length_append, List.length_singleton]
  omega

/-! ## What is read back -/

theorem getActiveEntry_from {buf next : CString} {ae : ActiveEntry}
    (h : getActiveEntry buf = .entry ae next) : ':' ∉ ae.fromField := by
  unfold getActiveEntry at h
  dsimp only at h
  split at h
  · cases h
  · split at h
    · cases h
    · next hf =>
      cases h
      unfold activeFields at hf
      simp only [Option.bind_eq_bind, Option.bind_eq_some_iff, Prod.exists] at hf
      obtain ⟨p1, -, p2, -, p3, -, p4, -, fromField, p5, hcut, tty, p6, -, nl, -, hae⟩ := hf
      cases hae
      exact notMem_of_cutAt hcut

/-- No entry is read with a separator in its `from` text. -/
theorem activeEntries_from {fuel : Nat} {buf : CString} {es : List ActiveEntry}
    (h : activeEntries fuel buf = some es) : ∀ e ∈ es, ':' ∉ e.fromField := by
  induction fuel generalizing buf es with
  | zero =>
    cases h
    simp
  | succ fuel ih =>
    unfold activeEntries at h
    split at h
    · cases h
    · cases h
      simp
    · next ae next hae =>
      obtain ⟨ds, hds, rfl⟩ := Option.map_eq_some_iff.mp h
      exact List.forall_mem_cons.mpr ⟨getActiveEntry_from hae, ih hds⟩

/-! ## Changes -/

/-- What a user changes in its own entry. -/
inductive ActiveChange where
  /-- the argument of `cmd_from`, and the name of the host -/
  | typed (host args : CString)
  /-- the value given to `set_avail` -/
  | avail (value : Int)
deriving DecidableEq

/-- Printable bytes, and an `int`. -/
def ActiveChange.Given : ActiveChange → Prop
  | .typed host args => '\n' ∉ host ∧ '\n' ∉ args
  | .avail value => -2147483648 ≤ value ∧ value < 2147483648

/-- What the program does with the file. -/
def ActiveChange.write (uid : Int) : ActiveChange → CString → Option CString
  | .typed host args => cmdFrom uid host args
  | .avail value => setAvail uid value

/-- The entry with the new text, as far as the field takes it, or the new value. -/
def ActiveChange.entry (e : ActiveEntry) : ActiveChange → ActiveEntry
  | .typed host args => { e with fromField := newFrom host args }
  | .avail value => { e with avail := value }

/-- The part of the text that is stored has no separator. -/
def ActiveChange.NoColon : ActiveChange → Prop
  | .typed host args => ':' ∉ (if rtrim args = [] then host else rtrim args).take (fromFieldLen - 2)
  | .avail _ => True

/-- The file is written, and is read back with only the entry of the user changed. -/
def ChangesOwnEntry (uid : Int) (c : ActiveChange) (es : List ActiveEntry) : Prop :=
  ∃ file, c.write uid (activeBytes es) = some file ∧
    activeEntries (file.length + 1) file = some (changeEntry uid (fun e => c.entry e) es)

theorem length_newFrom (host args : CString) : (newFrom host args).length < fromFieldLen := by
  unfold newFrom fromFieldLen
  split <;> rw [List.length_cons, List.length_take] <;> omega

theorem colon_newFrom (host args : CString) :
    ':' ∉ newFrom host args ↔ (ActiveChange.typed host args).NoColon := by
  unfold newFrom ActiveChange.NoColon
  dsimp only
  split <;> simp

theorem newline_newFrom {host args : CString} (h : (ActiveChange.typed host args).Given) :
    '\n' ∉ newFrom host args := by
  intro hmem
  unfold newFrom at hmem
  split at hmem
  · rcases List.mem_cons.mp hmem with hc | hmem
    · cases hc
    · exact h.1 (List.mem_of_mem_take hmem)
  · rcases List.mem_cons.mp hmem with hc | hmem
    · cases hc
    · exact h.2 (mem_rtrim (List.mem_of_mem_take hmem))

/-- The text fits the field, so that `set_from` does not cut it again. -/
theorem cmdFrom_eq (uid : Int) (host args : CString) :
    cmdFrom uid host args = changeActive uid fun e => (ActiveChange.typed host args).entry e := by
  have hcut : strlcpy fromFieldLen (newFrom host args) = newFrom host args := by
    have hlen := length_newFrom host args
    unfold strlcpy
    exact List.take_of_length_le (by omega)
  unfold cmdFrom setFrom
  rw [hcut]
  rfl

theorem ActiveChange.write_eq (c : ActiveChange) (uid : Int) :
    c.write uid = changeActive uid fun e => c.entry e := by
  cases c with
  | typed host args => exact cmdFrom_eq uid host args
  | avail value => rfl

theorem ActiveChange.entry_same (c : ActiveChange) (e : ActiveEntry) :
    (c.entry e).user = e.user ∧ (c.entry e).pid = e.pid ∧ (c.entry e).loginTime = e.loginTime ∧
      (c.entry e).tty = e.tty := by
  cases c <;> exact ⟨rfl, rfl, rfl, rfl⟩

/-- The changed entry fits its fields; only a separator can be wrong with it. -/
theorem ActiveChange.stored {c : ActiveChange} (hc : c.Given) {e : ActiveEntry} (he : e.Stored)
    (hcolon : c.NoColon) : (c.entry e).Stored := by
  cases c with
  | typed host args =>
    exact { he with
      fromField := ⟨(colon_newFrom host args).mpr hcolon, newline_newFrom hc⟩
      fromLength := length_newFrom host args }
  | avail value => exact { he with avail := hc }

theorem ActiveChange.length_line {c : ActiveChange} (hc : c.Given) {e : ActiveEntry} (he : e.Stored) :
    (activeLine (c.entry e)).length < 255 ∧
      (activeLine (c.entry e)).length + 1 ≤ (activeLine e).length + activeRoom := by
  cases c with
  | typed host args =>
    -- the length of the line does not depend on what the text holds
    let plain : ActiveEntry := { e with fromField := (newFrom host args).map fun _ => 'x' }
    have hplain : plain.Stored := { he with
      fromField := by simp [plain]
      fromLength := by
        rw [List.length_map]
        exact length_newFrom host args }
    have hsame : (activeLine ((ActiveChange.typed host args).entry e)).length = (activeLine plain).length := by
      rw [length_activeLine, length_activeLine]
      simp [plain, ActiveChange.entry]
    rw [hsame]
    exact ⟨hplain.length_line, length_changed ⟨rfl, rfl, rfl, rfl⟩ hplain⟩
  | avail value =>
    have hstored : ((ActiveChange.avail value).entry e).Stored := { he with avail := hc }
    exact ⟨hstored.length_line, length_changed ⟨rfl, rfl, rfl, rfl⟩ hstored⟩

/-- The file after a change. -/
theorem changeActive_bytes {c : ActiveChange} (hc : c.Given) {es : List ActiveEntry}
    (hes : ∀ e ∈ es, e.Stored) {uid : Int} (huid : uid ∈ es.map (·.user)) :
    c.write uid (activeBytes es) = some (activeBytes (changeEntry uid (fun e => c.entry e) es)) := by
  have hone : ∀ e ∈ es, e.OneLine := fun e he => (hes e he).toFits.oneLine
  have hcount := length_le_activeBytes es
  rcases findActiveEntry_bytes hone uid ((activeBytes es).length + 1) (by omega) with
    ⟨-, hnone⟩ | ⟨as, e, bs, rfl, heq, has, hfind⟩
  · obtain ⟨e, he, heq⟩ := List.mem_map.mp huid
    exact absurd heq (hnone e he)
  · have he : e.Stored := hes e (by simp)
    have huser : (c.entry e).user = uid := (c.entry_same e).1.trans heq
    have hlen := ActiveChange.length_line hc he
    rw [he.toFits.seen] at hfind
    rw [c.write_eq, changeActive, hfind, changeEntry_append has heq]
    dsimp only
    apply replaceActive_bytes he.toFits _ hlen.1 hlen.2
    rw [huser]
    exact hfind

theorem changeEntry_stored {change : ActiveEntry → ActiveEntry} {es : List ActiveEntry}
    (hes : ∀ e ∈ es, e.Stored) (hchange : ∀ e : ActiveEntry, e.Stored → (change e).Stored) (uid : Int) :
    ∀ e ∈ changeEntry uid change es, e.Stored := by
  induction es with
  | nil => exact hes
  | cons e es ih =>
    obtain ⟨he, hes⟩ := List.forall_mem_cons.mp hes
    unfold changeEntry
    split
    · exact List.forall_mem_cons.mpr ⟨hchange e he, hes⟩
    · exact List.forall_mem_cons.mpr ⟨he, ih hes⟩

/-- The changed entry is in the table. -/
theorem mem_changeEntry {uid : Int} {es : List ActiveEntry} (huid : uid ∈ es.map (·.user))
    (change : ActiveEntry → ActiveEntry) : ∃ e ∈ es, change e ∈ changeEntry uid change es := by
  induction es with
  | nil => cases huid
  | cons e es ih =>
    unfold changeEntry
    split
    · exact ⟨e, List.mem_cons_self, List.mem_cons_self⟩
    · next hne =>
      rw [List.map_cons, List.mem_cons] at huid
      obtain ⟨d, hd, hmem⟩ := ih (huid.resolve_left fun h => hne h.symm)
      exact ⟨d, List.mem_cons_of_mem _ hd, List.mem_cons_of_mem _ hmem⟩

/-- A change stays in the entry of its user exactly when the text that is stored has no separator. -/
theorem changesOwnEntry_iff {es : List ActiveEntry} (hes : ∀ e ∈ es, e.Stored) {uid : Int}
    (huid : uid ∈ es.map (·.user)) {c : ActiveChange} (hc : c.Given) :
    ChangesOwnEntry uid c es ↔ c.NoColon := by
  have hwrite := changeActive_bytes hc hes huid
  constructor
  · intro ⟨file, hfile, hread⟩
    cases c with
    | avail value => trivial
    | typed host args =>
      obtain ⟨e, -, hmem⟩ := mem_changeEntry huid fun e => (ActiveChange.typed host args).entry e
      exact (colon_newFrom host args).mp (activeEntries_from hread _ hmem)
  · intro hcolon
    have hstored := changeEntry_stored hes (fun e he => ActiveChange.stored hc he hcolon) uid
    have hcount := length_le_activeBytes (changeEntry uid (fun e => c.entry e) es)
    refine ⟨_, hwrite, ?_⟩
    rw [activeEntries_bytes (fun e he => (hstored e he).toFits.oneLine) _ (by omega),
      List.map_congr_left fun e he => (hstored e he).toFits.seen, List.map_id']

/-- Changes of the users of a table, one after another. -/
def writeActive : CString → Int × ActiveChange → Option CString := fun file c => c.2.write c.1 file

theorem users_changeEntry (c : ActiveChange) (uid : Int) (es : List ActiveEntry) :
    (changeEntry uid (fun e => c.entry e) es).map (·.user) = es.map (·.user) := by
  induction es with
  | nil => rfl
  | cons e es ih =>
    unfold changeEntry
    split
    · rw [List.map_cons, List.map_cons, (c.entry_same e).1]
    · rw [List.map_cons, List.map_cons, ih]

/-- After any changes without a separator the file holds the table with these changes. -/
theorem run_writeActive {es : List ActiveEntry} (hes : ∀ e ∈ es, e.Stored)
    {cs : List (Int × ActiveChange)} (huid : ∀ c ∈ cs, c.1 ∈ es.map (·.user))
    (hgiven : ∀ c ∈ cs, c.2.Given) (hcolon : ∀ c ∈ cs, c.2.NoColon) :
    run writeActive (activeBytes es) cs =
      some (activeBytes (cs.foldl (fun es c => changeEntry c.1 (fun e => c.2.entry e) es) es)) := by
  induction cs generalizing es with
  | nil => rfl
  | cons c cs ih =>
    obtain ⟨hc, huid⟩ := List.forall_mem_cons.mp huid
    obtain ⟨hcgiven, hgiven⟩ := List.forall_mem_cons.mp hgiven
    obtain ⟨hccolon, hcolon⟩ := List.forall_mem_cons.mp hcolon
    have hstored := changeEntry_stored hes (fun e he => ActiveChange.stored hcgiven he hccolon) c.1
    have hstep : writeActive (activeBytes es) c =
        some (activeBytes (changeEntry c.1 (fun e => c.2.entry e) es)) :=
      changeActive_bytes hcgiven hes hc
    unfold run at ih ⊢
    rw [List.foldlM_cons, hstep, List.foldl_cons]
    apply ih hstored _ hgiven hcolon
    rw [users_changeEntry]
    exact huid

def twoActive : List ActiveEntry :=
  [⟨7, 101, 10, 0, "*host".toList, "/dev/tty1".toList⟩, ⟨8, 102, 20, 0, "*host".toList, "/dev/tty2".toList⟩]

theorem twoActive_stored : ∀ e ∈ twoActive, e.Stored := by
  have hlen : longMax = 9223372036854775808 := rfl
  intro e he
  rcases List.mem_cons.mp he with rfl | he
  · exact ⟨⟨by decide, by decide, by decide⟩, by decide, by decide, by decide, by decide, by decide, by decide⟩
  · rw [List.mem_singleton] at he
    subst he
    exact ⟨⟨by decide, by decide, by decide⟩, by decide, by decide, by decide, by decide, by decide, by decide⟩

theorem changesOwnEntry_iff_home :
    ChangesOwnEntry 7 (.typed "host".toList "home".toList) twoActive ↔
      (ActiveChange.typed "host".toList "home".toList).NoColon :=
  changesOwnEntry_iff twoActive_stored (by decide) ⟨by decide, by decide⟩

/-- A colon in the text moves the part behind it into the field of the terminal. -/
theorem colon_moves_fields :
    ∃ es uid, (∀ e ∈ es, ActiveEntry.Stored e) ∧ uid ∈ es.map (·.user) ∧
      ∃ c : ActiveChange, c.Given ∧ ¬ ChangesOwnEntry uid c es ∧
        (c.write uid (activeBytes es)).bind (fun file => activeEntries (file.length + 1) file) =
          some [⟨7, 101, 10, 0, " work".toList, " room 2".toList⟩,
            ⟨8, 102, 20, 0, "*host".toList, "/dev/tty2".toList⟩] := by
  refine ⟨twoActive, 7, twoActive_stored, by decide, .typed "host".toList "work: room 2".toList,
    ⟨by decide, by decide⟩, ?_, by decide +kernel⟩
  intro ⟨file, hfile, hread⟩
  have hreads : (ActiveChange.write 7 (.typed "host".toList "work: room 2".toList)
      (activeBytes twoActive)).bind (fun file => activeEntries (file.length + 1) file) =
        some (changeEntry 7 (fun e => (ActiveChange.typed "host".toList "work: room 2".toList).entry e)
          twoActive) := by
    rw [hfile]
    exact hread
  revert hreads
  decide +kernel

end SklaffKom
