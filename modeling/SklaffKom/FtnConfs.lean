import SklaffKom.ConfRewrite
import SklaffKom.FtnAreas

/-!
# The conference of an area

`ftntoss` is told a conference by its name or by the tag of its area, and by the main program by its number.  It
reads the conference list with a parser of its own.
-/

open CString

namespace SklaffKom

def confIsFtn (type : Int) : Bool := type = 4 || type = 7 || type = 8

/-- The entries that `ftntoss` finds in the conference list, in order. -/
def ftnConfInfos (conffile : CString) : List ConfEntry :=
  (fileLines (longLineLen + 1) conffile).filterMap fun line => (parseConfLine line).map ConfEntry.toInfo

/-- The second loop of `find_ftn_conf`: the conferences whose `ftnconf` has the tag; `none` is a file that cannot be
read. -/
def tagMatches (ftnconf : Int → Option CString) (name : CString) : List ConfEntry → Option (List ConfEntry)
  | [] => some []
  | ce :: ces =>
    if !confIsFtn ce.type then tagMatches ftnconf name ces
    else
      match loadMeetingFtnconf (ftnconf ce.num) with
      | none => none
      | some none => tagMatches ftnconf name ces
      | some (some meeting) =>
        if sameNoCase name meeting.tag then (tagMatches ftnconf name ces).map (ce :: ·)
        else tagMatches ftnconf name ces

def findFtnConf (conffile : Option CString) (ftnconf : Int → Option CString) (name : CString) :
    Option ConfEntry := do
  if name = [] then none else
  let entries := ftnConfInfos (← conffile)
  match entries.find? (·.name = name) with
  | some ce => some ce
  | none =>
    match ← tagMatches ftnconf name entries with
    | [ce] => some ce
    | _ => none

def findFtnConfNum (conffile : Option CString) (num : Int) : Option ConfEntry := do
  if num ≤ 0 then none else (ftnConfInfos (← conffile)).find? (·.num = num)

/-! ## What is found -/

/-- An entry whose line the buffer of `ftntoss` holds. -/
structure ConfEntry.InLine (e : ConfEntry) : Prop extends e.Stored where
  fits : (stringifyConfStruct e).length ≤ longLineLen
  noReturn : '\r' ∉ e.name

/-- An FTN conference whose `ftnconf` has the tag. -/
def HasTag (ftnconf : Int → Option CString) (tag : CString) (e : ConfEntry) : Bool :=
  confIsFtn e.type && ((loadMeetingFtnconf (ftnconf e.num)).getD none).any fun meeting => sameNoCase tag meeting.tag

/-- The conference that a name stands for: the first one with the name; or else, when every `ftnconf` can be read,
the only one with the tag. -/
inductive NamesConf (ftnconf : Int → Option CString) (es : List ConfEntry) (name : CString) : ConfEntry → Prop
  | name {as bs : List ConfEntry} {e : ConfEntry} : es = as ++ e :: bs → e.name = name →
      (∀ a ∈ as, a.name ≠ name) → NamesConf ftnconf es name e
  | tag {e : ConfEntry} : (∀ a ∈ es, a.name ≠ name) →
      (∀ a ∈ es, confIsFtn a.type = true → loadMeetingFtnconf (ftnconf a.num) ≠ none) →
      OnlyMatch (HasTag ftnconf name) es e → NamesConf ftnconf es name e

variable {es : List ConfEntry} {ftnconf : Int → Option CString} {name : CString} {e : ConfEntry}

theorem ftnConfInfos_bytes (h : ∀ e ∈ es, e.InLine) : ftnConfInfos (confBytes es) = es := by
  unfold ftnConfInfos
  induction es with
  | nil => rfl
  | cons e es ih =>
    obtain ⟨he, hes⟩ := List.forall_mem_cons.mp h
    have hcut : cutLine (stringifyConfStruct e) = [stringifyConfStruct e] := if_pos he.fits
    have hname : (e.name ++ ['\n']).takeWhile (fun c => c ≠ '\r' ∧ c ≠ '\n') = e.name := by
      rw [List.takeWhile_append_of_pos, List.takeWhile_cons_of_neg (by decide), List.append_nil]
      intro c hc
      have hr : c ≠ '\r' := fun h => he.noReturn (h ▸ hc)
      have hn : c ≠ '\n' := fun h => he.name.1 (h ▸ hc)
      simp [hr, hn]
    have hparse : (parseConfLine (stringifyConfStruct e)).map ConfEntry.toInfo = some e := by
      rw [stringify_fieldsOf, parseConfLine_fieldsOf, Option.map_some, hname, he.toInfo he.name.2]
    rw [confBytes_cons, fileLines_stringify he.toStored, hcut, List.singleton_append,
      List.filterMap_cons_some (f := fun line => (parseConfLine line).map ConfEntry.toInfo) hparse, ih hes]

theorem tagMatches_eq_some {found : List ConfEntry} : tagMatches ftnconf name es = some found ↔
    (∀ a ∈ es, confIsFtn a.type = true → loadMeetingFtnconf (ftnconf a.num) ≠ none) ∧
      es.filter (HasTag ftnconf name) = found := by
  induction es generalizing found with
  | nil =>
    rw [tagMatches, Option.some.injEq, eq_comm, List.filter_nil, eq_comm]
    simp
  | cons a es ih =>
    rw [tagMatches, List.forall_mem_cons]
    by_cases htype : confIsFtn a.type = true
    · rw [if_neg (by simp [htype])]
      cases hload : loadMeetingFtnconf (ftnconf a.num) with
      | none => simp [htype]
      | some meeting =>
        cases meeting with
        | none =>
          have hno : HasTag ftnconf name a = false := by simp [HasTag, hload]
          rw [List.filter_cons_of_neg (by simp [hno])]
          simpa using ih
        | some meeting =>
          dsimp only
          by_cases htag : sameNoCase name meeting.tag = true
          · have hyes : HasTag ftnconf name a = true := by simp [HasTag, htype, hload, htag]
            rw [if_pos htag, List.filter_cons_of_pos hyes]
            simp only [Option.map_eq_some_iff, ih]
            simp
          · have hno : HasTag ftnconf name a = false := by simp [HasTag, hload, htag]
            rw [if_neg htag, List.filter_cons_of_neg (by simp [hno])]
            simpa using ih
    · have hno : HasTag ftnconf name a = false := by simp [HasTag, htype]
      rw [if_pos (by simp [htype]), ih, List.filter_cons_of_neg (by simp [hno])]
      simp [htype]

theorem findFtnConf_iff (h : ∀ e ∈ es, e.InLine) :
    findFtnConf (some (confBytes es)) ftnconf name = some e ↔ name ≠ [] ∧ NamesConf ftnconf es name e := by
  unfold findFtnConf
  by_cases hname : name = []
  · rw [if_pos hname]
    simp [hname]
  rw [if_neg hname, and_iff_right hname, Option.bind_eq_bind, Option.bind_some, ftnConfInfos_bytes h]
  dsimp only
  cases hfind : es.find? (fun a => a.name = name) with
  | some a =>
    obtain ⟨ha, as, bs, hes, has⟩ := List.find?_eq_some_iff_append.mp hfind
    have hfirst : NamesConf ftnconf es name a :=
      .name hes (by simpa using ha) fun x hx => by simpa using has x hx
    constructor
    · rintro ⟨⟩
      exact hfirst
    · intro hden
      cases hden with
      | name hes' he' has' =>
        show some a = some e
        rw [← hfind, List.find?_eq_some_iff_append]
        exact ⟨by simpa using he', _, _, hes', fun x hx => by simpa using has' x hx⟩
      | tag hnone =>
        have hmem := List.mem_of_find?_eq_some hfind
        exact absurd (by simpa using ha) (hnone a hmem)
  | none =>
    have hnone : ∀ a ∈ es, a.name ≠ name := fun a ha => by simpa using List.find?_eq_none.mp hfind a ha
    have hden : NamesConf ftnconf es name e ↔
        (∀ a ∈ es, confIsFtn a.type = true → loadMeetingFtnconf (ftnconf a.num) ≠ none) ∧
          OnlyMatch (HasTag ftnconf name) es e := by
      constructor
      · intro hden
        cases hden with
        | name hes he => exact absurd he (hnone e (by rw [hes]; simp))
        | tag _ hload honly => exact ⟨hload, honly⟩
      · rintro ⟨hload, honly⟩
        exact .tag hnone hload honly
    rw [hden]
    cases htags : tagMatches ftnconf name es with
    | none =>
      constructor
      · rintro ⟨⟩
      · rintro ⟨hload, -⟩
        rw [tagMatches_eq_some.mpr ⟨hload, rfl⟩] at htags
        cases htags
    | some found =>
      obtain ⟨hload, hfound⟩ := tagMatches_eq_some.mp htags
      rw [and_iff_right hload, OnlyMatch, hfound]
      clear htags hfound
      rcases found with _ | ⟨a, _ | ⟨b, rest⟩⟩
      all_goals simp

theorem findFtnConfNum_entry (l : ConfFile) (h : ∀ e ∈ l.entries, e.InLine) (num : Int) :
    findFtnConfNum (some l.bytes) num = if num ≤ 0 then none else l.entry num := by
  unfold findFtnConfNum
  split
  · rfl
  · rw [Option.bind_eq_bind, Option.bind_some, ConfFile.bytes, ftnConfInfos_bytes h]
    rfl

/-- The two programs find the same conference under a number. -/
theorem findFtnConfNum_bytes (l : ConfFile) (h : ∀ e ∈ l.entries, e.InLine) (num : Int) :
    findFtnConfNum (some l.bytes) num = some e ↔ ∃ next, confEntry num l.bytes = .entry e next := by
  rw [findFtnConfNum_entry l h]
  cases hentry : l.entry num with
  | none =>
    rw [l.confEntry_bytes_none hentry, ite_self]
    simp
  | some a =>
    obtain ⟨as, bs, hes, -, hbytes⟩ := l.confEntry_bytes hentry
    have hpos := l.positive a (by rw [hes]; simp)
    have hnum := (l.exists_split hentry).1
    rw [if_neg (by omega), hbytes]
    simp

/-- The search by a name or a tag, and the one by a number, on a list that the main program has written. -/
theorem ftn_conferences_found (l : ConfFile) (h : ∀ e ∈ l.entries, e.InLine) (ftnconf : Int → Option CString) :
    (∀ name e, findFtnConf (some l.bytes) ftnconf name = some e ↔
      name ≠ [] ∧ NamesConf ftnconf l.entries name e) ∧
    ∀ num e, findFtnConfNum (some l.bytes) num = some e ↔ ∃ next, confEntry num l.bytes = .entry e next :=
  ⟨fun _ _ => findFtnConf_iff h, fun num _ => findFtnConfNum_bytes l h num⟩

/-- Two conferences of which the second has the name of the area of the first. -/
def ftnListExample : ConfFile where
  entries := [⟨1, 5, 7, 0, 4, 0, 0, "Fido".toList⟩, ⟨2, 3, 7, 0, 7, 0, 0, "SYNC".toList⟩]
  oneLine := by
    intro e he
    simp only [List.mem_cons, List.not_mem_nil, or_false] at he
    rcases he with rfl | rfl <;> decide
  numbered := by simp
  positive := by
    intro e he
    simp only [List.mem_cons, List.not_mem_nil, or_false] at he
    rcases he with rfl | rfl <;> decide

theorem inLine_example : ∀ e ∈ ftnListExample.entries, e.InLine := by
  intro e he
  simp only [ftnListExample, List.mem_cons, List.not_mem_nil, or_false] at he
  rcases he with rfl | rfl
  all_goals
    exact ⟨⟨by decide, by decide, by decide, by decide, by decide, by decide, by decide, by decide⟩, by decide,
      by decide⟩

theorem ftn_conferences_found_example :
    (∀ name e, findFtnConf (some ftnListExample.bytes) (fun _ => none) name = some e ↔
      name ≠ [] ∧ NamesConf (fun _ => none) ftnListExample.entries name e) ∧
    ∀ num e, findFtnConfNum (some ftnListExample.bytes) num = some e ↔
      ∃ next, confEntry num ftnListExample.bytes = .entry e next :=
  ftn_conferences_found ftnListExample inLine_example fun _ => none

end SklaffKom
