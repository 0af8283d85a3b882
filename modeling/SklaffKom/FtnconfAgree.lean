import SklaffKom.Ftnconf

/-!
# Sections of a ftnconf

A `ftnconf` is a list of sections, each a header with at most one value below it.  A reader accepts a file when
the lines that it sees are sections with the four values, and the two programs agree on a file when they see the
same values, or neither sees all four.
-/

open CString

namespace SklaffKom

/-- A header and the value below it. -/
structure ConfSection where
  name : CString
  value : Option CString

def ConfSection.lines (sec : ConfSection) : List CString :=
  ("![".toList ++ (sec.name ++ [']'])) :: sec.value.toList

/-- A section that has a value. -/
def KnownSection (name : CString) : Prop :=
  ∃ key ∈ ["version".toList, "type".toList, "domain".toList, "tag".toList], sameNoCase name key = true

structure ConfSection.Good (R : FtnconfReader) (sec : ConfSection) : Prop where
  closed : ']' ∉ sec.name
  short : sec.name.length < 32
  named : sec.name = [] → R.emptySection = true
  value : ∀ v ∈ sec.value, ValueLine v ∧ KnownSection sec.name

/-- The values of a section, in the order of the file. -/
def valuesOf (key : CString) (secs : List ConfSection) : List CString :=
  secs.flatMap fun sec => if sameNoCase sec.name key then sec.value.toList else []

/-- The lines of a file that a reader does not pass over. -/
def linesSeen (R : FtnconfReader) (file : CString) : List CString :=
  ((fileLines 1024 file).map fun l => R.readLine (stringOf l)).filter fun l => l ≠ [] ∧ l.head? ≠ some '#'

/-- Each of the four sections has one value. -/
structure FtnconfSections (R : FtnconfReader) (secs : List ConfSection) (type domain tag : CString) : Prop where
  good : ∀ sec ∈ secs, sec.Good R
  version : ∃ version, valuesOf "version".toList secs = [version] ∧ readVersion version = some 1
  echomail : sameNoCase type "echomail".toList = true
  type : valuesOf "type".toList secs = [type]
  domain : valuesOf "domain".toList secs = [domain]
  tag : valuesOf "tag".toList secs = [tag]

/-- The lines that a reader sees are sections with the four values. -/
def HasFtnconf (R : FtnconfReader) (file type domain tag : CString) : Prop :=
  ∃ secs, linesSeen R file = secs.flatMap ConfSection.lines ∧ FtnconfSections R secs type domain tag

/-- The two programs see the same values, as far as they keep them, or neither sees a `ftnconf`. -/
structure SeenAlike (file : CString) : Prop where
  both : (∃ type domain tag, HasFtnconf confReader file type domain tag) ↔
    ∃ type domain tag, HasFtnconf meetingReader file type domain tag
  values : ∀ type domain tag type' domain' tag', HasFtnconf confReader file type domain tag →
    HasFtnconf meetingReader file type' domain' tag' →
      type = type' ∧ domain.take 79 = domain'.take 63 ∧ tag.take 79 = tag'.take 127

/-! ## Lines -/

variable {R : FtnconfReader} {s s' : FtnconfRead} {l name key type domain tag : CString} {ms : List CString}
  {sec : ConfSection} {secs : List ConfSection} {file : CString}

theorem valuesOf_cons (key : CString) (sec : ConfSection) (secs : List ConfSection) :
    valuesOf key (sec :: secs) =
      (if sameNoCase sec.name key then sec.value.toList else []) ++ valuesOf key secs :=
  List.flatMap_cons

theorem valuesOf_none (key name : CString) (secs : List ConfSection) :
    valuesOf key (⟨name, none⟩ :: secs) = valuesOf key secs := by
  rw [valuesOf_cons]
  split <;> rfl

theorem valueLine_of_mem (hgood : ∀ sec ∈ secs, sec.Good R) (h : l ∈ valuesOf key secs) : ValueLine l := by
  obtain ⟨sec, hsec, hl⟩ := List.mem_flatMap.mp h
  split at hl
  · exact ((hgood sec hsec).value l (Option.mem_toList.mp hl)).1
  · cases hl

theorem sectionName_iff : sectionName ("![".toList ++ l) = some name ↔
    l = name ++ [']'] ∧ ']' ∉ name ∧ name.length < 32 := by
  have hdrop : ("![".toList ++ l).drop 2 = l := rfl
  unfold sectionName
  rw [hdrop]
  constructor
  · intro h
    cases hs : strchr l ']' with
    | none =>
      rw [hs] at h
      cases h
    | some close =>
      obtain ⟨a, r, rfl, rfl, ha⟩ := strchr_split hs
      rw [hs] at h
      dsimp only at h
      rw [take_before] at h
      split at h
      · cases h
      · rename_i hno
        rw [not_or, not_not, not_le] at hno
        cases h
        have hr : r = [] := hno.1
        rw [hr]
        exact ⟨rfl, ha, hno.2⟩
  · rintro ⟨rfl, hclosed, hshort⟩
    have htake := take_before name [']']
    rw [strchr_append hclosed]
    dsimp only
    rw [htake, if_neg]
    rintro (h | h)
    · exact h rfl
    · omega

theorem header_not_skipped (l : CString) : ¬ Skipped ("![".toList ++ l) := by
  rintro (h | h)
  · cases h
  · cases h

theorem takeLine_header (s : FtnconfRead) (l : CString) : takeLine R s ("![".toList ++ l) = some s' ↔
    ∃ name, l = name ++ [']'] ∧ (⟨name, none⟩ : ConfSection).Good R ∧ s' = { s with section_ := name } := by
  have hpre : "![".toList.isPrefixOf ("![".toList ++ l) = true :=
    List.isPrefixOf_iff_prefix.mpr (List.prefix_append _ _)
  unfold takeLine
  rw [if_neg (by exact header_not_skipped l), if_pos hpre]
  constructor
  · intro h
    split at h
    · cases h
    · rename_i name hname
      obtain ⟨hl, hclosed, hshort⟩ := sectionName_iff.mp hname
      split at h
      · cases h
      · rename_i hempty
        cases h
        refine ⟨name, hl, ⟨hclosed, hshort, ?_, fun v hv => by cases hv⟩, rfl⟩
        intro hnil
        exact (Bool.not_eq_false _).mp fun hR => hempty ⟨hnil, hR⟩
  · rintro ⟨name, hl, hgood, rfl⟩
    rw [sectionName_iff.mpr ⟨hl, hgood.closed, hgood.short⟩]
    dsimp only
    rw [if_neg]
    rintro ⟨hnil, hR⟩
    rw [hgood.named hnil] at hR
    cases hR

theorem foldlM_linesSeen (R : FtnconfReader) (s : FtnconfRead) (ls : List CString) :
    ls.foldlM (fun s l => takeLine R s (R.readLine (stringOf l))) s =
      ((ls.map fun l => R.readLine (stringOf l)).filter fun l => l ≠ [] ∧ l.head? ≠ some '#').foldlM
        (takeLine R) s := by
  induction ls generalizing s with
  | nil => rfl
  | cons l ls ih =>
    rw [List.foldlM_cons, List.map_cons]
    by_cases hskip : Skipped (R.readLine (stringOf l))
    · rw [takeLine_skipped R s hskip,
        List.filter_cons_of_neg (by simpa [Skipped, or_iff_not_imp_left] using hskip)]
      exact ih s
    · rw [List.filter_cons_of_pos (by simpa [Skipped, not_or] using hskip), List.foldlM_cons]
      congr 1
      funext s'
      exact ih s'

/-! ## Values -/

theorem sameNoCase_congr (h : sameNoCase name key = true) (other : CString) :
    sameNoCase name other = sameNoCase key other := by
  unfold sameNoCase at h ⊢
  rw [of_decide_eq_true h]

/-- What the values of the sections make of the values read so far. -/
structure Filled (R : FtnconfReader) (s : FtnconfRead) (secs : List ConfSection) (s' : FtnconfRead) : Prop where
  version : s.version.toList.map some ++ (valuesOf "version".toList secs).map readVersion =
    s'.version.toList.map some
  type : s.type.toList ++ (valuesOf "type".toList secs).map (strlcpy 32) = s'.type.toList
  domain : s.domain.toList ++ (valuesOf "domain".toList secs).map (strlcpy R.domainSize) = s'.domain.toList
  tag : s.tag.toList ++ (valuesOf "tag".toList secs).map (strlcpy R.tagSize) = s'.tag.toList

theorem filled_none (name : CString) : Filled R s (⟨name, none⟩ :: secs) s' ↔ Filled R s secs s' := by
  constructor
  · rintro ⟨hv, hty, hd, hta⟩
    rw [valuesOf_none] at hv hty hd hta
    exact ⟨hv, hty, hd, hta⟩
  · rintro ⟨hv, hty, hd, hta⟩
    refine ⟨?_, ?_, ?_, ?_⟩
    all_goals rwa [valuesOf_none]

/-- The header read last does not count. -/
theorem filled_section (name : CString) : Filled R { s with section_ := name } secs s' ↔ Filled R s secs s' :=
  ⟨fun ⟨hv, hty, hd, hta⟩ => ⟨hv, hty, hd, hta⟩, fun ⟨hv, hty, hd, hta⟩ => ⟨hv, hty, hd, hta⟩⟩

theorem toList_append_nil {α : Type*} {o o' : Option α} (h : o.toList ++ [] = o'.toList) : o = o' := by
  cases o <;> cases o' <;> simp_all

theorem Filled.eq (h : Filled R s [] s') : s = { s' with section_ := s.section_ } := by
  obtain ⟨hv, hty, hd, hta⟩ := h
  have hversion : s.version = s'.version := by
    rw [valuesOf, List.flatMap_nil, List.map_nil, List.append_nil] at hv
    apply toList_append_nil
    rw [List.append_nil]
    exact List.map_injective_iff.mpr (fun _ _ => Option.some.inj) hv
  obtain ⟨section_, version, type, domain, tag⟩ := s
  cases hversion
  cases toList_append_nil hty
  cases toList_append_nil hd
  cases toList_append_nil hta
  rfl

theorem toList_append_cons {α : Type*} {o o' : Option α} {x : α} {xs : List α} :
    o.toList ++ x :: xs = o'.toList ↔ o = none ∧ (some x).toList ++ xs = o'.toList := by
  cases o <;> cases o' <;> simp

theorem toList_append_version {o o' : Option Int} {x : Option Int} {xs : List (Option Int)} :
    o.toList.map some ++ x :: xs = o'.toList.map some ↔
      ∃ v, o = none ∧ x = some v ∧ (some v).toList.map some ++ xs = o'.toList.map some := by
  cases o <;> cases o' <;> cases x <;> simp

theorem store_once_iff {α : Type*} {o : Option CString} {x y : α} :
    (if o.isSome = true then none else some x) = some y ↔ o = none ∧ x = y := by
  cases o <;> simp

/-- No two of the four names are the same but for the case of letters. -/
theorem sameNoCase_key {key other : String} (hkey : key ∈ ["version", "type", "domain", "tag"])
    (hother : other ∈ ["version", "type", "domain", "tag"]) :
    (sameNoCase key.toList other.toList = true) = (key = other) := by
  have hall : ∀ a ∈ ["version", "type", "domain", "tag"], ∀ b ∈ ["version", "type", "domain", "tag"],
      sameNoCase a.toList b.toList = decide (a = b) := by decide +kernel
  rw [hall key hkey other hother, decide_eq_true_eq]

/-- A value below its header is stored once. -/
theorem filled_value (h : KnownSection s.section_) (l : CString) (secs : List ConfSection) :
    Filled R s (⟨s.section_, some l⟩ :: secs) s' ↔
      ∃ s1, storeValue R s l = some s1 ∧ s1.section_ = [] ∧ Filled R s1 secs s' := by
  obtain ⟨key, hkey, hsame⟩ := h
  have hname := sameNoCase_congr hsame
  have hcons : ∀ other, valuesOf other (⟨s.section_, some l⟩ :: secs) =
      (if sameNoCase key other then [l] else []) ++ valuesOf other secs := by
    intro other
    rw [valuesOf_cons, hname]
    rfl
  have hsplit : Filled R s (⟨s.section_, some l⟩ :: secs) s' ↔ _ ∧ _ ∧ _ ∧ _ :=
    ⟨fun ⟨hv, hty, hd, hta⟩ => ⟨hv, hty, hd, hta⟩, fun ⟨hv, hty, hd, hta⟩ => ⟨hv, hty, hd, hta⟩⟩
  rw [hsplit, hcons, hcons, hcons, hcons]
  unfold storeValue
  rw [hname, hname, hname, hname]
  simp only [List.mem_cons, List.not_mem_nil, or_false] at hkey
  rcases hkey with rfl | rfl | rfl | rfl
  · simp (disch := simp) only [sameNoCase_key, String.reduceEq, if_false, if_true,
      List.singleton_append, List.nil_append, List.map_cons, toList_append_version]
    constructor
    · rintro ⟨⟨version, hnone, hread, hv⟩, hty, hd, hta⟩
      refine ⟨{ s with section_ := [], version := some version }, ?_, rfl, hv, hty, hd, hta⟩
      rw [hnone, hread]
      rfl
    · rintro ⟨s1, hstore, -, hv, hty, hd, hta⟩
      split at hstore
      · cases hstore
      · rename_i hnone
        obtain ⟨version, hread, rfl⟩ := Option.map_eq_some_iff.mp hstore
        exact ⟨⟨version, by simpa using hnone, hread, hv⟩, hty, hd, hta⟩
  · simp (disch := simp) only [sameNoCase_key, String.reduceEq, if_false, if_true,
      List.singleton_append, List.nil_append, List.map_cons, toList_append_cons, store_once_iff]
    constructor
    · rintro ⟨hv, ⟨hnone, hty⟩, hd, hta⟩
      exact ⟨_, ⟨hnone, rfl⟩, rfl, hv, hty, hd, hta⟩
    · rintro ⟨s1, ⟨hnone, rfl⟩, -, hv, hty, hd, hta⟩
      exact ⟨hv, ⟨hnone, hty⟩, hd, hta⟩
  · simp (disch := simp) only [sameNoCase_key, String.reduceEq, if_false, if_true,
      List.singleton_append, List.nil_append, List.map_cons, toList_append_cons, store_once_iff]
    constructor
    · rintro ⟨hv, hty, ⟨hnone, hd⟩, hta⟩
      exact ⟨_, ⟨hnone, rfl⟩, rfl, hv, hty, hd, hta⟩
    · rintro ⟨s1, ⟨hnone, rfl⟩, -, hv, hty, hd, hta⟩
      exact ⟨hv, hty, ⟨hnone, hd⟩, hta⟩
  · simp (disch := simp) only [sameNoCase_key, String.reduceEq, if_false, if_true,
      List.singleton_append, List.nil_append, List.map_cons, toList_append_cons, store_once_iff]
    constructor
    · rintro ⟨hv, hty, hd, ⟨hnone, hta⟩⟩
      exact ⟨_, ⟨hnone, rfl⟩, rfl, hv, hty, hd, hta⟩
    · rintro ⟨s1, ⟨hnone, rfl⟩, -, hv, hty, hd, hta⟩
      exact ⟨hv, hty, hd, ⟨hnone, hta⟩⟩

/-- A value that is stored ends its section. -/
theorem storeValue_some {s1 : FtnconfRead} (h : storeValue R s l = some s1) :
    KnownSection s.section_ ∧ s1.section_ = [] := by
  unfold storeValue at h
  split at h
  next hkey =>
    split at h
    next => cases h
    next =>
      obtain ⟨version, -, rfl⟩ := Option.map_eq_some_iff.mp h
      exact ⟨⟨_, by simp, hkey⟩, rfl⟩
  next =>
    split at h
    next hkey =>
      split at h <;> cases h
      exact ⟨⟨_, by simp, hkey⟩, rfl⟩
    next =>
      split at h
      next hkey =>
        split at h <;> cases h
        exact ⟨⟨_, by simp, hkey⟩, rfl⟩
      next =>
        split at h
        next hkey =>
          split at h <;> cases h
          exact ⟨⟨_, by simp, hkey⟩, rfl⟩
        next => cases h

theorem not_known_nil : ¬ KnownSection [] := by
  rintro ⟨key, hkey, hsame⟩
  simp only [List.mem_cons, List.not_mem_nil, or_false] at hkey
  rcases hkey with rfl | rfl | rfl | rfl <;> cases hsame

theorem section_ne_nil (h : KnownSection name) : name ≠ [] := by
  rintro rfl
  exact not_known_nil h

/-! ## Files -/

/-- What a reader makes of lines that it does not pass over: the value of the section that was begun, and
sections. -/
theorem sections_of_takeLine (hms : ∀ m ∈ ms, ¬ Skipped m) (h : ms.foldlM (takeLine R) s = some s') :
    ∃ (v : Option CString) (secs : List ConfSection), ms = v.toList ++ secs.flatMap ConfSection.lines ∧
      (∀ l ∈ v, ValueLine l ∧ KnownSection s.section_) ∧ (∀ sec ∈ secs, sec.Good R) ∧
      Filled R s (⟨s.section_, v⟩ :: secs) s' := by
  induction ms generalizing s with
  | nil =>
    cases h
    refine ⟨none, [], rfl, (fun l hl => by cases hl), fun sec hsec => absurd hsec List.not_mem_nil, ?_⟩
    rw [filled_none]
    exact ⟨List.append_nil _, List.append_nil _, List.append_nil _, List.append_nil _⟩
  | cons m ms ih =>
    obtain ⟨hm, hms⟩ := List.forall_mem_cons.mp hms
    rw [List.foldlM_cons] at h
    obtain ⟨s1, hs1, hrest⟩ := Option.bind_eq_some_iff.mp h
    obtain ⟨v, secs, rfl, hv, hgood, hfilled⟩ := ih hms hrest
    by_cases hpre : "![".toList <+: m
    · obtain ⟨l, rfl⟩ := hpre
      obtain ⟨name, rfl, hname, rfl⟩ := (takeLine_header s l).mp hs1
      refine ⟨none, ⟨name, v⟩ :: secs, ?_, (fun l hl => by cases hl), ?_, ?_⟩
      · rw [List.flatMap_cons]
        rfl
      · exact List.forall_mem_cons.mpr ⟨⟨hname.closed, hname.short, hname.named, hv⟩, hgood⟩
      · rw [filled_none]
        exact (filled_section name).mp hfilled
    · have hline : ValueLine m := ⟨fun hnil => hm (Or.inl hnil), fun hc => hm (Or.inr hc), hpre⟩
      have hsection : s.section_ ≠ [] := by
        intro hnil
        unfold takeLine at hs1
        rw [if_neg (by exact hm), if_neg (mt List.isPrefixOf_iff_prefix.mp hpre), if_pos hnil] at hs1
        cases hs1
      rw [takeLine_value R hsection hline] at hs1
      obtain ⟨hknown, hend⟩ := storeValue_some hs1
      have hnone : v = none := by
        rw [hend] at hv
        by_contra hsome
        obtain ⟨x, rfl⟩ := Option.ne_none_iff_exists'.mp hsome
        exact not_known_nil (hv x rfl).2
      rw [hnone, filled_none] at hfilled
      refine ⟨some m, secs, by rw [hnone]; rfl, ?_, hgood, ?_⟩
      · intro l hl
        cases hl
        exact ⟨hline, hknown⟩
      · exact (filled_value hknown m secs).mpr ⟨s1, hs1, hend, hfilled⟩

/-- Sections are read. -/
theorem takeLine_sections {v : Option CString} (hv : ∀ l ∈ v, ValueLine l ∧ KnownSection s.section_)
    (hgood : ∀ sec ∈ secs, sec.Good R) (h : Filled R s (⟨s.section_, v⟩ :: secs) s') :
    ∃ name, (v.toList ++ secs.flatMap ConfSection.lines).foldlM (takeLine R) s =
      some { s' with section_ := name } := by
  induction secs generalizing s v with
  | nil =>
    rw [List.flatMap_nil, List.append_nil]
    cases v with
    | none =>
      refine ⟨s.section_, ?_⟩
      rw [← ((filled_none _).mp h).eq]
      rfl
    | some l =>
      obtain ⟨hline, hknown⟩ := hv l rfl
      obtain ⟨s1, hstore, -, hfilled⟩ := (filled_value hknown l []).mp h
      refine ⟨s1.section_, ?_⟩
      rw [← hfilled.eq, Option.toList_some, List.foldlM_cons, takeLine_value R (section_ne_nil hknown) hline,
        hstore]
      rfl
  | cons sec secs ih =>
    obtain ⟨hsec, hsecs⟩ := List.forall_mem_cons.mp hgood
    have hheader : ∀ s1, Filled R s1 (sec :: secs) s' →
        ∃ name, ((sec :: secs).flatMap ConfSection.lines).foldlM (takeLine R) s1 =
          some { s' with section_ := name } := by
      intro s1 hs1
      have hstep := (takeLine_header (R := R) s1 (sec.name ++ [']'])).mpr
        ⟨sec.name, rfl, ⟨hsec.closed, hsec.short, hsec.named, fun v hv => by cases hv⟩, rfl⟩
      obtain ⟨name, hrun⟩ := ih (s := { s1 with section_ := sec.name }) hsec.value hsecs
        ((filled_section sec.name).mpr hs1)
      refine ⟨name, ?_⟩
      rw [List.flatMap_cons, ConfSection.lines, List.cons_append, List.foldlM_cons, hstep]
      exact hrun
    cases v with
    | none => exact hheader s ((filled_none _).mp h)
    | some l =>
      obtain ⟨hline, hknown⟩ := hv l rfl
      obtain ⟨s1, hstore, -, hfilled⟩ := (filled_value hknown l _).mp h
      obtain ⟨name, hrun⟩ := hheader s1 hfilled
      refine ⟨name, ?_⟩
      rw [Option.toList_some, List.singleton_append, List.foldlM_cons,
        takeLine_value R (section_ne_nil hknown) hline, hstore]
      exact hrun

theorem checkRead_iff {fc : FtnConfig} : checkRead s = some fc ↔
    (fc.version = 1 ∧ sameNoCase fc.type "echomail".toList = true ∧ fc.domain ≠ [] ∧ fc.tag ≠ []) ∧
      s.version = some fc.version ∧ s.type = some fc.type ∧ s.domain = some fc.domain ∧ s.tag = some fc.tag := by
  unfold checkRead
  constructor
  · intro h
    split at h
    · rename_i version type domain tag hversion htype hdomain htag
      split at h
      · cases h
      · rename_i hok
        cases h
        rw [not_or, not_or, not_or, not_not, Bool.not_eq_false] at hok
        exact ⟨hok, hversion, htype, hdomain, htag⟩
    · cases h
  · rintro ⟨⟨hone, hecho, hdomain, htag⟩, hv, hty, hd, hta⟩
    rw [hv, hty, hd, hta]
    dsimp only
    rw [if_neg]
    rintro (h | h | h | h)
    · exact h hone
    · rw [hecho] at h
      cases h
    · exact hdomain h
    · exact htag h

theorem strlcpy_echomail (h : sameNoCase (strlcpy 32 l) "echomail".toList = true) : strlcpy 32 l = l := by
  have hlen := length_of_echomail h
  unfold strlcpy at hlen ⊢
  rw [List.length_take] at hlen
  exact List.take_of_length_le (by omega)

/-- A reader accepts the files that have the four values, and gives back what it keeps of them. -/
theorem load_iff (hdomain : 1 < R.domainSize) (htag : 1 < R.tagSize) {file : CString} {fc : FtnConfig} :
    loadFtnconf R (some file) = some (some fc) ↔ ∃ type domain tag, HasFtnconf R file type domain tag ∧
      fc = ⟨1, type, strlcpy R.domainSize domain, strlcpy R.tagSize tag⟩ := by
  have hload : loadFtnconf R (some file) = some (some fc) ↔
      ∃ s, (linesSeen R file).foldlM (takeLine R) .start = some s ∧ checkRead s = some fc := by
    unfold loadFtnconf linesSeen
    dsimp only
    rw [foldlM_linesSeen]
    simp only [Option.bind_eq_bind, Option.bind_eq_some_iff, Option.pure_def, Option.some.injEq, exists_eq_right]
  rw [hload]
  constructor
  · rintro ⟨s, hrun, hcheck⟩
    have hseen : ∀ m ∈ linesSeen R file, ¬ Skipped m := by
      intro m hm
      have hm' := of_decide_eq_true (List.mem_filter.mp hm).2
      exact fun hskip => hskip.elim hm'.1 hm'.2
    obtain ⟨v, secs, hlines, hv, hgood, hfilled⟩ := sections_of_takeLine hseen hrun
    have hnone : v = none := by
      by_contra hsome
      obtain ⟨x, rfl⟩ := Option.ne_none_iff_exists'.mp hsome
      exact not_known_nil (hv x rfl).2
    rw [hnone, filled_none] at hfilled
    rw [hnone] at hlines
    obtain ⟨⟨hone, hecho, -, -⟩, hversion, htype, hd, hta⟩ := checkRead_iff.mp hcheck
    obtain ⟨fv, fty, fd, fta⟩ := hfilled
    rw [hversion] at fv
    rw [htype] at fty
    rw [hd] at fd
    rw [hta] at fta
    obtain ⟨version, hvs, hread⟩ := List.map_eq_singleton_iff.mp fv
    obtain ⟨type, htys, hty⟩ := List.map_eq_singleton_iff.mp fty
    obtain ⟨domain, hds, hdom⟩ := List.map_eq_singleton_iff.mp fd
    obtain ⟨tag, htas, htg⟩ := List.map_eq_singleton_iff.mp fta
    rw [← hty] at hecho
    have hself := strlcpy_echomail hecho
    rw [hself] at hecho hty
    rw [hone] at hread
    refine ⟨type, domain, tag, ⟨secs, hlines, hgood, ⟨version, hvs, hread⟩, hecho, htys, hds, htas⟩, ?_⟩
    obtain ⟨fcv, fct, fcd, fcg⟩ := fc
    cases hone
    cases hty
    cases hdom
    cases htg
    rfl
  · rintro ⟨type, domain, tag, ⟨secs, hlines, hsecs⟩, rfl⟩
    obtain ⟨version, hvs, hread⟩ := hsecs.version
    have hline : ∀ {key l}, valuesOf key secs = [l] → ValueLine l := fun h =>
      valueLine_of_mem hsecs.good (by rw [h]; exact List.mem_singleton_self _)
    have hty : strlcpy 32 type = type := strlcpy_of_short (by rw [length_of_echomail hsecs.echomail]; decide)
    have hfilled : Filled R .start (⟨[], none⟩ :: secs)
        ⟨[], some 1, some type, some (strlcpy R.domainSize domain), some (strlcpy R.tagSize tag)⟩ := by
      rw [filled_none]
      refine ⟨?_, ?_, ?_, ?_⟩
      · rw [hvs, List.map_singleton, hread]
        rfl
      · rw [hsecs.type, List.map_singleton, hty]
        rfl
      · rw [hsecs.domain]
        rfl
      · rw [hsecs.tag]
        rfl
    obtain ⟨name, hrun⟩ :=
      takeLine_sections (s := .start) (v := none) (fun l hl => by cases hl) hsecs.good hfilled
    rw [hlines]
    refine ⟨_, hrun, ?_⟩
    rw [checkRead_iff]
    exact ⟨⟨rfl, hsecs.echomail, strlcpy_ne_nil hdomain (hline hsecs.domain).1,
      strlcpy_ne_nil htag (hline hsecs.tag).1⟩, rfl, rfl, rfl, rfl⟩

theorem load_ne_missing : loadFtnconf R (some file) ≠ some none := by
  unfold loadFtnconf
  simp only [Option.bind_eq_bind, Option.pure_def]
  intro h
  obtain ⟨s, -, h⟩ := Option.bind_eq_some_iff.mp h
  obtain ⟨fc, -, h⟩ := Option.bind_eq_some_iff.mp h
  cases h

theorem load_eq_none (h : ∀ fc, loadFtnconf R (some file) ≠ some (some fc)) :
    loadFtnconf R (some file) = none := by
  cases hl : loadFtnconf R (some file) with
  | none => rfl
  | some found =>
    cases found with
    | none => exact absurd hl load_ne_missing
    | some fc => exact absurd hl (h fc)

/-- The readings of a file are the same when the same is seen, as far as it is kept. -/
theorem load_agree_iff (file : CString) :
    loadMeetingFtnconf (some file) = confLoadFtnconf (some file) ↔ SeenAlike file := by
  have hconf {fc : FtnConfig} := @load_iff confReader (by decide) (by decide) file fc
  have hmeeting {fc : FtnConfig} := @load_iff meetingReader (by decide) (by decide) file fc
  unfold loadMeetingFtnconf confLoadFtnconf
  constructor
  · intro h
    refine ⟨⟨?_, ?_⟩, ?_⟩
    · rintro ⟨type, domain, tag, hhas⟩
      have hload := hconf.mpr ⟨type, domain, tag, hhas, rfl⟩
      obtain ⟨type', domain', tag', hhas', -⟩ := hmeeting.mp (h.trans hload)
      exact ⟨type', domain', tag', hhas'⟩
    · rintro ⟨type, domain, tag, hhas⟩
      have hload := hmeeting.mpr ⟨type, domain, tag, hhas, rfl⟩
      obtain ⟨type', domain', tag', hhas', -⟩ := hconf.mp (h.symm.trans hload)
      exact ⟨type', domain', tag', hhas'⟩
    · intro type domain tag type' domain' tag' hhas hhas'
      have hload := hconf.mpr ⟨type, domain, tag, hhas, rfl⟩
      have hload' := hmeeting.mpr ⟨type', domain', tag', hhas', rfl⟩
      rw [h, hload] at hload'
      injection hload' with hsame
      injection hsame with hsame
      injection hsame with _ htype hdomain htag
      exact ⟨htype, hdomain, htag⟩
  · rintro ⟨hboth, hvalues⟩
    cases hc : loadFtnconf confReader (some file) with
    | none =>
      refine load_eq_none fun fc hload => ?_
      obtain ⟨type, domain, tag, hhas, -⟩ := hmeeting.mp hload
      obtain ⟨type', domain', tag', hhas'⟩ := hboth.mpr ⟨type, domain, tag, hhas⟩
      have hload' := hconf.mpr ⟨type', domain', tag', hhas', rfl⟩
      rw [hc] at hload'
      cases hload'
    | some found =>
      cases found with
      | none => exact absurd hc load_ne_missing
      | some fc =>
        obtain ⟨type, domain, tag, hhas, rfl⟩ := hconf.mp hc
        obtain ⟨type', domain', tag', hhas'⟩ := hboth.mp ⟨type, domain, tag, hhas⟩
        obtain ⟨rfl, hdomain, htag⟩ := hvalues type domain tag type' domain' tag' hhas hhas'
        refine hmeeting.mpr ⟨type, domain', tag', hhas', ?_⟩
        exact congrArg₂ (FtnConfig.mk 1 type) hdomain htag

/-! ## Line by line -/

/-- Both programs pass over a line; or they see the same line, it is not `![]`, and a value that is stored
fits both records. -/
def ReadAlike (s : FtnconfRead) (conf meeting : CString) : Prop :=
  (Skipped conf ∧ Skipped meeting) ∨
    (conf = meeting ∧ conf ≠ "![]".toList ∧
      (sameNoCase s.section_ "domain".toList = true → s.domain = none → ValueLine conf → conf.length < 64) ∧
      (sameNoCase s.section_ "tag".toList = true → s.tag = none → ValueLine conf → conf.length < 80))

/-- Every line of the file is read alike, as long as the interactive program reads on. -/
def LinesAlike : FtnconfRead → List CString → Prop
  | _, [] => True
  | s, l :: ls => ReadAlike s (confLine (stringOf l)) (meetingLine (stringOf l)) ∧
      match takeLine confReader s (confLine (stringOf l)) with
      | some s' => LinesAlike s' ls
      | none => True

instance (l : CString) : Decidable (Skipped l) := inferInstanceAs (Decidable (_ ∨ _))

instance (l : CString) : Decidable (ValueLine l) := inferInstanceAs (Decidable (_ ∧ _))

instance (s : FtnconfRead) (conf meeting : CString) : Decidable (ReadAlike s conf meeting) :=
  inferInstanceAs (Decidable (_ ∨ _))

instance linesAlikeDecidable : (s : FtnconfRead) → (ls : List CString) → Decidable (LinesAlike s ls)
  | _, [] => isTrue trivial
  | s, l :: ls =>
    match h : takeLine confReader s (confLine (stringOf l)) with
    | some s' =>
      have := linesAlikeDecidable s' ls
      decidable_of_iff (ReadAlike s (confLine (stringOf l)) (meetingLine (stringOf l)) ∧ LinesAlike s' ls)
        (by rw [LinesAlike, h])
    | none =>
      decidable_of_iff (ReadAlike s (confLine (stringOf l)) (meetingLine (stringOf l)))
        (by rw [LinesAlike, h, and_true])

-- a second domain is stored by neither program
example : LinesAlike .start ["![domain]\n".toList, "x\n".toList, "![domain]\n".toList,
    List.replicate 64 'a'] := by decide +kernel

/-- A value that fits both records is stored alike. -/
theorem storeValue_alike
    (hdomain : sameNoCase s.section_ "domain".toList = true → s.domain = none → l.length < 64)
    (htag : sameNoCase s.section_ "tag".toList = true → s.tag = none → l.length < 80) :
    storeValue meetingReader s l = storeValue confReader s l := by
  have hshort {a b n : Nat} (hab : n < a) (hb : n < b) (hl : l.length ≤ n) : strlcpy a l = strlcpy b l := by
    rw [strlcpy_of_short (by omega), strlcpy_of_short (by omega)]
  unfold storeValue
  split
  · rfl
  · split
    · rfl
    · split
      · rename_i hd
        split
        · rfl
        · rename_i hnone
          have hlen := hdomain hd (by simpa using hnone)
          have hsame : strlcpy meetingReader.domainSize l = strlcpy confReader.domainSize l :=
            hshort (n := 63) (by decide) (by decide) (by omega)
          rw [hsame]
      · split
        · rename_i ht
          split
          · rfl
          · rename_i hnone
            have hlen := htag ht (by simpa using hnone)
            have hsame : strlcpy meetingReader.tagSize l = strlcpy confReader.tagSize l :=
              hshort (n := 79) (by decide) (by decide) (by omega)
            rw [hsame]
        · rfl

theorem takeLine_alike {conf meeting : CString} (h : ReadAlike s conf meeting) :
    takeLine meetingReader s meeting = takeLine confReader s conf := by
  obtain ⟨hconf, hmeeting⟩ | ⟨rfl, hheader, hdomain, htag⟩ := h
  · rw [takeLine_skipped _ _ hconf, takeLine_skipped _ _ hmeeting]
  unfold takeLine
  split
  · rfl
  · rename_i hskip
    split
    · rename_i hpre
      obtain ⟨t, rfl⟩ := List.isPrefixOf_iff_prefix.mp hpre
      cases hname : sectionName ("![".toList ++ t) with
      | none => rfl
      | some name =>
        have hne : name ≠ [] := by
          rintro rfl
          obtain ⟨rfl, -⟩ := sectionName_iff.mp hname
          exact hheader rfl
        simp [hne]
    · rename_i hpre
      have hline : ValueLine conf :=
        ⟨fun h => hskip (Or.inl h), fun h => hskip (Or.inr h), mt List.isPrefixOf_iff_prefix.mpr hpre⟩
      split
      · rfl
      · exact storeValue_alike (fun hd hnone => hdomain hd hnone hline) fun ht hnone => htag ht hnone hline

/-- The readers agree on lines that are read alike. -/
theorem foldlM_alike {ls : List CString} (h : LinesAlike s ls) :
    ls.foldlM (fun s l => takeLine meetingReader s (meetingLine (stringOf l))) s =
      ls.foldlM (fun s l => takeLine confReader s (confLine (stringOf l))) s := by
  induction ls generalizing s with
  | nil => rfl
  | cons l ls ih =>
    obtain ⟨hl, hls⟩ := h
    rw [List.foldlM_cons, List.foldlM_cons, takeLine_alike hl]
    cases hs : takeLine confReader s (confLine (stringOf l)) with
    | none => rfl
    | some s' =>
      rw [hs] at hls
      exact ih hls

theorem LinesAlike.seen (h : LinesAlike .start (fileLines 1024 file)) : SeenAlike file := by
  rw [← load_agree_iff]
  unfold loadMeetingFtnconf confLoadFtnconf loadFtnconf
  dsimp only
  have hfold := foldlM_alike h
  simp only [meetingReader, confReader] at hfold ⊢
  rw [hfold]

/-- The readers agree on a file exactly when it is seen alike, for which it is enough that each line is; and
they give back a configuration that was written exactly when its values are plain and the domain fits the
record of `ftntoss`. -/
theorem ftnconf_agree (file : CString) (fc : FtnConfig) (data : CString) :
    (loadMeetingFtnconf (some file) = confLoadFtnconf (some file) ↔ SeenAlike file) ∧
    (LinesAlike .start (fileLines 1024 file) → SeenAlike file) ∧
    (fc.Stored → confWriteFtnconf fc = some data →
      ((confLoadFtnconf (some data) = some (some fc) ∧ loadMeetingFtnconf (some data) = some (some fc)) ↔
        PlainValue fc.domain ∧ PlainValue fc.tag ∧ fc.domain.length < 64)) :=
  ⟨load_agree_iff file, LinesAlike.seen, load_both_iff⟩

def swedishConf : FtnConfig := ⟨1, "echomail".toList, "fidonet".toList, "SWE".toList⟩

def swedishFile : CString := "# Sverige\r\n".toList ++ unlines (ftnconfLines swedishConf)

theorem ftnconf_agree_swedish : SeenAlike swedishFile ∧
    loadMeetingFtnconf (some swedishFile) = some (some swedishConf) ∧
    ∃ data, confWriteFtnconf swedishConf = some data ∧
      confLoadFtnconf (some data) = some (some swedishConf) ∧
      loadMeetingFtnconf (some data) = some (some swedishConf) := by
  have hplain : ∀ v : CString, v.all (fun c => !isSpace c) = true → ValueLine v → PlainValue v := by
    intro v hv hvalue
    exact ⟨hvalue, untrimmed_of_notSpace fun c hc => by simpa using List.all_eq_true.mp hv c hc⟩
  obtain ⟨hagree, halike, hwritten⟩ :=
    ftnconf_agree swedishFile swedishConf (unlines (ftnconfLines swedishConf))
  have hseen := halike (by decide +kernel)
  have hconf : confLoadFtnconf (some swedishFile) = some (some swedishConf) := by decide +kernel
  refine ⟨hseen, (hagree.mpr hseen).trans hconf, unlines (ftnconfLines swedishConf), by decide +kernel, ?_⟩
  apply (hwritten ⟨by decide, by decide⟩ (by decide +kernel)).mpr
  exact ⟨hplain _ (by decide) ⟨by decide, by decide, by decide⟩,
    hplain _ (by decide) ⟨by decide, by decide, by decide⟩, by decide⟩

/-- A tab before the domain is written and read by the one program, and not seen by the other. -/
theorem ftnconf_tab_differs :
    ∃ fc : FtnConfig, fc.Stored ∧ ∃ data, confWriteFtnconf fc = some data ∧
      confLoadFtnconf (some data) = some (some fc) ∧
      loadMeetingFtnconf (some data) = some (some { fc with domain := "fidonet".toList }) ∧
      fc.domain ≠ "fidonet".toList :=
  ⟨⟨1, "echomail".toList, "\tfidonet".toList, "SWE".toList⟩, ⟨by decide, by decide⟩,
    unlines (ftnconfLines ⟨1, "echomail".toList, "\tfidonet".toList, "SWE".toList⟩),
    by decide +kernel, by decide +kernel, by decide +kernel, by decide⟩

end SklaffKom
