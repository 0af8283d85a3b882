import SklaffKom.ConfsFile
import SklaffKom.Lib.LastWrite
import Mathlib.Order.BooleanAlgebra.Set

/-!
# Marking texts as read and unread

`mark_as_read`, `mark_as_unread` and `check_if_read` read the user's conference file, look up the
line of the conference and edit its interval list.  Opening, reading, writing and closing the file
succeed; `none` is a read through `NULL`, or a line that leaves the buffer it is printed into.  With the size
`none` for that buffer every line is taken to fit.
-/

open CString IntervalList

namespace SklaffKom

/-! ## Editing an interval list -/

/-- `bound`: the number of intervals that touch `text`. -/
def bound (text : Int) (il : List IntRange) : Nat :=
  il.countP fun i => i.lo = text + 1 ∨ i.hi = text - 1

/-- The search for a gap after `saved`; the new node goes there or to the end. -/
def insertAfter (text : Int) (saved : IntRange) : List IntRange → List IntRange
  | [] => [⟨text, text⟩]
  | i :: il =>
    if saved.hi < text ∧ i.lo > text then ⟨text, text⟩ :: i :: il
    else i :: insertAfter text i il

/-- `bound == 0`: a node of its own. -/
def newInterval (text : Int) : List IntRange → List IntRange
  | [] => [⟨text, text⟩]
  | i :: il => if i.lo > text then ⟨text, text⟩ :: i :: il else i :: insertAfter text i il

/-- `bound == 1`: the first interval that touches `text` grows. -/
def growInterval (text : Int) : List IntRange → List IntRange
  | [] => []
  | i :: il =>
    if i.lo = text + 1 then { i with lo := text } :: il
    else if i.hi = text - 1 then { i with hi := text } :: il
    else i :: growInterval text il

/-- `i` takes the end of its successor, which is removed. -/
def joinNext (i : IntRange) : List IntRange → Option (List IntRange)
  | [] => none
  | next :: il => some ({ i with hi := next.hi } :: il)

/-- `bound == 2`: the interval below `text` is joined to the next one. -/
def joinIntervals (text : Int) : List IntRange → Option (List IntRange)
  | [] => some []
  | i :: il =>
    if i.hi = text - 1 then joinNext i il else (joinIntervals text il).map (i :: ·)

/-- The list `mark_as_read` writes for a text that is not in it. -/
def addText (text : Int) (il : List IntRange) : Option (List IntRange) :=
  match bound text il with
  | 0 => some (newInterval text il)
  | 1 => some (growInterval text il)
  | 2 => joinIntervals text il
  | _ => some il

/-- The list `mark_as_unread` writes for a text that is in it. -/
def removeText (text : Int) : List IntRange → List IntRange
  | [] => []
  | i :: il =>
    if i.lo ≤ text ∧ text ≤ i.hi then
      if i.lo = i.hi then il
      else if i.lo = text then { i with lo := i.lo + 1 } :: il
      else if i.hi = text then { i with hi := i.hi - 1 } :: il
      else { i with hi := text - 1 } :: ⟨text + 1, i.hi⟩ :: il
    else i :: removeText text il

theorem bound_append (text : Int) (a b : List IntRange) :
    bound text (a ++ b) = bound text a + bound text b := List.countP_append

/-- Intervals that end before `text - 1`. -/
theorem bound_below {text : Int} {a : List IntRange} (h : Canonical a)
    (ha : ∀ i ∈ a, i.hi + 1 < text) : bound text a = 0 := by
  rw [bound, List.countP_eq_zero]
  intro i hi
  have h1 := ha i hi
  have h2 := h.lo_le_hi hi
  simp only [decide_eq_true_eq, not_or]
  omega

/-- Intervals that begin after `text + 1`. -/
theorem bound_above {text : Int} {b : List IntRange} (h : Canonical b)
    (hb : ∀ i ∈ b, text + 1 < i.lo) : bound text b = 0 := by
  rw [bound, List.countP_eq_zero]
  intro i hi
  have h1 := hb i hi
  have h2 := h.lo_le_hi hi
  simp only [decide_eq_true_eq, not_or]
  omega

theorem bound_singleton {text : Int} {i : IntRange} (h : i.lo = text + 1 ∨ i.hi = text - 1) :
    bound text [i] = 1 := by
  simp [bound, h]

theorem insertAfter_append {text : Int} {saved : IntRange} {a b : List IntRange}
    (hs : saved.hi < text) (ha : Canonical a) (hlt : ∀ i ∈ a, i.hi < text)
    (hb : ∀ i ∈ b, text < i.lo) :
    insertAfter text saved (a ++ b) = a ++ ⟨text, text⟩ :: b := by
  induction a generalizing saved with
  | nil =>
    cases b with
    | nil => rfl
    | cons y b =>
      have := hb y List.mem_cons_self
      simp [insertAfter, hs, this]
  | cons i a ih =>
    obtain ⟨hi, -, ha'⟩ := canonical_cons.mp ha
    have hil := hlt i List.mem_cons_self
    rw [List.cons_append, insertAfter, if_neg (by omega),
      ih hil ha' fun j hj => hlt j (List.mem_cons_of_mem _ hj)]
    rfl

theorem newInterval_append {text : Int} {a b : List IntRange} (ha : Canonical a)
    (hlt : ∀ i ∈ a, i.hi < text) (hb : ∀ i ∈ b, text < i.lo) :
    newInterval text (a ++ b) = a ++ ⟨text, text⟩ :: b := by
  cases a with
  | nil =>
    cases b with
    | nil => rfl
    | cons y b =>
      have := hb y List.mem_cons_self
      simp [newInterval, this]
  | cons i a =>
    obtain ⟨hi, -, ha'⟩ := canonical_cons.mp ha
    have hil := hlt i List.mem_cons_self
    rw [List.cons_append, newInterval, if_neg (by omega),
      insertAfter_append hil ha' (fun j hj => hlt j (List.mem_cons_of_mem _ hj)) hb]
    rfl

theorem growInterval_append {text : Int} {a b : List IntRange} (ha : Canonical a)
    (hlt : ∀ i ∈ a, i.hi + 1 < text) :
    growInterval text (a ++ b) = a ++ growInterval text b := by
  induction a with
  | nil => rfl
  | cons i a ih =>
    obtain ⟨hi, -, ha'⟩ := canonical_cons.mp ha
    have hil := hlt i List.mem_cons_self
    rw [List.cons_append, growInterval, if_neg (by omega), if_neg (by omega),
      ih ha' fun j hj => hlt j (List.mem_cons_of_mem _ hj)]
    rfl

theorem joinIntervals_append {text : Int} {a b : List IntRange}
    (hlt : ∀ i ∈ a, i.hi + 1 < text) :
    joinIntervals text (a ++ b) = (joinIntervals text b).map (a ++ ·) := by
  induction a with
  | nil => simp
  | cons i a ih =>
    have hil := hlt i List.mem_cons_self
    rw [List.cons_append, joinIntervals, if_neg (by omega),
      ih fun j hj => hlt j (List.mem_cons_of_mem _ hj)]
    cases joinIntervals text b <;> rfl

/-- Around an unread text the list splits in two, and each part touches it with one interval at
most: these are the shapes `mark_as_read` tells apart by `bound`. -/
theorem addText_spec {il : List IntRange} (h : Canonical il) {text : Int}
    (hn : ¬ Covers il text) :
    ∃ il', addText text il = some il' ∧ Canonical il' ∧
      ∀ n, Covers il' n ↔ n = text ∨ Covers il n := by
  obtain ⟨a, b, rfl, ha, hb⟩ := h.exists_split hn
  obtain ⟨hca, hcb, -⟩ := canonical_append.mp h
  rcases hca.below_cases ha with ha1 | ⟨a', x, rfl, hx, ha'⟩ <;>
    rcases hcb.above_cases hb with hb1 | ⟨y, b', rfl, hy, hb'⟩
  · -- no neighbour
    refine ⟨a ++ ⟨text, text⟩ :: b, ?_, hca.splice hcb le_rfl ha1 hb1, ?_⟩
    · simp only [addText, bound_append, bound_below hca ha1, bound_above hcb hb1]
      rw [newInterval_append hca ha hb]
    · intro n
      simp only [covers_append, covers_cons]
      have : text ≤ n ∧ n ≤ text ↔ n = text := by omega
      rw [this, or_left_comm]
  · -- the interval above begins at `text + 1`
    obtain ⟨hyy, hyb, hcb'⟩ := canonical_cons.mp hcb
    refine ⟨a ++ { y with lo := text } :: b', ?_, hca.splice hcb' (by omega) ha1 hyb, ?_⟩
    · have hb1 : bound text (y :: b') = 1 := by
        rw [← List.singleton_append, bound_append, bound_singleton (Or.inl hy),
          bound_above hcb' hb']
      simp only [addText, bound_append, bound_below hca ha1, hb1]
      rw [growInterval_append hca ha1, growInterval, if_pos hy]
    · intro n
      simp only [covers_append, covers_cons]
      have : text ≤ n ∧ n ≤ y.hi ↔ n = text ∨ y.lo ≤ n ∧ n ≤ y.hi := by omega
      rw [this, or_assoc, or_left_comm]
  · -- the interval below ends at `text - 1`
    obtain ⟨hca', hcx, hax⟩ := canonical_append.mp hca
    have hxx := canonical_singleton.mp hcx
    rw [List.append_assoc, List.singleton_append]
    refine ⟨a' ++ { x with hi := text } :: b, ?_,
      hca'.splice hcb (by omega) (fun i hi => hax i hi x (by simp)) hb1, ?_⟩
    · have hb1 : bound text (x :: b) = 1 := by
        rw [← List.singleton_append, bound_append, bound_singleton (Or.inr (by omega)),
          bound_above hcb hb1]
      simp only [addText, bound_append, bound_below hca' ha', hb1]
      rw [growInterval_append hca' ha', growInterval, if_neg (by omega), if_pos (by omega)]
    · intro n
      simp only [covers_append, covers_cons]
      have : x.lo ≤ n ∧ n ≤ text ↔ n = text ∨ x.lo ≤ n ∧ n ≤ x.hi := by omega
      rw [this, or_assoc, or_left_comm]
  · -- both: the two intervals become one
    obtain ⟨hca', hcx, hax⟩ := canonical_append.mp hca
    obtain ⟨hyy, hyb, hcb'⟩ := canonical_cons.mp hcb
    have hxx := canonical_singleton.mp hcx
    rw [List.append_assoc, List.singleton_append]
    refine ⟨a' ++ { x with hi := y.hi } :: b', ?_,
      hca'.splice hcb' (by omega) (fun i hi => hax i hi x (by simp)) hyb, ?_⟩
    · have hb1 : bound text (x :: y :: b') = 2 := by
        rw [← List.singleton_append, ← List.singleton_append (l := b'), bound_append,
          bound_append, bound_singleton (Or.inr (by omega)), bound_singleton (Or.inl hy),
          bound_above hcb' hb']
      simp only [addText, bound_append, bound_below hca' ha', hb1]
      rw [joinIntervals_append ha', joinIntervals, if_pos (by omega)]
      rfl
    · intro n
      simp only [covers_append, covers_cons]
      have : x.lo ≤ n ∧ n ≤ y.hi ↔
          n = text ∨ (x.lo ≤ n ∧ n ≤ x.hi) ∨ y.lo ≤ n ∧ n ≤ y.hi := by omega
      rw [this, or_assoc, or_assoc, or_left_comm]

theorem exists_lo_of_mem_removeText {text : Int} {il : List IntRange} {j : IntRange}
    (hj : j ∈ removeText text il) : ∃ i ∈ il, i.lo ≤ j.lo := by
  induction il with
  | nil => cases hj
  | cons i il ih =>
    rw [removeText] at hj
    split_ifs at hj with hin hone hlo hhi
    · exact ⟨j, List.mem_cons_of_mem _ hj, le_rfl⟩
    all_goals grind

/-- Taking a text out: its interval goes, shrinks at one end, or is cut in two. -/
theorem removeText_spec {il : List IntRange} (h : Canonical il) (text : Int) :
    Canonical (removeText text il) ∧
      ∀ n, Covers (removeText text il) n ↔ n ≠ text ∧ Covers il n := by
  induction il with
  | nil => simp [removeText]
  | cons i il ih =>
    obtain ⟨hi, hil, hc⟩ := canonical_cons.mp h
    have hrest : ∀ n, Covers il n → i.hi + 1 < n := by
      rintro n ⟨j, hj, hjn, -⟩
      have := hil j hj
      omega
    rw [removeText]
    split_ifs with hin hone hlo hhi
    · -- the node goes
      refine ⟨hc, fun n => ?_⟩
      have := hrest n
      grind [covers_cons]
    · -- it begins one later
      refine ⟨canonical_cons.mpr ⟨?_, hil, hc⟩, fun n => ?_⟩
      · show i.lo + 1 ≤ i.hi
        omega
      · have := hrest n
        grind [covers_cons]
    · -- it ends one earlier
      refine ⟨canonical_cons.mpr ⟨?_, ?_, hc⟩, fun n => ?_⟩
      · show i.lo ≤ i.hi - 1
        omega
      · intro j hj
        have := hil j hj
        show i.hi - 1 + 1 < j.lo
        omega
      · have := hrest n
        grind [covers_cons]
    · -- it is cut in two
      have hupper : Canonical (⟨text + 1, i.hi⟩ :: il) :=
        canonical_cons.mpr ⟨by show text + 1 ≤ i.hi; omega, hil, hc⟩
      refine ⟨canonical_cons.mpr ⟨?_, ?_, hupper⟩, fun n => ?_⟩
      · show i.lo ≤ text - 1
        omega
      · intro j hj
        show text - 1 + 1 < j.lo
        rcases List.mem_cons.mp hj with rfl | hj
        · show text - 1 + 1 < text + 1
          omega
        · have := hil j hj
          omega
      · have := hrest n
        grind [covers_cons]
    · -- a later one
      obtain ⟨hcr, hcov⟩ := ih hc
      refine ⟨canonical_cons.mpr ⟨hi, ?_, hcr⟩, fun n => ?_⟩
      · intro j hj
        obtain ⟨k, hk, hkj⟩ := exists_lo_of_mem_removeText hj
        have := hil k hk
        omega
      · rw [covers_cons, covers_cons, hcov]
        grind

/-! ## The three functions -/

/-- `mark_as_read`: what it returns, and the file afterwards. -/
def markAsRead (tmpbuf : Option Nat) (text conf : Int) (buf : CString) : Option (Int × CString) :=
  match confsEntry conf buf with
  | .crash => none
  | .null => some (0, buf)
  | .entry cse _ =>
    if Covers cse.il text then some (0, buf)
    else do
      let il ← addText text cse.il
      let nbuf ← replaceConfs tmpbuf { cse with il := il } buf
      pure (1, nbuf)

def markAsUnread (tmpbuf : Option Nat) (text conf : Int) (buf : CString) : Option (Int × CString) :=
  match confsEntry conf buf with
  | .crash => none
  | .null => some (0, buf)
  | .entry cse _ =>
    if ¬ Covers cse.il text then some (0, buf)
    else do
      let nbuf ← replaceConfs tmpbuf { cse with il := removeText text cse.il } buf
      pure (1, nbuf)

def checkIfRead (text conf : Int) (buf : CString) : Option Int :=
  match confsEntry conf buf with
  | .crash => none
  | .null => some 0
  | .entry cse _ => some (if Covers cse.il text then 1 else 0)

theorem readMarks_iff {il : List IntRange} :
    ReadMarks il ↔ Canonical il ∧ ∀ n, Covers il n → 0 ≤ n := by
  constructor
  · rintro ⟨hc, hlo⟩
    refine ⟨hc, ?_⟩
    rintro n ⟨i, hi, hin, -⟩
    have := hlo i hi
    omega
  · rintro ⟨hc, hpos⟩
    exact ⟨hc, fun i hi => hpos _ ⟨i, hi, le_rfl, hc.lo_le_hi hi⟩⟩

/-- The two files differ at most in the line of `conf`. -/
structure SameBut (conf : Int) (f g : ConfsFile) : Prop where
  nums : g.nums = f.nums
  lookup : ∀ c, c ≠ conf → g.lookup c = f.lookup c

theorem SameBut.refl (conf : Int) (f : ConfsFile) : SameBut conf f f := ⟨rfl, fun _ _ => rfl⟩

theorem SameBut.trans {conf : Int} {f g h : ConfsFile} (hfg : SameBut conf f g)
    (hgh : SameBut conf g h) : SameBut conf f h :=
  ⟨hgh.nums.trans hfg.nums, fun c hc => (hgh.lookup c hc).trans (hfg.lookup c hc)⟩

theorem SameBut.read {conf : Int} {f g : ConfsFile} (h : SameBut conf f g) {c : Int}
    (hc : c ≠ conf) : g.read c = f.read c := by
  simp only [ConfsFile.read, h.lookup c hc]

theorem sameBut_update (f : ConfsFile) {conf : Int} {il : List IntRange} (h : ReadMarks il) :
    SameBut conf f (f.update conf il h) :=
  ⟨f.nums_update conf h, fun _ hc => f.lookup_update_ne h hc⟩

/-- The texts of a line are those of a set. -/
structure LineOf (s : Set Int) (il : List IntRange) : Prop where
  marks : ReadMarks il
  cover : cover il = s

namespace ConfsFile

variable (f : ConfsFile) {text conf : Int} {il : List IntRange}

theorem not_mem_read_of_not_mem (h : conf ∉ f.nums) (n : Int) : n ∉ f.read conf := by
  rintro ⟨il, hil, -⟩
  exact h (f.lookup_isSome.mp (by simp [hil]))

/-- The line of a subscribed conference. -/
theorem exists_lineOf (hc : conf ∈ f.nums) : ∃ il, f.lookup conf = some il ∧ LineOf (f.read conf) il := by
  obtain ⟨il, hl⟩ := Option.isSome_iff_exists.mp (f.lookup_isSome.mpr hc)
  refine ⟨il, hl, f.readMarks_of_lookup hl, ?_⟩
  ext n
  exact (f.mem_read hl).symm

theorem read_update (hm : ReadMarks il) (hc : conf ∈ f.nums) : (f.update conf il hm).read conf = cover il := by
  ext n
  exact mem_read _ (f.lookup_update_self hm (f.lookup_isSome.mpr hc))

/-- `mark_as_read` on a conference the user does not subscribe to, or on a text already read. -/
theorem markAsRead_same (h : text ∈ f.read conf ∨ conf ∉ f.nums) (tmpbuf : Option Nat) :
    markAsRead tmpbuf text conf f.bytes = some (0, f.bytes) := by
  cases hl : f.lookup conf with
  | none => simp only [markAsRead, f.confsEntry_bytes_none hl]
  | some il =>
    have hc : Covers il text := by
      rcases h with h | h
      · exact (f.mem_read hl).mp h
      · exact absurd (f.lookup_isSome.mp (by simp [hl])) h
    obtain ⟨as, bs, -, -, -, hfind⟩ := f.confsEntry_bytes hl
    simp only [markAsRead, hfind, if_pos hc]

/-- `mark_as_read` on an unread text: it depends on the length of the new line. -/
theorem markAsRead_new (ht : 0 ≤ text) (hc : conf ∈ f.nums) (hn : text ∉ f.read conf) :
    ∃ il, ∃ h : LineOf (insert text (f.read conf)) il, ∀ tmpbuf, markAsRead tmpbuf text conf f.bytes =
      if fitsBuffer tmpbuf (stringifyConfsStruct ⟨conf, il⟩) then some (1, (f.update conf il h.marks).bytes)
      else none := by
  obtain ⟨il, hl, hline⟩ := f.exists_lineOf hc
  have hn : ¬ Covers il text := fun h => hn ((f.mem_read hl).mpr h)
  obtain ⟨hcan, hpos⟩ := readMarks_iff.mp hline.marks
  obtain ⟨il', hadd, hcan', hcov⟩ := addText_spec hcan hn
  have hm : ReadMarks il' := by
    refine readMarks_iff.mpr ⟨hcan', fun n h => ?_⟩
    rcases (hcov n).mp h with rfl | h
    · exact ht
    · exact hpos n h
  obtain ⟨as, bs, -, -, -, hfind⟩ := f.confsEntry_bytes hl
  refine ⟨il', ⟨hm, ?_⟩, fun tmpbuf => ?_⟩
  · ext n
    rw [mem_cover, hcov, Set.mem_insert_iff, ← hline.cover, mem_cover]
  · simp only [markAsRead, hfind, if_neg hn, hadd, Option.bind_eq_bind, Option.bind_some,
      f.replaceConfs_eq hm (f.lookup_isSome.mpr hc), Option.pure_def]
    split <;> rfl

/-- `mark_as_unread` on a conference the user does not subscribe to, or on an unread text. -/
theorem markAsUnread_same (h : text ∉ f.read conf) (tmpbuf : Option Nat) :
    markAsUnread tmpbuf text conf f.bytes = some (0, f.bytes) := by
  cases hl : f.lookup conf with
  | none => simp only [markAsUnread, f.confsEntry_bytes_none hl]
  | some il =>
    have hc : ¬ Covers il text := fun hc => h ((f.mem_read hl).mpr hc)
    obtain ⟨as, bs, -, -, -, hfind⟩ := f.confsEntry_bytes hl
    simp only [markAsUnread, hfind, if_pos hc]

/-- `mark_as_unread` on a text that is read. -/
theorem markAsUnread_read (h : text ∈ f.read conf) :
    ∃ il, ∃ h : LineOf (f.read conf \ {text}) il, ∀ tmpbuf, markAsUnread tmpbuf text conf f.bytes =
      if fitsBuffer tmpbuf (stringifyConfsStruct ⟨conf, il⟩) then some (1, (f.update conf il h.marks).bytes)
      else none := by
  obtain ⟨il, hl, hc⟩ := h
  obtain ⟨hcan, hpos⟩ := readMarks_iff.mp (f.readMarks_of_lookup hl)
  obtain ⟨hcan', hcov⟩ := removeText_spec hcan text
  have hm : ReadMarks (removeText text il) :=
    readMarks_iff.mpr ⟨hcan', fun n h => hpos n ((hcov n).mp h).2⟩
  obtain ⟨as, bs, -, -, -, hfind⟩ := f.confsEntry_bytes hl
  refine ⟨removeText text il, ⟨hm, ?_⟩, fun tmpbuf => ?_⟩
  · ext n
    rw [Set.mem_sdiff, Set.mem_singleton_iff, mem_cover, mem_read _ hl, hcov]
    exact and_comm
  · have hsub : (f.lookup conf).isSome := by simp [hl]
    simp only [markAsUnread, hfind, hc, not_true_eq_false, if_false, Option.bind_eq_bind,
      f.replaceConfs_eq hm hsub, Option.pure_def]
    split <;> rfl

/-! With a buffer that takes every line. -/

theorem markAsRead_bytes_same (h : text ∈ f.read conf ∨ conf ∉ f.nums) :
    markAsRead none text conf f.bytes = some (0, f.bytes) := f.markAsRead_same h none

theorem markAsRead_bytes_new (ht : 0 ≤ text) (hc : conf ∈ f.nums) (hn : text ∉ f.read conf) :
    ∃ g : ConfsFile, markAsRead none text conf f.bytes = some (1, g.bytes) ∧ SameBut conf f g ∧
      g.read conf = insert text (f.read conf) := by
  obtain ⟨il, hline, hmark⟩ := f.markAsRead_new ht hc hn
  exact ⟨f.update conf il hline.marks, hmark none, sameBut_update f hline.marks,
    (f.read_update hline.marks hc).trans hline.cover⟩

theorem markAsUnread_bytes_same (h : text ∉ f.read conf) :
    markAsUnread none text conf f.bytes = some (0, f.bytes) := f.markAsUnread_same h none

theorem markAsUnread_bytes_read (h : text ∈ f.read conf) :
    ∃ g : ConfsFile, markAsUnread none text conf f.bytes = some (1, g.bytes) ∧ SameBut conf f g ∧
      g.read conf = f.read conf \ {text} := by
  have hc : conf ∈ f.nums := not_not.mp fun hc => f.not_mem_read_of_not_mem hc text h
  obtain ⟨il, hline, hmark⟩ := f.markAsUnread_read h
  exact ⟨f.update conf il hline.marks, hmark none, sameBut_update f hline.marks,
    (f.read_update hline.marks hc).trans hline.cover⟩

/-- `check_if_read` answers by the read set. -/
theorem checkIfRead_bytes (text conf : Int) :
    ∃ r, checkIfRead text conf f.bytes = some r ∧ (r = 1 ↔ text ∈ f.read conf) ∧
      (r = 0 ↔ text ∉ f.read conf) := by
  cases hl : f.lookup conf with
  | none =>
    refine ⟨0, by simp only [checkIfRead, f.confsEntry_bytes_none hl], ?_⟩
    have : text ∉ f.read conf := by simp [read, hl]
    simp [this]
  | some il =>
    obtain ⟨as, bs, -, -, -, hfind⟩ := f.confsEntry_bytes hl
    refine ⟨if Covers il text then 1 else 0, by simp only [checkIfRead, hfind], ?_⟩
    rw [mem_read _ hl]
    split <;> simp_all

end ConfsFile

/-! ## Runs of calls -/

/-- A call of `mark_as_read` or `mark_as_unread`. -/
inductive MarkCall where
  | read (text conf : Int)
  | unread (text conf : Int)

namespace MarkCall

def text : MarkCall → Int
  | read t _ => t
  | unread t _ => t

def conf : MarkCall → Int
  | read _ c => c
  | unread _ c => c

def exec : MarkCall → CString → Option (Int × CString)
  | read t c => markAsRead (some hugeLine) t c
  | unread t c => markAsUnread (some hugeLine) t c

/-- What the call is for: the text joins or leaves the read texts of its conference. -/
def apply : MarkCall → Set Int → Set Int
  | read t _, s => insert t s
  | unread t _, s => s \ {t}

/-- The call as a write of one mark. -/
def write (k : MarkCall) : (Int × Int) × Prop :=
  ((k.text, k.conf), match k with | read .. => True | unread .. => False)

theorem mem_apply (k : MarkCall) (s : Set Int) (n : Int) :
    n ∈ k.apply s ↔ if n = k.text then k.write.2 else n ∈ s := by
  cases k with
  | read t c => by_cases hn : n = t <;> simp [apply, write, text, hn]
  | unread t c => by_cases hn : n = t <;> simp [apply, write, text, hn]

/-- A call that leaves the read texts as they are. -/
theorem exec_same (k : MarkCall) {f : ConfsFile} (h : k.conf ∈ f.nums → k.apply (f.read k.conf) = f.read k.conf) :
    k.exec f.bytes = some (0, f.bytes) := by
  cases k with
  | read t c =>
    apply f.markAsRead_same
    by_cases hc : c ∈ f.nums
    · exact Or.inl (h hc ▸ Set.mem_insert t _)
    · exact Or.inr hc
  | unread t c =>
    apply f.markAsUnread_same
    by_cases hc : c ∈ f.nums
    · have hmem : t ∉ f.read c \ {t} := fun hmem => hmem.2 rfl
      rwa [show f.read c \ {t} = f.read c from h hc] at hmem
    · exact f.not_mem_read_of_not_mem hc t

/-- A call that changes them. -/
theorem exec_new (k : MarkCall) (ht : 0 ≤ k.text) {f : ConfsFile} (hc : k.conf ∈ f.nums)
    (h : k.apply (f.read k.conf) ≠ f.read k.conf) :
    ∃ il, ∃ hline : LineOf (k.apply (f.read k.conf)) il, k.exec f.bytes =
      if fitsBuffer (some hugeLine) (stringifyConfsStruct ⟨k.conf, il⟩) then
        some (1, (f.update k.conf il hline.marks).bytes)
      else none := by
  cases k with
  | read t c =>
    have hn : t ∉ f.read c := fun hr => h (Set.insert_eq_of_mem hr)
    obtain ⟨il, hline, hmark⟩ := f.markAsRead_new ht hc hn
    exact ⟨il, hline, hmark (some hugeLine)⟩
  | unread t c =>
    have hr : t ∈ f.read c := not_not.mp fun hr => h (Set.sdiff_singleton_eq_self hr)
    obtain ⟨il, hline, hmark⟩ := f.markAsUnread_read hr
    exact ⟨il, hline, hmark (some hugeLine)⟩

end MarkCall

/-- A sequence of calls on the file, their return values dropped. -/
def runMarks (calls : List MarkCall) (buf : CString) : Option CString :=
  calls.foldlM (fun buf k => (k.exec buf).map Prod.snd) buf

theorem runMarks_append (calls : List MarkCall) (k : MarkCall) (buf : CString) :
    runMarks (calls ++ [k]) buf =
      (runMarks calls buf).bind fun buf => (k.exec buf).map Prod.snd := by
  simp only [runMarks, List.foldlM_append, List.foldlM_cons, List.foldlM_nil]
  simp

/-- The texts of a conference whose last call marked them read, or that no call named and that were read at the
start. -/
def readAfter (f : ConfsFile) (calls : List MarkCall) (conf : Int) : Set Int :=
  {t | (LastWrite.last (calls.map MarkCall.write) (t, conf)).getD (t ∈ f.read conf)}

theorem readAfter_nil (f : ConfsFile) (conf : Int) : readAfter f [] conf = f.read conf := rfl

theorem mem_readAfter_append {f : ConfsFile} {calls : List MarkCall} {k : MarkCall} {c t : Int} :
    t ∈ readAfter f (calls ++ [k]) c ↔
      if (k.text, k.conf) = (t, c) then k.write.2 else t ∈ readAfter f calls c := by
  unfold readAfter
  rw [Set.mem_ofPred_eq, List.map_append, List.map_singleton, LastWrite.last_append_singleton]
  show (if (k.text, k.conf) = (t, c) then _ else _ : Option Prop).getD _ ↔ _
  split
  · rfl
  · rfl

/-- A call changes the read texts of its conference by its text. -/
theorem readAfter_append_self (f : ConfsFile) (calls : List MarkCall) (k : MarkCall) :
    readAfter f (calls ++ [k]) k.conf = k.apply (readAfter f calls k.conf) := by
  ext t
  have hkey : (k.text, k.conf) = (t, k.conf) ↔ t = k.text := by
    rw [Prod.mk.injEq]
    tauto
  rw [mem_readAfter_append, MarkCall.mem_apply]
  simp only [hkey]

theorem readAfter_append_ne (f : ConfsFile) (calls : List MarkCall) {k : MarkCall} {c : Int} (hc : c ≠ k.conf) :
    readAfter f (calls ++ [k]) c = readAfter f calls c := by
  ext t
  rw [mem_readAfter_append, if_neg]
  intro h
  exact hc (Prod.mk.inj h).2.symm

/-! ## What the calls promise -/

/-- After some calls the file is one canonical line for each conference, with the marks that the calls made. -/
structure MarksAfter (f : ConfsFile) (calls : List MarkCall) (g : ConfsFile) : Prop where
  run : runMarks calls f.bytes = some g.bytes
  nums : g.nums = f.nums
  check : ∀ t, ∀ c ∈ f.nums, ∃ r, checkIfRead t c g.bytes = some r ∧ (r = 1 ↔ t ∈ readAfter f calls c)
  absent : ∀ t, ∀ c ∉ f.nums, checkIfRead t c g.bytes = some 0
  marked : ∀ t c, t ∈ g.read c → (MarkCall.read t c).exec g.bytes = some (0, g.bytes)
  unmarked : ∀ t c, t ∉ g.read c → (MarkCall.unread t c).exec g.bytes = some (0, g.bytes)

/-- A call changes the read texts of its conference by its text, and no other line. -/
structure CallRight (k : MarkCall) (g : ConfsFile) (r : Int) (g' : ConfsFile) : Prop where
  exec : k.exec g.bytes = some (r, g'.bytes)
  read : k.conf ∈ g.nums → g'.read k.conf = k.apply (g.read k.conf)
  others : ∀ c, c ≠ k.conf → g'.lookup c = g.lookup c

/-- Every call of a sequence does what it is for. -/
def MarksRight (f : ConfsFile) (calls : List MarkCall) : Prop :=
  (∃ g, MarksAfter f calls g) ∧
    ∀ pre k, pre ++ [k] <+: calls → ∃ g r g', MarksAfter f pre g ∧ CallRight k g r g' ∧
      MarksAfter f (pre ++ [k]) g'

/-- The line of a conference with these read texts fits the buffer of `replace_confs`. -/
def MarksFit (conf : Int) (s : Set Int) : Prop :=
  ∀ il, LineOf s il → (stringifyConfsStruct ⟨conf, il⟩).length < hugeLine

/-- The next call prints no line, or one that fits. -/
def PrintsFit (f : ConfsFile) (pre : List MarkCall) (k : MarkCall) : Prop :=
  k.conf ∈ f.nums → readAfter f (pre ++ [k]) k.conf ≠ readAfter f pre k.conf →
    MarksFit k.conf (readAfter f (pre ++ [k]) k.conf)

/-- There is one line for a set. -/
theorem LineOf.fits_iff {s : Set Int} {il : List IntRange} (h : LineOf s il) (conf : Int) :
    MarksFit conf s ↔ (stringifyConfsStruct ⟨conf, il⟩).length < hugeLine := by
  constructor
  · exact fun hfits => hfits il h
  · intro hlen il' h'
    have hsame : il' = il := by
      apply Canonical.ext h'.marks.1 h.marks.1
      intro n
      rw [← mem_cover, ← mem_cover, h'.cover, h.cover]
    rwa [hsame]

section Runs

variable {f g : ConfsFile} {calls : List MarkCall} {k : MarkCall}

/-- The file after a run, by its read texts. -/
theorem marksAfter_of_read (hrun : runMarks calls f.bytes = some g.bytes) (hnums : g.nums = f.nums)
    (hread : ∀ c ∈ f.nums, g.read c = readAfter f calls c) : MarksAfter f calls g where
  run := hrun
  nums := hnums
  check := by
    intro t c hc
    obtain ⟨r, hr, hone, -⟩ := g.checkIfRead_bytes t c
    exact ⟨r, hr, by rw [hone, hread c hc]⟩
  absent := by
    intro t c hc
    obtain ⟨r, hr, -, hzero⟩ := g.checkIfRead_bytes t c
    rw [hr, hzero.mpr (g.not_mem_read_of_not_mem (hnums ▸ hc) t)]
  marked t c h := (MarkCall.read t c).exec_same fun _ => Set.insert_eq_of_mem h
  unmarked t c h := (MarkCall.unread t c).exec_same fun _ => Set.sdiff_singleton_eq_self h

theorem MarksAfter.read (h : MarksAfter f calls g) {c : Int} (hc : c ∈ f.nums) :
    g.read c = readAfter f calls c := by
  ext t
  obtain ⟨r, hr, hone⟩ := h.check t c hc
  obtain ⟨r', hr', hone', -⟩ := g.checkIfRead_bytes t c
  rw [hr] at hr'
  cases hr'
  exact hone'.symm.trans hone

/-- What the next call changes, in the terms of the file before it. -/
theorem MarksAfter.next (h : MarksAfter f calls g) (hc : k.conf ∈ f.nums) :
    readAfter f (calls ++ [k]) k.conf = k.apply (g.read k.conf) := by
  rw [readAfter_append_self, h.read hc]

/-- A call whose line fits does what it is for. -/
theorem MarksAfter.step (h : MarksAfter f calls g) (ht : 0 ≤ k.text) (hfits : PrintsFit f calls k) :
    ∃ r g', CallRight k g r g' ∧ MarksAfter f (calls ++ [k]) g' := by
  -- it is enough that the call changes its line as it should
  have hright {r : Int} {g' : ConfsFile} (hexec : k.exec g.bytes = some (r, g'.bytes)) (hsame : SameBut k.conf g g')
      (hread : k.conf ∈ g.nums → g'.read k.conf = k.apply (g.read k.conf)) :
      CallRight k g r g' ∧ MarksAfter f (calls ++ [k]) g' := by
    refine ⟨⟨hexec, hread, hsame.lookup⟩, marksAfter_of_read ?_ (hsame.nums.trans h.nums) fun c hc => ?_⟩
    · rw [runMarks_append, h.run, Option.bind_some, hexec]
      rfl
    · by_cases hck : c = k.conf
      · rw [hck] at hc ⊢
        rw [hread (h.nums ▸ hc), h.next hc]
      · rw [hsame.read hck, h.read hc, readAfter_append_ne f calls hck]
  by_cases hchange : k.conf ∈ g.nums ∧ k.apply (g.read k.conf) ≠ g.read k.conf
  · obtain ⟨hc, hne⟩ := hchange
    have hcf : k.conf ∈ f.nums := h.nums ▸ hc
    obtain ⟨il, hline, hexec⟩ := k.exec_new ht hc hne
    have hlen := (hline.fits_iff k.conf).mp (h.next hcf ▸ hfits hcf (by rwa [h.next hcf, ← h.read hcf]))
    rw [if_pos (fitsBuffer_some.mpr hlen)] at hexec
    exact ⟨1, _, hright hexec (sameBut_update g hline.marks) fun _ =>
      (g.read_update hline.marks hc).trans hline.cover⟩
  · rw [not_and, not_not] at hchange
    exact ⟨0, g, hright (k.exec_same hchange) (.refl _ _) fun hc => (hchange hc).symm⟩

/-- A call that does what it is for has printed a line that fits. -/
theorem MarksAfter.fits (h : MarksAfter f calls g) (ht : 0 ≤ k.text) {r : Int} {g' : ConfsFile}
    (hright : CallRight k g r g') : PrintsFit f calls k := by
  intro hc hne
  rw [h.next hc, ← h.read hc] at hne
  rw [h.next hc]
  obtain ⟨il, hline, hexec⟩ := k.exec_new ht (h.nums ▸ hc) hne
  rw [hline.fits_iff]
  by_contra hlen
  rw [hright.exec, if_neg (mt fitsBuffer_some.mp hlen)] at hexec
  cases hexec

/-- Every call of a sequence changes the read texts of its conference by its text and nothing else, so that a text
is read exactly when the last call that named it marked it so, or when none did and it was read at the start:
this is so exactly when every line that is printed fits the buffer of `replace_confs`. -/
theorem marks_follow_last_call_iff (f : ConfsFile) (calls : List MarkCall) (hcalls : ∀ k ∈ calls, 1 ≤ k.text) :
    MarksRight f calls ↔ ∀ pre k, pre ++ [k] <+: calls → PrintsFit f pre k := by
  constructor
  · intro hright pre k hpre
    have ht := hcalls k (hpre.subset (by simp))
    obtain ⟨g, r, g', hg, hstep, -⟩ := hright.2 pre k hpre
    exact hg.fits (by omega) hstep
  · intro hfits
    induction calls using List.reverseRecOn with
    | nil =>
      refine ⟨⟨f, marksAfter_of_read rfl rfl fun c _ => (readAfter_nil f c).symm⟩, fun pre k hpre => ?_⟩
      exact absurd (List.prefix_nil.mp hpre) (by simp)
    | append_singleton calls k ih =>
      have hbefore := List.prefix_append calls [k]
      obtain ⟨⟨g, hg⟩, hsteps⟩ := ih (fun k hk => hcalls k (by simp [hk]))
        fun pre k hpre => hfits pre k (hpre.trans hbefore)
      have ht := hcalls k (by simp)
      obtain ⟨r, g', hstep, hg'⟩ := hg.step (by omega) (hfits calls k (List.prefix_refl _))
      refine ⟨⟨g', hg'⟩, fun pre j hpre => ?_⟩
      rcases List.prefix_concat_iff.mp hpre with heq | hpre
      · obtain ⟨rfl, hjk⟩ := List.append_inj' heq rfl
        cases hjk
        exact ⟨g, r, g', hg, hstep, hg'⟩
      · exact hsteps pre j hpre

end Runs

/-- The mailbox and one conference, with the texts 2 and 4 of it read. -/
def sampleConfs : ConfsFile where
  entries := [⟨0, []⟩, ⟨1, [⟨2, 2⟩, ⟨4, 4⟩]⟩]
  marks := by decide
  distinct := by decide

theorem lineOf_sample : LineOf (readAfter sampleConfs [] 1) [⟨2, 2⟩, ⟨4, 4⟩] := by
  have hone : 1 ∈ sampleConfs.nums := by decide
  obtain ⟨il, hl, hline⟩ := sampleConfs.exists_lineOf hone
  cases hl
  exact hline

theorem marks_follow_last_call_sample : MarksRight sampleConfs [.read 3 1, .unread 2 1] := by
  refine (marks_follow_last_call_iff sampleConfs [.read 3 1, .unread 2 1] (by decide)).mpr ?_
  have hread : LineOf (readAfter sampleConfs [.read 3 1] 1) [⟨2, 4⟩] := by
    refine ⟨by decide, ?_⟩
    have happ : readAfter sampleConfs [.read 3 1] 1 = insert 3 (readAfter sampleConfs [] 1) :=
      readAfter_append_self sampleConfs [] (.read 3 1)
    rw [happ, ← lineOf_sample.cover]
    ext n
    simp
    omega
  have hunread : LineOf (readAfter sampleConfs [.read 3 1, .unread 2 1] 1) [⟨3, 4⟩] := by
    refine ⟨by decide, ?_⟩
    have happ : readAfter sampleConfs [.read 3 1, .unread 2 1] 1 = readAfter sampleConfs [.read 3 1] 1 \ {2} :=
      readAfter_append_self sampleConfs [.read 3 1] (.unread 2 1)
    rw [happ, ← hread.cover]
    ext n
    simp
    omega
  intro pre k hpre
  obtain ⟨rest, hrest⟩ := hpre
  match pre with
  | [] =>
    cases hrest
    exact fun _ _ => (hread.fits_iff 1).mpr (by decide)
  | [_] =>
    cases hrest
    exact fun _ _ => (hunread.fits_iff 1).mpr (by decide)
  | _ :: _ :: _ => simp at hrest

/-! ## A line that is too long -/

def everySecond (a : Int) : Nat → List IntRange
  | 0 => []
  | n + 1 => ⟨a, a⟩ :: everySecond (a + 2) n

theorem le_of_mem_everySecond {a : Int} {n : Nat} {i : IntRange} (h : i ∈ everySecond a n) : a ≤ i.lo := by
  induction n generalizing a with
  | zero => cases h
  | succ n ih =>
    rcases List.mem_cons.mp h with rfl | h
    · exact Int.le_refl _
    · have := ih h
      omega

theorem readMarks_everySecond {a : Int} (ha : 0 ≤ a) (n : Nat) : ReadMarks (everySecond a n) := by
  refine ⟨?_, fun i hi => ha.trans (le_of_mem_everySecond hi)⟩
  induction n generalizing a with
  | zero => exact canonical_nil
  | succ n ih =>
    refine canonical_cons.mpr ⟨le_rfl, fun j hj => ?_, ih (by omega)⟩
    have := le_of_mem_everySecond hj
    show a + 1 < j.lo
    omega

theorem cover_everySecond_succ (a : Int) (n : Nat) :
    cover (everySecond a (n + 1)) = insert (a + 2 * n) (cover (everySecond a n)) := by
  induction n generalizing a with
  | zero =>
    ext m
    simp [everySecond]
    omega
  | succ n ih =>
    ext m
    have hm := Set.ext_iff.mp (ih (a + 2)) m
    rw [mem_cover, Set.mem_insert_iff, mem_cover] at hm
    rw [mem_cover, Set.mem_insert_iff, mem_cover, everySecond, covers_cons, hm]
    rw [everySecond, covers_cons, Nat.cast_succ, show a + 2 + 2 * (n : Int) = a + 2 * (n + 1) by omega]
    tauto

theorem length_everySecond (a : Int) (n : Nat) : (everySecond a n).length = n := by
  induction n generalizing a with
  | zero => rfl
  | succ n ih => rw [everySecond, List.length_cons, ih]

/-- A number with five digits at least is printed with as many. -/
theorem five_le_length_decimal {n : Int} (h : 10000 ≤ n) : 5 ≤ (decimal n).length := by
  obtain ⟨m, rfl⟩ := Int.eq_ofNat_of_zero_le (show 0 ≤ n by omega)
  by_contra hlen
  have hlt := (Nat.length_toDigits_le_iff (b := 10) (n := m) (k := 4) (by decide) (by decide)).mp
    (Nat.lt_succ_iff.mp (not_le.mp hlen))
  omega

theorem le_length_stringify_everySecond {a : Int} (ha : 10000 ≤ a) (n : Nat) :
    12 * n ≤ (stringifyIntList (everySecond a n)).length + 1 := by
  induction n generalizing a with
  | zero => omega
  | succ n ih =>
    have hd := five_le_length_decimal ha
    have hrest := ih (show 10000 ≤ a + 2 by omega)
    rw [everySecond]
    cases n with
    | zero =>
      show 12 ≤ (decimal a ++ '-' :: decimal a).length + 1
      rw [List.length_append, List.length_cons]
      omega
    | succ n =>
      show 12 * (n + 1 + 1) ≤ (decimal a ++ '-' :: (decimal a ++ ',' ::
        stringifyIntList (everySecond (a + 2) (n + 1)))).length + 1
      rw [List.length_append, List.length_cons, List.length_append, List.length_cons]
      omega

/-- The line of the conference has `n` intervals. -/
def fullConfs (n : Nat) : ConfsFile where
  entries := [⟨0, []⟩, ⟨1, everySecond 10000 n⟩]
  marks := by
    intro e he
    rcases List.mem_cons.mp he with rfl | he
    · exact readMarks_everySecond (a := 0) le_rfl 0
    · rw [List.mem_singleton.mp he]
      exact readMarks_everySecond (by decide) n
  distinct := by simp

/-- One interval more, and the line is longer than the buffer. -/
theorem not_printsFit_fullConfs {n : Nat} (hn : 32768 < 12 * (n + 1)) :
    ¬ PrintsFit (fullConfs n) [] (.read (10000 + 2 * n) 1) := by
  have hc : 1 ∈ (fullConfs n).nums := by simp [ConfsFile.nums, fullConfs]
  have hread : (fullConfs n).read 1 = cover (everySecond 10000 n) := by
    ext m
    exact ConfsFile.mem_read _ ((fullConfs n).lookup_of_mem (e := ⟨1, everySecond 10000 n⟩) (by simp [fullConfs]))
  have happ : readAfter (fullConfs n) ([] ++ [.read (10000 + 2 * n) 1]) 1 = cover (everySecond 10000 (n + 1)) := by
    rw [cover_everySecond_succ, ← hread]
    exact readAfter_append_self (fullConfs n) [] (.read (10000 + 2 * n) 1)
  have hline : LineOf (cover (everySecond 10000 (n + 1))) (everySecond 10000 (n + 1)) :=
    ⟨readMarks_everySecond (by decide) (n + 1), rfl⟩
  intro hfits
  have hne : cover (everySecond 10000 (n + 1)) ≠ cover (everySecond 10000 n) := by
    intro heq
    -- the line would have as many intervals as before
    have hsame := Canonical.ext (readMarks_everySecond (a := 10000) (by decide) (n + 1)).1
      (readMarks_everySecond (by decide) n).1 fun m => Set.ext_iff.mp heq m
    have hlen := congrArg List.length hsame
    rw [length_everySecond, length_everySecond] at hlen
    omega
  have hlen := hfits hc (by
    show readAfter (fullConfs n) ([] ++ [.read (10000 + 2 * n) 1]) 1 ≠ readAfter (fullConfs n) [] 1
    rw [happ, readAfter_nil, hread]
    exact hne)
  have hlen := (hline.fits_iff 1).mp (happ ▸ hlen)
  have hlong := le_length_stringify_everySecond (a := 10000) le_rfl (n + 1)
  unfold stringifyConfsStruct hugeLine at hlen
  rw [List.length_append, List.length_cons, List.length_append] at hlen
  simp only [List.length_singleton] at hlen
  omega

/-- The line has room for 2730 intervals of these numbers, and not for another one. -/
theorem long_line_leaves_buffer : ¬ MarksRight (fullConfs 2730) [.read 15460 1] := by
  intro hright
  obtain ⟨g, r, g', hg, hstep, -⟩ := hright.2 [] (.read 15460 1) (List.prefix_refl _)
  exact not_printsFit_fullConfs (n := 2730) (by decide) (hg.fits (by decide) hstep)

end SklaffKom
