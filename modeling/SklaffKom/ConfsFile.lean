import SklaffKom.Lib.CString
import SklaffKom.Lib.IntervalList

/-!
# The user's conference file

`confs` holds one line `num:from-to,from-to,...` for each conference the user subscribes to: the
numbers of the texts already read.  The size of the buffer in which `replace_confs` prints a line is a parameter;
other buffers on the C stack and heap are taken to be large enough.
-/

open CString IntervalList

namespace SklaffKom

/-- `struct CONFS_ENTRY`.  A node of `INT_LIST` is an interval, `from` its `lo` and `to` its
`hi`. -/
structure ConfsEntry where
  num : Int
  il : List IntRange
deriving DecidableEq, Repr

/-- What a call of `get_confs_entry` does: read through `NULL`, return `NULL` without an entry, or
fill in `*ce` and return the next position (`NULL` when the line has no end). -/
inductive ConfsScan where
  | crash
  | null
  | entry (ce : ConfsEntry) (next : Option CString)
deriving DecidableEq

/-- The interval loop of `get_confs_entry`, from the position after the colon. -/
def getIntList : Nat → CString → Option (List IntRange)
  | 0, _ => none
  | fuel + 1, buf =>
    if buf.head? = some '\n' then some []
    else do
      let t1 ← strchr buf '-'
      -- `*t1 = ' '` while the two numbers are read
      let i : IntRange :=
        { lo := atol (buf.take (buf.length - t1.length) ++ ' ' :: t1.tail)
          hi := atol (' ' :: t1.tail) }
      match strchr buf '\n', strchr buf ',' with
      | some nl, some t2 =>
        if nl.length < t2.length then do
          let il ← getIntList fuel t2.tail
          pure (i :: il)
        else pure [i]
      | _, _ => pure [i]

def getConfsEntry (buf : CString) : ConfsScan :=
  match strchr buf ':' with
  | none => .null
  | some colon =>
    let p := backWhile buf (· != '\n') (buf.length - colon.length)
    let line := buf.drop (if p ≠ 0 then p + 1 else p)
    match strchr line ':' with
    | none => .crash
    | some t =>
      match getIntList t.length t.tail with
      | none => .crash
      | some il => .entry { num := atol line, il := il } ((strchr line '\n').map List.tail)

/-- `while (buf) { buf = get_confs_entry(buf, &cse); if (cse.num == conf) break; ... }`.  The loop
runs at most once for each line. -/
def findConfsEntry (conf : Int) : Nat → CString → ConfsScan
  | 0, _ => .null
  | fuel + 1, buf =>
    match getConfsEntry buf with
    | .crash => .crash
    | .null => .null
    | .entry ce next =>
      if ce.num = conf then .entry ce next
      else match next with
        | none => .null
        | some buf' => findConfsEntry conf fuel buf'

/-- The entry of `conf` in a whole file. -/
def confsEntry (conf : Int) (buf : CString) : ConfsScan :=
  findConfsEntry conf (buf.length + 1) buf

/-- The intervals as `stringify_confs_struct` prints them. -/
def stringifyIntList : List IntRange → CString
  | [] => []
  | [i] => decimal i.lo ++ '-' :: decimal i.hi
  | i :: j :: il => decimal i.lo ++ '-' :: (decimal i.hi ++ ',' :: stringifyIntList (j :: il))

def stringifyConfsStruct (cse : ConfsEntry) : CString :=
  decimal cse.num ++ ':' :: (stringifyIntList cse.il ++ ['\n'])

/-- Put `line` in place of the line that ends just before `next`: the splice of `replace_confs`,
`next_text` and `more_conf`. -/
def replaceLine (obuf next line : CString) : CString :=
  obuf.take (lineStart obuf (obuf.length - next.length)) ++ line ++ next

/-- The size of a `HUGE_LINE`. -/
def hugeLine : Nat := 32768

/-- A line and its terminator fit a buffer; `none` for its size is a buffer that takes every line. -/
def fitsBuffer (size : Option Nat) (line : CString) : Bool := size.all (line.length < ·)

theorem fitsBuffer_some {size : Nat} {line : CString} :
    fitsBuffer (some size) line = true ↔ line.length < size := by
  simp [fitsBuffer]

/-- `replace_confs`.  The line is printed into `tmpbuf` without a look at its size, `hugeLine`. -/
def replaceConfs (tmpbuf : Option Nat) (cse : ConfsEntry) (buf : CString) : Option CString :=
  match confsEntry cse.num buf with
  | .crash => none
  | .null => some []
  | .entry _ none => none
  | .entry _ (some next) =>
    if fitsBuffer tmpbuf (stringifyConfsStruct cse) then some (replaceLine buf next (stringifyConfsStruct cse))
    -- `tmpbuf` is left
    else none

/-! ## Lines that the program wrote -/

/-- The intervals of one conference: canonical, so that no number needs a sign. -/
def ReadMarks (il : List IntRange) : Prop := Canonical il ∧ ∀ i ∈ il, 0 ≤ i.lo

instance (il : List IntRange) : Decidable (ReadMarks il) := inferInstanceAs (Decidable (_ ∧ _))

theorem ReadMarks.tail {i : IntRange} {il : List IntRange} (h : ReadMarks (i :: il)) :
    ReadMarks il :=
  ⟨(canonical_cons.mp h.1).2.2, fun j hj => h.2 j (List.mem_cons_of_mem _ hj)⟩

theorem ReadMarks.nonneg {il : List IntRange} (h : ReadMarks il) {i : IntRange} (hi : i ∈ il) :
    0 ≤ i.lo ∧ 0 ≤ i.hi := by
  have h1 := h.2 i hi
  have h2 := h.1.lo_le_hi hi
  omega

theorem stringifyIntList_cons (i : IntRange) (il : List IntRange) :
    ∃ t, stringifyIntList (i :: il) = decimal i.lo ++ '-' :: (decimal i.hi ++ t) ∧
      (il = [] ∧ t = [] ∨ il ≠ [] ∧ t = ',' :: stringifyIntList il) := by
  cases il with
  | nil => exact ⟨[], by simp [stringifyIntList], Or.inl ⟨rfl, rfl⟩⟩
  | cons j il => exact ⟨_, by rw [stringifyIntList], Or.inr ⟨by simp, rfl⟩⟩

/-- A printed list holds digits, signs and commas only. -/
theorem notMem_stringifyIntList {il : List IntRange} {c : Char} (hd : c.isDigit = false)
    (hm : c ≠ '-') (hc : c ≠ ',') : c ∉ stringifyIntList il := by
  induction il with
  | nil => simp [stringifyIntList]
  | cons i il ih =>
    obtain ⟨t, ht, hil⟩ := stringifyIntList_cons i il
    have htc : c ∉ t := by
      rcases hil with ⟨-, rfl⟩ | ⟨-, rfl⟩
      · simp
      · simp [hc, ih]
    simp [ht, hm, htc, notMem_decimal (n := i.lo) hd hm, notMem_decimal (n := i.hi) hd hm]

/-- The interval loop reads back the list that was printed. -/
theorem getIntList_stringify {il : List IntRange} (h : ReadMarks il) (rest : CString) (fuel : Nat)
    (hf : il.length < fuel) :
    getIntList fuel (stringifyIntList il ++ '\n' :: rest) = some il := by
  induction il generalizing fuel with
  | nil =>
    obtain ⟨fuel, rfl⟩ : ∃ k, fuel = k + 1 := ⟨fuel - 1, by simp at hf; omega⟩
    simp [getIntList, stringifyIntList]
  | cons i il ih =>
    obtain ⟨fuel, rfl⟩ : ∃ k, fuel = k + 1 := ⟨fuel - 1, by simp at hf; omega⟩
    obtain ⟨t, ht, hil⟩ := stringifyIntList_cons i il
    obtain ⟨hlo, hhi⟩ := h.nonneg List.mem_cons_self
    have hnd : NoDigit (t ++ '\n' :: rest) := by
      rcases hil with ⟨-, rfl⟩ | ⟨-, rfl⟩ <;> exact noDigit_cons.mpr rfl
    set buf := stringifyIntList (i :: il) ++ '\n' :: rest with hbuf
    have hb : buf = decimal i.lo ++ '-' :: (decimal i.hi ++ (t ++ '\n' :: rest)) := by
      simp [hbuf, ht]
    have hhead : buf.head? ≠ some '\n' := by
      obtain ⟨d, ds, hd⟩ := List.exists_cons_of_ne_nil (decimal_ne_nil i.lo)
      have hdig := mem_decimal_of_nonneg hlo (c := d) (by simp [hd])
      rw [hb, hd]
      intro he
      rw [Option.some.inj he] at hdig
      cases hdig
    have hdash : strchr buf '-' = some ('-' :: (decimal i.hi ++ (t ++ '\n' :: rest))) := by
      rw [hb]
      exact strchr_append (notMem_decimal_of_nonneg hlo rfl)
    have htake : buf.take (buf.length - ('-' :: (decimal i.hi ++ (t ++ '\n' :: rest))).length) =
        decimal i.lo := by
      rw [hb, take_before]
    have hfrom : atol (decimal i.lo ++ ' ' :: (decimal i.hi ++ (t ++ '\n' :: rest))) = i.lo :=
      atol_decimal _ (noDigit_cons.mpr rfl)
    have hto : atol (' ' :: (decimal i.hi ++ (t ++ '\n' :: rest))) = i.hi := by
      rw [atol_blank rfl, atol_decimal _ hnd]
    have hnl : strchr buf '\n' = some ('\n' :: rest) :=
      strchr_append (notMem_stringifyIntList rfl (by decide) (by decide))
    have hcomma : strchr buf ',' = strchr (t ++ '\n' :: rest) ',' := by
      rw [hb, strchr_append_of_notMem (notMem_decimal_of_nonneg hlo rfl),
        show '-' :: (decimal i.hi ++ (t ++ '\n' :: rest)) =
          ['-'] ++ (decimal i.hi ++ (t ++ '\n' :: rest)) from rfl,
        strchr_append_of_notMem (by decide), strchr_append_of_notMem
          (notMem_decimal_of_nonneg hhi rfl)]
    rw [getIntList, if_neg hhead, hdash]
    simp only [Option.bind_eq_bind, Option.bind_some, htake, List.tail_cons, hfrom, hto, hnl,
      hcomma]
    rcases hil with ⟨rfl, rfl⟩ | ⟨-, rfl⟩
    · -- the last interval: a comma can only stand on a later line
      cases hc : strchr ([] ++ '\n' :: rest) ',' with
      | none => rfl
      | some t2 =>
        have hlen := (strchr_suffix hc).length_le
        simp only [List.nil_append, List.length_cons] at hlen
        dsimp only
        rw [if_neg (by simp only [List.length_cons]; omega)]
        rfl
    · rw [List.cons_append, strchr_cons_self]
      have hrec := ih h.tail fuel (by simp at hf; omega)
      dsimp only
      rw [if_pos (by simp only [List.length_cons, List.length_append]; omega), List.tail_cons,
        hrec]
      rfl

theorem length_lt_stringifyIntList (il : List IntRange) :
    il.length ≤ (stringifyIntList il).length := by
  induction il with
  | nil => simp
  | cons i il ih =>
    obtain ⟨t, ht, hil⟩ := stringifyIntList_cons i il
    rw [ht]
    rcases hil with ⟨rfl, rfl⟩ | ⟨-, rfl⟩ <;> simp <;> omega

/-- The part of a printed entry before the line end. -/
theorem stringifyConfsStruct_line (e : ConfsEntry) :
    ∃ l, stringifyConfsStruct e = l ++ ['\n'] ∧ l ≠ [] ∧ '\n' ∉ l := by
  refine ⟨decimal e.num ++ ':' :: stringifyIntList e.il, by simp [stringifyConfsStruct],
    by simp, ?_⟩
  have h1 := notMem_decimal (n := e.num) (c := '\n') rfl (by decide)
  have h2 : '\n' ∉ stringifyIntList e.il := notMem_stringifyIntList rfl (by decide) (by decide)
  simp [h1, h2]

/-- `get_confs_entry` reads back the entry at the head of the buffer. -/
theorem getConfsEntry_stringify {e : ConfsEntry} (h : ReadMarks e.il) (rest : CString) :
    getConfsEntry (stringifyConfsStruct e ++ rest) = .entry e (some rest) := by
  set body := stringifyIntList e.il ++ '\n' :: rest with hbody
  have hb : stringifyConfsStruct e ++ rest = decimal e.num ++ ':' :: body := by
    simp [stringifyConfsStruct, hbody]
  have hcolon : strchr (decimal e.num ++ ':' :: body) ':' = some (':' :: body) :=
    strchr_append (notMem_decimal rfl (by decide))
  have hnoNl : ∀ x ∈ decimal e.num ++ [':'], (x != '\n') = true := by
    intro x hx
    have : '\n' ∉ decimal e.num ++ [':'] := by
      simp [notMem_decimal (n := e.num) (c := '\n') rfl (by decide)]
    have hne : x ≠ '\n' := fun he => this (he ▸ hx)
    simpa using hne
  -- the walk back from the colon reaches the start of the buffer
  have hback : backWhile (decimal e.num ++ ':' :: body) (· != '\n')
      ((decimal e.num ++ ':' :: body).length - (':' :: body).length) = 0 := by
    rw [List.length_append, Nat.add_sub_cancel]
    have := backWhile_append (a := []) (b := decimal e.num ++ [':']) (c := body) hnoNl
      (decimal e.num).length (by simp) (by simp)
    simpa [backWhile] using this
  have hnl : strchr (decimal e.num ++ ':' :: body) '\n' = some ('\n' :: rest) := by
    rw [hbody, ← List.cons_append, ← List.append_assoc]
    apply strchr_append
    have h1 := notMem_decimal (n := e.num) (c := '\n') rfl (by decide)
    have h2 : '\n' ∉ stringifyIntList e.il := notMem_stringifyIntList rfl (by decide) (by decide)
    simp [h1, h2]
  have hil : getIntList (':' :: body).length body = some e.il := by
    apply getIntList_stringify h
    have := length_lt_stringifyIntList e.il
    simp [hbody]
    omega
  have hnum : atol (decimal e.num ++ ':' :: body) = e.num := atol_decimal _ (noDigit_cons.mpr rfl)
  rw [hb, getConfsEntry]
  simp only [hcolon, hback, ne_eq, not_true_eq_false, if_false, List.drop_zero, List.tail_cons,
    hil, hnum, hnl, Option.map_some]

/-! ## Whole files -/

def confsBytes (es : List ConfsEntry) : CString := es.flatMap stringifyConfsStruct

@[simp] theorem confsBytes_nil : confsBytes [] = [] := rfl

@[simp] theorem confsBytes_cons (e : ConfsEntry) (es : List ConfsEntry) :
    confsBytes (e :: es) = stringifyConfsStruct e ++ confsBytes es := by
  simp [confsBytes]

@[simp] theorem confsBytes_append (as bs : List ConfsEntry) :
    confsBytes (as ++ bs) = confsBytes as ++ confsBytes bs := by
  simp [confsBytes]

theorem endsLine_confsBytes (es : List ConfsEntry) : EndsLine (confsBytes es) := by
  induction es with
  | nil => exact Or.inl rfl
  | cons e es ih =>
    obtain ⟨l, hl, hne, -⟩ := stringifyConfsStruct_line e
    rw [confsBytes_cons, hl]
    exact (EndsLine.line hne).append ih

theorem length_le_confsBytes (es : List ConfsEntry) : es.length ≤ (confsBytes es).length := by
  induction es with
  | nil => simp
  | cons e es ih =>
    obtain ⟨l, hl, -, -⟩ := stringifyConfsStruct_line e
    simp only [confsBytes_cons, hl, List.length_append, List.length_cons, List.length_nil]
    omega

theorem getConfsEntry_nil : getConfsEntry [] = .null := rfl

/-- Two files of well-formed lines with the same bytes have the same lines. -/
theorem confsBytes_injective {as bs : List ConfsEntry} (has : ∀ a ∈ as, ReadMarks a.il)
    (hbs : ∀ b ∈ bs, ReadMarks b.il) (h : confsBytes as = confsBytes bs) : as = bs := by
  have hscan : ∀ (e : ConfsEntry) (es : List ConfsEntry), ReadMarks e.il →
      getConfsEntry (confsBytes (e :: es)) = .entry e (some (confsBytes es)) := by
    intro e es he
    rw [confsBytes_cons]
    exact getConfsEntry_stringify he _
  induction as generalizing bs with
  | nil =>
    cases bs with
    | nil => rfl
    | cons b bs =>
      have hb := hscan b bs (hbs b List.mem_cons_self)
      rw [← h, confsBytes_nil, getConfsEntry_nil] at hb
      cases hb
  | cons a as ih =>
    have ha := hscan a as (has a List.mem_cons_self)
    cases bs with
    | nil =>
      rw [h, confsBytes_nil, getConfsEntry_nil] at ha
      cases ha
    | cons b bs =>
      rw [h, hscan b bs (hbs b List.mem_cons_self)] at ha
      injection ha with h1 h2
      rw [h1, ih (fun x hx => has x (List.mem_cons_of_mem _ hx))
        (fun x hx => hbs x (List.mem_cons_of_mem _ hx)) (Option.some.inj h2).symm]

/-- The search stops at the entry of the conference, with the position after its line. -/
theorem findConfsEntry_append {as bs : List ConfsEntry} {e : ConfsEntry} {conf : Int}
    (has : ∀ a ∈ as, ReadMarks a.il ∧ a.num ≠ conf) (he : ReadMarks e.il) (hnum : e.num = conf)
    (fuel : Nat) (hf : as.length < fuel) :
    findConfsEntry conf fuel (confsBytes (as ++ e :: bs)) = .entry e (some (confsBytes bs)) := by
  induction as generalizing fuel with
  | nil =>
    obtain ⟨fuel, rfl⟩ : ∃ k, fuel = k + 1 := ⟨fuel - 1, by simp at hf; omega⟩
    rw [List.nil_append, confsBytes_cons, findConfsEntry, getConfsEntry_stringify he]
    simp [hnum]
  | cons a as ih =>
    obtain ⟨fuel, rfl⟩ : ∃ k, fuel = k + 1 := ⟨fuel - 1, by simp at hf; omega⟩
    have ha := has a List.mem_cons_self
    rw [List.cons_append, confsBytes_cons, findConfsEntry, getConfsEntry_stringify ha.1]
    simp only [if_neg ha.2]
    exact ih (fun b hb => has b (List.mem_cons_of_mem _ hb)) fuel (by simp at hf; omega)

/-- Without a line for the conference the search ends at the end of the file. -/
theorem findConfsEntry_none {es : List ConfsEntry} {conf : Int}
    (hes : ∀ a ∈ es, ReadMarks a.il ∧ a.num ≠ conf) (fuel : Nat) :
    findConfsEntry conf fuel (confsBytes es) = .null := by
  induction es generalizing fuel with
  | nil => cases fuel <;> rfl
  | cons a es ih =>
    cases fuel with
    | zero => rfl
    | succ fuel =>
      have ha := hes a List.mem_cons_self
      rw [confsBytes_cons, findConfsEntry, getConfsEntry_stringify ha.1]
      simp only [if_neg ha.2]
      exact ih (fun b hb => hes b (List.mem_cons_of_mem _ hb)) fuel

/-- The walk back from the position after a line finds where the line begins. -/
theorem lineStart_confsBytes (as bs : List ConfsEntry) (e : ConfsEntry) :
    lineStart (confsBytes (as ++ e :: bs))
      ((confsBytes (as ++ e :: bs)).length - (confsBytes bs).length) = (confsBytes as).length := by
  obtain ⟨l, hl, hne, hnl⟩ := stringifyConfsStruct_line e
  have hb : confsBytes (as ++ e :: bs) = confsBytes as ++ l ++ '\n' :: confsBytes bs := by
    simp [hl]
  have hlen : (confsBytes (as ++ e :: bs)).length - (confsBytes bs).length =
      (confsBytes as).length + l.length + 1 := by
    simp only [hb, List.length_append, List.length_cons]
    omega
  rw [hlen, hb, lineStart_append (endsLine_confsBytes as) hne hnl]

/-- Replacing the line before `confsBytes bs` by the line of another entry. -/
theorem replaceLine_confsBytes (as bs : List ConfsEntry) (e : ConfsEntry) (line : CString) :
    replaceLine (confsBytes (as ++ e :: bs)) (confsBytes bs) line =
      confsBytes as ++ line ++ confsBytes bs := by
  rw [replaceLine, lineStart_confsBytes, confsBytes_append, List.take_left' rfl]

/-- A file with one well-formed line for each conference.  Every value of this type is such a
file: the program's operations on it carry the two conditions along. -/
@[ext] structure ConfsFile where
  entries : List ConfsEntry
  marks : ∀ e ∈ entries, ReadMarks e.il
  distinct : (entries.map (·.num)).Nodup

namespace ConfsFile

def bytes (f : ConfsFile) : CString := confsBytes f.entries

theorem bytes_injective {f g : ConfsFile} (h : f.bytes = g.bytes) : f = g :=
  ConfsFile.ext (confsBytes_injective f.marks g.marks h)

def nums (f : ConfsFile) : List Int := f.entries.map (·.num)

/-- The intervals of a conference, `none` when the user does not subscribe to it. -/
def lookup (f : ConfsFile) (conf : Int) : Option (List IntRange) :=
  (f.entries.find? (·.num = conf)).map (·.il)

/-- The numbers the file marks as read. -/
def read (f : ConfsFile) (conf : Int) : Set Int :=
  {n | ∃ il, f.lookup conf = some il ∧ Covers il n}

/-- The file with other intervals for one conference. -/
def update (f : ConfsFile) (conf : Int) (il : List IntRange) (h : ReadMarks il) : ConfsFile where
  entries := f.entries.map fun e => if e.num = conf then { e with il := il } else e
  marks := by
    intro e he
    obtain ⟨a, ha, rfl⟩ := List.mem_map.mp he
    split
    · exact h
    · exact f.marks a ha
  distinct := by
    have hm : (f.entries.map fun e => if e.num = conf then { e with il := il } else e).map
        (·.num) = f.entries.map (·.num) := by
      rw [List.map_map]
      apply List.map_congr_left
      intro e _
      simp only [Function.comp]
      split <;> rfl
    rw [hm]
    exact f.distinct

/-- The line of a subscribed conference, and the lines around it. -/
theorem exists_split (f : ConfsFile) {conf : Int} {il : List IntRange}
    (h : f.lookup conf = some il) :
    ∃ as bs, f.entries = as ++ ⟨conf, il⟩ :: bs ∧ (∀ a ∈ as, a.num ≠ conf) ∧
      ∀ b ∈ bs, b.num ≠ conf := by
  simp only [lookup, Option.map_eq_some_iff] at h
  obtain ⟨e, he, rfl⟩ := h
  obtain ⟨hnum, as, bs, hsplit, has⟩ := List.find?_eq_some_iff_append.mp he
  have hnum : e.num = conf := by simpa using hnum
  refine ⟨as, bs, ?_, ?_, ?_⟩
  · rw [hsplit, ← hnum]
  · intro a ha
    simpa using has a ha
  · intro b hb hbn
    have hd := f.distinct
    rw [hsplit, List.map_append, List.map_cons, List.nodup_append] at hd
    have := (List.nodup_cons.mp hd.2.1).1
    exact this (List.mem_map.mpr ⟨b, hb, hbn.trans hnum.symm⟩)

theorem lookup_of_mem (f : ConfsFile) {e : ConfsEntry} (he : e ∈ f.entries) :
    f.lookup e.num = some e.il := by
  cases hl : f.lookup e.num with
  | none =>
    simp only [lookup, Option.map_eq_none_iff, List.find?_eq_none, decide_eq_true_eq] at hl
    exact absurd rfl (hl e he)
  | some il =>
    obtain ⟨as, bs, hs, has, hbs⟩ := f.exists_split hl
    rw [hs, List.mem_append, List.mem_cons] at he
    rcases he with he | he | he
    · exact absurd rfl (has e he)
    · rw [he]
    · exact absurd rfl (hbs e he)

/-- The lines are determined by the conference numbers and their intervals. -/
theorem entries_eq (f : ConfsFile) :
    f.entries = f.nums.map fun c => ⟨c, (f.lookup c).getD []⟩ := by
  rw [nums, List.map_map]
  conv_lhs => rw [← List.map_id f.entries]
  apply List.map_congr_left
  intro e he
  simp only [Function.comp, f.lookup_of_mem he, Option.getD_some, id]

theorem lookup_eq_none (f : ConfsFile) {conf : Int} :
    f.lookup conf = none ↔ ∀ e ∈ f.entries, e.num ≠ conf := by
  simp [lookup]

theorem lookup_isSome (f : ConfsFile) {conf : Int} :
    (f.lookup conf).isSome ↔ conf ∈ f.nums := by
  simp only [lookup, Option.isSome_map, List.find?_isSome, nums, List.mem_map,
    decide_eq_true_eq]

theorem mem_read (f : ConfsFile) {conf n : Int} {il : List IntRange}
    (h : f.lookup conf = some il) : n ∈ f.read conf ↔ Covers il n := by
  simp [read, h]

theorem read_pos (f : ConfsFile) (h : ∀ e ∈ f.entries, ∀ i ∈ e.il, 1 ≤ i.lo) (conf : Int) :
    ∀ n ∈ f.read conf, 1 ≤ n := by
  rintro n ⟨il, hl, i, hi, hlo, -⟩
  obtain ⟨as, bs, hs, -, -⟩ := f.exists_split hl
  have := h ⟨conf, il⟩ (by rw [hs]; simp) i hi
  omega

theorem readMarks_of_lookup (f : ConfsFile) {conf : Int} {il : List IntRange}
    (h : f.lookup conf = some il) : ReadMarks il := by
  obtain ⟨as, bs, hs, -, -⟩ := f.exists_split h
  exact f.marks ⟨conf, il⟩ (by rw [hs]; simp)

/-- No other line has the number of a line. -/
theorem num_ne_of_split (f : ConfsFile) {as bs : List ConfsEntry} {e : ConfsEntry}
    (hs : f.entries = as ++ e :: bs) :
    (∀ a ∈ as, a.num ≠ e.num) ∧ ∀ b ∈ bs, b.num ≠ e.num := by
  have hd := f.distinct
  rw [hs, List.map_append, List.map_cons, List.nodup_append] at hd
  constructor
  · intro a ha
    exact hd.2.2 a.num (List.mem_map_of_mem ha) e.num (by simp)
  · intro b hb hbn
    exact (List.nodup_cons.mp hd.2.1).1 (List.mem_map.mpr ⟨b, hb, hbn⟩)

/-- What a search for the conference of a line finds in the bytes of the file. -/
theorem confsEntry_of_split (f : ConfsFile) {as bs : List ConfsEntry} {e : ConfsEntry}
    (hs : f.entries = as ++ e :: bs) :
    confsEntry e.num f.bytes = .entry e (some (confsBytes bs)) := by
  have hlen := length_le_confsBytes f.entries
  have hmarks : ∀ a ∈ as, ReadMarks a.il ∧ a.num ≠ e.num := by
    intro a ha
    exact ⟨f.marks a (by rw [hs]; simp [ha]), (f.num_ne_of_split hs).1 a ha⟩
  rw [confsEntry, bytes, hs]
  rw [hs, List.length_append] at hlen
  exact findConfsEntry_append hmarks (f.marks e (by rw [hs]; simp)) rfl _ (by omega)

/-- What a search for a conference finds in the bytes of the file. -/
theorem confsEntry_bytes (f : ConfsFile) {conf : Int} {il : List IntRange}
    (h : f.lookup conf = some il) :
    ∃ as bs, f.entries = as ++ ⟨conf, il⟩ :: bs ∧ (∀ a ∈ as, a.num ≠ conf) ∧
      (∀ b ∈ bs, b.num ≠ conf) ∧
      confsEntry conf f.bytes = .entry ⟨conf, il⟩ (some (confsBytes bs)) := by
  obtain ⟨as, bs, hs, has, hbs⟩ := f.exists_split h
  exact ⟨as, bs, hs, has, hbs, f.confsEntry_of_split hs⟩

theorem confsEntry_bytes_none (f : ConfsFile) {conf : Int} (h : f.lookup conf = none) :
    confsEntry conf f.bytes = .null :=
  findConfsEntry_none (fun a ha => ⟨f.marks a ha, f.lookup_eq_none.mp h a ha⟩) _

@[simp] theorem nums_update (f : ConfsFile) (conf : Int) {il : List IntRange} (h : ReadMarks il) :
    (f.update conf il h).nums = f.nums := by
  simp only [nums, update, List.map_map]
  apply List.map_congr_left
  intro e _
  simp only [Function.comp]
  split <;> rfl

theorem entries_update (f : ConfsFile) {conf : Int} {il old : List IntRange} (h : ReadMarks il)
    {as bs : List ConfsEntry} (hs : f.entries = as ++ ⟨conf, old⟩ :: bs)
    (has : ∀ a ∈ as, a.num ≠ conf) (hbs : ∀ b ∈ bs, b.num ≠ conf) :
    (f.update conf il h).entries = as ++ ⟨conf, il⟩ :: bs := by
  have hmap : ∀ es : List ConfsEntry, (∀ a ∈ es, a.num ≠ conf) →
      es.map (fun e => if e.num = conf then { e with il := il } else e) = es := by
    intro es hes
    conv_rhs => rw [← List.map_id es]
    apply List.map_congr_left
    intro a ha
    simp [hes a ha]
  simp only [update, hs, List.map_append, List.map_cons, hmap as has, hmap bs hbs, if_true]

theorem lookup_update_self (f : ConfsFile) {conf : Int} {il : List IntRange} (h : ReadMarks il)
    (hc : (f.lookup conf).isSome) : (f.update conf il h).lookup conf = some il := by
  obtain ⟨old, hold⟩ := Option.isSome_iff_exists.mp hc
  obtain ⟨as, bs, hs, has, hbs⟩ := f.exists_split hold
  have hfind : as.find? (·.num = conf) = none := by simpa using has
  rw [lookup, f.entries_update h hs has hbs, List.find?_append, hfind]
  simp

theorem lookup_update_ne (f : ConfsFile) {conf c : Int} {il : List IntRange} (h : ReadMarks il)
    (hc : c ≠ conf) : (f.update conf il h).lookup c = f.lookup c := by
  simp only [lookup, update, List.find?_map, Option.map_map]
  have hp : ((fun e : ConfsEntry => decide (e.num = c)) ∘
      fun e => if e.num = conf then { e with il := il } else e) =
      fun e => decide (e.num = c) := by
    funext e
    simp only [Function.comp]
    split <;> rfl
  rw [hp]
  cases hf : f.entries.find? (fun e => decide (e.num = c)) with
  | none => rfl
  | some e =>
    have he : e.num = c := by simpa using List.find?_some hf
    simp [Function.comp, he, hc]

/-- `replace_confs` writes the file with the new intervals, when the line fits. -/
theorem replaceConfs_eq (f : ConfsFile) {conf : Int} {il : List IntRange} (h : ReadMarks il)
    (hc : (f.lookup conf).isSome) (tmpbuf : Option Nat) :
    replaceConfs tmpbuf ⟨conf, il⟩ f.bytes =
      if fitsBuffer tmpbuf (stringifyConfsStruct ⟨conf, il⟩) then some (f.update conf il h).bytes else none := by
  obtain ⟨old, hold⟩ := Option.isSome_iff_exists.mp hc
  obtain ⟨as, bs, hs, has, hbs, hfind⟩ := f.confsEntry_bytes hold
  have hreplace : replaceLine f.bytes (confsBytes bs) (stringifyConfsStruct ⟨conf, il⟩) =
      (f.update conf il h).bytes := by
    simp only [bytes, f.entries_update h hs has hbs]
    rw [hs, replaceLine_confsBytes]
    simp
  simp only [replaceConfs, hfind, hreplace]

theorem replaceConfs_bytes (f : ConfsFile) {conf : Int} {il : List IntRange} (h : ReadMarks il)
    (hc : (f.lookup conf).isSome) :
    replaceConfs none ⟨conf, il⟩ f.bytes = some (f.update conf il h).bytes :=
  f.replaceConfs_eq h hc none

end ConfsFile

end SklaffKom
