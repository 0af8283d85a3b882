import SklaffKom.ConfFile
import SklaffKom.MarkText
import SklaffKom.Lib.GapScan

/-!
# The next unread text

`next_text` walks over the unread numbers of a conference until one of them has a text file.
Numbers without a file are marked as read one by one, except that the first time the walk stands
right after the only interval it may set the line to `1-(first - 1)`, with `first` from
`first_text`.  `more_conf` does the same for each conference of the user.
-/

open CString IntervalList

namespace SklaffKom

/-- The files beside the user's own conference file. -/
structure Disk where
  mailbox : CString
  conffile : CString
  /-- `file_exists` of `SKLAFF_DB/conf/text`, and of the user's mail for conference 0. -/
  fileExists : Int → Int → Bool

/-- The numbers of a conference that have a text file. -/
def Disk.texts (d : Disk) (conf n : Int) : Prop := d.fileExists conf n = true

/-- The loop of `first_text`, `last - first` falling. -/
def firstTextLoop (fileExists : Int → Bool) : Nat → Int → Int → Int → Int
  | 0, _, _, ptr => ptr
  | fuel + 1, first, last, ptr =>
    if last > first then
      let ptr := (first + last) / 2
      if fileExists ptr then firstTextLoop fileExists fuel first ptr ptr
      else if fileExists (ptr - 1) then firstTextLoop fileExists fuel first (ptr - 1) (ptr - 1)
      else if fileExists (ptr - 2) then firstTextLoop fileExists fuel first (ptr - 2) (ptr - 2)
      else if fileExists (ptr - 3) then firstTextLoop fileExists fuel first (ptr - 3) (ptr - 3)
      else firstTextLoop fileExists fuel (ptr + 1) last (ptr + 1)
    else ptr

def firstText (d : Disk) (conf : Int) : Option Int :=
  (lastText d.mailbox d.conffile conf).map fun last =>
    firstTextLoop (d.fileExists conf) last.toNat 1 last 1

/-- The least unread number of a conference, and `high`: that number again when nothing above it is
read, else 0. -/
def firstUnread : List IntRange → Int × Int
  | [] => (1, 1)
  | i :: il => if i.lo > 1 then (1, 0) else (i.hi + 1, if il = [] then i.hi + 1 else 0)

/-- The least unread number up to `last`, 0 without one. -/
def unreadText (il : List IntRange) (last : Int) : Int :=
  if (firstUnread il).1 > last then 0 else (firstUnread il).1

/-- `flag` and `first`: whether `first_text` was called, and what it returned. -/
structure GapState where
  flag : Bool
  first : Int
deriving DecidableEq, Repr

/-- The estimate in force, `first` being what `first_text` would return. -/
def GapState.est (g : GapState) (first : Int) : Int := if g.flag then g.first else first

/-- `if (!flag && high) { flag = 1; first = first_text(conf, Uid); }` -/
def takeEstimate (d : Disk) (conf high : Int) (g : GapState) : Option GapState :=
  if g.flag = false ∧ high ≠ 0 then (firstText d conf).map (GapState.mk true) else some g

/-- `"%d:1-%ld\n"` of the conference and `first - 1` -/
def jumpLine (conf first : Int) : CString :=
  decimal conf ++ ":1-".toList ++ decimal (first - 1) ++ ['\n']

/-- What is done about a number without a text file.  `next` is the position after the line of the
conference. -/
def skipText (d : Disk) (conf text high : Int) (g : GapState) (obuf : CString)
    (next : Option CString) : Option (GapState × CString) := do
  let g ← takeEstimate d conf high g
  if high ≠ 0 ∧ g.first > text then
    let next ← next
    pure (g, replaceLine obuf next (jumpLine conf g.first))
  else
    let r ← markAsRead none text conf obuf
    pure (g, r.2)

/-- How the walk over one conference ends. -/
inductive GapEnd where
  | noLine
  | exhausted (g : GapState) (next : Option CString)
  | found (text : Int)
deriving DecidableEq

/-- The walk of `next_text` and `more_conf` over one conference: after each number without a file
the line is looked up again. -/
def gapLoop (d : Disk) (conf last : Int) :
    Nat → GapState → List IntRange → Option CString → CString → Option (GapEnd × CString)
  | 0, _, _, _, _ => none
  | fuel + 1, g, il, next, buf =>
    let text := (firstUnread il).1
    if text > last then some (.exhausted g next, buf)
    else if d.fileExists conf text then some (.found text, buf)
    else
      match skipText d conf text (firstUnread il).2 g buf next with
      | none => none
      | some (g, nbuf) =>
        match confsEntry conf nbuf with
        | .crash => none
        | .null => some (.noLine, nbuf)
        | .entry cse next => gapLoop d conf last fuel g cse.il next nbuf

/-- `next_text`: what it returns, and the conference file afterwards.  In the mailbox the number is
returned whether it has a file or not. -/
def nextText (d : Disk) (fuel : Nat) (conf : Int) (buf : CString) : Option (Int × CString) := do
  let last ← lastText d.mailbox d.conffile conf
  match confsEntry conf buf with
  | .crash => none
  | .null => some (-1, buf)
  | .entry cse next =>
    if conf = 0 then some (unreadText cse.il last, buf)
    else
      match gapLoop d conf last fuel { flag := false, first := 0 } cse.il next buf with
      | none => none
      | some (.noLine, buf) => some (-1, buf)
      | some (.exhausted _ _, buf) => some (0, buf)
      | some (.found text, buf) => some (text, buf)

/-! ## `first_text` -/

theorem firstTextLoop_bounds {ex : Int → Bool} (hex : ∀ n, ex n → 1 ≤ n) {top : Int}
    (fuel : Nat) {first last ptr : Int} (hfirst : 1 ≤ first) (hptr : 1 ≤ ptr ∧ ptr ≤ top)
    (hlast : last ≤ top) :
    1 ≤ firstTextLoop ex fuel first last ptr ∧ firstTextLoop ex fuel first last ptr ≤ top := by
  induction fuel generalizing first last ptr with
  | zero => exact hptr
  | succ fuel ih =>
    unfold firstTextLoop
    by_cases hlt : last > first
    · rw [if_pos hlt]
      dsimp only
      split
      · exact ih hfirst ⟨by omega, by omega⟩ (by omega)
      · split
        next h => exact ih hfirst ⟨hex _ h, by omega⟩ (by omega)
        next =>
          split
          next h => exact ih hfirst ⟨hex _ h, by omega⟩ (by omega)
          next =>
            split
            next h => exact ih hfirst ⟨hex _ h, by omega⟩ (by omega)
            next => exact ih (by omega) ⟨by omega, by omega⟩ hlast
    · rw [if_neg hlt]
      exact hptr

theorem firstText_bounds {d : Disk} {conf last first : Int}
    (hlast : lastText d.mailbox d.conffile conf = some last)
    (hex : ∀ n, d.fileExists conf n → 1 ≤ n) (hfirst : firstText d conf = some first)
    (hpos : 1 ≤ last) : 1 ≤ first ∧ first ≤ last := by
  simp only [firstText, hlast, Option.map_some, Option.some.injEq] at hfirst
  rw [← hfirst]
  exact firstTextLoop_bounds hex _ le_rfl ⟨le_rfl, hpos⟩ le_rfl

/-! ## One conference -/

theorem firstUnread_least {il : List IntRange} (hc : Canonical il)
    (hpos : ∀ n, Covers il n → 1 ≤ n) : GapScan.Least (cover il) (firstUnread il).1 := by
  cases il with
  | nil => exact ⟨le_rfl, by simp [firstUnread], fun n h1 h2 => by simp [firstUnread] at h2; omega⟩
  | cons i il =>
    have hi := (canonical_cons.mp hc).1
    have hlo := hpos i.lo (covers_cons.mpr (Or.inl ⟨le_rfl, hi⟩))
    rw [firstUnread]
    by_cases h1 : i.lo > 1
    · rw [if_pos h1]
      refine ⟨le_rfl, hc.not_covers_of_lt h1, ?_⟩
      intro n h2 h3
      dsimp only at h3
      omega
    · rw [if_neg h1]
      refine ⟨?_, hc.not_covers_succ, ?_⟩
      · show 1 ≤ i.hi + 1
        omega
      · intro n h2 h3
        have h4 : n < i.hi + 1 := h3
        exact covers_cons.mpr (Or.inl ⟨by omega, by omega⟩)

theorem highest_top {il : List IntRange} (hc : Canonical il) (hpos : ∀ n, Covers il n → 1 ≤ n) :
    GapScan.Top (cover il) (highest il) where
  le _ hn := hc.le_highest hn
  mem := by
    cases il with
    | nil => exact Or.inl rfl
    | cons i il => exact Or.inr hc.covers_highest
  pos := hpos

/-- `high` tells whether the number stands right after everything that is read. -/
theorem firstUnread_high {il : List IntRange} (hc : Canonical il)
    (hpos : ∀ n, Covers il n → 1 ≤ n) :
    (firstUnread il).2 ≠ 0 ↔ (firstUnread il).1 = highest il + 1 := by
  cases il with
  | nil => simp [firstUnread, highest]
  | cons i il =>
    obtain ⟨hi, hlt, hc'⟩ := canonical_cons.mp hc
    have hlo := hpos i.lo (covers_cons.mpr (Or.inl ⟨le_rfl, hi⟩))
    have hle := hc.le_highest hc.covers_highest
    have hhi := hc.le_highest (covers_cons.mpr (Or.inl ⟨hi, le_rfl⟩))
    unfold firstUnread
    by_cases h1 : i.lo > 1
    · simp only [if_pos h1]
      constructor
      · intro h
        exact absurd rfl h
      · intro h
        omega
    · simp only [if_neg h1]
      cases il with
      | nil =>
        constructor
        · intro _
          rfl
        · intro _
          show i.hi + 1 ≠ 0
          omega
      | cons j il =>
        have hj := hlt j List.mem_cons_self
        have hjc : Covers (i :: j :: il) j.lo := by
          simp [(canonical_cons.mp hc').1]
        have := hc.le_highest hjc
        simp only [reduceCtorEq, if_false]
        omega

theorem jumpLine_eq (conf first : Int) :
    jumpLine conf first = stringifyConfsStruct ⟨conf, [⟨1, first - 1⟩]⟩ := by
  have h1 : decimal 1 = ['1'] := by decide
  simp [jumpLine, stringifyConfsStruct, stringifyIntList, h1]

namespace ConfsFile

variable (f : ConfsFile) {conf : Int} {il : List IntRange}

/-- The greatest number marked as read, 0 without one. -/
def highest (conf : Int) : Int := (f.lookup conf).elim 0 IntervalList.highest

theorem read_eq_cover (hl : f.lookup conf = some il) : f.read conf = cover il := by
  ext n
  exact f.mem_read hl

theorem least_firstUnread (hl : f.lookup conf = some il) (hpos : ∀ n ∈ f.read conf, 1 ≤ n) :
    GapScan.Least (f.read conf) (firstUnread il).1 := by
  rw [f.read_eq_cover hl] at hpos ⊢
  exact firstUnread_least (f.readMarks_of_lookup hl).1 hpos

theorem top_highest (hpos : ∀ n ∈ f.read conf, 1 ≤ n) :
    GapScan.Top (f.read conf) (f.highest conf) := by
  cases hl : f.lookup conf with
  | none =>
    refine ⟨?_, Or.inl (by simp only [highest, hl, Option.elim_none]), hpos⟩
    rintro n ⟨il, hil, -⟩
    rw [hl] at hil
    cases hil
  | some il =>
    rw [f.read_eq_cover hl] at hpos ⊢
    simp only [highest, hl, Option.elim_some]
    exact highest_top (f.readMarks_of_lookup hl).1 hpos

theorem high_iff (hl : f.lookup conf = some il) (hpos : ∀ n ∈ f.read conf, 1 ≤ n) :
    (firstUnread il).2 ≠ 0 ↔ (firstUnread il).1 = f.highest conf + 1 := by
  rw [f.read_eq_cover hl] at hpos
  simp only [highest, hl, Option.elim_some]
  exact firstUnread_high (f.readMarks_of_lookup hl).1 hpos

/-- Writing another line in place of the one that was found. -/
theorem replaceLine_bytes {next : Option CString} (hl : f.lookup conf = some il)
    (hfind : confsEntry conf f.bytes = .entry ⟨conf, il⟩ next) {il' : List IntRange}
    (h : ReadMarks il') :
    ∃ nx, next = some nx ∧
      replaceLine f.bytes nx (stringifyConfsStruct ⟨conf, il'⟩) = (f.update conf il' h).bytes := by
  have hsub : (f.lookup conf).isSome := by simp [hl]
  have hr := f.replaceConfs_bytes h hsub
  cases next with
  | none => simp only [replaceConfs, hfind, reduceCtorEq] at hr
  | some nx =>
    simp only [replaceConfs, hfind] at hr
    exact ⟨nx, rfl, Option.some.inj hr⟩

/-- A number without a file below the greatest one that is read is marked as read. -/
theorem skipText_low (d : Disk) (next : Option CString) (g : GapState)
    (hl : f.lookup conf = some il) (hpos : ∀ n ∈ f.read conf, 1 ≤ n)
    (hlow : (firstUnread il).1 ≤ f.highest conf) :
    ∃ f' : ConfsFile, skipText d conf (firstUnread il).1 (firstUnread il).2 g f.bytes next =
        some (g, f'.bytes) ∧ SameBut conf f f' ∧
      f'.read conf = f.read conf ∪ Set.Icc 1 (firstUnread il).1 := by
  have hu := f.least_firstUnread hl hpos
  have hupos := hu.pos
  have hzero : (firstUnread il).2 = 0 := by
    by_contra hne
    have := (f.high_iff hl hpos).mp hne
    omega
  obtain ⟨f', hf', hsame, hread⟩ :=
    f.markAsRead_bytes_new (by omega) (f.lookup_isSome.mp (by simp [hl])) hu.notMem
  refine ⟨f', ?_, hsame, hread.trans hu.insert_eq⟩
  simp [skipText, takeEstimate, hzero, hf']

/-- Right after everything that is read, the line may jump to the estimate. -/
theorem skipText_high {d : Disk} {next : Option CString} {first : Int} (g : GapState)
    (hl : f.lookup conf = some il) (hfind : confsEntry conf f.bytes = .entry ⟨conf, il⟩ next)
    (hpos : ∀ n ∈ f.read conf, 1 ≤ n) (hfirst : firstText d conf = some first)
    (hhigh : (firstUnread il).1 = f.highest conf + 1) :
    ∃ f' : ConfsFile, skipText d conf (firstUnread il).1 (firstUnread il).2 g f.bytes next =
        some (⟨true, g.est first⟩, f'.bytes) ∧ SameBut conf f f' ∧
      f'.read conf = f.read conf ∪ Set.Icc 1 (max (firstUnread il).1 (g.est first - 1)) := by
  have hu := f.least_firstUnread hl hpos
  have ht := f.top_highest hpos
  have hupos := hu.pos
  have hne := (f.high_iff hl hpos).mpr hhigh
  have hg : takeEstimate d conf (firstUnread il).2 g = some ⟨true, g.est first⟩ := by
    obtain ⟨flag, fst⟩ := g
    cases flag <;> simp [takeEstimate, hne, hfirst, GapState.est]
  unfold skipText
  rw [hg]
  simp only [Option.bind_eq_bind, Option.bind_some]
  by_cases hjump : g.est first > (firstUnread il).1
  · have hm : ReadMarks [⟨1, g.est first - 1⟩] := by
      refine ⟨canonical_singleton.mpr ?_, by simp⟩
      show 1 ≤ g.est first - 1
      omega
    obtain ⟨nx, rfl, hnx⟩ := f.replaceLine_bytes hl hfind hm
    refine ⟨f.update conf _ hm, ?_, sameBut_update f hm, ?_⟩
    · rw [if_pos ⟨hne, hjump⟩, ← hnx, jumpLine_eq]
      rfl
    · rw [read_eq_cover _ (f.lookup_update_self hm (by simp [hl]))]
      ext n
      simp only [mem_cover, covers_cons, covers_nil, or_false, Set.mem_union, Set.mem_Icc]
      constructor
      · rintro ⟨h1, h2⟩
        exact Or.inr ⟨h1, by omega⟩
      · rintro (hn | hn)
        · have := ht.le n hn
          have := ht.pos n hn
          omega
        · omega
  · obtain ⟨f', hf', hsame, hread⟩ :=
      f.markAsRead_bytes_new (by omega) (f.lookup_isSome.mp (by simp [hl])) hu.notMem
    refine ⟨f', ?_, hsame, ?_⟩
    · rw [if_neg fun h => hjump h.2, hf']
      rfl
    · rw [hread, hu.insert_eq, max_eq_left (by omega)]

/-- Where the walk over a conference begins to look at text files. -/
noncomputable def scanStart (d : Disk) (conf last first : Int) : Int :=
  GapScan.start (d.texts conf) last first (f.read conf) (f.highest conf)

/-- The walk of one conference jumps to its estimate. -/
def Jumps (d : Disk) (conf last : Int) : Prop :=
  GapScan.Jumps (d.texts conf) last (f.read conf) (f.highest conf)

end ConfsFile

open Classical in
/-- `flag` and `first` after the walk over a conference. -/
noncomputable def GapState.after (g : GapState) (d : Disk) (f : ConfsFile) (conf last first : Int) :
    GapState :=
  if f.Jumps d conf last then ⟨true, g.est first⟩ else g

/-- How the walk over `conf` ends: `f'` is the file afterwards, `r` the text found. -/
structure GapEnds (d : Disk) (conf last first : Int) (g : GapState) (f f' : ConfsFile)
    (e : GapEnd) (r : Option Int) : Prop where
  same : SameBut conf f f'
  scanned : GapScan.Scanned (d.texts conf) last (f.read conf)
    (f.scanStart d conf last (g.est first)) r (f'.read conf)
  found : ∀ m, r = some m → e = .found m
  exhausted : r = none → ∃ il next, e = .exhausted (g.after d f conf last first) next ∧
    confsEntry conf f'.bytes = .entry ⟨conf, il⟩ next

section GapLoop

variable {d : Disk} {conf last first : Int} {f f₁ f' : ConfsFile} {g : GapState} {e : GapEnd}
  {u : Int} {r : Option Int}

theorem GapEnds.of_low (hu : GapScan.Least (f.read conf) u)
    (ht : GapScan.Top (f.read conf) (f.highest conf))
    (ht₁ : GapScan.Top (f₁.read conf) (f₁.highest conf)) (hlow : u ≤ f.highest conf)
    (hlast : u ≤ last) (he : ¬ d.texts conf u) (hsame : SameBut conf f f₁)
    (hread : f₁.read conf = f.read conf ∪ Set.Icc 1 u)
    (h : GapEnds d conf last first g f₁ f' e r) : GapEnds d conf last first g f f' e r := by
  have hh : f₁.highest conf = f.highest conf :=
    ht₁.unique (hread ▸ GapScan.top_union_low ht hlow)
  have hj : f₁.Jumps d conf last ↔ f.Jumps d conf last := by
    unfold ConfsFile.Jumps
    rw [hh, hread]
    exact GapScan.jumps_union_low hu he
  refine ⟨hsame.trans h.same, ?_, h.found, ?_⟩
  · have hs := h.scanned
    unfold ConfsFile.scanStart at hs
    rw [hh, hread] at hs
    exact GapScan.scanned_union_low hu ht hlast he hs
  · intro hr
    obtain ⟨il, next, he', hfind⟩ := h.exhausted hr
    refine ⟨il, next, ?_, hfind⟩
    rw [he']
    unfold GapState.after
    by_cases hjf : f.Jumps d conf last
    · rw [if_pos hjf, if_pos (hj.mpr hjf)]
    · rw [if_neg hjf, if_neg fun h => hjf (hj.mp h)]

theorem GapEnds.of_high (hu : GapScan.Least (f.read conf) u)
    (ht : GapScan.Top (f.read conf) (f.highest conf))
    (ht₁ : GapScan.Top (f₁.read conf) (f₁.highest conf)) (hhigh : u = f.highest conf + 1)
    (hlast : u ≤ last) (he : ¬ d.texts conf u) (hsame : SameBut conf f f₁)
    (hread : f₁.read conf = f.read conf ∪ Set.Icc 1 (max u (g.est first - 1)))
    (h : GapEnds d conf last first ⟨true, g.est first⟩ f₁ f' e r) :
    GapEnds d conf last first g f f' e r := by
  have hh : f₁.highest conf = max u (g.est first - 1) :=
    ht₁.unique (hread ▸ GapScan.top_union_high hhigh ht)
  have hj : f.Jumps d conf last := hu.jumps_of_top hhigh hlast he
  refine ⟨hsame.trans h.same, ?_, h.found, ?_⟩
  · have hs := h.scanned
    unfold ConfsFile.scanStart at hs
    rw [hh, hread] at hs
    exact GapScan.scanned_union_high hu ht hhigh hlast he hs
  · intro hr
    obtain ⟨il, next, he', hfind⟩ := h.exhausted hr
    refine ⟨il, next, ?_, hfind⟩
    rw [he']
    unfold GapState.after
    rw [if_pos hj]
    split <;> rfl

/-- The walk ends, with the least unread text from the start of the scan on. -/
theorem gapLoop_bytes (last : Int) (hfirst : firstText d conf = some first) (fuel : Nat)
    {il : List IntRange} {next : Option CString} (hl : f.lookup conf = some il)
    (hfind : confsEntry conf f.bytes = .entry ⟨conf, il⟩ next)
    (hpos : ∀ n ∈ f.read conf, 1 ≤ n) (hfuel : (last + 1 - (firstUnread il).1).toNat < fuel) :
    ∃ e f' r, gapLoop d conf last fuel g il next f.bytes = some (e, f'.bytes) ∧
      GapEnds d conf last first g f f' e r := by
  induction fuel generalizing f g il next with
  | zero => omega
  | succ fuel ih =>
    have hu := f.least_firstUnread hl hpos
    have ht := f.top_highest hpos
    rw [gapLoop]
    by_cases hlt : (firstUnread il).1 > last
    · -- past the last text
      refine ⟨_, f, none, if_pos hlt, .refl _ _, GapScan.scanned_of_lt hu ht hlt, ?_, ?_⟩
      · intro m hm
        cases hm
      · intro _
        refine ⟨il, next, ?_, hfind⟩
        have hj : ¬ f.Jumps d conf last := hu.not_jumps_of_lt ht hlt
        rw [GapState.after, if_neg hj]
    rw [if_neg hlt]
    by_cases he : d.fileExists conf (firstUnread il).1
    · -- at a text
      refine ⟨_, f, some _, if_pos he, .refl _ _, GapScan.scanned_of_ex hu ht (by omega) he, ?_, ?_⟩
      · intro m hm
        rw [Option.some.inj hm]
      · intro hr
        cases hr
    rw [if_neg he]
    -- the line changes: what the next round starts from
    have hnext : ∀ (f₁ : ConfsFile) (v : Int), SameBut conf f f₁ → (firstUnread il).1 ≤ v →
        f₁.read conf = f.read conf ∪ Set.Icc 1 v →
        ∃ il₁ next₁, f₁.lookup conf = some il₁ ∧
          confsEntry conf f₁.bytes = .entry ⟨conf, il₁⟩ next₁ ∧ (∀ n ∈ f₁.read conf, 1 ≤ n) ∧
          (last + 1 - (firstUnread il₁).1).toNat < fuel := by
      intro f₁ v hsame hv hread
      have hmem : conf ∈ f₁.nums := hsame.nums ▸ f.lookup_isSome.mp (by simp [hl])
      obtain ⟨il₁, hl₁⟩ := Option.isSome_iff_exists.mp (f₁.lookup_isSome.mpr hmem)
      obtain ⟨as, bs, -, -, -, hfind₁⟩ := f₁.confsEntry_bytes hl₁
      have hpos₁ : ∀ n ∈ f₁.read conf, 1 ≤ n := by
        intro n hn
        rw [hread] at hn
        rcases hn with hn | hn
        · exact hpos n hn
        · exact hn.1
      have hu₁ := f₁.least_firstUnread hl₁ hpos₁
      refine ⟨il₁, _, hl₁, hfind₁, hpos₁, ?_⟩
      have hgt : v < (firstUnread il₁).1 := by
        by_contra hle
        apply hu₁.notMem
        rw [hread]
        exact Or.inr ⟨hu₁.pos, by omega⟩
      omega
    by_cases hhigh : (firstUnread il).1 = f.highest conf + 1
    · obtain ⟨f₁, hskip, hsame, hread⟩ := f.skipText_high g hl hfind hpos hfirst hhigh
      obtain ⟨il₁, next₁, hl₁, hfind₁, hpos₁, hfuel₁⟩ := hnext f₁ _ hsame (by omega) hread
      obtain ⟨e, f', r, hrun, hends⟩ := ih hl₁ hfind₁ hpos₁ hfuel₁
      refine ⟨e, f', r, ?_, hends.of_high hu ht (f₁.top_highest hpos₁) hhigh (by omega) he
        hsame hread⟩
      simp only [hskip, hfind₁]
      exact hrun
    · have hlow : (firstUnread il).1 ≤ f.highest conf := by
        have := hu.le_succ ht
        omega
      obtain ⟨f₁, hskip, hsame, hread⟩ := f.skipText_low d next g hl hpos hlow
      obtain ⟨il₁, next₁, hl₁, hfind₁, hpos₁, hfuel₁⟩ := hnext f₁ _ hsame le_rfl hread
      obtain ⟨e, f', r, hrun, hends⟩ := ih hl₁ hfind₁ hpos₁ hfuel₁
      refine ⟨e, f', r, ?_, hends.of_low hu ht (f₁.top_highest hpos₁) hlow (by omega) he
        hsame hread⟩
      simp only [hskip, hfind₁]
      exact hrun

end GapLoop

/-! ## `next_text` -/

/-- More fuel changes nothing. -/
theorem gapLoop_mono {d : Disk} {conf last : Int} {fuel fuel' : Nat} {g : GapState}
    {il : List IntRange} {next : Option CString} {buf : CString} {x : GapEnd × CString}
    (h : gapLoop d conf last fuel g il next buf = some x) (hle : fuel ≤ fuel') :
    gapLoop d conf last fuel' g il next buf = some x := by
  induction fuel generalizing fuel' g il next buf with
  | zero => cases h
  | succ fuel ih =>
    obtain ⟨fuel', rfl⟩ : ∃ k, fuel' = k + 1 := ⟨fuel' - 1, by omega⟩
    rw [gapLoop] at h ⊢
    split
    next hlt => rwa [if_pos hlt] at h
    next hlt =>
      rw [if_neg hlt] at h
      split
      next he => rwa [if_pos he] at h
      next he =>
        rw [if_neg he] at h
        cases hskip : skipText d conf (firstUnread il).1 (firstUnread il).2 g buf next with
        | none =>
          rw [hskip] at h
          cases h
        | some y =>
          simp only [hskip] at h ⊢
          cases hfind : confsEntry conf y.2 with
          | crash =>
            rw [hfind] at h
            cases h
          | null =>
            rw [hfind] at h
            exact h
          | entry cse nx =>
            simp only [hfind] at h ⊢
            exact ih h (by omega)

/-- `gapLoop_bytes` for every sufficient fuel at once. -/
theorem gapLoop_ends {d : Disk} {conf first : Int} {f : ConfsFile} {il : List IntRange}
    {next : Option CString} (last : Int) (g : GapState) (hfirst : firstText d conf = some first)
    (hl : f.lookup conf = some il) (hfind : confsEntry conf f.bytes = .entry ⟨conf, il⟩ next)
    (hpos : ∀ n ∈ f.read conf, 1 ≤ n) :
    ∃ e f' r, (∀ fuel, last.toNat < fuel →
        gapLoop d conf last fuel g il next f.bytes = some (e, f'.bytes)) ∧
      GapEnds d conf last first g f f' e r := by
  have hupos := (f.least_firstUnread hl hpos).pos
  obtain ⟨e, f', r, hrun, hends⟩ := gapLoop_bytes (g := g) last hfirst
    (last.toNat + 1) hl hfind hpos (by omega)
  exact ⟨e, f', r, fun fuel hfuel => gapLoop_mono hrun (Nat.succ_le_of_lt hfuel), hends⟩

section NextText

variable {d : Disk} {conf last first : Int} {f : ConfsFile}

/-- What `next_text` does in a conference the user subscribes to. -/
theorem nextText_bytes (hlast : lastText d.mailbox d.conffile conf = some last)
    (hfirst : firstText d conf = some first) (hconf : conf ≠ 0) (hsub : conf ∈ f.nums)
    (hpos : ∀ n ∈ f.read conf, 1 ≤ n) :
    ∃ r f', (∀ fuel, last.toNat < fuel →
        nextText d fuel conf f.bytes = some (r.getD 0, f'.bytes)) ∧ SameBut conf f f' ∧
      GapScan.Scanned (d.texts conf) last (f.read conf) (f.scanStart d conf last first) r
        (f'.read conf) := by
  obtain ⟨il, hl⟩ := Option.isSome_iff_exists.mp (f.lookup_isSome.mpr hsub)
  obtain ⟨as, bs, -, -, -, hfind⟩ := f.confsEntry_bytes hl
  obtain ⟨e, f', r, hrun, hends⟩ := gapLoop_ends last ⟨false, 0⟩ hfirst hl hfind hpos
  refine ⟨r, f', ?_, hends.same, hends.scanned⟩
  intro fuel hfuel
  simp only [nextText, hlast, Option.bind_eq_bind, Option.bind_some, hfind, if_neg hconf,
    hrun fuel hfuel]
  cases r with
  | some m => rw [hends.found m rfl]; rfl
  | none =>
    obtain ⟨il', next', he, -⟩ := hends.exhausted rfl
    rw [he]
    rfl

/-- `next_text` on the mailbox only looks at the numbers. -/
theorem nextText_mailbox (hlast : lastText d.mailbox d.conffile 0 = some last)
    (hsub : 0 ∈ f.nums) (hpos : ∀ n ∈ f.read 0, 1 ≤ n) :
    ∃ u, GapScan.Least (f.read 0) u ∧
      ∀ fuel, nextText d fuel 0 f.bytes = some (if u > last then 0 else u, f.bytes) := by
  obtain ⟨il, hl⟩ := Option.isSome_iff_exists.mp (f.lookup_isSome.mpr hsub)
  obtain ⟨as, bs, -, -, -, hfind⟩ := f.confsEntry_bytes hl
  refine ⟨_, f.least_firstUnread hl hpos, ?_⟩
  intro fuel
  simp only [nextText, hlast, Option.bind_eq_bind, Option.bind_some, hfind, if_true, unreadText]

/-- The least unread text of a conference, 0 without one. -/
def IsNextText (d : Disk) (f : ConfsFile) (conf last r : Int) : Prop :=
  GapScan.Finds (d.texts conf) last (f.read conf) 1 r ∨
    r = 0 ∧ ∀ n, d.texts conf n → n ∈ f.read conf

/-- The estimate of `first_text` is not used, or no unread text lies below it. -/
def NoTextJumped (d : Disk) (f : ConfsFile) (conf last first : Int) : Prop :=
  f.Jumps d conf last → ∀ n, f.highest conf < n → d.texts conf n → first ≤ n

/-- In the mailbox: the least unread number has a text file. -/
def NextMailExists (d : Disk) (f : ConfsFile) (last : Int) : Prop :=
  ∀ u, GapScan.Least (f.read 0) u → u ≤ last → d.texts 0 u

/-- `next_text` returns within `last_text + 1` rounds.  It finds the least unread text and passes
over nothing but missing ones exactly when the estimate is not beyond an unread text. -/
theorem nextText_finds_least_iff (hlast : lastText d.mailbox d.conffile conf = some last)
    (hfirst : firstText d conf = some first) (hsub : conf ∈ f.nums)
    (hread : ∀ n ∈ f.read conf, 1 ≤ n ∧ n ≤ last)
    (hfiles : ∀ n, d.texts conf n → 1 ≤ n ∧ n ≤ last) :
    ∃ r, ∃ g : ConfsFile, (∀ fuel, last.toNat < fuel →
        nextText d fuel conf f.bytes = some (r, g.bytes)) ∧ SameBut conf f g ∧
      ((IsNextText d f conf last r ∧
          ∀ n ∈ g.read conf, n ∉ f.read conf → ¬ d.texts conf n) ↔
        if conf = 0 then NextMailExists d f last else NoTextJumped d f conf last first) := by
  have hpos : ∀ n ∈ f.read conf, 1 ≤ n := fun n hn => (hread n hn).1
  by_cases hconf : conf = 0
  · subst hconf
    obtain ⟨u, hu, hrun⟩ := nextText_mailbox hlast hsub hpos
    refine ⟨_, f, fun fuel _ => hrun fuel, .refl _ _, ?_⟩
    rw [if_pos rfl]
    have hsame : ∀ n ∈ f.read 0, n ∉ f.read 0 → ¬ d.texts 0 n := fun n hn hout => absurd hn hout
    constructor
    · rintro ⟨hnext, -⟩ v hv hle
      obtain rfl := hu.unique hv
      rw [if_neg (by omega)] at hnext
      rcases hnext with hf | ⟨h0, -⟩
      · exact hf.item
      · have := hu.pos
        omega
    · intro hmail
      refine ⟨?_, hsame⟩
      by_cases hlt : u > last
      · rw [if_pos hlt]
        refine Or.inr ⟨rfl, ?_⟩
        intro n hn
        have := hfiles n hn
        exact hu.below n this.1 (by omega)
      · rw [if_neg hlt]
        refine Or.inl ⟨hu.pos, by omega, hu.notMem, hmail u hu (by omega), ?_⟩
        intro n h1 h2 hn
        exact absurd (hu.below n h1 h2) hn
  · obtain ⟨r, g, hrun, hsame, hs⟩ := nextText_bytes hlast hfirst hconf hsub hpos
    refine ⟨_, g, hrun, hsame, ?_⟩
    have ht := f.top_highest hpos
    rw [if_neg hconf, hs.adds_missing_iff]
    refine Iff.trans ?_ (GapScan.start_le_iff ht)
    refine and_iff_right_of_imp fun hall => ?_
    cases r with
    | some m => exact Or.inl ((hs.finds_least (GapScan.one_le_start ht) hall).mp rfl)
    | none =>
      refine Or.inr ⟨rfl, ?_⟩
      intro n hn
      by_contra hout
      have hb := hfiles n hn
      exact hs.eq_none_iff.mp rfl n (hall n hb.1 hout hn) hb.2 hout hn

/-- A conference of twelve texts of which the second and the last are left, none of them read. -/
def sparseDisk : Disk where
  mailbox := []
  conffile := confBytes [⟨1, 12, 2, 0, 1, 0, 0, "Test".toList⟩]
  fileExists conf n := conf = 1 ∧ (n = 2 ∨ n = 12)

/-- The mailbox and one conference, nothing read. -/
def newConfs : ConfsFile where
  entries := [⟨0, []⟩, ⟨1, []⟩]
  marks := by decide
  distinct := by decide

theorem nextText_skips_unread :
    nextText sparseDisk 13 1 newConfs.bytes = some (12, "0:\n1:1-11\n".toList) ∧
      ¬ IsNextText sparseDisk newConfs 1 12 12 := by
  refine ⟨by decide +kernel, ?_⟩
  rintro (hf | ⟨h0, -⟩)
  · have hout : (2 : Int) ∉ newConfs.read 1 := by
      rintro ⟨il, hl, hc⟩
      cases hl
      exact covers_nil 2 hc
    have htwo : sparseDisk.texts 1 2 := rfl
    exact hf.least 2 (by decide) (by decide) hout htwo
  · cases h0

/-- Four texts of which the second and the last are left: a gap that `first_text` looks across. -/
def shortGapDisk : Disk where
  mailbox := []
  conffile := confBytes [⟨1, 4, 2, 0, 1, 0, 0, "Test".toList⟩]
  fileExists conf n := conf = 1 ∧ (n = 2 ∨ n = 4)

theorem nextText_finds_least_iff_newConfs :
    ∃ r, ∃ g : ConfsFile, (∀ fuel, 4 < fuel →
        nextText shortGapDisk fuel 1 newConfs.bytes = some (r, g.bytes)) ∧ SameBut 1 newConfs g ∧
      ((IsNextText shortGapDisk newConfs 1 4 r ∧
          ∀ n ∈ g.read 1, n ∉ newConfs.read 1 → ¬ shortGapDisk.texts 1 n) ↔
        NoTextJumped shortGapDisk newConfs 1 4 2) := by
  have hlast : lastText shortGapDisk.mailbox shortGapDisk.conffile 1 = some 4 := by decide +kernel
  have hfirst : firstText shortGapDisk 1 = some 2 := by decide +kernel
  refine nextText_finds_least_iff hlast hfirst (by decide) ?_ ?_
  · rintro n ⟨il, hl, hc⟩
    cases hl
    exact absurd hc (covers_nil n)
  · intro n hn
    have : n = 2 ∨ n = 4 := by simpa [Disk.texts, shortGapDisk] using hn
    omega

end NextText

end SklaffKom
