import SklaffKom.FirstText
import SklaffKom.ShowText
import Mathlib.Data.Int.LeastGreatest

/-!
# Keeping only recent texts

`cmd_only` replaces the read marks of the current conference by one interval, so that the last texts
are unread: so many, or those that are not older than so many minutes, hours or days.  The number
for an age is found by walking down from `last_text` until a text is old enough; nothing else ends
the walk.
-/

open CString IntervalList

namespace SklaffKom

/-- What the argument of `cmd_only` asks for, -1 texts being none that can be kept. -/
inductive OnlyArg where
  | count (textnum : Int)
  | age (age : Int)
deriving DecidableEq, Repr

/-- An age in seconds. -/
def ageArg (age : Int) : OnlyArg := if age ≥ 0 then .age age else .count (-1)

/-- A number, and an age if a blank and a unit follow. -/
def onlyArg (args : CString) : OnlyArg :=
  let (textnum, ptr) := strtol args
  if ptr = args then .count (-1)
  else match ptr with
    | ' ' :: ptr =>
      match ptr.dropWhile (· = ' ') with
      | 'm' :: _ => ageArg (textnum * 60)
      | 't' :: _ => ageArg (textnum * 3600)
      | 'd' :: _ => ageArg (textnum * 24 * 3600)
      | _ => .count (-1)
    | _ => .count textnum

/-- The loop of `age_to_textno`: `texttime` changes only where a file can be opened. -/
def ageLoop (dir : Int → Option CString) (now age : Int) : Nat → Int → Int → Int → Option Int
  | 0, _, _, _ => none
  | fuel + 1, currentText, texttime, textno =>
    let time :=
      match dir currentText with
      | none => some texttime
      | some file => (textHeader file).map (·.time)
    match time with
    | none => none
    | some texttime =>
      if texttime > now - age then ageLoop dir now age fuel (currentText - 1) texttime (textno + 1)
      else some (textno + 1)

def ageToTextno (t : TextBase) (now conf : Int) (fuel : Nat) (age : Int) : Option Int := do
  let currentText ← lastText t.mailbox t.conffile conf
  ageLoop (t.textFile conf) now age fuel currentText now (-1)

/-- The number of texts that are asked for. -/
def onlyTextnum (t : TextBase) (now conf : Int) (fuel : Nat) (args : CString) : Option Int :=
  match onlyArg args with
  | .count textnum => some textnum
  | .age age => ageToTextno t now conf fuel age

inductive OnlyReply where
  | errNumt
  | confMissing
  | marked
deriving DecidableEq, Repr

/-- `cmd_only` at the time `now` in the conference `conf`; `buf` is the user's conference file. -/
def cmdOnly (t : TextBase) (now conf : Int) (fuel : Nat) (args buf : CString) :
    Option (OnlyReply × CString) := do
  if args = [] then pure (.errNumt, buf)
  else
    let textnum ← onlyTextnum t now conf fuel args
    let first ← firstText t.disk conf
    let last ← lastText t.mailbox t.conffile conf
    let textnum := if textnum > last - first + 1 then last - first + 1 else textnum
    if textnum ≥ 0 then
      match confsEntry conf buf with
      | .crash => none
      | .null => some (.confMissing, buf)
      | .entry _ _ => do
        let nbuf ← replaceConfs none ⟨conf, if textnum = last then [] else [⟨1, last - textnum⟩]⟩ buf
        pure (.marked, nbuf)
    else pure (.errNumt, buf)

/-- A text that is at least that old. -/
def OldText (t : TextBase) (now conf age : Int) : Set Int :=
  {n | ∃ th, headerAt (t.textFile conf) n = some th ∧ th.time ≤ now - age}

/-- `cmd_only` returns, and afterwards exactly the numbers in `P` are unread. -/
def LeavesUnread (t : TextBase) (now conf last : Int) (args : CString) (f : ConfsFile)
    (P : Int → Prop) : Prop :=
  ∃ g : ConfsFile, (∃ enough, ∀ fuel, enough ≤ fuel →
      cmdOnly t now conf fuel args f.bytes = some (.marked, g.bytes)) ∧ SameBut conf f g ∧
    ∀ n, 1 ≤ n → n ≤ last → (n ∉ g.read conf ↔ P n)

/-- What is unread after an age: the texts above the highest one that is that old, all texts when
none is. -/
def Younger (t : TextBase) (now conf age first : Int) (n : Int) : Prop :=
  (∀ k, IsGreatest (OldText t now conf age) k → k < n) ∧
    (OldText t now conf age = ∅ → first ≤ n)

/-! ## The walk over the ages -/

section Ages

variable {dir : Int → Option CString} {now age k current texttime : Int}

/-- One turn at a number without an old text. -/
theorem ageLoop_next (hparse : ∀ n file, dir n = some file → ∃ th, textHeader file = some th)
    (hyoung : ∀ th, headerAt dir current = some th → ¬ th.time ≤ now - age)
    (htime : ¬ texttime ≤ now - age) (fuel : Nat) (textno : Int) :
    ∃ texttime', ¬ texttime' ≤ now - age ∧
      ageLoop dir now age (fuel + 1) current texttime textno =
        ageLoop dir now age fuel (current - 1) texttime' (textno + 1) := by
  rw [ageLoop]
  cases hfile : dir current with
  | none =>
    refine ⟨texttime, htime, ?_⟩
    dsimp only
    rw [if_pos (by omega)]
  | some file =>
    obtain ⟨th, hth⟩ := hparse current file hfile
    have hold := hyoung th (by rw [headerAt, hfile, Option.bind_some, hth])
    refine ⟨th.time, hold, ?_⟩
    simp only [hth, Option.map_some]
    rw [if_pos (by omega)]

/-- The walk ends at the first old text that it comes to. -/
theorem ageLoop_found (hparse : ∀ n file, dir n = some file → ∃ th, textHeader file = some th)
    {th : TextHeader} (hth : headerAt dir k = some th) (hold : th.time ≤ now - age)
    (hyoung : ∀ n th, k < n → headerAt dir n = some th → ¬ th.time ≤ now - age) (fuel : Nat)
    (htime : ¬ texttime ≤ now - age) (hle : k ≤ current) (hfuel : current - k < fuel)
    (textno : Int) :
    ageLoop dir now age fuel current texttime textno = some (textno + 1 + (current - k)) := by
  induction fuel generalizing current texttime textno with
  | zero => omega
  | succ fuel ih =>
    by_cases hk : current = k
    · subst hk
      obtain ⟨file, hfile, hhead⟩ := Option.bind_eq_some_iff.mp hth
      rw [ageLoop]
      simp only [hfile, hhead, Option.map_some]
      rw [if_neg (by omega), Int.sub_self, Int.add_zero]
    · obtain ⟨texttime', htime', hrun⟩ := ageLoop_next hparse
        (fun th hth => hyoung current th (by omega) hth) htime fuel textno
      rw [hrun, ih htime' (by omega) (by omega), Option.some.injEq]
      omega

/-- Without an old text the walk does not end. -/
theorem ageLoop_none (hparse : ∀ n file, dir n = some file → ∃ th, textHeader file = some th)
    (hyoung : ∀ n th, headerAt dir n = some th → ¬ th.time ≤ now - age) (fuel : Nat)
    (htime : ¬ texttime ≤ now - age) (textno : Int) :
    ageLoop dir now age fuel current texttime textno = none := by
  induction fuel generalizing current texttime textno with
  | zero => rfl
  | succ fuel ih =>
    obtain ⟨texttime', htime', hrun⟩ := ageLoop_next hparse (hyoung current) htime fuel textno
    rw [hrun]
    exact ih htime' _

end Ages

/-! ## The marks afterwards -/

section Marks

variable {t : TextBase} {now conf last first : Int} {f : ConfsFile} {args : CString}

/-- `1-(last - textnum)`, or nothing when all texts are asked for. -/
theorem readMarks_only {v : Int} (hv : v ≤ last) :
    ReadMarks (if v = last then [] else [⟨1, last - v⟩]) := by
  split
  · exact ⟨canonical_nil, fun i hi => absurd hi List.not_mem_nil⟩
  · refine ⟨canonical_singleton.mpr (by dsimp only; omega), fun i hi => ?_⟩
    rw [List.mem_singleton.mp hi]
    exact Int.one_nonneg

/-- With `v` texts asked for, the last `v` numbers are unread, down to `first_text` at most. -/
theorem cmdOnly_marked (now : Int)
    (hlast : lastText t.mailbox t.conffile conf = some last)
    (hfirst : firstText t.disk conf = some first) (hlow : 1 ≤ first) (hhigh : first ≤ last + 1)
    (hsub : conf ∈ f.nums) (hargs : args ≠ []) {v : Int} (hv : 0 ≤ v) :
    ∃ g : ConfsFile, SameBut conf f g ∧
      (∀ n, 1 ≤ n → n ≤ last → (n ∉ g.read conf ↔ last - min v (last - first + 1) < n)) ∧
      ∀ fuel, onlyTextnum t now conf fuel args = some v →
        cmdOnly t now conf fuel args f.bytes = some (.marked, g.bytes) := by
  have hmin : (if v > last - first + 1 then last - first + 1 else v) =
      min v (last - first + 1) := by
    split
    · omega
    · omega
  have hnum : 0 ≤ min v (last - first + 1) ∧ min v (last - first + 1) ≤ last := by omega
  generalize min v (last - first + 1) = w at hmin hnum
  have hsome := f.lookup_isSome.mpr hsub
  have hmarks := readMarks_only hnum.2
  refine ⟨f.update conf _ hmarks, sameBut_update f hmarks, fun n h1 h2 => ?_, fun fuel hfuel => ?_⟩
  · rw [ConfsFile.mem_read _ (f.lookup_update_self hmarks hsome)]
    split
    next hall =>
      have hnone := covers_nil n
      constructor
      · intro _
        omega
      · intro _
        exact hnone
    · rw [covers_cons, or_iff_left (covers_nil n)]
      dsimp only
      omega
  · obtain ⟨il, hil⟩ := Option.isSome_iff_exists.mp hsome
    obtain ⟨as, bs, -, -, -, hfind⟩ := f.confsEntry_bytes hil
    simp only [cmdOnly, if_neg hargs, hfuel, hfirst, hlast, Option.bind_eq_bind, Option.bind_some,
      hmin, if_pos hnum.1, hfind, f.replaceConfs_bytes hmarks hsome, Option.pure_def]

/-- A number of an age is found exactly when a text is that old, and then the first such text from
above decides. -/
theorem onlyTextnum_age (hlast : lastText t.mailbox t.conffile conf = some last)
    (hparse : ∀ n file, t.textFile conf n = some file → ∃ th, textHeader file = some th)
    {age k : Int} (harg : onlyArg args = .age age) (hage : 0 < age) (hk : k ≤ last)
    (hgreat : IsGreatest (OldText t now conf age) k) (fuel : Nat) (hfuel : last - k < fuel) :
    onlyTextnum t now conf fuel args = some (last - k) := by
  obtain ⟨⟨th, hth, hold⟩, hub⟩ := hgreat
  have hyoung : ∀ n th, k < n → headerAt (t.textFile conf) n = some th →
      ¬ th.time ≤ now - age := by
    intro n th hn hth hle
    have := hub ⟨th, hth, hle⟩
    omega
  rw [onlyTextnum, harg]
  simp only [ageToTextno, hlast, Option.bind_eq_bind, Option.bind_some]
  rw [ageLoop_found hparse hth hold hyoung fuel (by omega) hk hfuel, Option.some.injEq]
  omega

theorem onlyTextnum_none (hlast : lastText t.mailbox t.conffile conf = some last)
    (hparse : ∀ n file, t.textFile conf n = some file → ∃ th, textHeader file = some th)
    {age : Int} (harg : onlyArg args = .age age) (hage : 0 < age)
    (hempty : OldText t now conf age = ∅) (fuel : Nat) :
    onlyTextnum t now conf fuel args = none := by
  have hyoung : ∀ n th, headerAt (t.textFile conf) n = some th → ¬ th.time ≤ now - age := by
    intro n th hth hle
    have hmem : n ∈ OldText t now conf age := ⟨th, hth, hle⟩
    rw [hempty] at hmem
    exact hmem
  rw [onlyTextnum, harg]
  simp only [ageToTextno, hlast, Option.bind_eq_bind, Option.bind_some]
  exact ageLoop_none hparse hyoung fuel (by omega) _

/-- The highest old text, if any. -/
theorem oldText_empty_or (now : Int)
    (htexts : ∀ n, t.disk.texts conf n → 1 ≤ n ∧ n ≤ last) (age : Int) :
    OldText t now conf age = ∅ ∨
      ∃ k, IsGreatest (OldText t now conf age) k ∧ 1 ≤ k ∧ k ≤ last := by
  have hin : ∀ n ∈ OldText t now conf age, 1 ≤ n ∧ n ≤ last := by
    rintro n ⟨th, hth, -⟩
    obtain ⟨file, hfile, -⟩ := Option.bind_eq_some_iff.mp hth
    exact htexts n (by simp only [Disk.texts, TextBase.disk, hfile, Option.isSome_some])
  rcases Set.eq_empty_or_nonempty (OldText t now conf age) with hempty | hne
  · exact Or.inl hempty
  · obtain ⟨k, hk, hub⟩ := Int.exists_greatest_of_bdd ⟨last, fun n hn => (hin n hn).2⟩ hne
    exact Or.inr ⟨k, ⟨hk, fun n hn => hub n hn⟩, hin k hk⟩

/-- An argument that asks for an age or for some texts is not empty. -/
theorem args_ne_nil (h : onlyArg args ≠ .count (-1)) : args ≠ [] := by
  rintro rfl
  exact h rfl

/-- With an age `cmd_only` leaves the younger texts unread exactly when a text is that old and
`first_text` does not pass over the number after it; with a count it always leaves the last texts
unread. -/
theorem cmdOnly_unread_iff (hlast : lastText t.mailbox t.conffile conf = some last)
    (hfirst : firstText t.disk conf = some first) (hpos : 0 ≤ last) (hsub : conf ∈ f.nums)
    (htexts : ∀ n, t.disk.texts conf n → 1 ≤ n ∧ n ≤ last)
    (hparse : ∀ n file, t.textFile conf n = some file → ∃ th, textHeader file = some th)
    (now : Int) (args : CString) :
    (∀ age, onlyArg args = .age age → 0 < age →
      (LeavesUnread t now conf last args f (Younger t now conf age first) ↔
        ∃ k, IsGreatest (OldText t now conf age) k ∧ first ≤ k + 1)) ∧
    ∀ num, onlyArg args = .count num → 0 ≤ num →
      LeavesUnread t now conf last args f fun n => last - min num (last - first + 1) < n := by
  obtain ⟨r, hr, -, hlow, hhigh, -⟩ := firstText_least (d := t.disk) hlast htexts
  rw [hfirst, Option.some.injEq] at hr
  subst hr
  have hhigh : first ≤ last + 1 := by omega
  constructor
  · intro age harg hage
    have hargs : args ≠ [] := args_ne_nil (by rw [harg]; exact OnlyArg.noConfusion)
    rcases oldText_empty_or now htexts age with hempty | ⟨k, hk, hk1, hkl⟩
    · refine iff_of_false ?_ ?_
      · rintro ⟨g, ⟨enough, hrun⟩, -, -⟩
        have hnone := onlyTextnum_none hlast hparse harg hage hempty enough
        have hsome := hrun enough le_rfl
        simp only [cmdOnly, if_neg hargs, hnone, Option.bind_eq_bind, Option.bind_none,
          reduceCtorEq] at hsome
      · rintro ⟨k, hk, -⟩
        have hmem := hk.1
        rw [hempty] at hmem
        exact hmem
    · obtain ⟨g, hsame, hread, hrun⟩ := cmdOnly_marked now hlast hfirst hlow hhigh hsub
        hargs (v := last - k) (by omega)
      have hends : ∀ fuel, (last - k).toNat + 1 ≤ fuel →
          cmdOnly t now conf fuel args f.bytes = some (.marked, g.bytes) := fun fuel hfuel =>
        hrun fuel (onlyTextnum_age hlast hparse harg hage hkl hk fuel (by omega))
      have hyounger : ∀ n, Younger t now conf age first n ↔ k < n := by
        intro n
        constructor
        · intro h
          exact h.1 k hk
        · intro hn
          refine ⟨fun j hj => hk.unique hj ▸ hn, fun hempty => ?_⟩
          have hmem := hk.1
          rw [hempty] at hmem
          exact hmem.elim
      constructor
      · rintro ⟨g', ⟨enough, hrun'⟩, -, hread'⟩
        refine ⟨k, hk, ?_⟩
        have heq := (hrun' (enough + ((last - k).toNat + 1)) (by omega)).symm.trans
          (hends (enough + ((last - k).toNat + 1)) (by omega))
        rw [Option.some.injEq, Prod.mk.injEq] at heq
        rw [ConfsFile.bytes_injective heq.2] at hread'
        by_contra hlt
        -- the number after the old text is below `first_text`
        have h1 := (hread' (k + 1) (by omega) (by omega)).mpr ((hyounger _).mpr (by omega))
        have h2 := (hread (k + 1) (by omega) (by omega)).mp h1
        omega
      · rintro ⟨j, hj, hle⟩
        rw [hk.unique hj] at hyounger
        rw [hk.unique hj] at hread hends
        refine ⟨g, ⟨_, hends⟩, hsame, fun n h1 h2 => ?_⟩
        rw [hread n h1 h2, hyounger]
        omega
  · intro num harg hnum
    have hargs : args ≠ [] := args_ne_nil (by
      rw [harg]
      intro h
      cases h
      omega)
    obtain ⟨g, hsame, hread, hrun⟩ := cmdOnly_marked now hlast hfirst hlow hhigh hsub
      hargs hnum
    exact ⟨g, ⟨0, fun fuel _ => hrun fuel (by rw [onlyTextnum, harg])⟩, hsame, hread⟩

end Marks

/-- A conference with one text, written ten seconds before 2000000000. -/
def freshText : CString := "1:2:1999999990:0:0:0:0:0\nRubrik\n".toList

def freshBase : TextBase where
  mailbox := []
  conffile := confBytes [⟨1, 1, 2, 0, 1, 0, 0, "Test".toList⟩]
  textFile conf n := if conf = 1 ∧ n = 1 then some freshText else none
  blocked _ := false

/-- `1 d` -/
def oneDay : CString := ['1', ' ', 'd']

theorem freshBase_file {n : Int} {file : CString} (h : freshBase.textFile 1 n = some file) :
    n = 1 ∧ file = freshText := by
  simp only [freshBase, true_and] at h
  split at h
  next hn => exact ⟨hn, (Option.some.inj h).symm⟩
  · cases h

theorem freshBase_parses (n : Int) (file : CString) (h : freshBase.textFile 1 n = some file) :
    ∃ th, textHeader file = some th := by
  rw [(freshBase_file h).2]
  exact Option.isSome_iff_exists.mp (by decide +kernel)

/-- The only text is younger than a day, and the walk goes on for ever. -/
theorem cmdOnly_never_ends : ¬ LeavesUnread freshBase 2000000000 1 1 oneDay newConfs
    (Younger freshBase 2000000000 1 86400 1) := by
  rintro ⟨g, ⟨enough, hrun⟩, -, -⟩
  have hempty : OldText freshBase 2000000000 1 86400 = ∅ := by
    ext n
    refine iff_of_false ?_ (Set.notMem_empty n)
    rintro ⟨th, hth, hold⟩
    obtain ⟨file, hfile, hhead⟩ := Option.bind_eq_some_iff.mp hth
    have htime : (textHeader freshText).map (·.time) = some 1999999990 := by decide +kernel
    rw [(freshBase_file hfile).2] at hhead
    rw [hhead, Option.map_some, Option.some.injEq] at htime
    omega
  have hlast : lastText freshBase.mailbox freshBase.conffile 1 = some 1 := by decide +kernel
  have harg : onlyArg oneDay = .age 86400 := by decide +kernel
  have hnone := onlyTextnum_none hlast freshBase_parses harg (by decide) hempty enough
  have hsome := hrun enough le_rfl
  simp only [cmdOnly, hnone, Option.bind_eq_bind, Option.bind_none] at hsome
  split at hsome
  next hargs => cases hargs
  · cases hsome

/-- Two texts of a million seconds ago, and one of ten seconds ago. -/
def agedTexts : List CString :=
  ["1:2:1999000000:0:0:0:0:0\nAnnat\n".toList, "2:2:1999000010:0:0:0:0:0\nRubrik\n".toList,
    "3:2:1999999990:0:0:0:0:0\nRubrik igen\n".toList]

theorem headerAt_aged {life n : Int} {th : TextHeader}
    (h : headerAt ((sampleBase life agedTexts).textFile 1) n = some th) :
    n = 1 ∧ th.time = 1999000000 ∨ n = 2 ∧ th.time = 1999000010 ∨ n = 3 ∧ th.time = 1999999990 := by
  obtain ⟨file, hfile, hth⟩ := Option.bind_eq_some_iff.mp h
  obtain ⟨h1, h2, hget⟩ := sampleBase_file hfile
  have hlen : agedTexts.length = 3 := rfl
  have htimes : agedTexts.map (fun file => (textHeader file).map (·.time)) =
      [some 1999000000, some 1999000010, some 1999999990] := by decide +kernel
  have hat := congrArg (·[(n - 1).toNat]?) htimes
  simp only [List.getElem?_map, hget, hth, Option.map_some] at hat
  obtain rfl | rfl | rfl : n = 1 ∨ n = 2 ∨ n = 3 := by omega
  · exact .inl ⟨rfl, Option.some.inj (Option.some.inj hat)⟩
  · exact .inr (.inl ⟨rfl, Option.some.inj (Option.some.inj hat)⟩)
  · exact .inr (.inr ⟨rfl, Option.some.inj (Option.some.inj hat)⟩)

theorem agedTexts_parses {life : Int} (n : Int) (file : CString)
    (h : (sampleBase life agedTexts).textFile 1 n = some file) : ∃ th, textHeader file = some th := by
  have hall : ∀ file ∈ agedTexts, (textHeader file).isSome = true := by decide +kernel
  exact Option.isSome_iff_exists.mp (hall file (List.mem_of_getElem? (sampleBase_file h).2.2))

/-- The text of today stays unread. -/
theorem cmdOnly_unread_oneDay : LeavesUnread (sampleBase 0 agedTexts) 2000000000 1 3 oneDay newConfs
    (Younger (sampleBase 0 agedTexts) 2000000000 1 86400 1) := by
  have hlast : lastText (sampleBase 0 agedTexts).mailbox (sampleBase 0 agedTexts).conffile 1 = some 3 := by
    decide +kernel
  have hfirst : firstText (sampleBase 0 agedTexts).disk 1 = some 1 := by decide +kernel
  refine ((cmdOnly_unread_iff hlast hfirst (by decide) (by decide) (fun n => sampleBase_texts)
    agedTexts_parses 2000000000 oneDay).1 86400 (by decide +kernel) (by decide)).mpr ⟨2, ⟨?_, ?_⟩, by decide⟩
  · have htime : (headerAt ((sampleBase 0 agedTexts).textFile 1) 2).map (·.time) = some 1999000010 := by
      decide +kernel
    obtain ⟨th, hth, htime⟩ := Option.map_eq_some_iff.mp htime
    exact ⟨th, hth, by omega⟩
  · rintro n ⟨th, hth, hold⟩
    have haged := headerAt_aged hth
    omega

end SklaffKom
