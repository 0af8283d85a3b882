import SklaffKom.OnlyTexts
import SklaffKom.Lib.Topmost

/-!
# Unreading by subject

`cmd_unreadsub` walks down from `last_text` and makes the texts unread that have a string in their
subject, so many of them if a number and a comma precede the string.  The walk ends above
`first_text`, and a number is whatever ends in a digit before the first comma.
-/

open CString Topmost

namespace SklaffKom

/-- The file of a text, in `Mbox` outside the conferences. -/
def TextBase.openText (t : TextBase) (conf n : Int) : Option CString :=
  if conf > 0 then t.textFile conf n else t.textFile 0 n

/-- `te` where `get_text_entry` fills it. -/
def readEntry (file : CString) : Option TextEntry :=
  match getTextEntry file with
  | .entry te _ => some te
  | _ => none

/-- `max` and `sub` after the count was cut off; `none` where `ptr` runs off the beginning. -/
def cutCount (sub : CString) : Option (Int × CString) :=
  match strchr sub ',' with
  | none => some (1000000, sub)
  | some save =>
    match (sub.take (sub.length - save.length)).reverse.dropWhile (· = ' ') with
    | [] => none
    | c :: before =>
      if c.isDigit then
        -- back to a blank or to the beginning
        some (atol (sub.drop (((c :: before).dropWhile (· ≠ ' ')).length - 1)), ltrim save.tail)
      else some (1000000, sub)

/-- The loop of `cmd_unreadsub`: `count` and the conference file afterwards. -/
def unreadLoop (t : TextBase) (conf : Int) (sub : CString) (max first : Int) :
    Nat → Int → Int → CString → Option (Int × CString)
  | 0, _, count, buf => some (count, buf)
  | fuel + 1, last, count, buf =>
    if last > first then
      match t.openText conf last with
      | none => unreadLoop t conf sub max first fuel (last - 1) count buf
      | some file =>
        match readEntry file with
        | none => none
        | some te =>
          if sub <:+: downString te.th.subject then
            match markAsUnread none last conf buf with
            | none => none
            | some r =>
              if count + r.1 = max then some (count + r.1, r.2)
              else unreadLoop t conf sub max first fuel (last - 1) (count + r.1) r.2
          else unreadLoop t conf sub max first fuel (last - 1) count buf
    else some (count, buf)

inductive UnreadReply where
  | noSubj
  | unread (count : Int)
deriving DecidableEq, Repr

/-- `cmd_unreadsub`; `lastSub` is the subject of the text read last. -/
def cmdUnreadsub (t : TextBase) (conf : Int) (lastSub args buf : CString) :
    Option (UnreadReply × CString) := do
  let sub := if args ≠ [] then args else lastSub
  if sub = [] then pure (.noSubj, buf)
  else
    let (max, sub) ← cutCount (downString sub)
    let first ← firstText t.disk conf
    let last ← lastText t.mailbox t.conffile conf
    let r ← unreadLoop t conf sub max first (last - first).toNat last 0 buf
    pure (.unread r.1, r.2)

/-- The texts that have the string in their subject. -/
def WithSubject (t : TextBase) (conf : Int) (sub : CString) : Set Int :=
  {n | ∃ file te, t.openText conf n = some file ∧ readEntry file = some te ∧
    sub <:+: downString te.th.subject}

/-- Of these the ones that are read. -/
def ReadWith (t : TextBase) (conf : Int) (f : ConfsFile) (sub : CString) : Set Int :=
  {n | n ∈ WithSubject t conf sub ∧ n ∈ f.read conf}

/-- What the user types: a string, or a number, a comma and a string. -/
def subjectArgs : Option Nat → CString → CString
  | none, s => s
  | some k, s => decimal k ++ ',' :: s

/-- The string that is meant, in lower case and without the blanks after the comma. -/
def needle : Option Nat → CString → CString
  | none, s => downString s
  | some _, s => ltrim (downString s)

/-- The texts that are meant. -/
def Wanted (t : TextBase) (conf : Int) (f : ConfsFile) (count : Option Nat) (s : CString) :
    Set Int :=
  match count with
  | none => ReadWith t conf f (needle none s)
  | some k => topmost k (ReadWith t conf f (needle (some k) s))

/-- Exactly the texts in `S` become unread. -/
def Unreads (conf : Int) (f : ConfsFile) (S : Set Int) (r : Option (UnreadReply × CString)) :
    Prop :=
  ∃ count, ∃ g : ConfsFile, r = some (.unread count, g.bytes) ∧ SameBut conf f g ∧
    g.read conf = f.read conf \ S

/-- What is taken where the limit is `rest` higher than the count. -/
def taken (rest : Int) (S : Set Int) : Set Int := if 0 < rest then topmost rest.toNat S else S

/-- The texts that the walk takes; a limit of 0 ends it at the highest text with the string, unless
that one is read. -/
def Scanned (t : TextBase) (conf : Int) (f : ConfsFile) (first max : Int) (sub : CString) :
    Set Int :=
  let S := {n | n ∈ ReadWith t conf f sub ∧ first < n}
  if max = 0 then
    {n | n ∈ S ∧ ∃ m ∈ f.read conf, IsGreatest {n | n ∈ WithSubject t conf sub ∧ first < n} m}
  else taken max S

/-- The condition: without a number, the string is not taken for one, all texts in question are above
`first_text`, and they are at most a million; with 0, the highest of them is not read; with another
number, all are above `first_text`, or as many as are asked for. -/
def SubjectFits (t : TextBase) (conf : Int) (f : ConfsFile) (first : Int) :
    Option Nat → CString → Prop
  | none, s =>
    let S := ReadWith t conf f (downString s)
    (cutCount (downString s) = some (1000000, downString s) ∧ (∀ n ∈ S, first < n) ∧
        S.ncard ≤ 1000000) ∨
      ∃ max sub, cutCount (downString s) = some (max, sub) ∧ sub ≠ downString s ∧
        Scanned t conf f first max sub = S
  | some 0, s =>
    ∀ m, IsGreatest {n | n ∈ WithSubject t conf (ltrim (downString s)) ∧ first < n} m →
      m ∉ f.read conf
  | some (k + 1), s =>
    let S := ReadWith t conf f (ltrim (downString s))
    (∀ n ∈ S, first < n) ∨ k + 1 ≤ {n | n ∈ S ∧ first < n}.ncard

/-! ## The argument -/

theorem downString_append (a b : CString) : downString (a ++ b) = downString a ++ downString b := by
  rw [downString, downString, downString, List.map_append]

/-- Digits are not changed. -/
theorem downString_decimal (k : Nat) : downString (decimal k) = decimal k := by
  rw [downString]
  conv_rhs => rw [← List.map_id (decimal k)]
  apply List.map_congr_left
  intro c hc
  have hdig := mem_decimal_of_nonneg (Int.natCast_nonneg k) hc
  have hlow : ¬ (0x40 < c.toNat ∧ c.toNat < 0x5e) := by
    rw [Char.isDigit_iff_toNat] at hdig
    have h9 : '9'.toNat = 57 := rfl
    omega
  rw [if_neg hlow, id]

/-- A number before the comma is cut off. -/
theorem cutCount_decimal (k : Nat) (s : CString) :
    cutCount (decimal k ++ ',' :: s) = some ((k : Int), ltrim s) := by
  have hdig : ∀ c ∈ decimal k, c.isDigit = true := fun c hc =>
    mem_decimal_of_nonneg (Int.natCast_nonneg k) hc
  have hcomma : ',' ∉ decimal k := fun h => absurd (hdig _ h) (by decide)
  have hblank : ∀ c ∈ (decimal k).reverse, c ≠ ' ' := by
    intro c hc h
    have := hdig c (List.mem_reverse.mp hc)
    rw [h] at this
    cases this
  rw [cutCount, strchr_append hcomma]
  dsimp only
  rw [take_before]
  cases hrev : (decimal k).reverse with
  | nil =>
    rw [List.reverse_eq_nil_iff] at hrev
    exact absurd hrev (decimal_ne_nil k)
  | cons c before =>
    rw [hrev] at hblank
    have hc : c.isDigit = true := hdig c (List.mem_reverse.mp (by rw [hrev]; exact List.mem_cons_self))
    have hdrop : (c :: before).dropWhile (· ≠ ' ') = [] := by
      rw [List.dropWhile_eq_nil_iff]
      intro x hx
      simpa using hblank x hx
    rw [List.dropWhile_cons_of_neg (by simpa using hblank c List.mem_cons_self)]
    dsimp only
    rw [if_pos hc, hdrop, List.length_nil, Nat.zero_sub, List.drop_zero, List.tail_cons,
      atol_decimal _ (noDigit_cons.mpr rfl)]

/-! ## The walk -/

section Walk

variable {t : TextBase} {conf : Int} {sub : CString} {max first last : Int} {f : ConfsFile}

/-- The texts with the string up to `last`. -/
def UpTo (t : TextBase) (conf : Int) (f : ConfsFile) (sub : CString) (first last : Int) : Set Int :=
  {n | n ∈ ReadWith t conf f sub ∧ first < n ∧ n ≤ last}

theorem upTo_finite : (UpTo t conf f sub first last).Finite :=
  (Set.finite_Ioc first last).subset fun _ hn => hn.2

theorem upTo_empty (h : ¬ last > first) : UpTo t conf f sub first last = ∅ := by
  ext n
  refine iff_of_false ?_ (Set.notMem_empty n)
  rintro ⟨-, h1, h2⟩
  omega

/-- A number that is not taken. -/
theorem upTo_skip (h : last ∉ ReadWith t conf f sub) :
    UpTo t conf f sub first last = UpTo t conf f sub first (last - 1) := by
  ext n
  refine and_congr_right fun hn => and_congr_right fun _ => ?_
  have hne : n ≠ last := fun heq => h (heq ▸ hn)
  omega

theorem upTo_take (hgo : last > first) (h : last ∈ ReadWith t conf f sub) :
    UpTo t conf f sub first last = insert last (UpTo t conf f sub first (last - 1)) := by
  ext n
  rw [Set.mem_insert_iff]
  by_cases hn : n = last
  · subst hn
    exact iff_of_true ⟨h, hgo, le_rfl⟩ (Or.inl rfl)
  · rw [or_iff_right hn]
    refine and_congr_right fun _ => and_congr_right fun _ => ?_
    omega

/-- After `last` has become unread nothing else is different below it. -/
theorem upTo_congr {g : ConfsFile} (hread : ∀ n, n < last → (n ∈ g.read conf ↔ n ∈ f.read conf)) :
    UpTo t conf g sub first (last - 1) = UpTo t conf f sub first (last - 1) := by
  ext n
  constructor
  · rintro ⟨⟨hw, hn⟩, h1, h2⟩
    exact ⟨⟨hw, (hread n (by omega)).mp hn⟩, h1, h2⟩
  · rintro ⟨⟨hw, hn⟩, h1, h2⟩
    exact ⟨⟨hw, (hread n (by omega)).mpr hn⟩, h1, h2⟩

/-- One turn at a text that has not the string. -/
theorem unreadLoop_skip (hparse : ∀ n file, t.openText conf n = some file →
    ∃ te, readEntry file = some te) (hgo : last > first) (h : last ∉ WithSubject t conf sub)
    (fuel : Nat) (count : Int) (buf : CString) :
    unreadLoop t conf sub max first (fuel + 1) last count buf =
      unreadLoop t conf sub max first fuel (last - 1) count buf := by
  rw [unreadLoop, if_pos hgo]
  cases hfile : t.openText conf last with
  | none => rfl
  | some file =>
    obtain ⟨te, hte⟩ := hparse last file hfile
    simp only [hte]
    rw [if_neg fun hsub => h ⟨file, te, hfile, hte, hsub⟩]

/-- One turn at a text that has the string. -/
theorem unreadLoop_mark (hgo : last > first) (h : last ∈ WithSubject t conf sub) (fuel : Nat)
    (count : Int) {buf : CString} {r : Int × CString} (hmark : markAsUnread none last conf buf = some r) :
    unreadLoop t conf sub max first (fuel + 1) last count buf =
      if count + r.1 = max then some (count + r.1, r.2)
      else unreadLoop t conf sub max first fuel (last - 1) (count + r.1) r.2 := by
  obtain ⟨file, te, hfile, hte, hsub⟩ := h
  rw [unreadLoop, if_pos hgo]
  simp only [hfile, hte, if_pos hsub, hmark]

/-- What a turn at a read text with the string leaves. -/
theorem markAsUnread_last (h : last ∈ f.read conf) :
    ∃ g : ConfsFile, markAsUnread none last conf f.bytes = some (1, g.bytes) ∧ SameBut conf f g ∧
      g.read conf = f.read conf \ {last} ∧
      ∀ n, n < last → (n ∈ g.read conf ↔ n ∈ f.read conf) := by
  obtain ⟨g, hmark, hsame, hread⟩ := f.markAsUnread_bytes_read h
  refine ⟨g, hmark, hsame, hread, fun n hn => ?_⟩
  rw [hread]
  exact and_iff_left fun heq => by
    have : n = last := heq
    omega

theorem taken_empty (rest : Int) : taken rest ∅ = ∅ := by
  rw [taken]
  split
  · exact Set.subset_empty_iff.mp topmost_subset
  · rfl

/-- One more is taken; the limit is not reached before. -/
theorem taken_insert {S : Set Int} (hfin : S.Finite) (hbelow : ∀ n ∈ S, n < last) {rest : Int}
    (hrest : rest ≠ 0) :
    taken rest (insert last S) = insert last (if rest = 1 then ∅ else taken (rest - 1) S) := by
  rw [taken]
  by_cases hpos : 0 < rest
  · obtain ⟨k, rfl⟩ : ∃ k : Nat, rest = k + 1 := ⟨(rest - 1).toNat, by omega⟩
    rw [if_pos hpos, show ((k : Int) + 1).toNat = k + 1 by omega, topmost_insert hfin hbelow]
    by_cases hk : k = 0
    · rw [if_pos (by omega), hk, topmost_zero]
    · rw [if_neg (by omega), taken, if_pos (by omega), show ((k : Int) + 1 - 1).toNat = k by omega]
  · rw [if_neg hpos, if_neg (by omega), taken, if_neg (by omega)]

/-- The walk, while the limit is not reached. -/
theorem unreadLoop_taken (sub : CString) (hparse : ∀ n file, t.openText conf n = some file →
    ∃ te, readEntry file = some te) (fuel : Nat) {count : Int} (hmax : max - count ≠ 0)
    (hfuel : last - first ≤ fuel) :
    ∃ r, ∃ g : ConfsFile, unreadLoop t conf sub max first fuel last count f.bytes = some (r, g.bytes) ∧
      SameBut conf f g ∧
      g.read conf = f.read conf \ taken (max - count) (UpTo t conf f sub first last) := by
  induction fuel generalizing last count f with
  | zero =>
    refine ⟨count, f, rfl, .refl _ _, ?_⟩
    rw [upTo_empty (by omega), taken_empty, Set.sdiff_empty]
  | succ fuel ih =>
    by_cases hgo : last > first
    · by_cases hw : last ∈ WithSubject t conf sub
      · by_cases hr : last ∈ f.read conf
        · have hbelow : ∀ n ∈ UpTo t conf f sub first (last - 1), n < last := by
            rintro n ⟨-, -, hle⟩
            omega
          obtain ⟨g, hmark, hsame, hread, hbelow'⟩ := markAsUnread_last hr
          rw [upTo_take hgo ⟨hw, hr⟩, taken_insert upTo_finite hbelow hmax]
          by_cases hlast : max - count = 1
          · refine ⟨count + 1, g, ?_, hsame, ?_⟩
            · rw [unreadLoop_mark hgo hw fuel count hmark, if_pos (by dsimp only; omega)]
            · rw [hread, if_pos hlast, insert_empty_eq]
          · obtain ⟨r, g', hrun, hsame', hread'⟩ := ih (f := g)
              (show max - (count + 1) ≠ 0 by omega) (show last - 1 - first ≤ fuel by omega)
            refine ⟨r, g', ?_, hsame.trans hsame', ?_⟩
            · rw [unreadLoop_mark hgo hw fuel count hmark, if_neg (by dsimp only; omega)]
              exact hrun
            · rw [hread', upTo_congr hbelow', hread, if_neg hlast, Set.sdiff_sdiff,
                Set.singleton_union, show max - (count + 1) = max - count - 1 by omega]
        · obtain ⟨r, g', hrun, hsame', hread'⟩ := ih (f := f) hmax
            (show last - 1 - first ≤ fuel by omega)
          refine ⟨r, g', ?_, hsame', ?_⟩
          · rw [unreadLoop_mark hgo hw fuel count (f.markAsUnread_bytes_same hr), Int.add_zero,
              if_neg (by omega)]
            exact hrun
          · rw [hread', upTo_skip fun h => hr h.2]
      · obtain ⟨r, g', hrun, hsame', hread'⟩ := ih (f := f) hmax
            (show last - 1 - first ≤ fuel by omega)
        refine ⟨r, g', ?_, hsame', ?_⟩
        · rw [unreadLoop_skip hparse hgo hw]
          exact hrun
        · rw [hread', upTo_skip fun h => hw h.1]
    · refine ⟨count, f, ?_, .refl _ _, ?_⟩
      · rw [unreadLoop, if_neg hgo]
      · rw [upTo_empty hgo, taken_empty, Set.sdiff_empty]

/-- The highest text with the string, read or not. -/
def IsHighest (t : TextBase) (conf : Int) (sub : CString) (first last m : Int) : Prop :=
  IsGreatest {n | n ∈ WithSubject t conf sub ∧ first < n ∧ n ≤ last} m

/-- The walk with the limit reached at the beginning: it ends at the highest text with the string
where that is unread, and has no limit otherwise. -/
theorem unreadLoop_zero (sub : CString) (hparse : ∀ n file, t.openText conf n = some file →
    ∃ te, readEntry file = some te) (fuel : Nat) (hfuel : last - first ≤ fuel) :
    ∃ r, ∃ g : ConfsFile, unreadLoop t conf sub 0 first fuel last 0 f.bytes = some (r, g.bytes) ∧
      SameBut conf f g ∧ g.read conf = f.read conf \
        {n | n ∈ UpTo t conf f sub first last ∧
          ∃ m ∈ f.read conf, IsHighest t conf sub first last m} := by
  induction fuel generalizing last with
  | zero =>
    refine ⟨0, f, rfl, .refl _ _, ?_⟩
    rw [upTo_empty (by omega)]
    simp
  | succ fuel ih =>
    by_cases hgo : last > first
    · by_cases hw : last ∈ WithSubject t conf sub
      · have hhighest : IsHighest t conf sub first last last :=
          ⟨⟨hw, hgo, le_rfl⟩, fun n hn => hn.2.2⟩
        by_cases hr : last ∈ f.read conf
        · obtain ⟨g, hmark, hsame, hread, hbelow⟩ := markAsUnread_last hr
          obtain ⟨r, g', hrun, hsame', hread'⟩ := unreadLoop_taken (f := g) sub hparse
            fuel (show (0 : Int) - 1 ≠ 0 by decide) (show last - 1 - first ≤ fuel by omega)
          refine ⟨r, g', ?_, hsame.trans hsame', ?_⟩
          · rw [unreadLoop_mark hgo hw fuel 0 hmark, if_neg (show ¬ (0 : Int) + 1 = 0 by decide)]
            exact hrun
          · rw [hread', upTo_congr hbelow, hread, taken, if_neg (by decide), Set.sdiff_sdiff,
              Set.singleton_union, ← upTo_take hgo ⟨hw, hr⟩]
            congr 1
            ext n
            exact (and_iff_left ⟨last, hr, hhighest⟩).symm
        · refine ⟨0, f, ?_, .refl _ _, ?_⟩
          · rw [unreadLoop_mark hgo hw fuel 0 (f.markAsUnread_bytes_same hr),
              if_pos (show (0 : Int) + 0 = 0 from rfl)]
            rfl
          · have hnone : {n | n ∈ UpTo t conf f sub first last ∧
                ∃ m ∈ f.read conf, IsHighest t conf sub first last m} = ∅ := by
              ext n
              refine iff_of_false ?_ (Set.notMem_empty n)
              rintro ⟨-, m, hm, hhigh⟩
              exact hr (hhigh.unique hhighest ▸ hm)
            rw [hnone, Set.sdiff_empty]
      · obtain ⟨r, g', hrun, hsame', hread'⟩ := ih
          (show last - 1 - first ≤ fuel by omega)
        refine ⟨r, g', ?_, hsame', ?_⟩
        · rw [unreadLoop_skip hparse hgo hw]
          exact hrun
        · have hset : {n | n ∈ WithSubject t conf sub ∧ first < n ∧ n ≤ last} =
              {n | n ∈ WithSubject t conf sub ∧ first < n ∧ n ≤ last - 1} := by
            ext n
            refine and_congr_right fun hn => and_congr_right fun _ => ?_
            have hne : n ≠ last := fun heq => hw (heq ▸ hn)
            omega
          unfold IsHighest at hread' ⊢
          rw [hread', upTo_skip fun h => hw h.1, hset]
    · refine ⟨0, f, ?_, .refl _ _, ?_⟩
      · rw [unreadLoop, if_neg hgo]
      · rw [upTo_empty hgo]
        simp

theorem openText_eq (hconf : 0 ≤ conf) (n : Int) : t.openText conf n = t.textFile conf n := by
  rw [TextBase.openText]
  split
  · rfl
  · rw [show conf = 0 by omega]

/-- The command takes what the walk takes. -/
theorem cmdUnreadsub_scanned (hconf : 0 ≤ conf)
    (hlast : lastText t.mailbox t.conffile conf = some last)
    (hfirst : firstText t.disk conf = some first)
    (htexts : ∀ n, t.disk.texts conf n → 1 ≤ n ∧ n ≤ last)
    (hparse : ∀ n file, t.openText conf n = some file → ∃ te, readEntry file = some te)
    {lastSub args : CString} (hargs : (if args ≠ [] then args else lastSub) ≠ [])
    (hcut : cutCount (downString (if args ≠ [] then args else lastSub)) = some (max, sub)) :
    Unreads conf f (Scanned t conf f first max sub) (cmdUnreadsub t conf lastSub args f.bytes) := by
  have hin : ∀ n ∈ WithSubject t conf sub, n ≤ last := by
    rintro n ⟨file, te, hfile, -, -⟩
    apply (htexts n _).2
    rw [openText_eq hconf] at hfile
    simp only [Disk.texts, TextBase.disk, hfile, Option.isSome_some]
  have hupTo : UpTo t conf f sub first last = {n | n ∈ ReadWith t conf f sub ∧ first < n} := by
    ext n
    exact and_congr_right fun hn => and_iff_left (hin n hn.1)
  have hhighest : ∀ m, IsHighest t conf sub first last m ↔
      IsGreatest {n | n ∈ WithSubject t conf sub ∧ first < n} m := by
    intro m
    rw [IsHighest, show {n | n ∈ WithSubject t conf sub ∧ first < n ∧ n ≤ last} =
      {n | n ∈ WithSubject t conf sub ∧ first < n} from Set.ext fun n =>
        and_congr_right fun hn => and_iff_left (hin n hn)]
  have hloop : ∃ r, ∃ g : ConfsFile, unreadLoop t conf sub max first (last - first).toNat last 0
      f.bytes = some (r, g.bytes) ∧ SameBut conf f g ∧
        g.read conf = f.read conf \ Scanned t conf f first max sub := by
    rw [Scanned]
    by_cases hmax : max = 0
    · subst hmax
      obtain ⟨r, g, hrun, hsame, hread⟩ := unreadLoop_zero (f := f) sub hparse
        (last - first).toNat (show last - first ≤ (last - first).toNat by omega)
      refine ⟨r, g, hrun, hsame, ?_⟩
      rw [hread, if_pos rfl, hupTo]
      simp only [hhighest]
    · obtain ⟨r, g, hrun, hsame, hread⟩ := unreadLoop_taken (f := f) sub hparse
        (last - first).toNat (show max - 0 ≠ 0 by omega)
        (show last - first ≤ (last - first).toNat by omega)
      refine ⟨r, g, hrun, hsame, ?_⟩
      rw [hread, if_neg hmax, hupTo, Int.sub_zero]
  obtain ⟨r, g, hrun, hsame, hread⟩ := hloop
  refine ⟨r, g, ?_, hsame, hread⟩
  rw [cmdUnreadsub]
  simp only [if_neg hargs, hcut, hfirst, hlast, Option.bind_eq_bind, Option.bind_some, hrun,
    Option.pure_def]

/-- What becomes unread is determined. -/
theorem unreads_iff {S S' : Set Int} {r : Option (UnreadReply × CString)} (h : Unreads conf f S r)
    (hS : S ⊆ f.read conf) (hS' : S' ⊆ f.read conf) : Unreads conf f S' r ↔ S = S' := by
  obtain ⟨count, g, hrun, hsame, hread⟩ := h
  constructor
  · rintro ⟨count', g', hrun', -, hread'⟩
    rw [hrun, Option.some.injEq, Prod.mk.injEq] at hrun'
    rw [← ConfsFile.bytes_injective hrun'.2, hread] at hread'
    rw [← Set.sdiff_sdiff_cancel_left hS, hread', Set.sdiff_sdiff_cancel_left hS']
  · rintro rfl
    exact ⟨count, g, hrun, hsame, hread⟩

/-- Without a count nothing is cut off. -/
theorem cutCount_cases {s : CString} (h : cutCount s = some (max, sub)) :
    max = 1000000 ∧ sub = s ∨ sub ≠ s := by
  rw [cutCount] at h
  cases hcomma : strchr s ',' with
  | none =>
    simp only [hcomma, Option.some.injEq, Prod.mk.injEq] at h
    exact Or.inl ⟨h.1.symm, h.2.symm⟩
  | some save =>
    simp only [hcomma] at h
    split at h
    · cases h
    · split at h
      · right
        rintro rfl
        rw [Option.some.injEq, Prod.mk.injEq] at h
        -- the comma itself is gone
        have hsave : save.length ≤ sub.length := (strchr_suffix hcomma).length_le
        obtain ⟨rest, rfl⟩ := strchr_eq_some hcomma
        have hlen : (ltrim rest).length ≤ rest.length := (List.dropWhile_suffix _).length_le
        rw [List.tail_cons] at h
        rw [h.2] at hlen
        rw [List.length_cons] at hsave
        omega
      · rw [Option.some.injEq, Prod.mk.injEq] at h
        exact Or.inl ⟨h.1.symm, h.2.symm⟩

/-- The walk of all texts above `first_text` gives the wanted ones. -/
theorem taken_eq_iff {S : Set Int} (hfin : S.Finite) {k : Nat} (hk : 0 < k) :
    taken k {n | n ∈ S ∧ first < n} = S ↔ (∀ n ∈ S, first < n) ∧ S.ncard ≤ k := by
  rw [taken, if_pos (by omega), Int.toNat_natCast]
  constructor
  · intro h
    have habove : ∀ n ∈ S, first < n := fun n hn => (topmost_subset (h.symm ▸ hn)).2
    refine ⟨habove, ?_⟩
    rw [show {n | n ∈ S ∧ first < n} = S from Set.ext fun n =>
      and_iff_left_of_imp (habove n)] at h
    exact (topmost_eq_self_iff hfin).mp h
  · rintro ⟨habove, hcard⟩
    rw [show {n | n ∈ S ∧ first < n} = S from Set.ext fun n => and_iff_left_of_imp (habove n)]
    exact (topmost_eq_self_iff hfin).mpr hcard

/-- What a limit of 0 takes. -/
theorem scanned_zero_iff : Scanned t conf f first 0 sub = ∅ ↔
    ∀ m, IsGreatest {n | n ∈ WithSubject t conf sub ∧ first < n} m → m ∉ f.read conf := by
  rw [Scanned, if_pos rfl]
  constructor
  · intro h m hm hread
    have hin : m ∈ (∅ : Set Int) := h ▸ ⟨⟨⟨hm.1.1, hread⟩, hm.1.2⟩, m, hread, hm⟩
    exact hin
  · intro h
    ext n
    refine iff_of_false ?_ (Set.notMem_empty n)
    rintro ⟨-, m, hread, hm⟩
    exact h m hm hread

theorem scanned_subset : Scanned t conf f first max sub ⊆ f.read conf := by
  rw [Scanned]
  split
  · exact fun n hn => hn.1.1.2
  · rw [taken]
    split
    · exact fun n hn => (topmost_subset hn).1.2
    · exact fun n hn => hn.1.2

theorem wanted_subset {count : Option Nat} {s : CString} :
    Wanted t conf f count s ⊆ f.read conf := by
  cases count with
  | none => exact fun n hn => hn.2
  | some k => exact fun n hn => (topmost_subset hn).2

/-- In lower case a count is still the same count. -/
theorem downString_subjectArgs (k : Nat) (s : CString) :
    downString (subjectArgs (some k) s) = decimal k ++ ',' :: downString s := by
  rw [subjectArgs, downString_append, downString_decimal]
  rfl

/-- The walk takes just what is meant. -/
theorem scanned_eq_wanted_iff (hfin : ∀ sub, (ReadWith t conf f sub).Finite)
    {count : Option Nat} {s : CString} (hcut : cutCount (downString (subjectArgs count s)) =
      some (max, sub)) :
    Scanned t conf f first max sub = Wanted t conf f count s ↔
      SubjectFits t conf f first count s := by
  cases count with
  | none =>
    rw [subjectArgs] at hcut
    rw [Wanted, needle, SubjectFits]
    rcases cutCount_cases hcut with ⟨rfl, rfl⟩ | hne
    · rw [Scanned, if_neg (by decide), show (1000000 : Int) = ((1000000 : Nat) : Int) from rfl,
        taken_eq_iff (hfin _) (by decide)]
      constructor
      · exact fun h => Or.inl ⟨hcut, h⟩
      · rintro (⟨-, h⟩ | ⟨max', sub', hcut', hne', -⟩)
        · exact h
        · rw [hcut, Option.some.injEq, Prod.mk.injEq] at hcut'
          exact absurd hcut'.2.symm hne'
    · constructor
      · exact fun h => Or.inr ⟨max, sub, hcut, hne, h⟩
      · rintro (⟨hcut', -⟩ | ⟨max', sub', hcut', -, h⟩)
        · rw [hcut, Option.some.injEq, Prod.mk.injEq] at hcut'
          exact absurd hcut'.2 hne
        · rw [hcut, Option.some.injEq, Prod.mk.injEq] at hcut'
          rw [hcut'.1, hcut'.2]
          exact h
  | some k =>
    rw [downString_subjectArgs, cutCount_decimal, Option.some.injEq, Prod.mk.injEq] at hcut
    rw [← hcut.1, ← hcut.2, Wanted, needle]
    cases k with
    | zero =>
      rw [topmost_zero, SubjectFits, Int.natCast_zero]
      exact scanned_zero_iff
    | succ k =>
      rw [Scanned, if_neg (by omega), taken, if_pos (by omega), Int.toNat_natCast, SubjectFits]
      exact topmost_upper_iff (hfin _)

end Walk

/-- The only text of the conference is read. -/
def rubrikConfs : ConfsFile where
  entries := [⟨0, []⟩, ⟨1, [⟨1, 1⟩]⟩]
  marks := by decide
  distinct := by decide

def rubrik : CString := "rubrik".toList

theorem freshBase_entries (n : Int) (file : CString) (h : freshBase.openText 1 n = some file) :
    ∃ te, readEntry file = some te := by
  rw [TextBase.openText, if_pos (by decide)] at h
  rw [(freshBase_file h).2]
  exact Option.isSome_iff_exists.mp (by decide +kernel)

/-- Three texts, all of them read. -/
def agedConfs : ConfsFile where
  entries := [⟨0, []⟩, ⟨1, [⟨1, 3⟩]⟩]
  marks := by decide
  distinct := by decide

theorem agedTexts_entries (n : Int) (file : CString) (h : (sampleBase 0 agedTexts).openText 1 n = some file) :
    ∃ te, readEntry file = some te := by
  rw [TextBase.openText, if_pos (by decide)] at h
  have hall : ∀ file ∈ agedTexts, (readEntry file).isSome = true := by decide +kernel
  exact Option.isSome_iff_exists.mp (hall file (List.mem_of_getElem? (sampleBase_file h).2.2))

end SklaffKom
