import SklaffKom.ConfStruct
import SklaffKom.FirstText
import SklaffKom.ShowText

/-!
# Purging old texts

`sklaffadm purge` deletes the texts of a conference, or of all conferences, that are older than the
life of the conference.  It walks up from `first_text`, leaves the last `ntext` numbers and the
surveys, and stops at the first text that is young enough.  The life in seconds is the product of
two `int`s.
-/

open CString

namespace SklaffKom

/-- `life * 86400`, as the product of `int`s comes out where it overflows. -/
def lifeSeconds (life : Int) : Int := (life * 86400).bmod (2 ^ 32)

/-- The loop over the texts of a conference: the directory and `ttext` afterwards. -/
def purgeTexts (now life ltext : Int) :
    Nat → Int → (Int → Option CString) → Int → Option ((Int → Option CString) × Int)
  | 0, _, dir, ttext => some (dir, ttext)
  | fuel + 1, ftext, dir, ttext =>
    if ftext < ltext ∧ life ≠ 0 then
      match dir ftext with
      | none => purgeTexts now life ltext fuel (ftext + 1) dir ttext
      | some file =>
        match textHeader file with
        | none => none
        | some th =>
          if th.time + lifeSeconds life < now then
            -- surveys stay
            if th.type = typeText then
              purgeTexts now life ltext fuel (ftext + 1) (Function.update dir ftext none) (ttext + 1)
            else purgeTexts now life ltext fuel (ftext + 1) dir ttext
          else some (dir, ttext)
    else some (dir, ttext)

/-- What is done for one conference. -/
def purgeConf (now ntext : Int) (ce : ConfEntry) (s : TextBase × Int) : Option (TextBase × Int) :=
  do
    let ftext ← firstText s.1.disk ce.num
    let last ← lastText s.1.mailbox s.1.conffile ce.num
    let ltext := last - ntext + 1
    let r ← purgeTexts now ce.life ltext (ltext - ftext).toNat ftext (s.1.textFile ce.num) s.2
    pure ({ s.1 with textFile := Function.update s.1.textFile ce.num r.1 }, r.2)

def purgeConfs (now ntext : Int) : Nat → CString → TextBase × Int → Option (TextBase × Int)
  | 0, _, s => some s
  | fuel + 1, buf, s =>
    match getConfEntry buf with
    | .crash => none
    | .null => some s
    | .entry ce next =>
      match purgeConf now ntext ce s with
      | none => none
      | some s => purgeConfs now ntext fuel next s

inductive PurgeReply where
  | argErr
  | wrongConf
  | delTexts (ttext : Int)
deriving DecidableEq, Repr

/-- The static record of `get_conf_struct` before the first call. -/
def noConf : ConfEntry := ⟨0, 0, 0, 0, 0, 0, 0, []⟩

/-- `sklaffadm purge conf ntext` at the time `now`; -1 stands for all conferences. -/
def purge (t : TextBase) (now conf ntext : Int) : Option (TextBase × PurgeReply) :=
  if ntext ≥ 0 ∧ conf ≠ 0 then
    if conf > 0 then do
      let cname ← confName [] noConf conf t.conffile
      if cname = none then pure (t, .wrongConf)
      else
        let ce2 ← ← getConfStruct conf t.conffile
        let s ← purgeConf now ntext ce2 (t, 0)
        pure (s.1, .delTexts s.2)
    else if conf ≠ -1 then some (t, .wrongConf)
    else do
      let s ← purgeConfs now ntext (t.conffile.length + 1) t.conffile (t, 0)
      pure (s.1, .delTexts s.2)
  else some (t, .argErr)

/-- An ordinary text outside the last `ntext` numbers whose lifetime has passed. -/
def Purgeable (t : TextBase) (now ntext : Int) (e : ConfEntry) (n : Int) : Prop :=
  e.life ≠ 0 ∧ n ≤ e.lastText - ntext ∧ ∃ th, headerAt (t.textFile e.num) n = some th ∧
    th.type = typeText ∧ th.time + e.life * 86400 < now

/-- Only purgeable texts are deleted, and all of them are where no four consecutive numbers after
the first text are missing. -/
structure PurgedRight (t t' : TextBase) (now ntext : Int) (e : ConfEntry) : Prop where
  safe : ∀ n, t'.textFile e.num n = t.textFile e.num n ∨
    Purgeable t now ntext e n ∧ t'.textFile e.num n = none
  complete : ∀ m, IsLeast {n | t.disk.texts e.num n} m →
    NoLongGap (t.disk.fileExists e.num) m e.lastText →
      ∀ n, Purgeable t now ntext e n → t'.textFile e.num n = none

/-- No ordinary text that the walk comes to is too young by its life and old enough by the product
of `int`s. -/
def LifeFits (t : TextBase) (now ntext : Int) (e : ConfEntry) : Prop :=
  e.life ≠ 0 → ∀ first, firstText t.disk e.num = some first → ∀ n, first ≤ n →
    n ≤ e.lastText - ntext → ∀ th, headerAt (t.textFile e.num) n = some th → th.type = typeText →
      th.time + lifeSeconds e.life < now → th.time + e.life * 86400 < now

/-- The texts of a conference: they have headers, are numbered up to `last_text`, and are in the
order of their times. -/
structure ConfTexts (t : TextBase) (e : ConfEntry) : Prop where
  parses : ∀ n file, t.textFile e.num n = some file → ∃ th, textHeader file = some th
  numbered : ∀ n, t.disk.texts e.num n → 1 ≤ n ∧ n ≤ e.lastText
  ordered : ∀ m n thm thn, m ≤ n → headerAt (t.textFile e.num) m = some thm →
    headerAt (t.textFile e.num) n = some thn → thm.time ≤ thn.time

/-- The conferences that `purge conf` is about. -/
def Selected (conf : Int) (e : ConfEntry) : Prop := conf = -1 ∨ e.num = conf

/-! ## The texts of one conference -/

/-- The product of `int`s is never greater than the life in seconds. -/
theorem lifeSeconds_le {life : Int} (h : 0 ≤ life) : lifeSeconds life ≤ life * 86400 := by
  rw [lifeSeconds, Int.bmod_def]
  split
  · omega
  · omega

/-- The product does not overflow for less than 24856 days. -/
theorem lifeSeconds_eq {life : Int} (h : 0 ≤ life) (hlt : life < 24856) :
    lifeSeconds life = life * 86400 := by
  apply Int.bmod_eq_of_le
  · omega
  · omega

/-- A directory without the files in `P`. -/
structure Purges (dir dir' : Int → Option CString) (P : Int → Prop) : Prop where
  gone : ∀ n, P n → dir' n = none
  kept : ∀ n, ¬ P n → dir' n = dir n

section Texts

variable {now life ltext ftext n : Int} {dir : Int → Option CString}

/-- What the walk from `ftext` on deletes: it comes to `n`, since all texts before it are old
enough. -/
structure PurgedFrom (now life ltext : Int) (dir : Int → Option CString) (ftext n : Int) :
    Prop where
  live : life ≠ 0
  low : ftext ≤ n
  high : n < ltext
  ordinary : ∃ th, headerAt dir n = some th ∧ th.type = typeText
  old : ∀ k, ftext ≤ k → k ≤ n → ∀ th, headerAt dir k = some th →
    th.time + lifeSeconds life < now

/-- The walk goes on past a number where nothing is too young. -/
theorem purgedFrom_next {dir' : Int → Option CString} (hne : n ≠ ftext)
    (hsame : ∀ k, k ≠ ftext → dir' k = dir k)
    (hold : ∀ th, headerAt dir ftext = some th → th.time + lifeSeconds life < now) :
    PurgedFrom now life ltext dir' (ftext + 1) n ↔ PurgedFrom now life ltext dir ftext n := by
  have hheader : ∀ k, ftext + 1 ≤ k → headerAt dir' k = headerAt dir k := by
    intro k hk
    rw [headerAt, headerAt, hsame k (by omega)]
  constructor
  · intro h
    refine ⟨h.live, by have := h.low; omega, h.high, ?_, fun k hlow hhigh th hth => ?_⟩
    · rw [← hheader n h.low]
      exact h.ordinary
    · by_cases hk : k = ftext
      · subst hk
        exact hold th hth
      · exact h.old k (by omega) hhigh th ((hheader k (by omega)).trans hth)
  · intro h
    have hlow : ftext + 1 ≤ n := by
      have := h.low
      omega
    refine ⟨h.live, hlow, h.high, ?_, fun k hk hhigh th hth => ?_⟩
    · rw [hheader n hlow]
      exact h.ordinary
    · exact h.old k (by omega) hhigh th ((hheader k hk).symm.trans hth)

theorem Purges.next {dir₁ dir' : Int → Option CString}
    (h : Purges dir₁ dir' (PurgedFrom now life ltext dir₁ (ftext + 1)))
    (hsame : ∀ k, k ≠ ftext → dir₁ k = dir k)
    (hold : ∀ th, headerAt dir ftext = some th → th.time + lifeSeconds life < now)
    (hgone : PurgedFrom now life ltext dir ftext ftext → dir₁ ftext = none)
    (hkept : ¬ PurgedFrom now life ltext dir ftext ftext → dir₁ ftext = dir ftext) :
    Purges dir dir' (PurgedFrom now life ltext dir ftext) := by
  have hpassed : dir' ftext = dir₁ ftext := by
    apply h.kept
    intro hn
    have := hn.low
    omega
  refine ⟨fun n hn => ?_, fun n hn => ?_⟩
  · by_cases hne : n = ftext
    · subst hne
      exact hpassed.trans (hgone hn)
    · exact h.gone n ((purgedFrom_next hne hsame hold).mpr hn)
  · by_cases hne : n = ftext
    · subst hne
      exact hpassed.trans (hkept hn)
    · exact (h.kept n fun hn' => hn ((purgedFrom_next hne hsame hold).mp hn')).trans (hsame n hne)

/-- The walk deletes what it should, up to the first text that is too young. -/
theorem purgeTexts_purges (now life : Int) (fuel : Nat) (ttext : Int) (hfuel : ltext - ftext ≤ fuel)
    (hparse : ∀ n file, dir n = some file → ∃ th, textHeader file = some th) :
    ∃ dir' ttext', purgeTexts now life ltext fuel ftext dir ttext = some (dir', ttext') ∧
      Purges dir dir' (PurgedFrom now life ltext dir ftext) := by
  induction fuel generalizing ftext dir ttext with
  | zero =>
    refine ⟨dir, ttext, rfl, fun n hn => ?_, fun n _ => rfl⟩
    have hlow := hn.low
    have hhigh := hn.high
    omega
  | succ fuel ih =>
    rw [purgeTexts]
    by_cases hgo : ftext < ltext ∧ life ≠ 0
    · rw [if_pos hgo]
      cases hfile : dir ftext with
      | none =>
        have hhead : headerAt dir ftext = none := by rw [headerAt, hfile, Option.bind_none]
        obtain ⟨dir', k, hrun, hp⟩ := ih ttext (show ltext - (ftext + 1) ≤ fuel by omega) hparse
        refine ⟨dir', k, hrun, hp.next (fun _ _ => rfl) (fun th hth => ?_) (fun _ => hfile)
          fun _ => rfl⟩
        rw [hhead] at hth
        cases hth
      | some file =>
        obtain ⟨th, hth⟩ := hparse ftext file hfile
        have hhead : headerAt dir ftext = some th := by
          rw [headerAt, hfile, Option.bind_some, hth]
        simp only [hth]
        by_cases hold : th.time + lifeSeconds life < now
        · rw [if_pos hold]
          have hpass : ∀ th', headerAt dir ftext = some th' →
              th'.time + lifeSeconds life < now := by
            intro th' hth'
            rw [hhead, Option.some.injEq] at hth'
            rwa [← hth']
          by_cases htype : th.type = typeText
          · rw [if_pos htype]
            have hother : ∀ k, k ≠ ftext → Function.update dir ftext none k = dir k :=
              fun k hk => Function.update_of_ne hk none dir
            have hparse' : ∀ n file, Function.update dir ftext none n = some file →
                ∃ th, textHeader file = some th := by
              intro n file' hn
              by_cases hne : n = ftext
              · rw [hne, Function.update_self] at hn
                cases hn
              · exact hparse n file' ((hother n hne).symm.trans hn)
            obtain ⟨dir', k, hrun, hp⟩ := ih (ttext + 1)
              (show ltext - (ftext + 1) ≤ fuel by omega) hparse'
            refine ⟨dir', k, hrun, hp.next hother hpass (fun _ => Function.update_self ..) ?_⟩
            intro hself
            refine absurd ⟨hgo.2, le_rfl, hgo.1, ⟨th, hhead, htype⟩, fun j h1 h2 => ?_⟩ hself
            rw [show j = ftext by omega]
            exact hpass
          · rw [if_neg htype]
            obtain ⟨dir', k, hrun, hp⟩ := ih ttext
              (show ltext - (ftext + 1) ≤ fuel by omega) hparse
            refine ⟨dir', k, hrun, hp.next (fun _ _ => rfl) hpass (fun hself => ?_) fun _ => rfl⟩
            obtain ⟨th', hth', htext⟩ := hself.ordinary
            rw [hhead, Option.some.injEq] at hth'
            exact absurd (hth' ▸ htext) htype
        · rw [if_neg hold]
          refine ⟨dir, ttext, rfl, fun n hn => ?_, fun n _ => rfl⟩
          exact absurd (hn.old ftext le_rfl hn.low th hhead) hold
    · rw [if_neg hgo]
      refine ⟨dir, ttext, rfl, fun n hn => ?_, fun n _ => rfl⟩
      have hlow := hn.low
      have hhigh := hn.high
      exact absurd ⟨by omega, hn.live⟩ hgo

end Texts

/-! ## The conferences -/

section Confs

variable {t t' : TextBase} {now ntext conf : Int} {e : ConfEntry} {es : List ConfEntry}

/-- What is deleted in a conference. -/
def PurgedIn (t : TextBase) (now ntext : Int) (e : ConfEntry) (n : Int) : Prop :=
  ∃ first, firstText t.disk e.num = some first ∧
    PurgedFrom now e.life (e.lastText - ntext + 1) (t.textFile e.num) first n

/-- Only the texts of the conferences in `bs` are deleted. -/
structure PurgesConfs (t t' : TextBase) (now ntext : Int) (bs : List ConfEntry) : Prop where
  same : t' = { t with textFile := t'.textFile }
  other : ∀ c, (∀ e ∈ bs, c ≠ e.num) → t'.textFile c = t.textFile c
  purges : ∀ e ∈ bs, Purges (t.textFile e.num) (t'.textFile e.num) (PurgedIn t now ntext e)

theorem purgeConf_purges (now ntext : Int)
    (hlast : lastText t.mailbox t.conffile e.num = some e.lastText)
    (hparse : ∀ n file, t.textFile e.num n = some file → ∃ th, textHeader file = some th)
    (ttext : Int) :
    ∃ t' ttext', purgeConf now ntext e (t, ttext) = some (t', ttext') ∧
      PurgesConfs t t' now ntext [e] := by
  obtain ⟨first, hfirst⟩ : ∃ first, firstText t.disk e.num = some first := by
    rw [firstText]
    exact ⟨_, congrArg (Option.map _) hlast⟩
  obtain ⟨dir', k, hrun, hp⟩ := purgeTexts_purges now e.life
    (e.lastText - ntext + 1 - first).toNat ttext
    (show e.lastText - ntext + 1 - first ≤ (e.lastText - ntext + 1 - first).toNat by omega) hparse
  refine ⟨{ t with textFile := Function.update t.textFile e.num dir' }, k, ?_, rfl, ?_, ?_⟩
  · simp only [purgeConf, hfirst, hlast, Option.bind_eq_bind, Option.bind_some, hrun,
      Option.pure_def]
  · intro c hc
    exact Function.update_of_ne (hc e (List.mem_singleton.mpr rfl)) dir' t.textFile
  · intro b hb
    rw [List.mem_singleton.mp hb]
    refine ⟨fun n hn => ?_, fun n hn => ?_⟩
    · obtain ⟨f, hf, hn⟩ := hn
      rw [hfirst, Option.some.injEq] at hf
      show Function.update t.textFile e.num dir' e.num n = none
      rw [Function.update_self]
      exact hp.gone n (hf ▸ hn)
    · show Function.update t.textFile e.num dir' e.num n = _
      rw [Function.update_self]
      exact hp.kept n fun hn' => hn ⟨first, hfirst, hn'⟩

/-- The search looks at the directory of the conference only. -/
theorem firstText_congr {c : Int} (hmailbox : t'.mailbox = t.mailbox)
    (hconffile : t'.conffile = t.conffile) (hdir : t'.textFile c = t.textFile c) :
    firstText t'.disk c = firstText t.disk c := by
  simp only [firstText, TextBase.disk, hmailbox, hconffile, hdir]

theorem PurgesConfs.cons {t₁ : TextBase} (h₁ : PurgesConfs t t₁ now ntext [e])
    (h : PurgesConfs t₁ t' now ntext es) (hne : ∀ b ∈ es, b.num ≠ e.num) :
    PurgesConfs t t' now ntext (e :: es) where
  same := by
    rw [h.same, h₁.same]
  other := by
    intro c hc
    rw [List.forall_mem_cons] at hc
    rw [h.other c hc.2, h₁.other c fun b hb => List.mem_singleton.mp hb ▸ hc.1]
  purges := by
    intro b hb
    rcases List.mem_cons.mp hb with rfl | hb
    · rw [h.other b.num fun a ha => (hne a ha).symm]
      exact h₁.purges b (List.mem_singleton.mpr rfl)
    · have hdir : t₁.textFile b.num = t.textFile b.num := h₁.other b.num fun a ha => by
        rw [List.mem_singleton.mp ha]
        exact hne b hb
      have hfirst : firstText t₁.disk b.num = firstText t.disk b.num :=
        firstText_congr (by rw [h₁.same]) (by rw [h₁.same]) hdir
      have hp := h.purges b hb
      unfold PurgedIn at hp
      rw [hdir, hfirst] at hp
      exact hp

theorem purgeConfs_purges (now ntext : Int) (hdistinct : (es.map (·.num)).Nodup)
    (hnames : ∀ e ∈ es, '\n' ∉ e.name)
    (hlast : ∀ e ∈ es, lastText t.mailbox t.conffile e.num = some e.lastText)
    (hparse : ∀ e ∈ es, ∀ n file, t.textFile e.num n = some file →
      ∃ th, textHeader file = some th) (fuel : Nat) (hfuel : es.length ≤ fuel) (ttext : Int) :
    ∃ t' ttext', purgeConfs now ntext fuel (confBytes es) (t, ttext) = some (t', ttext') ∧
      PurgesConfs t t' now ntext es := by
  induction es generalizing t fuel ttext with
  | nil =>
    refine ⟨t, ttext, ?_, rfl, fun _ _ => rfl, fun e he => absurd he List.not_mem_nil⟩
    cases fuel with
    | zero => rfl
    | succ fuel => rfl
  | cons e es ih =>
    obtain ⟨fuel, rfl⟩ : ∃ k, fuel = k + 1 := ⟨fuel - 1, by rw [List.length_cons] at hfuel; omega⟩
    rw [List.map_cons, List.nodup_cons] at hdistinct
    rw [List.forall_mem_cons] at hnames hlast hparse
    have hne : ∀ b ∈ es, b.num ≠ e.num := fun b hb heq =>
      hdistinct.1 (heq ▸ List.mem_map_of_mem hb)
    obtain ⟨t₁, k₁, hrun₁, h₁⟩ := purgeConf_purges now ntext hlast.1 hparse.1
      ttext
    have hlast' : ∀ b ∈ es, lastText t₁.mailbox t₁.conffile b.num = some b.lastText := by
      intro b hb
      rw [h₁.same]
      exact hlast.2 b hb
    have hparse' : ∀ b ∈ es, ∀ n file, t₁.textFile b.num n = some file →
        ∃ th, textHeader file = some th := by
      intro b hb n file hn
      rw [h₁.other b.num fun a ha => List.mem_singleton.mp ha ▸ hne b hb] at hn
      exact hparse.2 b hb n file hn
    obtain ⟨t', k', hrun, h⟩ := ih hdistinct.2 hnames.2 hlast' hparse' fuel
      (by rw [List.length_cons] at hfuel; omega) k₁
    refine ⟨t', k', ?_, h₁.cons h hne⟩
    rw [confBytes_cons, purgeConfs, getConfEntry_stringify hnames.1]
    dsimp only
    rw [hrun₁]
    exact hrun

/-- `purge` deletes texts in the conferences it is about. -/
theorem purge_purges (now : Int) (h : ConfLines es) (ht : t.conffile = confBytes es)
    (htexts : ∀ e ∈ es, ConfTexts t e) (hntext : 0 ≤ ntext)
    (hconf : conf = -1 ∨ ∃ e ∈ es, e.num = conf) :
    ∃ t' ttext, purge t now conf ntext = some (t', .delTexts ttext) ∧
      ∃ bs, (∀ e, e ∈ bs ↔ e ∈ es ∧ Selected conf e) ∧ PurgesConfs t t' now ntext bs := by
  have hlast : ∀ e ∈ es, lastText t.mailbox t.conffile e.num = some e.lastText := by
    intro e he
    rw [ht]
    exact h.lastText he _
  rw [purge]
  rcases hconf with rfl | ⟨e, he, rfl⟩
  · rw [if_pos ⟨hntext, by decide⟩, if_neg (by decide), if_neg (by decide)]
    have hlen := length_le_confBytes es
    obtain ⟨t', k, hrun, hp⟩ := purgeConfs_purges now ntext h.distinct
      (fun e he => (h.names e he).1) hlast (fun e he => (htexts e he).parses)
      (t.conffile.length + 1) (by rw [ht]; omega) 0
    rw [← ht] at hrun
    refine ⟨t', k, ?_, es, fun e => ⟨fun he => ⟨he, Or.inl rfl⟩, fun he => he.1⟩, hp⟩
    rw [hrun]
    rfl
  · have hpos := h.positive e he
    obtain ⟨t', k, hrun, hp⟩ := purgeConf_purges now ntext (hlast e he)
      (htexts e he).parses 0
    have hname : confName [] noConf e.num t.conffile = some (some e.name) := by
      rw [confName, if_neg (by omega), ht, h.getConfStructIn he]
      rfl
    have hstruct : getConfStruct e.num t.conffile = some (some e) := by
      rw [ht]
      exact h.getConfStructIn he _
    refine ⟨t', k, ?_, [e], fun b => ?_, hp⟩
    · rw [if_pos ⟨hntext, by omega⟩, if_pos hpos, hname, hstruct]
      simp only [Option.bind_eq_bind, Option.bind_some, reduceCtorEq, if_false, hrun,
        Option.pure_def]
    · rw [List.mem_singleton]
      constructor
      · rintro rfl
        exact ⟨he, Or.inr rfl⟩
      · rintro ⟨hb, hsel⟩
        rcases hsel with hall | hnum
        · omega
        · exact List.inj_on_of_nodup_map h.distinct hb he hnum

/-- With the texts in the order of their times the walk comes to every text that is old enough. -/
theorem purgedIn_iff (htexts : ConfTexts t e) {first : Int}
    (hfirst : firstText t.disk e.num = some first) {n : Int} :
    PurgedIn t now ntext e n ↔ e.life ≠ 0 ∧ first ≤ n ∧ n ≤ e.lastText - ntext ∧
      ∃ th, headerAt (t.textFile e.num) n = some th ∧ th.type = typeText ∧
        th.time + lifeSeconds e.life < now := by
  constructor
  · rintro ⟨f, hf, hn⟩
    rw [hfirst, Option.some.injEq] at hf
    subst hf
    obtain ⟨th, hth, htype⟩ := hn.ordinary
    have hhigh := hn.high
    exact ⟨hn.live, hn.low, by omega, th, hth, htype, hn.old n hn.low le_rfl th hth⟩
  · rintro ⟨hlive, hlow, hhigh, th, hth, htype, hold⟩
    refine ⟨first, hfirst, hlive, hlow, by omega, ⟨th, hth, htype⟩, fun k _ hk thk hthk => ?_⟩
    have := htexts.ordered k n thk th hk hthk hth
    omega

/-- A conference is purged right exactly when its life fits. -/
theorem purgedRight_iff (htexts : ConfTexts t e) (hlife : 0 ≤ e.life)
    (hlast : lastText t.mailbox t.conffile e.num = some e.lastText)
    (hp : Purges (t.textFile e.num) (t'.textFile e.num) (PurgedIn t now ntext e)) :
    PurgedRight t t' now ntext e ↔ LifeFits t now ntext e := by
  obtain ⟨first, hfirst, -, -, -, hleast⟩ := firstText_least (d := t.disk) hlast htexts.numbered
  constructor
  · intro hright hlive f hf n hlow hhigh th hth htype hold
    rw [hfirst, Option.some.injEq] at hf
    subst hf
    have hgone := hp.gone n ((purgedIn_iff htexts hfirst).mpr
      ⟨hlive, hlow, hhigh, th, hth, htype, hold⟩)
    rcases hright.safe n with hsame | ⟨⟨-, -, th', hth', -, hexact⟩, -⟩
    · rw [headerAt, ← hsame, hgone] at hth
      cases hth
    · rw [hth, Option.some.injEq] at hth'
      rwa [hth']
  · intro hfits
    refine ⟨fun n => ?_, fun m hm hgap n hn => ?_⟩
    · by_cases hin : PurgedIn t now ntext e n
      · obtain ⟨hlive, hlow, hhigh, th, hth, htype, hold⟩ := (purgedIn_iff htexts hfirst).mp hin
        refine Or.inr ⟨⟨hlive, hhigh, th, hth, htype, ?_⟩, hp.gone n hin⟩
        exact hfits hlive first hfirst n hlow hhigh th hth htype hold
      · exact Or.inl (hp.kept n hin)
    · obtain ⟨hlive, hhigh, th, hth, htype, hold⟩ := hn
      apply hp.gone n
      apply (purgedIn_iff htexts hfirst).mpr
      have hexists : t.disk.texts e.num n := by
        cases hfile : t.textFile e.num n with
        | none =>
          rw [headerAt, hfile] at hth
          cases hth
        | some file => simp only [Disk.texts, TextBase.disk, hfile, Option.isSome_some]
      have hmn : first ≤ n := by
        rw [hleast m hm hgap]
        exact hm.2 hexists
      have hle := lifeSeconds_le hlife
      exact ⟨hlive, hmn, hhigh, th, hth, htype, by omega⟩

/-- Lives of less than 24856 days fit. -/
theorem lifeFits_of_lt (hlife : 0 ≤ e.life) (hlt : e.life < 24856) : LifeFits t now ntext e := by
  intro _ first _ n _ _ th _ _ hold
  rwa [lifeSeconds_eq hlife hlt] at hold

/-- `purge` deletes what it should in the conferences it is about, and nothing elsewhere, exactly
where the lives fit. -/
theorem purge_right_iff (h : ConfLines es) (ht : t.conffile = confBytes es)
    (htexts : ∀ e ∈ es, ConfTexts t e) (hlife : ∀ e ∈ es, 0 ≤ e.life) (hntext : 0 ≤ ntext)
    (hconf : conf = -1 ∨ ∃ e ∈ es, e.num = conf) (now : Int) :
    ∃ t' ttext, purge t now conf ntext = some (t', .delTexts ttext) ∧
      t' = { t with textFile := t'.textFile } ∧
      (∀ c, (∀ e ∈ es, Selected conf e → c ≠ e.num) → t'.textFile c = t.textFile c) ∧
      ((∀ e ∈ es, Selected conf e → PurgedRight t t' now ntext e) ↔
        ∀ e ∈ es, Selected conf e → LifeFits t now ntext e) := by
  obtain ⟨t', k, hrun, bs, hbs, hp⟩ := purge_purges now h ht htexts hntext hconf
  have hlast : ∀ e ∈ es, lastText t.mailbox t.conffile e.num = some e.lastText := by
    intro e he
    rw [ht]
    exact h.lastText he _
  refine ⟨t', k, hrun, hp.same, fun c hc => hp.other c fun e he => ?_, ?_⟩
  · obtain ⟨hmem, hsel⟩ := (hbs e).mp he
    exact hc e hmem hsel
  · refine forall_congr' fun e => forall_congr' fun he => forall_congr' fun hsel => ?_
    exact purgedRight_iff (htexts e he) (hlife e he) (hlast e he) (hp.purges e ((hbs e).mpr ⟨he, hsel⟩))

end Confs

/-- A conference with one text, which is to be kept for 68 years. -/
def longLifeConf : ConfEntry := ⟨1, 1, 2, 0, 1, 24856, 0, "Test".toList⟩

def longLifeText : CString := "1:2:1999999999:0:0:0:0:0\nRubrik\n".toList

def longLifeBase : TextBase where
  mailbox := []
  conffile := confBytes [longLifeConf]
  textFile conf n := if conf = 1 ∧ n = 1 then some longLifeText else none
  blocked _ := false

/-- The text is deleted when it is a second old. -/
theorem purge_deletes_young : ∃ t' ttext,
    purge longLifeBase 2000000000 1 0 = some (t', .delTexts ttext) ∧
      ¬ PurgedRight longLifeBase t' 2000000000 0 longLifeConf := by
  have hrun : (purge longLifeBase 2000000000 1 0).map (fun r => (r.1.textFile 1 1, r.2)) =
      some (none, .delTexts 1) := by decide +kernel
  obtain ⟨⟨t', reply⟩, hp, heq⟩ := Option.map_eq_some_iff.mp hrun
  rw [Prod.mk.injEq] at heq
  refine ⟨t', 1, by rw [hp, ← heq.2], fun hright => ?_⟩
  rcases hright.safe 1 with hsame | ⟨⟨-, -, th, hth, -, hold⟩, -⟩
  · have hgone : t'.textFile 1 1 = none := heq.1
    rw [show longLifeConf.num = 1 from rfl, hgone] at hsame
    cases hsame
  · have htime : (headerAt (longLifeBase.textFile 1) 1).map (·.time) = some 1999999999 := by
      decide +kernel
    rw [show longLifeConf.num = 1 from rfl] at hth
    rw [hth, Option.map_some, Option.some.injEq] at htime
    rw [htime, show longLifeConf.life = 24856 from rfl] at hold
    omega

def weekTexts : List CString :=
  ["1:2:1999000000:0:0:0:0:0\nRubrik\n".toList, "2:2:1999999990:0:0:0:0:0\nAnnat\n".toList]

theorem confTexts_week : ConfTexts (sampleBase 7 weekTexts) (sampleConf 7 weekTexts) := by
  have hall : ∀ file ∈ weekTexts, (textHeader file).isSome = true := by decide +kernel
  have htimes : weekTexts.map (fun file => (textHeader file).map (·.time)) =
      [some 1999000000, some 1999999990] := by decide +kernel
  have htime : ∀ n th, headerAt ((sampleBase 7 weekTexts).textFile 1) n = some th →
      n = 1 ∧ th.time = 1999000000 ∨ n = 2 ∧ th.time = 1999999990 := by
    intro n th h
    obtain ⟨file, hfile, hth⟩ := Option.bind_eq_some_iff.mp h
    obtain ⟨h1, h2, hget⟩ := sampleBase_file hfile
    have hlen : weekTexts.length = 2 := rfl
    have hat := congrArg (·[(n - 1).toNat]?) htimes
    simp only [List.getElem?_map, hget, hth, Option.map_some] at hat
    obtain rfl | rfl : n = 1 ∨ n = 2 := by omega
    · exact .inl ⟨rfl, Option.some.inj (Option.some.inj hat)⟩
    · exact .inr ⟨rfl, Option.some.inj (Option.some.inj hat)⟩
  refine ⟨fun n file h => ?_, fun n h => sampleBase_texts h, fun m n thm thn hmn hm hn => ?_⟩
  · exact Option.isSome_iff_exists.mp (hall file (List.mem_of_getElem? (sampleBase_file h).2.2))
  · have h1 := htime m thm hm
    have h2 := htime n thn hn
    omega

/-- A conference whose texts live for a week. -/
theorem purge_right_week : ∃ t' ttext,
    purge (sampleBase 7 weekTexts) 2000000000 (-1) 0 = some (t', .delTexts ttext) ∧
      t'.textFile 1 1 = none ∧ t'.textFile 1 2 = some "2:2:1999999990:0:0:0:0:0\nAnnat\n".toList ∧
      PurgedRight (sampleBase 7 weekTexts) t' 2000000000 0 (sampleConf 7 weekTexts) := by
  have hlines : ConfLines [sampleConf 7 weekTexts] := ⟨by decide, by decide, by decide⟩
  have htexts : ∀ e ∈ [sampleConf 7 weekTexts], ConfTexts (sampleBase 7 weekTexts) e := fun e he =>
    List.mem_singleton.mp he ▸ confTexts_week
  have hall : (-1 : Int) = -1 ∨ ∃ e ∈ [sampleConf 7 weekTexts], e.num = -1 := .inl rfl
  obtain ⟨t', ttext, hrun, -, -, hiff⟩ := purge_right_iff hlines rfl htexts (by decide) (le_refl 0) hall
    2000000000
  have hfiles : (purge (sampleBase 7 weekTexts) 2000000000 (-1) 0).map
      (fun r => (r.1.textFile 1 1, r.1.textFile 1 2)) =
      some (none, some "2:2:1999999990:0:0:0:0:0\nAnnat\n".toList) := by decide +kernel
  rw [hrun, Option.map_some, Option.some.injEq, Prod.mk.injEq] at hfiles
  refine ⟨t', ttext, hrun, hfiles.1, hfiles.2, hiff.mpr ?_ _ (List.mem_singleton.mpr rfl) (.inl rfl)⟩
  intro e he _
  rw [List.mem_singleton.mp he]
  exact lifeFits_of_lt (by decide) (by decide)

end SklaffKom
