import SklaffKom.NextText
import Mathlib.Data.List.Find

/-!
# The next conference with unread texts

`more_conf` looks at the mailbox, then walks over the user's conferences after the current one and
over those before it.  `flag` and `first` are set once for the whole scan.
-/

open CString IntervalList

namespace SklaffKom

/-- Reading a file of conference entries to its end. -/
def allConfEntries : Nat → CString → Option (List ConfEntry)
  | 0, _ => some []
  | fuel + 1, buf =>
    match getConfEntry buf with
    | .crash => none
    | .null => some []
    | .entry ce next => (allConfEntries fuel next).map (ce :: ·)

/-- `confsiz[ce.num] = ce.last_text`; `none` is a write outside the array. -/
def setConfSize (sizes : List (Option Int)) (ce : ConfEntry) : Option (List (Option Int)) :=
  if 0 ≤ ce.num ∧ ce.num < sizes.length then some (sizes.set ce.num.toNat (some ce.lastText))
  else none

/-- `confsiz`, with room up to the number of the last entry. -/
def confSizes (es : List ConfEntry) : Option (List (Option Int)) :=
  es.foldlM setConfSize
    (List.replicate ((es.getLast?.elim (0 : Int) (·.num)).toNat + 1) none)

/-- `confsiz[conf]`; `none` is memory nobody wrote. -/
def confSize (sizes : List (Option Int)) (conf : Int) : Option Int :=
  if 0 ≤ conf then sizes[conf.toNat]?.join else none

/-- How a walk over the conferences ends. -/
inductive ScanEnd where
  | ended (g : GapState)
  | found (conf : Int)
deriving DecidableEq

def ScanEnd.conf : ScanEnd → Option Int
  | ended _ => none
  | found conf => some conf

/-- The loop over the lines from `buf` on, up to the line of the conference `stop`.  `obuf` is the
whole file. -/
def scanConfs (d : Disk) (sizes : List (Option Int)) (fuel : Nat) (stop : Option Int) :
    Nat → GapState → CString → CString → Option (ScanEnd × CString)
  | 0, g, _, obuf => some (.ended g, obuf)
  | lines + 1, g, buf, obuf =>
    match getConfsEntry buf with
    | .crash => none
    | .null => some (.ended g, obuf)
    | .entry _ none => some (.ended g, obuf)
    | .entry cse (some next) =>
      if some cse.num = stop then some (.ended g, obuf)
      else
        match confSize sizes cse.num with
        | none => none
        | some last =>
          match gapLoop d cse.num last fuel g cse.il (some next) obuf with
          | none => none
          | some (.noLine, _) => none
          | some (.found _, obuf) => some (.found cse.num, obuf)
          | some (.exhausted g none, obuf) => some (.ended g, obuf)
          | some (.exhausted g (some next), obuf) =>
            scanConfs d sizes fuel stop lines g next obuf

/-- The buffer after its first line, empty for `NULL`. -/
def afterFirst (buf : CString) : Option CString :=
  match getConfsEntry buf with
  | .crash => none
  | .entry _ (some next) => some next
  | _ => some []

/-- The buffer after the line of `conf`, empty for `NULL`. -/
def afterConf (conf : Int) (buf : CString) : Option CString :=
  match confsEntry conf buf with
  | .crash => none
  | .entry _ (some next) => some next
  | _ => some []

/-- The unread number of the mailbox, from the first line of the file; 0 without one. -/
def nextMail (mbox : ConfEntry) (buf : CString) : Option Int :=
  match getConfsEntry buf with
  | .crash => none
  | .null => some (unreadText [] mbox.lastText)
  | .entry cse _ => some (unreadText cse.il mbox.lastText)

/-- `more_conf`: what it returns, and the user's conference file afterwards. -/
def moreConf (d : Disk) (fuel : Nat) (currentConf : Int) (buf : CString) :
    Option (Int × CString) :=
  match getConfEntry d.mailbox with
  | .crash => none
  | .null => none
  | .entry mbox _ => do
    if (← nextMail mbox buf) > 0 then return (0, buf)
    let sizes ← (allConfEntries (d.conffile.length + 1) d.conffile).bind confSizes
    let ahead ← afterConf currentConf buf
    match ← scanConfs d sizes fuel none (buf.length + 1) ⟨false, 0⟩ ahead buf with
    | (.found conf, buf) => return (conf, buf)
    | (.ended g, buf) =>
      let behind ← afterFirst buf
      let r ← scanConfs d sizes fuel (some currentConf) (buf.length + 1) g behind buf
      return (r.1.conf.getD (-1), r.2)

/-! ## The array of last texts -/

theorem allConfEntries_bytes {es : List ConfEntry} (h : ∀ e ∈ es, '\n' ∉ e.name) (fuel : Nat)
    (hf : es.length ≤ fuel) : allConfEntries fuel (confBytes es) = some es := by
  induction es generalizing fuel with
  | nil => cases fuel <;> rfl
  | cons e es ih =>
    obtain ⟨fuel, rfl⟩ : ∃ k, fuel = k + 1 := ⟨fuel - 1, by simp at hf; omega⟩
    rw [confBytes_cons, allConfEntries, getConfEntry_stringify (h e List.mem_cons_self)]
    simp only
    rw [ih (fun a ha => h a (List.mem_cons_of_mem _ ha)) fuel (by simp at hf; omega)]
    rfl

theorem num_le_getLast {es : List ConfEntry} (h : (es.map (·.num)).Pairwise (· < ·)) :
    ∀ e ∈ es, e.num ≤ es.getLast?.elim (0 : Int) (·.num) := by
  induction es with
  | nil => simp
  | cons a es ih =>
    rw [List.map_cons, List.pairwise_cons] at h
    cases es with
    | nil => simp
    | cons b es =>
      rw [List.getLast?_cons_cons]
      intro e he
      rcases List.mem_cons.mp he with rfl | he
      · have h1 := h.1 b.num (by simp)
        have h2 := ih h.2 b List.mem_cons_self
        omega
      · exact ih h.2 e he

/-- Writing the array: every entry is found afterwards, the rest is as it was. -/
theorem foldlM_confSizes {es : List ConfEntry} (h : (es.map (·.num)).Pairwise (· < ·))
    (hpos : ∀ e ∈ es, 0 ≤ e.num) (sizes : List (Option Int))
    (hlen : ∀ e ∈ es, e.num < sizes.length) :
    ∃ sizes', es.foldlM setConfSize sizes = some sizes' ∧
      (∀ e ∈ es, confSize sizes' e.num = some e.lastText) ∧
      ∀ n, (∀ e ∈ es, e.num ≠ n) → confSize sizes' n = confSize sizes n := by
  induction es generalizing sizes with
  | nil => exact ⟨sizes, rfl, by simp, fun n _ => rfl⟩
  | cons a es ih =>
    rw [List.map_cons, List.pairwise_cons] at h
    have ha := hpos a List.mem_cons_self
    have hal := hlen a List.mem_cons_self
    obtain ⟨sizes', hrun, hread, hrest⟩ := ih h.2
      (fun e he => hpos e (List.mem_cons_of_mem _ he)) (sizes.set a.num.toNat (some a.lastText))
      (fun e he => by rw [List.length_set]; exact hlen e (List.mem_cons_of_mem _ he))
    have hout : ∀ e ∈ es, e.num ≠ a.num := by
      intro e he
      have := h.1 e.num (List.mem_map_of_mem he)
      omega
    have hset : ∀ n, confSize (sizes.set a.num.toNat (some a.lastText)) n =
        if n = a.num then some a.lastText else confSize sizes n := by
      intro n
      unfold confSize
      by_cases hn : n = a.num
      · subst hn
        rw [if_pos ha, if_pos rfl, List.getElem?_set_self (by omega)]
        rfl
      · rw [if_neg hn]
        by_cases h0 : 0 ≤ n
        · rw [if_pos h0, if_pos h0, List.getElem?_set_ne (by omega)]
        · rw [if_neg h0, if_neg h0]
    refine ⟨sizes', ?_, ?_, ?_⟩
    · rw [List.foldlM_cons, setConfSize, if_pos ⟨ha, hal⟩]
      exact hrun
    · intro e he
      rcases List.mem_cons.mp he with rfl | he
      · rw [hrest _ hout, hset, if_pos rfl]
      · exact hread e he
    · intro n hn
      rw [hrest n fun e he => hn e (List.mem_cons_of_mem _ he), hset,
        if_neg (hn a List.mem_cons_self).symm]

/-- The array holds the last text of every conference in the list. -/
theorem ConfFile.confSizes_bytes (l : ConfFile) :
    ∃ sizes, (allConfEntries (l.bytes.length + 1) l.bytes).bind confSizes = some sizes ∧
      ∀ conf e, l.entry conf = some e → confSize sizes conf = some e.lastText := by
  have hpos : ∀ e ∈ l.entries, 0 ≤ e.num := fun e he => (l.positive e he).le
  obtain ⟨sizes, hrun, hread, -⟩ := foldlM_confSizes l.numbered hpos
    (List.replicate ((l.entries.getLast?.elim (0 : Int) (·.num)).toNat + 1) none) (by
      intro e he
      have h1 := num_le_getLast l.numbered e he
      have h2 := hpos e he
      rw [List.length_replicate]
      omega)
  refine ⟨sizes, ?_, ?_⟩
  · have hlen := length_le_confBytes l.entries
    rw [bytes, allConfEntries_bytes l.oneLine _ (by omega), Option.bind_some]
    exact hrun
  · intro conf e he
    rw [← (l.exists_split he).1]
    exact hread e (l.mem_of_entry he)

/-! ## What a scan over several conferences does -/

/-- `last_text` of a conference in the list. -/
def ConfFile.last (l : ConfFile) (conf : Int) : Int := (l.entry conf).elim (-1) (·.lastText)

/-- `first_text` of a conference. -/
def Disk.first (d : Disk) (conf : Int) : Int := (firstText d conf).getD 0

/-- The mailbox description and the conference list are files the program wrote. -/
structure Listed (d : Disk) (mbox : ConfEntry) (l : ConfFile) : Prop where
  mailbox : d.mailbox = stringifyConfStruct mbox
  oneLine : '\n' ∉ mbox.name
  conffile : d.conffile = l.bytes

section Scans

variable (d : Disk) (l : ConfFile) (f f' : ConfsFile)

open Classical in
/-- The first conference of a scan that takes an estimate. -/
noncomputable def jumper (cs : List Int) : Option Int :=
  cs.find? fun c => f.Jumps d c (l.last c)

/-- The estimate in force at every conference of the scan that jumps. -/
noncomputable def GapState.estimate (g : GapState) (cs : List Int) : Int :=
  if g.flag then g.first else (jumper d l f cs).elim 0 d.first

/-- A scan with the estimate `est`: `f'` is the file afterwards, and the result the conference
where it stopped. -/
inductive Scans (est : Int) : List Int → Option Int → Prop
  | nil : Scans est [] none
  | found {c : Int} {cs : List Int} {m : Int} :
      GapScan.Scanned (d.texts c) (l.last c) (f.read c) (f.scanStart d c (l.last c) est) (some m)
        (f'.read c) →
      (∀ b ∈ cs, f'.read b = f.read b) → Scans est (c :: cs) (some c)
  | next {c : Int} {cs : List Int} {r : Option Int} :
      GapScan.Scanned (d.texts c) (l.last c) (f.read c) (f.scanStart d c (l.last c) est) none
        (f'.read c) →
      Scans est cs r → Scans est (c :: cs) r

variable {d l f f'} {f₁ : ConfsFile} {g : GapState} {c conf est : Int} {cs ds : List Int}
  {r : Option Int}

theorem Listed.lastText {mbox : ConfEntry} (hd : Listed d mbox l) (hc : (l.entry c).isSome) :
    lastText d.mailbox d.conffile c = some (l.last c) := by
  obtain ⟨e, he⟩ := Option.isSome_iff_exists.mp hc
  rw [hd.conffile, l.lastText_bytes _ he, ConfFile.last, he]
  rfl

theorem Listed.firstText {mbox : ConfEntry} (hd : Listed d mbox l) (hc : (l.entry c).isSome) :
    firstText d c = some (d.first c) := by
  simp only [Disk.first, SklaffKom.firstText, hd.lastText hc, Option.map_some, Option.getD_some]

theorem read_congr (h : f'.lookup c = f.lookup c) : f'.read c = f.read c := by
  simp only [ConfsFile.read, h]

theorem jumps_congr (h : f'.lookup c = f.lookup c) :
    f'.Jumps d c (l.last c) ↔ f.Jumps d c (l.last c) := by
  simp only [ConfsFile.Jumps, ConfsFile.highest, read_congr h, h]

theorem scanStart_congr (h : f'.lookup c = f.lookup c) :
    f'.scanStart d c (l.last c) est = f.scanStart d c (l.last c) est := by
  simp only [ConfsFile.scanStart, ConfsFile.highest, read_congr h, h]

theorem GapState.estimate_congr (h : ∀ c ∈ cs, f'.lookup c = f.lookup c) :
    g.estimate d l f' cs = g.estimate d l f cs := by
  have hj : jumper d l f' cs = jumper d l f cs := by
    unfold jumper
    apply List.find?_congr
    intro c hc
    exact decide_eq_decide.mpr (jumps_congr (h c hc))
  simp only [GapState.estimate, hj]

/-- The lines after the one that changed. -/
theorem SameBut.tail (h : SameBut conf f f') {as bs : List ConfsEntry} {il : List IntRange}
    (hs : f.entries = as ++ ⟨conf, il⟩ :: bs) :
    ∃ as' il', f'.entries = as' ++ ⟨conf, il'⟩ :: bs := by
  have hbs := (f.num_ne_of_split hs).2
  have hkeep : bs = (bs.map (·.num)).map fun c => ⟨c, (f'.lookup c).getD []⟩ := by
    rw [List.map_map]
    conv_lhs => rw [← List.map_id bs]
    apply List.map_congr_left
    intro b hb
    have hb' : b ∈ f.entries := by
      rw [hs]
      simp [hb]
    simp only [Function.comp, h.lookup _ (hbs b hb), f.lookup_of_mem hb', Option.getD_some, id]
  refine ⟨(as.map (·.num)).map fun c => ⟨c, (f'.lookup c).getD []⟩, (f'.lookup conf).getD [], ?_⟩
  rw [f'.entries_eq, h.nums, ConfsFile.nums, hs, List.map_append, List.map_cons, List.map_append,
    List.map_cons, ← hkeep]

/-- The start of the walk over `c` with the estimate of the whole scan. -/
theorem scanStart_estimate (cs : List Int) :
    f.scanStart d c (l.last c) (g.est (d.first c)) =
      f.scanStart d c (l.last c) (g.estimate d l f (c :: cs)) := by
  by_cases hj : f.Jumps d c (l.last c)
  · have he : g.estimate d l f (c :: cs) = g.est (d.first c) := by
      simp [GapState.estimate, GapState.est, jumper, hj]
    rw [he]
  · unfold ConfsFile.scanStart
    rw [GapScan.start_of_not_jumps hj, GapScan.start_of_not_jumps hj]

/-- The state after a conference carries the estimate of the whole scan on. -/
theorem after_estimate (cs : List Int) :
    (g.after d f c (l.last c) (d.first c)).estimate d l f cs = g.estimate d l f (c :: cs) := by
  unfold GapState.after
  by_cases hj : f.Jumps d c (l.last c)
  · rw [if_pos hj]
    simp [GapState.estimate, GapState.est, jumper, hj]
  · rw [if_neg hj]
    simp [GapState.estimate, jumper, hj]

/-- A scan depends on the lines it goes through only. -/
theorem Scans.congr (h : Scans d l f₁ f' est cs r) (hsame : ∀ c ∈ cs, f₁.lookup c = f.lookup c) :
    Scans d l f f' est cs r := by
  induction h with
  | nil => exact .nil
  | @found c cs m hs hrest =>
    have hc := hsame c List.mem_cons_self
    rw [read_congr hc, scanStart_congr hc] at hs
    refine .found hs fun b hb => ?_
    rw [hrest b hb]
    exact read_congr (hsame b (List.mem_cons_of_mem _ hb))
  | @next c cs r hs _ ih =>
    have hc := hsame c List.mem_cons_self
    rw [read_congr hc, scanStart_congr hc] at hs
    exact .next hs (ih fun b hb => hsame b (List.mem_cons_of_mem _ hb))

/-- A scan that goes on where another one found nothing. -/
theorem Scans.append (h : Scans d l f f₁ est cs none) (hkeep : ∀ c ∈ cs, f'.read c = f₁.read c)
    (h' : Scans d l f f' est ds r) : Scans d l f f' est (cs ++ ds) r := by
  generalize hr : (none : Option Int) = r' at h
  induction h with
  | nil => exact h'
  | found => cases hr
  | @next c cs r' hs _ ih =>
    rw [← hkeep c List.mem_cons_self] at hs
    exact .next hs (ih (fun b hb => hkeep b (List.mem_cons_of_mem _ hb)) hr)

theorem Scans.extend (h : Scans d l f f' est cs r) (hr : r = some c)
    (hkeep : ∀ b ∈ ds, f'.read b = f.read b) : Scans d l f f' est (cs ++ ds) r := by
  induction h with
  | nil => cases hr
  | @found a as m hs hrest =>
    refine .found hs fun b hb => ?_
    exact (List.mem_append.mp hb).elim (hrest b) (hkeep b)
  | next hs _ ih => exact .next hs (ih hr)

theorem Scans.grows (h : Scans d l f f' est cs r) : ∀ c ∈ cs, f.read c ⊆ f'.read c := by
  induction h with
  | nil => simp
  | @found c cs m hs hrest =>
    intro b hb
    rcases List.mem_cons.mp hb with rfl | hb
    · exact hs.subset
    · rw [hrest b hb]
  | @next c cs r hs _ ih =>
    intro b hb
    rcases List.mem_cons.mp hb with rfl | hb
    · exact hs.subset
    · exact ih b hb

/-- The conference where a scan stops has a text to look at next. -/
theorem Scans.stops (h : Scans d l f f' est cs r) (hpos : ∀ c ∈ cs, ∀ n ∈ f.read c, 1 ≤ n)
    (hr : r = some c) : ∃ m, GapScan.Least (f'.read c) m ∧ m ≤ l.last c ∧ d.texts c m := by
  induction h with
  | nil => cases hr
  | @found b cs m hs hrest =>
    cases hr
    have ht := f.top_highest (hpos c List.mem_cons_self)
    exact ⟨m, hs.least (GapScan.one_le_start ht), hs.1.le, hs.1.item⟩
  | @next b cs r hs _ ih => exact ih (fun a ha => hpos a (List.mem_cons_of_mem _ ha)) hr

/-- Where a scan found nothing, every number up to the last text is read. -/
theorem Scans.covers (h : Scans d l f f' est cs r) (hr : r = none) :
    ∀ c ∈ cs, ∀ n, 1 ≤ n → n ≤ l.last c → n ∈ f'.read c := by
  induction h with
  | nil => simp
  | found => cases hr
  | @next c cs r hs _ ih =>
    intro b hb n h1 h2
    rcases List.mem_cons.mp hb with rfl | hb
    · rw [hs.2]
      exact Or.inr ⟨h1, by omega⟩
    · exact ih hr b hb n h1 h2

theorem Scans.pos (h : Scans d l f f' est cs r) (hpos : ∀ c ∈ cs, ∀ n ∈ f.read c, 1 ≤ n) :
    ∀ c ∈ cs, ∀ n ∈ f'.read c, 1 ≤ n := by
  induction h with
  | nil => simp
  | @found c cs m hs hrest =>
    intro b hb n hn
    rcases List.mem_cons.mp hb with rfl | hb
    · rw [hs.2] at hn
      exact hn.elim (hpos b List.mem_cons_self n) And.left
    · rw [hrest b hb] at hn
      exact hpos b (List.mem_cons_of_mem _ hb) n hn
  | @next c cs r hs _ ih =>
    intro b hb n hn
    rcases List.mem_cons.mp hb with rfl | hb
    · rw [hs.2] at hn
      exact hn.elim (hpos b List.mem_cons_self n) And.left
    · exact ih (fun a ha => hpos a (List.mem_cons_of_mem _ ha)) b hb n hn

/-- A scan over conferences without unread numbers changes nothing. -/
theorem Scans.of_covers (h : Scans d l f f' est cs r) (hpos : ∀ c ∈ cs, ∀ n ∈ f.read c, 1 ≤ n)
    (hcov : ∀ c ∈ cs, ∀ n, 1 ≤ n → n ≤ l.last c → n ∈ f.read c) :
    r = none ∧ ∀ c ∈ cs, f'.read c = f.read c := by
  induction h with
  | nil => simp
  | @found c cs m hs hrest =>
    have hge := hs.1.ge
    have hone : 1 ≤ f.scanStart d c (l.last c) est :=
      GapScan.one_le_start (f.top_highest (hpos c List.mem_cons_self))
    exact absurd (hcov c List.mem_cons_self m (by omega) hs.1.le) hs.1.notMem
  | @next c cs r hs _ ih =>
    obtain ⟨hr, hkeep⟩ := ih (fun a ha => hpos a (List.mem_cons_of_mem _ ha))
      fun a ha => hcov a (List.mem_cons_of_mem _ ha)
    refine ⟨hr, fun b hb => ?_⟩
    rcases List.mem_cons.mp hb with rfl | hb
    · have ht := f.top_highest (hpos b List.mem_cons_self)
      have hnn := ht.nonneg
      have hj : ¬ f.Jumps d b (l.last b) := by
        intro hj
        exact ht.succ_notMem (hcov b List.mem_cons_self _ (by omega) hj.2.1)
      have hstart : f.scanStart d b (l.last b) est = 1 := GapScan.start_of_not_jumps hj
      rw [hs.2, hstart, Set.union_eq_left]
      rintro n ⟨h1, h2⟩
      exact hcov b List.mem_cons_self n h1 (by omega)
    · exact hkeep b hb

/-- The walk over the conference of one line, the lines `bs` after it. -/
theorem gapLoop_line {mbox : ConfEntry} (hd : Listed d mbox l) (g : GapState)
    {as bs : List ConfsEntry} {b : ConfsEntry} (hs : f.entries = as ++ b :: bs)
    (hlist : (l.entry b.num).isSome) (hpos : ∀ n ∈ f.read b.num, 1 ≤ n) :
    ∃ e f₁ r, (∀ fuel, (∀ a ∈ l.entries, a.lastText.toNat < fuel) →
        gapLoop d b.num (l.last b.num) fuel g b.il (some (confsBytes bs)) f.bytes =
          some (e, f₁.bytes)) ∧ GapEnds d b.num (l.last b.num) (d.first b.num) g f f₁ e r ∧
      (r = none →
        e = .exhausted (g.after d f b.num (l.last b.num) (d.first b.num)) (some (confsBytes bs)) ∧
        ∃ as', f₁.entries = as' ++ bs) := by
  obtain ⟨en, hen⟩ := Option.isSome_iff_exists.mp hlist
  have hlast : l.last b.num = en.lastText := by
    rw [ConfFile.last, hen]
    rfl
  have hl : f.lookup b.num = some b.il := f.lookup_of_mem (by rw [hs]; simp)
  obtain ⟨e, f₁, r, hrun, hends⟩ := gapLoop_ends (l.last b.num) g (hd.firstText hlist) hl
    (f.confsEntry_of_split hs) hpos
  refine ⟨e, f₁, r, ?_, hends, ?_⟩
  · intro fuel hfuel
    apply hrun
    rw [hlast]
    exact hfuel en (l.mem_of_entry hen)
  · intro hr
    obtain ⟨il', next', he, hfind⟩ := hends.exhausted hr
    obtain ⟨as', il'', hs'⟩ := hends.same.tail hs
    have hnext : next' = some (confsBytes bs) := by
      have hfind' := f₁.confsEntry_of_split hs'
      rw [hfind] at hfind'
      cases hfind'
      rfl
    refine ⟨by rw [he, hnext], as' ++ [⟨b.num, il''⟩], ?_⟩
    rw [hs', List.append_assoc, List.singleton_append]

/-- The conferences of the lines `bs` before the line of `stop`. -/
def upTo (stop : Option Int) (bs : List ConfsEntry) : List Int :=
  (bs.map (·.num)).takeWhile fun c => some c ≠ stop

theorem upTo_cons_stop {stop : Option Int} {b : ConfsEntry} (bs : List ConfsEntry)
    (h : some b.num = stop) : upTo stop (b :: bs) = [] := by
  simp [upTo, h]

theorem upTo_cons {stop : Option Int} {b : ConfsEntry} (bs : List ConfsEntry)
    (h : some b.num ≠ stop) : upTo stop (b :: bs) = b.num :: upTo stop bs := by
  simp [upTo, h]

theorem mem_of_mem_upTo {stop : Option Int} {bs : List ConfsEntry} (h : c ∈ upTo stop bs) :
    ∃ b ∈ bs, b.num = c :=
  List.mem_map.mp ((List.takeWhile_prefix _).subset h)

/-- The loop over the lines `bs`.  `ds` are conferences that a later loop goes through with the
same `flag` and `first`. -/
theorem scanConfs_bytes {mbox : ConfEntry} (hd : Listed d mbox l) {sizes : List (Option Int)}
    (hsizes : ∀ conf e, l.entry conf = some e → confSize sizes conf = some e.lastText)
    (stop : Option Int) (ds : List Int) (lines : Nat) {as bs : List ConfsEntry}
    (hs : f.entries = as ++ bs) (hlist : ∀ b ∈ bs, (l.entry b.num).isSome)
    (hpos : ∀ b ∈ bs, ∀ n ∈ f.read b.num, 1 ≤ n) (hlines : bs.length < lines)
    (hds : ∀ c ∈ upTo stop bs, c ∉ ds) :
    ∃ e f', (∀ fuel, (∀ a ∈ l.entries, a.lastText.toNat < fuel) →
        scanConfs d sizes fuel stop lines g (confsBytes bs) f.bytes = some (e, f'.bytes)) ∧
      f'.nums = f.nums ∧ (∀ c, c ∉ upTo stop bs → f'.lookup c = f.lookup c) ∧
      Scans d l f f' (g.estimate d l f (upTo stop bs ++ ds)) (upTo stop bs) e.conf ∧
      ∀ g', e = .ended g' → g'.estimate d l f ds = g.estimate d l f (upTo stop bs ++ ds) := by
  induction bs generalizing f g as lines with
  | nil =>
    obtain ⟨lines, rfl⟩ : ∃ k, lines = k + 1 := ⟨lines - 1, by simp at hlines; omega⟩
    refine ⟨.ended g, f, fun fuel _ => rfl, rfl, fun c _ => rfl, .nil, ?_⟩
    intro g' hg'
    cases hg'
    rfl
  | cons b bs ih =>
    obtain ⟨lines, rfl⟩ : ∃ k, lines = k + 1 := ⟨lines - 1, by simp at hlines; omega⟩
    have hscan : getConfsEntry (confsBytes (b :: bs)) = .entry b (some (confsBytes bs)) := by
      rw [confsBytes_cons]
      exact getConfsEntry_stringify (f.marks b (by rw [hs]; simp)) _
    by_cases hstop : some b.num = stop
    · rw [upTo_cons_stop bs hstop]
      refine ⟨.ended g, f, ?_, rfl, fun c _ => rfl, .nil, ?_⟩
      · intro fuel _
        simp only [scanConfs, hscan, if_pos hstop]
      · intro g' hg'
        cases hg'
        rfl
    · rw [upTo_cons bs hstop] at hds ⊢
      have hne := (f.num_ne_of_split hs).2
      have hlisted := hlist b List.mem_cons_self
      obtain ⟨en, hen⟩ := Option.isSome_iff_exists.mp hlisted
      have hsize : confSize sizes b.num = some (l.last b.num) := by
        rw [hsizes _ _ hen, ConfFile.last, hen]
        rfl
      have hnot : b.num ∉ upTo stop bs := by
        intro hc
        obtain ⟨a, ha, hab⟩ := mem_of_mem_upTo hc
        exact hne a ha hab
      have hnotds : b.num ∉ ds := hds b.num List.mem_cons_self
      have hnotall : b.num ∉ upTo stop bs ++ ds :=
        fun h => (List.mem_append.mp h).elim hnot hnotds
      obtain ⟨e, f₁, r, hrun, hends, hnone⟩ :=
        gapLoop_line hd g hs hlisted (hpos b List.mem_cons_self)
      have hscanned := hends.scanned
      rw [scanStart_estimate (upTo stop bs ++ ds)] at hscanned
      cases r with
      | some m =>
        refine ⟨.found b.num, f₁, ?_, hends.same.nums, ?_, ?_, ?_⟩
        · intro fuel hfuel
          simp only [scanConfs, hscan, if_neg hstop, hsize, hrun fuel hfuel, hends.found m rfl]
        · intro c hc
          exact hends.same.lookup c fun he => hc (he ▸ List.mem_cons_self)
        · exact .found hscanned fun c hc => hends.same.read fun he => hnot (he ▸ hc)
        · intro g' hg'
          cases hg'
      | none =>
        obtain ⟨he, as', hs'⟩ := hnone rfl
        have hsame : ∀ {cs : List Int}, b.num ∉ cs → ∀ c ∈ cs, f₁.lookup c = f.lookup c :=
          fun hb c hc => hends.same.lookup c fun he => hb (he ▸ hc)
        have hpos' : ∀ a ∈ bs, ∀ n ∈ f₁.read a.num, 1 ≤ n := by
          intro a ha
          rw [hends.same.read (hne a ha)]
          exact hpos a (List.mem_cons_of_mem _ ha)
        obtain ⟨e₂, f₂, hrun₂, hnums₂, hkeep₂, hscans₂, hest₂⟩ :=
          ih (g := g.after d f b.num (l.last b.num) (d.first b.num)) lines hs'
            (fun a ha => hlist a (List.mem_cons_of_mem _ ha)) hpos' (by simp at hlines; omega)
            (fun c hc => hds c (List.mem_cons_of_mem _ hc))
        rw [GapState.estimate_congr (hsame hnotall), after_estimate] at hscans₂
        refine ⟨e₂, f₂, ?_, hnums₂.trans hends.same.nums, ?_, ?_, ?_⟩
        · intro fuel hfuel
          simp only [scanConfs, hscan, if_neg hstop, hsize, hrun fuel hfuel, he]
          exact hrun₂ fuel hfuel
        · intro c hc
          rw [List.mem_cons, not_or] at hc
          rw [hkeep₂ c hc.2]
          exact hends.same.lookup c hc.1
        · have hkeep : f₂.read b.num = f₁.read b.num := by
            simp only [ConfsFile.read, hkeep₂ b.num hnot]
          refine .next ?_ (hscans₂.congr (hsame hnot))
          rw [hkeep]
          exact hscanned
        · intro g' hg'
          have hg := hest₂ g' hg'
          rw [GapState.estimate_congr (hsame hnotds), GapState.estimate_congr (hsame hnotall),
            after_estimate] at hg
          exact hg

/-- The conferences in the order `more_conf` looks at them: those after the current one, then those
before it, without the first line. -/
def scanOrder (f : ConfsFile) (currentConf : Int) : List Int :=
  (f.nums.dropWhile (· ≠ currentConf)).tail ++ (f.nums.takeWhile (· ≠ currentConf)).tail

/-- The estimate of a scan by `more_conf`. -/
noncomputable def scanEstimate (d : Disk) (l : ConfFile) (f : ConfsFile) (currentConf : Int) : Int :=
  GapState.estimate d l f ⟨false, 0⟩ (scanOrder f currentConf)

theorem mem_tail_of_mem_scanOrder (h : c ∈ scanOrder f conf) : c ∈ f.nums.tail := by
  unfold scanOrder at h
  cases hn : f.nums with
  | nil => simp [hn] at h
  | cons a as =>
    rw [hn, List.mem_append] at h
    rw [List.tail_cons]
    by_cases ha : a = conf
    · simpa [ha] using h
    · rw [List.dropWhile_cons_of_pos (by simpa using ha),
        List.takeWhile_cons_of_pos (by simpa using ha), List.tail_cons] at h
      rcases h with h | h
      · exact (List.dropWhile_suffix _).subset (List.mem_of_mem_tail h)
      · exact (List.takeWhile_prefix _).subset h

/-- No conference comes twice. -/
theorem notMem_scanOrder (f : ConfsFile) (conf : Int) : conf ∉ scanOrder f conf := by
  intro hc
  rcases List.mem_append.mp hc with hc | hc
  · have hd : (f.nums.dropWhile (· ≠ conf)).Nodup :=
      f.distinct.sublist (List.dropWhile_sublist _)
    cases hs : f.nums.dropWhile (· ≠ conf) with
    | nil =>
      rw [hs] at hc
      cases hc
    | cons a as =>
      have haconf := dropWhile_ne_head hs
      rw [hs] at hc hd
      exact (List.nodup_cons.mp hd).1 (haconf ▸ hc)
  · have := List.mem_takeWhile_imp (List.mem_of_mem_tail hc)
    simp at this

theorem mem_scanOrder (hfirst : f.nums.head? = some 0) (hc : c ∈ f.nums) (h0 : c ≠ 0)
    (hne : c ≠ conf) : c ∈ scanOrder f conf := by
  have htail : ∀ {a : Int} {as : List Int}, as.head? = some a → c ∈ as → c ≠ a → c ∈ as.tail := by
    intro a as ha hmem hca
    cases as with
    | nil => cases ha
    | cons b bs =>
      cases ha
      exact (List.mem_cons.mp hmem).resolve_left hca
  rw [← List.takeWhile_append_dropWhile (p := (· ≠ conf)) (l := f.nums)] at hc
  rcases List.mem_append.mp hc with hc | hc
  · refine List.mem_append_right _ (htail (a := 0) ?_ hc h0)
    cases hs : f.nums with
    | nil => simp [hs] at hfirst
    | cons a as =>
      rw [hs] at hfirst hc
      cases hfirst
      by_cases ha : (0 : Int) = conf
      · simp [ha] at hc
      · simp [ha]
  · refine List.mem_append_left _ (htail (a := conf) ?_ hc hne)
    cases hd : f.nums.dropWhile (· ≠ conf) with
    | nil =>
      rw [hd] at hc
      cases hc
    | cons a as =>
      rw [dropWhile_ne_head hd]
      rfl

theorem scanOrder_disjoint (f : ConfsFile) (conf : Int) :
    ∀ c ∈ (f.nums.dropWhile (· ≠ conf)).tail, c ∉ (f.nums.takeWhile (· ≠ conf)).tail := by
  intro c hdrop htake
  have hd : f.nums.Nodup := f.distinct
  rw [← List.takeWhile_append_dropWhile (p := (· ≠ conf)) (l := f.nums), List.nodup_append] at hd
  exact hd.2.2 c (List.mem_of_mem_tail htake) c (List.mem_of_mem_tail hdrop) rfl

theorem afterConf_bytes (f : ConfsFile) (conf : Int) :
    ∃ as bs, f.entries = as ++ bs ∧ afterConf conf f.bytes = some (confsBytes bs) ∧
      bs.map (·.num) = (f.nums.dropWhile (· ≠ conf)).tail := by
  cases hl : f.lookup conf with
  | none =>
    refine ⟨f.entries, [], by simp, ?_, ?_⟩
    · simp only [afterConf, f.confsEntry_bytes_none hl, confsBytes_nil]
    · have hall : f.nums.dropWhile (· ≠ conf) = [] := by
        rw [List.dropWhile_eq_nil_iff]
        intro c hc
        have hne : c ≠ conf := fun he => by
          have := f.lookup_isSome.mpr (he ▸ hc)
          rw [hl] at this
          cases this
        simpa using hne
      rw [hall]
      rfl
  | some il =>
    obtain ⟨as, bs, hs, has, -, hfind⟩ := f.confsEntry_bytes hl
    refine ⟨as ++ [⟨conf, il⟩], bs, by simp [hs], ?_, ?_⟩
    · simp only [afterConf, hfind]
    · have hdrop : f.nums.dropWhile (· ≠ conf) = conf :: bs.map (·.num) := by
        rw [ConfsFile.nums, hs, List.map_append, List.map_cons,
          List.dropWhile_append_of_pos (by simpa using has)]
        simp
      rw [hdrop]
      rfl

theorem afterFirst_bytes (f : ConfsFile) :
    afterFirst f.bytes = some (confsBytes f.entries.tail) := by
  unfold ConfsFile.bytes
  cases hs : f.entries with
  | nil => rfl
  | cons e es =>
    rw [confsBytes_cons, afterFirst,
      getConfsEntry_stringify (f.marks e (by rw [hs]; exact List.mem_cons_self))]
    rfl

/-- The lines the second loop goes through. -/
theorem upTo_tail (f : ConfsFile) (conf : Int) :
    upTo (some conf) f.entries.tail =
      if f.nums.head? = some conf then f.nums.tail else (f.nums.takeWhile (· ≠ conf)).tail := by
  have hd : f.nums.Nodup := f.distinct
  have hmap : upTo (some conf) f.entries.tail = f.nums.tail.takeWhile (· ≠ conf) := by
    simp only [upTo, ConfsFile.nums, List.map_tail, ne_eq, Option.some.injEq]
  rw [hmap]
  cases hn : f.nums with
  | nil => simp
  | cons a as =>
    rw [hn, List.nodup_cons] at hd
    by_cases ha : a = conf
    · subst ha
      rw [if_pos List.head?_cons, List.tail_cons, List.takeWhile_eq_self_iff]
      intro c hc
      have hne : c ≠ a := fun he => hd.1 (he ▸ hc)
      simpa using hne
    · rw [if_neg (by simpa using ha), List.takeWhile_cons_of_pos (by simpa using ha)]
      rfl

theorem takeWhile_dropWhile_of_head {as : List Int} (h : as.head? = some c) :
    (as.takeWhile (· ≠ c)).tail = [] ∧ (as.dropWhile (· ≠ c)).tail = as.tail := by
  cases as with
  | nil => cases h
  | cons a as =>
    cases h
    simp

/-- `more_conf` when the mailbox has no unread number. -/
theorem moreConf_bytes {mbox : ConfEntry} (hd : Listed d mbox l)
    (hlist : ∀ c ∈ f.nums.tail, (l.entry c).isSome) (hpos : ∀ c, ∀ n ∈ f.read c, 1 ≤ n)
    (cur : Int) {text : Int} (hmail : nextMail mbox f.bytes = some text) (htext : ¬ text > 0) :
    ∃ r f', (∀ fuel, (∀ a ∈ l.entries, a.lastText.toNat < fuel) →
        moreConf d fuel cur f.bytes = some (r.getD (-1), f'.bytes)) ∧ f'.nums = f.nums ∧
      (∀ c, c ∉ scanOrder f cur → f'.read c = f.read c) ∧
      Scans d l f f' (scanEstimate d l f cur) (scanOrder f cur) r := by
  obtain ⟨sizes, hsizes, hread⟩ := l.confSizes_bytes
  obtain ⟨as, bs, hs, hahead, hbs⟩ := afterConf_bytes f cur
  have hup : upTo none bs = (f.nums.dropWhile (· ≠ cur)).tail := by
    rw [← hbs]
    simp [upTo]
  have hmem : ∀ b ∈ bs, b.num ∈ f.nums.tail := by
    intro b hb
    suffices hb' : b.num ∈ scanOrder f cur from mem_tail_of_mem_scanOrder hb'
    rw [scanOrder, ← hbs]
    exact List.mem_append_left _ (List.mem_map_of_mem hb)
  obtain ⟨e₁, f₁, hrun₁, hnums₁, hkeep₁, hscans₁, hest₁⟩ :=
    scanConfs_bytes (g := ⟨false, 0⟩) hd hread none (f.nums.takeWhile (· ≠ cur)).tail
      (f.bytes.length + 1) hs (fun b hb => hlist _ (hmem b hb)) (fun b _ => hpos b.num)
      (by have := length_le_confsBytes f.entries
          rw [hs, List.length_append] at this
          rw [ConfsFile.bytes, hs]
          omega)
      (by rw [hup]; exact scanOrder_disjoint f cur)
  rw [hup] at hkeep₁ hscans₁ hest₁
  have hmbox : getConfEntry d.mailbox = .entry mbox [] := by
    rw [hd.mailbox]
    simpa using getConfEntry_stringify hd.oneLine []
  rw [← hd.conffile] at hsizes
  cases e₁ with
  | found conf =>
    refine ⟨some conf, f₁, ?_, hnums₁, ?_, ?_⟩
    · intro fuel hfuel
      simp only [moreConf, hmbox, hmail, htext, Option.bind_eq_bind, Option.bind_some, if_false,
        hsizes, hahead, hrun₁ fuel hfuel]
      rfl
    · intro c hc
      exact read_congr (hkeep₁ c fun h => hc (List.mem_append_left _ h))
    · refine hscans₁.extend rfl fun c hc => read_congr (hkeep₁ c fun h => ?_)
      exact scanOrder_disjoint f cur c h hc
  | ended g₁ =>
    have hnums₁' : f₁.nums.tail = f.nums.tail := by rw [hnums₁]
    have hmem₁ : ∀ b ∈ f₁.entries.tail, b.num ∈ f.nums.tail := by
      intro b hb
      rw [← hnums₁', ConfsFile.nums, ← List.map_tail]
      exact List.mem_map_of_mem hb
    have hpos₁ : ∀ c, ∀ n ∈ f₁.read c, 1 ≤ n := by
      intro c n hn
      by_cases hc : c ∈ (f.nums.dropWhile (· ≠ cur)).tail
      · exact hscans₁.pos (fun c _ => hpos c) c hc n hn
      · rw [read_congr (hkeep₁ c hc)] at hn
        exact hpos c n hn
    obtain ⟨e₂, f₂, hrun₂, hnums₂, hkeep₂, hscans₂, -⟩ :=
      scanConfs_bytes (g := g₁) hd hread (some cur) [] (f₁.bytes.length + 1)
        (List.take_append_drop 1 f₁.entries).symm
        (fun b hb => hlist _ (hmem₁ b (by simpa using hb))) (fun b _ => hpos₁ b.num)
        (by have := length_le_confsBytes f₁.entries
            rw [List.length_drop, ConfsFile.bytes]
            omega)
        (by simp)
    rw [List.drop_one, upTo_tail, hnums₁] at hkeep₂ hscans₂
    rw [List.drop_one] at hrun₂
    have hrun : ∀ fuel, (∀ a ∈ l.entries, a.lastText.toNat < fuel) →
        moreConf d fuel cur f.bytes = some (e₂.conf.getD (-1), f₂.bytes) := by
      intro fuel hfuel
      simp only [moreConf, hmbox, hmail, htext, Option.bind_eq_bind, Option.bind_some, if_false,
        hsizes, hahead, hrun₁ fuel hfuel, afterFirst_bytes, hrun₂ fuel hfuel]
      rfl
    refine ⟨e₂.conf, f₂, hrun, hnums₂.trans hnums₁, ?_⟩
    by_cases hhead : f.nums.head? = some cur
    · -- the mailbox is the current conference: the second loop goes through the same lines again
      rw [if_pos hhead] at hkeep₂ hscans₂
      obtain ⟨htake, hdrop⟩ := takeWhile_dropWhile_of_head hhead
      have horder : scanOrder f cur = f.nums.tail ++ [] := by
        rw [scanOrder, htake, hdrop]
      rw [hdrop] at hkeep₁ hscans₁
      obtain ⟨hnone, hkeep⟩ := hscans₂.of_covers (fun c _ => hpos₁ c) (hscans₁.covers rfl)
      have hest : GapState.estimate d l f ⟨false, 0⟩
          (f.nums.tail ++ (f.nums.takeWhile (· ≠ cur)).tail) = scanEstimate d l f cur := by
        rw [scanEstimate, scanOrder, hdrop]
      rw [hest] at hscans₁
      rw [horder, hnone]
      refine ⟨fun c hc => ?_, hscans₁.append hkeep .nil⟩
      rw [List.append_nil] at hc
      exact (read_congr (hkeep₂ c hc)).trans (read_congr (hkeep₁ c hc))
    · rw [if_neg hhead] at hkeep₂ hscans₂
      have hdisj := scanOrder_disjoint f cur
      have hother : ∀ c ∈ (f.nums.takeWhile (· ≠ cur)).tail, f₁.lookup c = f.lookup c :=
        fun c hc => hkeep₁ c fun h => hdisj c h hc
      rw [List.append_nil, GapState.estimate_congr hother, hest₁ g₁ rfl] at hscans₂
      refine ⟨fun c hc => ?_, hscans₁.append ?_ (hscans₂.congr hother)⟩
      · rw [scanOrder, List.mem_append, not_or] at hc
        exact (read_congr (hkeep₂ c hc.2)).trans (read_congr (hkeep₁ c hc.1))
      · intro c hc
        exact read_congr (hkeep₂ c (hdisj c hc))

/-- The line of the mailbox leaves a number up to its last text unread. -/
def MailUnread (f : ConfsFile) (last : Int) : Prop :=
  ∃ n, 1 ≤ n ∧ n ≤ last ∧ ∀ e ∈ f.entries.head?, ¬ Covers e.il n

/-- The mailbox is the first line. -/
theorem mailUnread_iff (hfirst : f.nums.head? = some 0) (last : Int) :
    (∃ n, 1 ≤ n ∧ n ≤ last ∧ n ∉ f.read 0) ↔ MailUnread f last := by
  unfold MailUnread
  cases hs : f.entries with
  | nil => simp [ConfsFile.nums, hs] at hfirst
  | cons e es =>
    have he : e.num = 0 := by simpa [ConfsFile.nums, hs] using hfirst
    have hl : f.lookup 0 = some e.il := he ▸ f.lookup_of_mem (by rw [hs]; exact List.mem_cons_self)
    simp only [f.mem_read hl, List.head?_cons, Option.mem_def, Option.some.injEq, forall_eq']

theorem unreadText_pos {il : List IntRange} (hc : Canonical il) (hpos : ∀ n, Covers il n → 1 ≤ n)
    (last : Int) : unreadText il last > 0 ↔ ∃ n, 1 ≤ n ∧ n ≤ last ∧ ¬ Covers il n := by
  have hu := firstUnread_least hc hpos
  have h1 := hu.pos
  unfold unreadText
  by_cases hlt : (firstUnread il).1 > last
  · rw [if_pos hlt]
    refine ⟨fun h => absurd h (by omega), ?_⟩
    rintro ⟨n, h1, h2, hn⟩
    exact absurd (hu.below n h1 (by omega)) hn
  · rw [if_neg hlt]
    exact ⟨fun _ => ⟨_, h1, by omega, hu.notMem⟩, fun _ => by omega⟩

theorem nextMail_bytes (mbox : ConfEntry) (hpos : ∀ c, ∀ n ∈ f.read c, 1 ≤ n) :
    ∃ text, nextMail mbox f.bytes = some text ∧ (text > 0 ↔ MailUnread f mbox.lastText) := by
  unfold ConfsFile.bytes MailUnread
  cases hs : f.entries with
  | nil =>
    refine ⟨unreadText [] mbox.lastText, rfl, ?_⟩
    have hl := unreadText_pos canonical_nil (by simp) mbox.lastText
    simpa using hl
  | cons e es =>
    have he : e ∈ f.entries := by
      rw [hs]
      exact List.mem_cons_self
    have hread : ∀ n, Covers e.il n → 1 ≤ n := by
      intro n hn
      exact hpos e.num n ((f.mem_read (f.lookup_of_mem he)).mpr hn)
    refine ⟨unreadText e.il mbox.lastText, ?_, ?_⟩
    · rw [confsBytes_cons, nextMail, getConfsEntry_stringify (f.marks e he)]
    · have hl := unreadText_pos (f.marks e he).1 hread mbox.lastText
      simpa using hl

/-- `more_conf` when the mailbox has an unread number. -/
theorem moreConf_mail {mbox : ConfEntry} (hd : Listed d mbox l) {text : Int}
    (hmail : nextMail mbox f.bytes = some text) (htext : text > 0) (fuel : Nat) (cur : Int) :
    moreConf d fuel cur f.bytes = some (0, f.bytes) := by
  have hmbox : getConfEntry d.mailbox = .entry mbox [] := by
    rw [hd.mailbox]
    simpa using getConfEntry_stringify hd.oneLine []
  simp only [moreConf, hmbox, hmail, htext, Option.bind_eq_bind, Option.bind_some, if_true]
  rfl

/-! ## What `more_conf` marks as read -/

/-- No existing text of the conference is unread. -/
def NothingUnread (d : Disk) (l : ConfFile) (f : ConfsFile) (c : Int) : Prop :=
  ∀ n, 1 ≤ n → n ≤ l.last c → d.texts c n → n ∈ f.read c

/-- Up to the first conference with an unread text, no conference that jumps has a text between its
greatest read number and the estimate. -/
def Lossless (d : Disk) (l : ConfFile) (f : ConfsFile) (est : Int) : List Int → Prop
  | [] => True
  | c :: cs => NoTextJumped d f c (l.last c) est ∧
      (NothingUnread d l f c → Lossless d l f est cs)

theorem lossless_congr (h : ∀ c ∈ cs, f'.lookup c = f.lookup c) :
    Lossless d l f' est cs ↔ Lossless d l f est cs := by
  induction cs with
  | nil => rfl
  | cons c cs ih =>
    have hc := h c List.mem_cons_self
    rw [Lossless, Lossless, ih fun b hb => h b (List.mem_cons_of_mem _ hb)]
    simp only [NoTextJumped, NothingUnread, jumps_congr hc, ConfsFile.highest, read_congr hc, hc]

theorem adds_missing_iff (hpos : ∀ n ∈ f.read c, 1 ≤ n)
    (hs : GapScan.Scanned (d.texts c) (l.last c) (f.read c) (f.scanStart d c (l.last c) est) r
      (f'.read c)) :
    (∀ n ∈ f'.read c, n ∉ f.read c → ¬ d.texts c n) ↔ NoTextJumped d f c (l.last c) est :=
  hs.adds_missing_iff.trans (GapScan.start_le_iff (f.top_highest hpos))

/-- The scan passes over missing texts only exactly when it is lossless. -/
theorem Scans.adds_missing_iff (h : Scans d l f f' est cs r)
    (hpos : ∀ c, ∀ n ∈ f.read c, 1 ≤ n) :
    (∀ c ∈ cs, ∀ n ∈ f'.read c, n ∉ f.read c → ¬ d.texts c n) ↔ Lossless d l f est cs := by
  induction h with
  | nil => simp [Lossless]
  | @found c cs m hs hrest =>
    rw [List.forall_mem_cons, SklaffKom.adds_missing_iff (hpos c) hs, Lossless]
    refine and_congr_right fun _ => ?_
    constructor
    · intro _ hnone
      have h1 : 1 ≤ m := (GapScan.one_le_start (f.top_highest (hpos c))).trans hs.1.ge
      exact absurd (hnone m h1 hs.1.le hs.1.item) hs.1.notMem
    · intro _ b hb n hn hout
      rw [hrest b hb] at hn
      exact absurd hn hout
  | @next c cs r hs _ ih =>
    rw [List.forall_mem_cons, SklaffKom.adds_missing_iff (hpos c) hs, Lossless, ih]
    refine and_congr_right fun hsafe => ?_
    have hall := (GapScan.start_le_iff (f.top_highest (hpos c))).mpr hsafe
    have hnone : NothingUnread d l f c := by
      intro n h1 h2 hn
      by_contra hout
      exact hs.1 n (hall n h1 hout hn) h2 hout hn
    exact ⟨fun h _ => h, fun h => h hnone⟩

theorem Scans.adds_missing_everywhere (h : Scans d l f f' est cs r)
    (hpos : ∀ c, ∀ n ∈ f.read c, 1 ≤ n) (hkeep : ∀ c, c ∉ cs → f'.read c = f.read c) :
    (∀ c, ∀ n ∈ f'.read c, n ∉ f.read c → ¬ d.texts c n) ↔ Lossless d l f est cs := by
  rw [← h.adds_missing_iff hpos]
  constructor
  · intro hall c _
    exact hall c
  · intro hall c n hn hout
    by_cases hc : c ∈ cs
    · exact hall c hc n hn hout
    · rw [hkeep c hc] at hn
      exact absurd hn hout

/-- `more_conf` marks no existing text as read exactly when the mailbox has an unread number or the
scan is lossless: up to the first conference with an unread text, no conference that jumps has a
text between its greatest read number and the estimate of the first conference that jumps. -/
theorem moreConf_adds_missing_iff {mbox : ConfEntry} (hd : Listed d mbox l)
    (hlist : ∀ c ∈ f.nums.tail, (l.entry c).isSome) (hpos : ∀ c, ∀ n ∈ f.read c, 1 ≤ n)
    (currentConf : Int) :
    ∃ r, ∃ f' : ConfsFile, (∀ fuel, (∀ e ∈ l.entries, e.lastText.toNat < fuel) →
        moreConf d fuel currentConf f.bytes = some (r, f'.bytes)) ∧ f'.nums = f.nums ∧
      ((∀ c, ∀ n ∈ f'.read c, n ∉ f.read c → ¬ d.texts c n) ↔
        MailUnread f mbox.lastText ∨
          Lossless d l f (scanEstimate d l f currentConf) (scanOrder f currentConf)) := by
  obtain ⟨text, hmail, htext⟩ := nextMail_bytes mbox hpos
  by_cases hm : text > 0
  · refine ⟨0, f, fun fuel _ => moreConf_mail hd hmail hm fuel currentConf, rfl, ?_⟩
    exact ⟨fun _ => Or.inl (htext.mp hm), fun _ c n hn hout => absurd hn hout⟩
  · obtain ⟨r, f', hrun, hnums, hkeep, hscans⟩ := moreConf_bytes hd hlist hpos currentConf hmail hm
    refine ⟨_, f', hrun, hnums, ?_⟩
    rw [or_iff_right fun h => hm (htext.mpr h)]
    exact hscans.adds_missing_everywhere hpos hkeep

/-! ## Agreement with `next_text` -/

/-- A scan with the estimate `est` finds a text in the conference. -/
def Shows (d : Disk) (l : ConfFile) (f : ConfsFile) (est c : Int) : Prop :=
  ∃ n, 1 ≤ n ∧ n ≤ l.last c ∧ n ∉ f.read c ∧ d.texts c n ∧ (f.Jumps d c (l.last c) → est ≤ n)

/-- Up to the first conference that shows a text with its own estimate, a conference shows one with
the estimate `est` exactly when it does with its own. -/
def Agrees (d : Disk) (l : ConfFile) (f : ConfsFile) (est : Int) : List Int → Prop
  | [] => True
  | c :: cs => (Shows d l f est c ↔ Shows d l f (d.first c) c) ∧
      (¬ Shows d l f (d.first c) c → Agrees d l f est cs)

/-- The plain scan: the first conference for which `next_text` on the same file returns a text. -/
def plainScan (d : Disk) (f : ConfsFile) (fuel : Nat) (currentConf : Int) : Int :=
  ((scanOrder f currentConf).find? fun c => (nextText d fuel c f.bytes).any (0 < ·.1)).getD (-1)

theorem shows_iff (hpos : ∀ n ∈ f.read c, 1 ≤ n) {T : Set Int}
    (hs : GapScan.Scanned (d.texts c) (l.last c) (f.read c) (f.scanStart d c (l.last c) est) r T) :
    r.isSome ↔ Shows d l f est c :=
  hs.isSome_iff (f.top_highest hpos)

/-- `next_text` returns a text exactly when the conference shows one with its own estimate. -/
theorem nextText_any {mbox : ConfEntry} (hd : Listed d mbox l) (hc : (l.entry c).isSome)
    (hsub : c ∈ f.nums) (hpos : ∀ n ∈ f.read c, 1 ≤ n) {fuel : Nat}
    (hfuel : ∀ e ∈ l.entries, e.lastText.toNat < fuel) :
    (nextText d fuel c f.bytes).any (0 < ·.1) = true ↔ Shows d l f (d.first c) c := by
  obtain ⟨e, he⟩ := Option.isSome_iff_exists.mp hc
  have hpos0 := l.positive e (l.mem_of_entry he)
  rw [(l.exists_split he).1] at hpos0
  have hlast : l.last c = e.lastText := by
    rw [ConfFile.last, he]
    rfl
  obtain ⟨r, f', hrun, -, hs⟩ := nextText_bytes (hd.lastText hc) (hd.firstText hc) (by omega)
    hsub hpos
  rw [hrun fuel (by rw [hlast]; exact hfuel e (l.mem_of_entry he)), ← shows_iff hpos hs]
  cases r with
  | none => simp
  | some m =>
    have h1 : 1 ≤ m := (GapScan.one_le_start (f.top_highest hpos)).trans hs.1.ge
    have h0 : 0 < m := by omega
    simp [h0]

theorem Scans.mem (h : Scans d l f f' est cs r) (hr : r = some c) : c ∈ cs := by
  induction h with
  | nil => cases hr
  | found =>
    cases hr
    exact List.mem_cons_self
  | next _ _ ih => exact List.mem_cons_of_mem _ (ih hr)

/-- The scan stops where the plain one does exactly when the estimates agree. -/
theorem Scans.eq_find_iff (h : Scans d l f f' est cs r) (hpos : ∀ c, ∀ n ∈ f.read c, 1 ≤ n)
    (hnodup : cs.Nodup) {p : Int → Bool} (hp : ∀ c ∈ cs, p c = true ↔ Shows d l f (d.first c) c) :
    r = cs.find? p ↔ Agrees d l f est cs := by
  induction h with
  | nil => simp [Agrees]
  | @found c cs m hs hrest =>
    have hshow : Shows d l f est c := (shows_iff (hpos c) hs).mp rfl
    have hpc := hp c List.mem_cons_self
    rw [Agrees]
    by_cases hown : Shows d l f (d.first c) c
    · rw [List.find?_cons_of_pos (hpc.mpr hown)]
      simp [hshow, hown]
    · rw [List.find?_cons_of_neg fun h => hown (hpc.mp h)]
      refine ⟨fun heq => ?_, fun h => absurd (h.1.mp hshow) hown⟩
      exact absurd (List.mem_of_find?_eq_some heq.symm) (List.nodup_cons.mp hnodup).1
  | @next c cs r hs hscans ih =>
    have hshow : ¬ Shows d l f est c := fun h => by
      have := (shows_iff (hpos c) hs).mpr h
      cases this
    have hpc := hp c List.mem_cons_self
    have ih := ih (List.nodup_cons.mp hnodup).2 fun b hb => hp b (List.mem_cons_of_mem _ hb)
    rw [Agrees]
    by_cases hown : Shows d l f (d.first c) c
    · rw [List.find?_cons_of_pos (hpc.mpr hown)]
      refine ⟨fun heq => ?_, fun h => absurd (h.1.mpr hown) hshow⟩
      exact absurd (hscans.mem heq) (List.nodup_cons.mp hnodup).1
    · rw [List.find?_cons_of_neg fun h => hown (hpc.mp h), ih]
      simp [hshow, hown]

/-- Up to the first conference that shows a text, no conference that jumps has its `last_text` more
than one below the estimate. -/
def Bounded (d : Disk) (l : ConfFile) (f : ConfsFile) (est : Int) : List Int → Prop
  | [] => True
  | c :: cs => (f.Jumps d c (l.last c) → est ≤ l.last c + 1) ∧
      (¬ Shows d l f est c → Bounded d l f est cs)

/-- A scan marks no number above `last_text` exactly when it is bounded. -/
theorem Scans.le_last_iff (h : Scans d l f f' est cs r) (hpos : ∀ c, ∀ n ∈ f.read c, 1 ≤ n)
    (hle : ∀ c ∈ cs, ∀ n ∈ f.read c, n ≤ l.last c) :
    (∀ c ∈ cs, ∀ n ∈ f'.read c, n ≤ l.last c) ↔ Bounded d l f est cs := by
  induction h with
  | nil => simp [Bounded]
  | @found c cs m hs hrest =>
    have hshow : Shows d l f est c := (shows_iff (hpos c) hs).mp rfl
    rw [List.forall_mem_cons,
      hs.le_last_iff (f.top_highest (hpos c)) (hle c List.mem_cons_self), Bounded]
    refine and_congr_right fun _ => iff_of_true ?_ fun hno => absurd hshow hno
    intro b hb n hn
    rw [hrest b hb] at hn
    exact hle b (List.mem_cons_of_mem _ hb) n hn
  | @next c cs r hs _ ih =>
    have hshow : ¬ Shows d l f est c := fun h => by
      have := (shows_iff (hpos c) hs).mpr h
      cases this
    rw [List.forall_mem_cons,
      hs.le_last_iff (f.top_highest (hpos c)) (hle c List.mem_cons_self), Bounded,
      ih fun b hb => hle b (List.mem_cons_of_mem _ hb)]
    exact and_congr_right fun _ => ⟨fun h _ => h, fun h => h hshow⟩

theorem bounded_congr (h : ∀ c ∈ cs, f'.lookup c = f.lookup c) :
    Bounded d l f' est cs ↔ Bounded d l f est cs := by
  induction cs with
  | nil => rfl
  | cons c cs ih =>
    have hc := h c List.mem_cons_self
    rw [Bounded, Bounded, ih fun b hb => h b (List.mem_cons_of_mem _ hb)]
    simp only [Shows, jumps_congr hc, read_congr hc]

theorem scanOrder_nodup (f : ConfsFile) (conf : Int) : (scanOrder f conf).Nodup := by
  have hd : f.nums.Nodup := f.distinct
  rw [scanOrder, List.nodup_append]
  refine ⟨?_, ?_, ?_⟩
  · exact hd.sublist ((List.tail_sublist _).trans (List.dropWhile_sublist _))
  · exact hd.sublist ((List.tail_sublist _).trans (List.takeWhile_sublist _))
  · intro a ha b hb hab
    exact scanOrder_disjoint f conf a ha (hab ▸ hb)

theorem getD_eq_getD_iff {o o' : Option Int} {z : Int} (h : ∀ c, o = some c → c ≠ z)
    (h' : ∀ c, o' = some c → c ≠ z) : o.getD z = o'.getD z ↔ o = o' := by
  cases o with
  | none =>
    cases o' with
    | none => simp
    | some b => simpa using (h' b rfl).symm
  | some a =>
    cases o' with
    | none => simpa using h a rfl
    | some b => simp

/-- With the mailbox on the first line, `more_conf` answers like the plain scan exactly when the
estimate of the first conference that jumps shows the same conferences as their own estimates. -/
theorem moreConf_agrees_iff {mbox : ConfEntry} (hd : Listed d mbox l)
    (hfirst : f.nums.head? = some 0) (hlist : ∀ c ∈ f.nums.tail, (l.entry c).isSome)
    (hpos : ∀ c, ∀ n ∈ f.read c, 1 ≤ n) (currentConf : Int) :
    ∃ r, ∃ f' : ConfsFile, ∀ fuel, (∀ e ∈ l.entries, e.lastText.toNat < fuel) →
      moreConf d fuel currentConf f.bytes = some (r, f'.bytes) ∧
      (((∃ n, 1 ≤ n ∧ n ≤ mbox.lastText ∧ n ∉ f.read 0) → r = 0) ∧
          ((¬ ∃ n, 1 ≤ n ∧ n ≤ mbox.lastText ∧ n ∉ f.read 0) →
            r = plainScan d f fuel currentConf) ↔
        (∃ n, 1 ≤ n ∧ n ≤ mbox.lastText ∧ n ∉ f.read 0) ∨
          Agrees d l f (scanEstimate d l f currentConf) (scanOrder f currentConf)) := by
  obtain ⟨text, hmail, htext⟩ := nextMail_bytes mbox hpos
  have hunread := mailUnread_iff hfirst mbox.lastText
  rw [hunread]
  by_cases hm : text > 0
  · have hmu := htext.mp hm
    refine ⟨0, f, fun fuel _ => ⟨moreConf_mail hd hmail hm fuel currentConf, ?_⟩⟩
    simp [hmu]
  · have hmu : ¬ MailUnread f mbox.lastText := fun h => hm (htext.mpr h)
    obtain ⟨r, f', hrun, -, -, hscans⟩ := moreConf_bytes hd hlist hpos currentConf hmail hm
    refine ⟨_, f', fun fuel hfuel => ⟨hrun fuel hfuel, ?_⟩⟩
    have hp : ∀ c ∈ scanOrder f currentConf, (nextText d fuel c f.bytes).any (0 < ·.1) = true ↔
        Shows d l f (d.first c) c := by
      intro c hc
      have hct := mem_tail_of_mem_scanOrder hc
      exact nextText_any hd (hlist c hct) (List.mem_of_mem_tail hct) (hpos c) hfuel
    have hreal : ∀ c ∈ scanOrder f currentConf, c ≠ -1 := by
      intro c hc he
      obtain ⟨e, hen⟩ := Option.isSome_iff_exists.mp (hlist c (mem_tail_of_mem_scanOrder hc))
      have := l.positive e (l.mem_of_entry hen)
      rw [(l.exists_split hen).1] at this
      omega
    rw [← hscans.eq_find_iff hpos (scanOrder_nodup f currentConf) hp,
      ← getD_eq_getD_iff (fun c hc => hreal c (hscans.mem hc))
        (fun c hc => hreal c (List.mem_of_find?_eq_some hc))]
    simp [hmu, plainScan]

/-- Two conferences: the texts of the first are all gone, the second has lost its first text. -/
def expiredList : ConfFile where
  entries := [⟨1, 12, 2, 0, 1, 0, 0, "Old".toList⟩, ⟨2, 5, 2, 0, 1, 0, 0, "New".toList⟩]
  oneLine := by decide
  numbered := by decide
  positive := by decide

def emptyMailbox : ConfEntry := ⟨0, 0, 0, 0, 0, 0, 0, "Mailbox".toList⟩

def expiredDisk : Disk where
  mailbox := stringifyConfStruct emptyMailbox
  conffile := expiredList.bytes
  fileExists conf n := conf = 2 ∧ 2 ≤ n ∧ n ≤ 5

/-- A user of both conferences who has read nothing. -/
def twoConfs : ConfsFile where
  entries := [⟨0, []⟩, ⟨1, []⟩, ⟨2, []⟩]
  marks := by decide
  distinct := by decide

/-- The same user after `more_conf`. -/
def twoConfsAfter : ConfsFile where
  entries := [⟨0, []⟩, ⟨1, [⟨1, 12⟩]⟩, ⟨2, [⟨1, 11⟩]⟩]
  marks := by decide
  distinct := by decide

theorem moreConf_marks_unread :
    moreConf expiredDisk 13 0 twoConfs.bytes = some (-1, twoConfsAfter.bytes) ∧
      expiredDisk.texts 2 2 ∧ 2 ∉ twoConfs.read 2 ∧ 2 ∈ twoConfsAfter.read 2 := by
  refine ⟨by decide +kernel, rfl, ?_, ⟨[⟨1, 11⟩], rfl, by decide⟩⟩
  rintro ⟨il, hl, hc⟩
  cases hl
  exact covers_nil 2 hc

theorem moreConf_hides_conference :
    (moreConf expiredDisk 13 0 twoConfs.bytes).map Prod.fst = some (-1) ∧
      plainScan expiredDisk twoConfs 13 0 = 2 ∧
      ¬ ∃ n, 1 ≤ n ∧ n ≤ emptyMailbox.lastText ∧ n ∉ twoConfs.read 0 := by
  refine ⟨by decide +kernel, by decide +kernel, ?_⟩
  rintro ⟨n, h1, h2, -⟩
  have h3 : n ≤ 0 := h2
  omega

theorem listed_expiredDisk : Listed expiredDisk emptyMailbox expiredList :=
  ⟨rfl, by decide, rfl⟩

theorem twoConfs_pos : ∀ c, ∀ n ∈ twoConfs.read c, 1 ≤ n := twoConfs.read_pos (by decide)

theorem moreConf_adds_missing_iff_twoConfs :
    ∃ r, ∃ f' : ConfsFile, (∀ fuel, (∀ e ∈ expiredList.entries, e.lastText.toNat < fuel) →
        moreConf expiredDisk fuel 1 twoConfs.bytes = some (r, f'.bytes)) ∧
      f'.nums = twoConfs.nums ∧
      ((∀ c, ∀ n ∈ f'.read c, n ∉ twoConfs.read c → ¬ expiredDisk.texts c n) ↔
        MailUnread twoConfs emptyMailbox.lastText ∨
          Lossless expiredDisk expiredList twoConfs
            (scanEstimate expiredDisk expiredList twoConfs 1) (scanOrder twoConfs 1)) :=
  moreConf_adds_missing_iff listed_expiredDisk (by decide) twoConfs_pos 1

theorem moreConf_agrees_iff_twoConfs :
    ∃ r, ∃ f' : ConfsFile, ∀ fuel, (∀ e ∈ expiredList.entries, e.lastText.toNat < fuel) →
      moreConf expiredDisk fuel 1 twoConfs.bytes = some (r, f'.bytes) ∧
      (((∃ n, 1 ≤ n ∧ n ≤ emptyMailbox.lastText ∧ n ∉ twoConfs.read 0) → r = 0) ∧
          ((¬ ∃ n, 1 ≤ n ∧ n ≤ emptyMailbox.lastText ∧ n ∉ twoConfs.read 0) →
            r = plainScan expiredDisk twoConfs fuel 1) ↔
        (∃ n, 1 ≤ n ∧ n ≤ emptyMailbox.lastText ∧ n ∉ twoConfs.read 0) ∨
          Agrees expiredDisk expiredList twoConfs
            (scanEstimate expiredDisk expiredList twoConfs 1) (scanOrder twoConfs 1)) :=
  moreConf_agrees_iff listed_expiredDisk rfl (by decide) twoConfs_pos 1

end Scans

end SklaffKom
