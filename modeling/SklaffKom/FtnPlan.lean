import SklaffKom.FtnImport
import Mathlib.Data.List.Nodup

/-!
# The dry-run plan of an import

`build_import_plan` tells which files an import would store, and under which numbers, without storing
them.  It plans threads and replies to stored texts first, then replies to planned messages, pass
after pass, and in an unsafe import what is left.
-/

open CString Sweeps

namespace SklaffKom

structure Planref where
  filename : CString
  msgid : CString
  plannedTextnum : Int
  parentTextnum : Int
  orphan : Bool
deriving DecidableEq, Repr

def addPlanref (list : List Planref) (filename msgid : CString) (plannedTextnum parentTextnum : Int)
    (orphan : Bool) : List Planref :=
  if filename = [] ∨ plannedTextnum ≤ 0 then list
  else ⟨filename, msgid, plannedTextnum, parentTextnum, orphan⟩ :: list

def findPlanrefByFilename (list : List Planref) (filename : CString) : Option Planref :=
  if filename = [] then none else list.find? fun p => p.filename = filename

def findPlanrefByMsgid (list : List Planref) (msgid : CString) : Int :=
  if msgid = [] then 0
  else
    match list.find? fun p => p.msgid ≠ [] ∧ p.msgid = msgid with
    | some p => p.plannedTextnum
    | none => 0

/-- What the dry run counts a planned message as. -/
inductive PlanCount
  | topLevel | replyExisting | replyPlanned | orphan
deriving DecidableEq, Repr

/-- What `build_import_plan` returns. -/
structure ImportPlan where
  plans : List Planref
  nextTextnum : Int
  planned : Int
  topLevel : Int
  replyExisting : Int
  replyPlanned : Int
  orphan : Int
deriving DecidableEq, Repr

def ImportPlan.start (firstTextnum : Int) : ImportPlan := ⟨[], firstTextnum, 0, 0, 0, 0, 0⟩

def ImportPlan.add (s : ImportPlan) (m : MsgItem) (parentTextnum : Int) (orphan : Bool) :
    ImportPlan :=
  { s with
    plans := addPlanref s.plans m.filename m.msg.msgid s.nextTextnum parentTextnum orphan
    nextTextnum := s.nextTextnum + 1
    planned := s.planned + 1 }

def ImportPlan.count (s : ImportPlan) : PlanCount → ImportPlan
  | .topLevel => { s with topLevel := s.topLevel + 1 }
  | .replyExisting => { s with replyExisting := s.replyExisting + 1 }
  | .replyPlanned => { s with replyPlanned := s.replyPlanned + 1 }
  | .orphan => { s with orphan := s.orphan + 1 }

/-- What a pass plans for a message: its parent, whether it is a fallback, and its count. -/
abbrev PlanRule := List Planref → FidoMsg → Option (Int × Bool × PlanCount)

def planItem (skrefs : List Skref) (rule : PlanRule) (s : ImportPlan) (m : MsgItem) : ImportPlan :=
  if (findPlanrefByFilename s.plans m.filename).isSome then s
  else if findSkref skrefs m.msg.msgid > 0 then s
  else
    match rule s.plans m.msg with
    | none => s
    | some (parentTextnum, orphan, count) => (s.add m parentTextnum orphan).count count

/-- Pass 1: top-level messages, and replies to stored texts. -/
def planTopLevel (includeUnsafe : Bool) (skrefs : List Skref) : PlanRule := fun _ msg =>
  if msg.reply = [] then
    if subjectLooksLikeReply msg.subject then
      if includeUnsafe then some (0, true, .topLevel) else none
    else some (0, false, .topLevel)
  else if findSkref skrefs msg.reply > 0 then
    some (findSkref skrefs msg.reply, false, .replyExisting)
  else none

/-- Pass 2..N: replies to planned messages. -/
def planReply : PlanRule := fun plans msg =>
  if msg.reply = [] then none
  else if findPlanrefByMsgid plans msg.reply > 0 then
    some (findPlanrefByMsgid plans msg.reply, false, .replyPlanned)
  else none

/-- The pass of an unsafe import over what is left. -/
def planFallback : PlanRule := fun _ _ => some (0, true, .orphan)

/-- `do { changed = 0; ... } while (changed)` of `build_import_plan`. -/
def planReplies (skrefs : List Skref) (items : List MsgItem) : Nat → ImportPlan → Option ImportPlan
  | 0, _ => none
  | n + 1, s =>
    let s' := items.foldl (planItem skrefs planReply) s
    if s'.replyPlanned = s.replyPlanned then some s' else planReplies skrefs items n s'

def buildImportPlan (items : List MsgItem) (skrefs : List Skref) (firstTextnum : Int)
    (includeUnsafe : Bool) (n : Nat) : Option ImportPlan :=
  let s := items.foldl (planItem skrefs (planTopLevel includeUnsafe skrefs)) (.start firstTextnum)
  (planReplies skrefs items n s).map fun s =>
    if includeUnsafe then items.foldl (planItem skrefs planFallback) s else s

/-! ## Messages with their numbers and parents -/

/-- A message, the number it gets and the text it comments on. -/
structure Placed where
  item : MsgItem
  textnum : Int
  parent : Int
deriving DecidableEq

/-- The messages `t` after the history `h`, when `parent` tells the parent after a history. -/
def placeWith (parent : List MsgItem → MsgItem → Int) (first : Int) :
    List MsgItem → List MsgItem → List Placed
  | _, [] => []
  | h, m :: t => ⟨m, first + h.length, parent h m⟩ :: placeWith parent first (h ++ [m]) t

theorem placeWith_append (parent : List MsgItem → MsgItem → Int) (first : Int)
    (h t u : List MsgItem) : placeWith parent first h (t ++ u) =
      placeWith parent first h t ++ placeWith parent first (h ++ t) u := by
  induction t generalizing h with
  | nil => simp [placeWith]
  | cons m t ih =>
    rw [List.cons_append, placeWith, placeWith, ih, List.cons_append, List.append_assoc]
    rfl

theorem items_placeWith (parent : List MsgItem → MsgItem → Int) (first : Int) (h t : List MsgItem) :
    (placeWith parent first h t).map (·.item) = t := by
  induction t generalizing h with
  | nil => rfl
  | cons m t ih => rw [placeWith, List.map_cons, ih]

theorem length_placeWith (parent : List MsgItem → MsgItem → Int) (first : Int) (h t : List MsgItem) :
    (placeWith parent first h t).length = t.length := by
  rw [← List.length_map (f := (·.item)), items_placeWith]

theorem placeWith_eq_iff {parent parent' : List MsgItem → MsgItem → Int} (first : Int)
    {h t : List MsgItem} : placeWith parent first h t = placeWith parent' first h t ↔
      ∀ x m y, t = x ++ m :: y → parent (h ++ x) m = parent' (h ++ x) m := by
  constructor
  · rintro heq x m y rfl
    rw [placeWith_append, placeWith_append] at heq
    have htail := (List.append_inj heq (by rw [length_placeWith, length_placeWith])).2
    exact (Placed.mk.inj (List.cons.inj htail).1).2.2
  · intro heq
    induction t generalizing h with
    | nil => rfl
    | cons m t ih =>
      have hm := heq [] m t rfl
      rw [List.append_nil] at hm
      rw [placeWith, placeWith, hm, ih]
      intro x m' y ht
      rw [List.append_assoc]
      exact heq (m :: x) m' y (by rw [ht, List.cons_append])

theorem textnum_placeWith {parent : List MsgItem → MsgItem → Int} {first : Int} {h t : List MsgItem}
    {e : Placed} (he : e ∈ placeWith parent first h t) : first + h.length ≤ e.textnum := by
  induction t generalizing h with
  | nil => cases he
  | cons m t ih =>
    rw [placeWith, List.mem_cons] at he
    rcases he with rfl | he
    · exact Int.le_refl _
    · have hle := ih he
      rw [List.length_append, List.length_singleton] at hle
      push_cast at hle
      omega

theorem placeWith_increasing (parent : List MsgItem → MsgItem → Int) (first : Int)
    (h t : List MsgItem) :
    (placeWith parent first h t).Pairwise fun a b => a.textnum < b.textnum := by
  induction t generalizing h with
  | nil => exact List.Pairwise.nil
  | cons m t ih =>
    rw [placeWith, List.pairwise_cons]
    refine ⟨fun e he => ?_, ih _⟩
    have hle := textnum_placeWith he
    rw [List.length_append, List.length_singleton] at hle
    push_cast at hle
    show first + (h.length : Int) < e.textnum
    omega

/-- The parent of a message after a history: the text that its `REPLY` is found under. -/
def parentIn (skrefs : List Skref) (first : Int) (h : List MsgItem) (m : MsgItem) : Int :=
  findSkref (indexAfter skrefs first h) m.msg.reply

/-! ## The passes of the plan as sweeps -/

/-- The state of the plan after a history. -/
structure PlanOf (parent : List MsgItem → MsgItem → Int) (first : Int) (h : List MsgItem)
    (s : ImportPlan) : Prop where
  plans : s.plans.map (fun p => (p.filename, p.msgid, p.plannedTextnum, p.parentTextnum)) =
    ((placeWith parent first [] h).map fun e =>
      (e.item.filename, e.item.msg.msgid, e.textnum, e.parent)).reverse
  nextTextnum : s.nextTextnum = first + h.length
  planned : s.planned = h.length

structure MsgFiles (items : List MsgItem) : Prop where
  nonempty : ∀ m ∈ items, m.filename ≠ []
  distinct : (items.map (·.filename)).Nodup

section Plan

variable {items : List MsgItem} {skrefs : List Skref} {first : Int}
  {parent : List MsgItem → MsgItem → Int} {h : List MsgItem} {s : ImportPlan}

theorem MsgFiles.inj (hf : MsgFiles items) {m m' : MsgItem} (hm : m ∈ items) (hm' : m' ∈ items)
    (he : m.filename = m'.filename) : m = m' :=
  List.inj_on_of_nodup_map hf.distinct hm hm' he

theorem PlanOf.mem_iff (hp : PlanOf parent first h s) (filename msgid : CString) (n com : Int) :
    (∃ p ∈ s.plans, p.filename = filename ∧ p.msgid = msgid ∧ p.plannedTextnum = n ∧
      p.parentTextnum = com) ↔ ∃ e ∈ placeWith parent first [] h, e.item.filename = filename ∧
        e.item.msg.msgid = msgid ∧ e.textnum = n ∧ e.parent = com := by
  have hmem := congrArg (fun l => (filename, msgid, n, com) ∈ l) hp.plans
  simpa using iff_of_eq hmem

theorem PlanOf.found (hp : PlanOf parent first h s) (hf : MsgFiles items) (hh : h ⊆ items) {m : MsgItem}
    (hm : m ∈ items) : (findPlanrefByFilename s.plans m.filename).isSome = true ↔ m ∈ h := by
  unfold findPlanrefByFilename
  rw [if_neg (hf.nonempty m hm), List.find?_isSome]
  constructor
  · rintro ⟨p, hps, hpf⟩
    obtain ⟨e, he, hef, -⟩ := (hp.mem_iff p.filename p.msgid p.plannedTextnum p.parentTextnum).mp
      ⟨p, hps, rfl, rfl, rfl, rfl⟩
    have heh : e.item ∈ h := by
      rw [← items_placeWith parent first [] h]
      exact List.mem_map_of_mem he
    have hmf : e.item = m := hf.inj (hh heh) hm (hef.trans (of_decide_eq_true hpf))
    exact hmf ▸ heh
  · intro hmh
    rw [← items_placeWith parent first [] h] at hmh
    obtain ⟨e, he, rfl⟩ := List.mem_map.mp hmh
    obtain ⟨p, hps, hpf, -⟩ := (hp.mem_iff e.item.filename e.item.msg.msgid e.textnum e.parent).mpr
      ⟨e, he, rfl, rfl, rfl, rfl⟩
    exact ⟨p, hps, decide_eq_true hpf⟩

theorem PlanOf.add (hfirst : 0 < first) (hp : PlanOf parent first h s) {m : MsgItem}
    (hm : m.filename ≠ []) (orphan : Bool) (count : PlanCount) :
    PlanOf parent first (h ++ [m]) ((s.add m (parent h m) orphan).count count) := by
  have hplans : (s.add m (parent h m) orphan).plans.map
      (fun p => (p.filename, p.msgid, p.plannedTextnum, p.parentTextnum)) =
      ((placeWith parent first [] (h ++ [m])).map fun e =>
        (e.item.filename, e.item.msg.msgid, e.textnum, e.parent)).reverse := by
    show (addPlanref s.plans _ _ _ _ _).map _ = _
    unfold addPlanref
    rw [if_neg (by rw [hp.nextTextnum, not_or]; exact ⟨hm, by omega⟩), List.map_cons, hp.plans,
      placeWith_append, List.map_append, List.reverse_append, hp.nextTextnum]
    rfl
  have hnext : (s.add m (parent h m) orphan).nextTextnum = first + (h ++ [m]).length := by
    show s.nextTextnum + 1 = _
    rw [hp.nextTextnum, List.length_append, List.length_singleton]
    push_cast
    omega
  have hplanned : (s.add m (parent h m) orphan).planned = (h ++ [m]).length := by
    show s.planned + 1 = _
    rw [hp.planned, List.length_append, List.length_singleton]
    rfl
  cases count <;> exact ⟨hplans, hnext, hplanned⟩

/-- What a pass takes: a message that is neither planned nor stored, and that its rule is for. -/
def planTakes (skrefs : List Skref) (takes : List MsgItem → MsgItem → Bool) (h : List MsgItem)
    (m : MsgItem) : Bool :=
  decide (¬ Known skrefs m.msg.msgid) && (m ∉ h && takes h m)

/-- A pass, when its rule finds the parents. -/
theorem PlanOf.pass (hfirst : 0 < first) (hf : MsgFiles items) {rule : PlanRule}
    {takes : List MsgItem → MsgItem → Bool} {I : List MsgItem → Prop}
    (hrule : ∀ h s, h ⊆ items → I h → PlanOf parent first h s → ∀ m ∈ items, m ∉ h →
      ¬ Known skrefs m.msg.msgid → (rule s.plans m.msg).map (·.1) =
        (if takes h m then some (parent h m) else none) ∧ (takes h m = true → I (h ++ [m])))
    {ms : List MsgItem} (hms : ms ⊆ items) (hh : h ⊆ items) (hI : I h)
    (hp : PlanOf parent first h s) :
    PlanOf parent first (h ++ sweep (planTakes skrefs takes) h ms)
      (ms.foldl (planItem skrefs rule) s) := by
  induction ms generalizing h s with
  | nil =>
    rw [sweep_nil, List.append_nil]
    exact hp
  | cons m ms ih =>
    obtain ⟨hm, hms⟩ := List.cons_subset.mp hms
    rw [List.foldl_cons, planItem]
    have hfound := hp.found hf hh hm
    by_cases hmh : m ∈ h
    · have hskip : planTakes skrefs takes h m = false := by simp [planTakes, hmh]
      rw [if_pos (hfound.mpr hmh), sweep_of_not hskip]
      exact ih hms hh hI hp
    rw [if_neg (fun hc => hmh (hfound.mp hc))]
    by_cases hk : findSkref skrefs m.msg.msgid > 0
    · have hskip : planTakes skrefs takes h m = false := by
        have hk' : Known skrefs m.msg.msgid := hk
        simp [planTakes, hk']
      rw [if_pos hk, sweep_of_not hskip]
      exact ih hms hh hI hp
    obtain ⟨hpar, hI'⟩ := hrule h s hh hI hp m hm hmh hk
    rw [if_neg hk]
    cases ht : takes h m with
    | false =>
      have hskip : planTakes skrefs takes h m = false := by simp [planTakes, ht]
      rw [ht, if_neg Bool.false_ne_true, Option.map_eq_none_iff] at hpar
      rw [hpar, sweep_of_not hskip]
      exact ih hms hh hI hp
    | true =>
      have htake : planTakes skrefs takes h m = true := by
        have hk' : ¬ Known skrefs m.msg.msgid := hk
        simp [planTakes, ht, hmh, hk']
      rw [ht, if_pos rfl, Option.map_eq_some_iff] at hpar
      obtain ⟨⟨com, orphan, count⟩, hdo, hcom⟩ := hpar
      have hcom : com = parent h m := hcom
      rw [hdo, hcom, sweep_of_fires htake, List.append_cons]
      refine ih hms ?_ (hI' ht) (hp.add hfirst (hf.nonempty m hm) orphan count)
      intro a ha
      rw [List.mem_append, List.mem_singleton] at ha
      exact ha.elim (fun ha => hh ha) (fun ha => ha ▸ hm)

/-! ## What the passes look up -/

theorem findSkref_addSkref_ne (list : List Skref) {msgid id : CString} (hne : id ≠ msgid) (n : Int) :
    findSkref (addSkref list msgid n) id = findSkref list id := by
  unfold addSkref
  split
  · rfl
  · unfold findSkref
    rw [List.find?_cons_of_neg (by simpa using fun h => hne h.symm)]

/-- A message of the history is found under its number, whatever was stored before. -/
theorem findSkref_indexAfter (hfirst : 0 < first) (skrefs : List Skref) {h : List MsgItem}
    {id : CString} (hid : id ≠ []) :
    ((∃ a ∈ h, a.msg.msgid = id) → 0 < findSkref (indexAfter skrefs first h) id ∧
        findSkref (indexAfter skrefs first h) id = findSkref (indexAfter [] first h) id) ∧
      ((∀ a ∈ h, a.msg.msgid ≠ id) →
        findSkref (indexAfter skrefs first h) id = findSkref skrefs id) := by
  induction h using List.reverseRecOn with
  | nil => exact ⟨fun ⟨a, ha, _⟩ => (List.not_mem_nil ha).elim, fun _ => rfl⟩
  | append_singleton h m ih =>
    rw [indexAfter_snoc, indexAfter_snoc]
    by_cases hm : id = m.msg.msgid
    · have hne : m.msg.msgid ≠ [] := hm ▸ hid
      rw [findSkref_addSkref _ hne (by omega), findSkref_addSkref _ hne (by omega), if_pos hm,
        if_pos hm]
      refine ⟨fun _ => ⟨by omega, rfl⟩, fun hall => ?_⟩
      exact absurd hm.symm (hall m (by simp))
    · rw [findSkref_addSkref_ne _ hm, findSkref_addSkref_ne _ hm]
      refine ⟨?_, fun hall => ih.2 fun a ha => hall a (List.mem_append_left _ ha)⟩
      rintro ⟨a, ha, he⟩
      rw [List.mem_append, List.mem_singleton] at ha
      rcases ha with ha | rfl
      · exact ih.1 ⟨a, ha, he⟩
      · exact absurd he.symm hm

theorem findSkref_placeWith (hfirst : 0 < first) (parent : List MsgItem → MsgItem → Int)
    (h : List MsgItem) (id : CString) :
    findSkref ((placeWith parent first [] h).map fun e => ⟨e.item.msg.msgid, e.textnum⟩).reverse id =
      findSkref (indexAfter [] first h) id := by
  by_cases hid : id = []
  · rw [hid, findSkref_nil, findSkref_nil]
  induction h using List.reverseRecOn with
  | nil => rfl
  | append_singleton h m ih =>
    rw [indexAfter_snoc, placeWith_append, List.map_append, List.reverse_append]
    show findSkref (⟨m.msg.msgid, first + (h.length : Int)⟩ :: _) id = _
    by_cases hm : id = m.msg.msgid
    · have hne : m.msg.msgid ≠ [] := hm ▸ hid
      rw [findSkref_addSkref _ hne (by omega), if_pos hm]
      unfold findSkref
      rw [if_neg hid, List.find?_cons_of_pos (by simp [hm])]
    · rw [findSkref_addSkref_ne _ hm, ← ih]
      unfold findSkref
      rw [List.find?_cons_of_neg (by simpa using fun h => hm h.symm)]
      rfl

theorem findPlanrefByMsgid_eq (list : List Planref) (id : CString) : findPlanrefByMsgid list id =
    findSkref (list.map fun p => ⟨p.msgid, p.plannedTextnum⟩) id := by
  unfold findPlanrefByMsgid findSkref
  by_cases hid : id = []
  · rw [if_pos hid, if_pos hid]
  · rw [if_neg hid, if_neg hid, List.find?_map]
    have hsame : (fun p : Planref => decide (p.msgid ≠ [] ∧ p.msgid = id)) =
        (fun q : Skref => decide (q.msgid = id)) ∘ fun p => ⟨p.msgid, p.plannedTextnum⟩ := by
      funext p
      by_cases hp : p.msgid = id
      · simp [hp, hid]
      · simp [hp]
    rw [hsame]
    cases list.find? _ <;> rfl

theorem PlanOf.find (hfirst : 0 < first) (hp : PlanOf parent first h s) (id : CString) :
    findPlanrefByMsgid s.plans id = findSkref (indexAfter [] first h) id := by
  have hmap := congrArg (List.map fun t : CString × CString × Int × Int => (⟨t.2.1, t.2.2.1⟩ : Skref))
    hp.plans
  rw [List.map_map, ← List.map_reverse, List.map_map] at hmap
  rw [findPlanrefByMsgid_eq, ← findSkref_placeWith hfirst parent, ← List.map_reverse]
  exact congrArg (findSkref · id) hmap

/-- Pass 1 takes a message whatever has been planned before. -/
def TopLevel (includeUnsafe : Bool) (skrefs : List Skref) (m : MsgItem) : Bool :=
  (m.msg.reply = [] && (includeUnsafe || !subjectLooksLikeReply m.msg.subject)) ||
    decide (Known skrefs m.msg.reply)

/-- `m` is a reply to `d`. -/
def AnswersTo (d m : MsgItem) : Bool := m.msg.reply ≠ [] && d.msg.msgid = m.msg.reply

theorem planTopLevel_eq (hfirst : 0 < first) (includeUnsafe : Bool) (plans : List Planref)
    (hnew : ∀ a ∈ h, ¬ Known skrefs a.msg.msgid) (m : MsgItem) :
    (planTopLevel includeUnsafe skrefs plans m.msg).map (·.1) =
      if TopLevel includeUnsafe skrefs m then some (parentIn skrefs first h m) else none := by
  unfold planTopLevel TopLevel parentIn
  by_cases hr : m.msg.reply = []
  · have hk : ¬ Known skrefs m.msg.reply := by
      rw [hr]
      exact Int.lt_irrefl 0
    rw [if_pos hr]
    simp only [hk, decide_false, Bool.or_false]
    rw [hr, findSkref_nil]
    cases subjectLooksLikeReply m.msg.subject <;> cases includeUnsafe <;> rfl
  · rw [if_neg hr]
    by_cases hk : findSkref skrefs m.msg.reply > 0
    · have hk' : Known skrefs m.msg.reply := hk
      have hnone : ∀ a ∈ h, a.msg.msgid ≠ m.msg.reply := fun a ha he => hnew a ha (he ▸ hk')
      rw [if_pos hk, (findSkref_indexAfter hfirst skrefs hr).2 hnone]
      simp [hk']
    · have hk' : ¬ Known skrefs m.msg.reply := hk
      rw [if_neg hk]
      simp [hr, hk']

theorem planReply_eq (hfirst : 0 < first) (skrefs : List Skref) (hp : PlanOf parent first h s)
    (m : MsgItem) : (planReply s.plans m.msg).map (·.1) =
      if (h.any fun d => AnswersTo d m) then some (parentIn skrefs first h m) else none := by
  unfold planReply parentIn
  rw [hp.find hfirst]
  by_cases hr : m.msg.reply = []
  · simp [hr, AnswersTo]
  · have hfind := findSkref_indexAfter (h := h) hfirst [] hr
    rw [if_neg hr]
    by_cases hex : ∃ a ∈ h, a.msg.msgid = m.msg.reply
    · have hany : (h.any fun d => AnswersTo d m) = true := by
        simpa [AnswersTo, hr] using hex
      rw [if_pos (hfind.1 hex).1, hany, if_pos rfl,
        ((findSkref_indexAfter hfirst skrefs hr).1 hex).2]
      rfl
    · have hnone : ∀ a ∈ h, a.msg.msgid ≠ m.msg.reply := fun a ha he => hex ⟨a, ha, he⟩
      have hany : (h.any fun d => AnswersTo d m) = false := by
        simpa [AnswersTo, hr] using hnone
      have hzero : findSkref (indexAfter [] first h) m.msg.reply = 0 := by
        rw [hfind.2 hnone, findSkref, if_neg hr]
        rfl
      rw [hzero, if_neg (Int.lt_irrefl 0), hany, if_neg Bool.false_ne_true]
      rfl

theorem replyPlanned_pass (ms : List MsgItem) (s : ImportPlan) :
    (ms.foldl (planItem skrefs planReply) s).replyPlanned - s.replyPlanned =
      (ms.foldl (planItem skrefs planReply) s).planned - s.planned := by
  induction ms generalizing s with
  | nil => simp
  | cons m ms ih =>
    rw [List.foldl_cons]
    have hstep : (planItem skrefs planReply s m).replyPlanned - s.replyPlanned =
        (planItem skrefs planReply s m).planned - s.planned := by
      unfold planItem
      split
      · simp
      split
      · simp
      unfold planReply
      split
      · simp
      · next hd =>
        split at hd
        · cases hd
        · split at hd
          · cases hd
            show s.replyPlanned + 1 - s.replyPlanned = s.planned + 1 - s.planned
            omega
          · cases hd
    have ih := ih (planItem skrefs planReply s m)
    omega

/-- More passes than needed change nothing. -/
theorem planReplies_mono {n m : Nat} (hnm : n ≤ m) {s' : ImportPlan}
    (hs : planReplies skrefs items n s = some s') : planReplies skrefs items m s = some s' := by
  induction n generalizing s m with
  | zero => cases hs
  | succ n ih =>
    obtain ⟨m, rfl⟩ : ∃ k, m = k + 1 := ⟨m - 1, by omega⟩
    rw [planReplies] at hs ⊢
    split
    · next hsame => rwa [if_pos hsame] at hs
    · next hsame =>
      rw [if_neg hsame] at hs
      exact ih (by omega) hs

/-- The passes 2..N. -/
theorem PlanOf.replies (hfirst : 0 < first) (hf : MsgFiles items) (n : Nat) {r : List MsgItem}
    (hh : h ⊆ items) (hp : PlanOf (parentIn skrefs first) first h s)
    (hr : sweeps (planTakes skrefs fun h m => h.any fun d => AnswersTo d m) items n h = some r) :
    ∃ s', planReplies skrefs items n s = some s' ∧ PlanOf (parentIn skrefs first) first r s' := by
  induction n generalizing h s with
  | zero => cases hr
  | succ n ih =>
    have hpass := @PlanOf.pass _ skrefs _ _ _ _ hfirst hf planReply
      (fun h m => h.any fun d => AnswersTo d m) (fun _ => True)
      (fun h s _ _ hp m _ _ _ => ⟨planReply_eq hfirst skrefs hp m, fun _ => trivial⟩)
      _ (List.Subset.refl items) hh trivial hp
    have hcount := @replyPlanned_pass skrefs items s
    rw [hpass.planned, hp.planned, List.length_append] at hcount
    rw [planReplies]
    rw [sweeps] at hr
    by_cases hnil : sweep (planTakes skrefs fun h m => h.any fun d => AnswersTo d m) h items = []
    · rw [if_pos hnil] at hr
      rw [hnil, List.append_nil] at hpass
      rw [hnil, List.length_nil] at hcount
      rw [if_pos (by omega)]
      cases hr
      exact ⟨_, rfl, hpass⟩
    · have hpos := List.length_pos_iff.mpr hnil
      rw [if_neg hnil] at hr
      rw [if_neg (by omega)]
      refine ih ?_ hpass hr
      exact List.append_subset.mpr ⟨hh, (sweep_sublist h items).subset⟩

/-! ## Which files are planned -/

/-- The messages that are not stored yet. -/
def newItems (skrefs : List Skref) (items : List MsgItem) : List MsgItem :=
  items.filter fun m => decide (¬ Known skrefs m.msg.msgid)

/-- The messages that an import with this flag is meant for. -/
def Plannable (includeUnsafe : Bool) (items : List MsgItem) (skrefs : List Skref) (msg : FidoMsg) :
    Prop :=
  ¬ Known skrefs msg.msgid ∧ (includeUnsafe = true ∨ OpensThread msg ∨ Known skrefs msg.reply ∨
    msg.reply ≠ [] ∧ Importable items skrefs msg.reply)

theorem mem_newItems {m : MsgItem} :
    m ∈ newItems skrefs items ↔ m ∈ items ∧ ¬ Known skrefs m.msg.msgid := by
  simp [newItems]

variable {includeUnsafe : Bool}

theorem topLevel_iff {m : MsgItem} : TopLevel includeUnsafe skrefs m = true ↔
    (m.msg.reply = [] ∧ includeUnsafe = true) ∨ OpensThread m.msg ∨ Known skrefs m.msg.reply := by
  unfold TopLevel OpensThread
  cases includeUnsafe
  · simp
  · simp only [Bool.true_or, Bool.and_true, Bool.or_eq_true, decide_eq_true_eq, and_true]
    tauto

theorem answersTo_iff {d m : MsgItem} :
    AnswersTo d m = true ↔ m.msg.reply ≠ [] ∧ d.msg.msgid = m.msg.reply := by
  simp [AnswersTo]

theorem Importable.ne_nil {id : CString} (h : Importable items skrefs id) : id ≠ [] := by
  cases h with
  | opens _ hnew _ => exact hnew.1
  | answer _ hnew _ => exact hnew.1
  | child _ hnew _ => exact hnew.1

/-- A message is plannable on its own account or because of a plannable one. -/
theorem plannable_of_rule (hplan : ∀ a ∈ h, a ∈ items ∧ Plannable includeUnsafe items skrefs a.msg)
    {m : MsgItem} (hn : ¬ Known skrefs m.msg.msgid) (hrule : includeUnsafe = true ∨
      TopLevel false skrefs m = true ∨ ∃ d ∈ h, AnswersTo d m = true) :
    Plannable includeUnsafe items skrefs m.msg := by
  refine ⟨hn, ?_⟩
  rcases hrule with hu | ht | ⟨d, hd, hans⟩
  · exact Or.inl hu
  · rcases topLevel_iff.mp ht with ⟨-, hu⟩ | ho | hk
    · cases hu
    · exact Or.inr (Or.inl ho)
    · exact Or.inr (Or.inr (Or.inl hk))
  · obtain ⟨hne, hid⟩ := answersTo_iff.mp hans
    obtain ⟨hdi, hdn, hdp⟩ := hplan d hd
    have hdnew : IsNew skrefs d.msg := ⟨hid ▸ hne, hdn⟩
    rcases hdp with hu | ho | hk | ⟨-, hp⟩
    · exact Or.inl hu
    · exact Or.inr (Or.inr (Or.inr ⟨hne, hid ▸ .opens hdi hdnew ho⟩))
    · exact Or.inr (Or.inr (Or.inr ⟨hne, hid ▸ .answer hdi hdnew hk⟩))
    · exact Or.inr (Or.inr (Or.inr ⟨hne, hid ▸ .child hdi hdnew hp⟩))

/-- What the passes 1..N plan. -/
theorem mem_planned {n : Nat} {r : List MsgItem}
    (hr : sweeps (follow (TopLevel false skrefs) AnswersTo) (newItems skrefs items) n
      ((newItems skrefs items).filter (TopLevel false skrefs)) = some r) (m : MsgItem) :
    m ∈ r ↔ m ∈ items ∧ Plannable false items skrefs m.msg := by
  have hg := sweeps_grows hr
  have hstable := sweeps_stable hr
  constructor
  · have hinv := hg.invariant
      (I := fun r => ∀ a ∈ r, a ∈ items ∧ Plannable false items skrefs a.msg) ?_ ?_
    · exact hinv m
    · intro r a hI ha hf b hb
      rw [List.mem_append, List.mem_singleton] at hb
      rcases hb with hb | rfl
      · exact hI b hb
      obtain ⟨hbi, hbn⟩ := mem_newItems.mp ha
      exact ⟨hbi, plannable_of_rule hI hbn (Or.inr (follow_iff.mp hf).2)⟩
    · intro a ha
      obtain ⟨ha, ht⟩ := List.mem_filter.mp ha
      obtain ⟨hai, han⟩ := mem_newItems.mp ha
      exact ⟨hai, plannable_of_rule (h := []) (by simp) han (Or.inr (Or.inl ht))⟩
  · -- a message that is not planned in the end has neither a place of its own nor a planned parent
    have hmem : ∀ a ∈ items, ¬ Known skrefs a.msg.msgid → (TopLevel false skrefs a = true ∨
        ∃ d ∈ r, AnswersTo d a = true) → a ∈ r := by
      intro a hai han hrule
      by_contra hnot
      have hf := hstable a (mem_newItems.mpr ⟨hai, han⟩)
      rw [follow_iff.mpr ⟨hnot, hrule⟩] at hf
      cases hf
    have hreach : ∀ id, Importable items skrefs id → ∃ a ∈ r, a.msg.msgid = id := by
      intro id hid
      induction hid with
      | @opens a ha hnew ho =>
        exact ⟨a, hmem a ha hnew.2 (Or.inl (topLevel_iff.mpr (Or.inr (Or.inl ho)))), rfl⟩
      | @answer a ha hnew hk =>
        exact ⟨a, hmem a ha hnew.2 (Or.inl (topLevel_iff.mpr (Or.inr (Or.inr hk)))), rfl⟩
      | @child a ha hnew hpar ih =>
        obtain ⟨d, hd, hid⟩ := ih
        exact ⟨a, hmem a ha hnew.2 (Or.inr ⟨d, hd, answersTo_iff.mpr ⟨hpar.ne_nil, hid⟩⟩), rfl⟩
    rintro ⟨hm, hn, hu | ho | hk | ⟨hne, hp⟩⟩
    · cases hu
    · exact hmem m hm hn (Or.inl (topLevel_iff.mpr (Or.inr (Or.inl ho))))
    · exact hmem m hm hn (Or.inl (topLevel_iff.mpr (Or.inr (Or.inr hk))))
    · obtain ⟨d, hd, hid⟩ := hreach _ hp
      exact hmem m hm hn (Or.inr ⟨d, hd, answersTo_iff.mpr ⟨hne, hid⟩⟩)

/-- The files that are planned. -/
theorem mem_planned_unsafe {n : Nat} {r : List MsgItem}
    (hr : sweeps (follow (TopLevel true skrefs) AnswersTo) (newItems skrefs items) n
      ((newItems skrefs items).filter (TopLevel true skrefs)) = some r) (m : MsgItem) :
    m ∈ r ++ (newItems skrefs items).filter (fun a => a ∉ r) ↔
      m ∈ items ∧ Plannable true items skrefs m.msg := by
  have hsub : r ⊆ newItems skrefs items := fun a ha =>
    ((sweeps_grows hr).mem ha).elim (fun h => List.mem_of_mem_filter h) id
  have hplan : Plannable true items skrefs m.msg ↔ ¬ Known skrefs m.msg.msgid :=
    ⟨fun h => h.1, fun h => ⟨h, Or.inl rfl⟩⟩
  rw [hplan, ← mem_newItems, List.mem_append, List.mem_filter, decide_eq_true_eq]
  constructor
  · exact fun h => h.elim (fun h => hsub h) (fun h => h.1)
  · intro hm
    by_cases hmr : m ∈ r
    · exact Or.inl hmr
    · exact Or.inr ⟨hm, hmr⟩

/-- The files in the order in which they are planned, when the passes 1..N plan `r`. -/
def planOrder (includeUnsafe : Bool) (skrefs : List Skref) (items r : List MsgItem) : List MsgItem :=
  if includeUnsafe then r ++ (newItems skrefs items).filter fun a => a ∉ r else r

/-- The parents in the plan: a fallback has none. -/
def planParent (skrefs : List Skref) (first : Int) (r h : List MsgItem) (m : MsgItem) : Int :=
  if m ∈ r then parentIn skrefs first h m else 0

theorem sweep_topLevel (hnodup : items.Nodup) :
    sweep (planTakes skrefs fun _ => TopLevel includeUnsafe skrefs) [] items =
      (newItems skrefs items).filter (TopLevel includeUnsafe skrefs) := by
  have hand := @sweep_and _ (fun h m => m ∉ h && TopLevel includeUnsafe skrefs m)
    (fun m => decide (¬ Known skrefs m.msg.msgid)) [] items
  refine hand.trans ?_
  rw [sweep_fresh (hnodup.filter _)]
  simp [newItems]

theorem sweeps_replies (n : Nat) :
    sweeps (planTakes skrefs fun h m => h.any fun d => AnswersTo d m) items n
        ((newItems skrefs items).filter (TopLevel includeUnsafe skrefs)) =
      sweeps (follow (TopLevel includeUnsafe skrefs) AnswersTo) (newItems skrefs items) n
        ((newItems skrefs items).filter (TopLevel includeUnsafe skrefs)) := by
  rw [newItems, ← sweeps_and]
  refine sweeps_congr
    (I := fun h => (newItems skrefs items).filter (TopLevel includeUnsafe skrefs) ⊆ h) ?_
    (List.Subset.refl _) n
  intro h hh m hm
  refine ⟨?_, fun _ => List.subset_append_of_subset_left _ hh⟩
  unfold planTakes follow
  by_cases hk : Known skrefs m.msg.msgid
  · simp [hk]
  · by_cases hmh : m ∈ h
    · simp [hmh]
    · -- the messages of pass 1 have been planned
      have ht : TopLevel includeUnsafe skrefs m = false := by
        rw [Bool.eq_false_iff]
        exact fun ht => hmh (hh (List.mem_filter.mpr ⟨mem_newItems.mpr ⟨hm, hk⟩, ht⟩))
      simp [ht]

theorem PlanOf.congr {parent' : List MsgItem → MsgItem → Int} (hp : PlanOf parent first h s)
    (heq : ∀ x m y, h = x ++ m :: y → parent x m = parent' x m) : PlanOf parent' first h s :=
  ⟨by rw [hp.plans, (placeWith_eq_iff first).mpr (by simpa using heq)], hp.nextTextnum, hp.planned⟩

/-- The whole plan. -/
theorem buildImportPlan_eq (hfirst : 0 < first) (hf : MsgFiles items) (includeUnsafe : Bool) {n : Nat}
    {r : List MsgItem}
    (hr : sweeps (follow (TopLevel includeUnsafe skrefs) AnswersTo) (newItems skrefs items) n
      ((newItems skrefs items).filter (TopLevel includeUnsafe skrefs)) = some r) :
    ∃ plan, buildImportPlan items skrefs first includeUnsafe n = some plan ∧
      PlanOf (planParent skrefs first r) first (planOrder includeUnsafe skrefs items r) plan := by
  have hnodup : items.Nodup := List.Nodup.of_map _ hf.distinct
  have hstart : PlanOf (parentIn skrefs first) first [] (.start first) :=
    ⟨rfl, (Int.add_zero first).symm, rfl⟩
  have htop := @PlanOf.pass _ skrefs _ _ _ _ hfirst hf (planTopLevel includeUnsafe skrefs)
    (fun _ => TopLevel includeUnsafe skrefs) (fun h => ∀ a ∈ h, ¬ Known skrefs a.msg.msgid)
    (fun h s _ hI _ m _ _ hk => ⟨planTopLevel_eq hfirst includeUnsafe s.plans hI m, fun _ a ha => by
      rw [List.mem_append, List.mem_singleton] at ha
      exact ha.elim (hI a) (fun he => he ▸ hk)⟩)
    _ (List.Subset.refl items) (List.nil_subset items) (by simp) hstart
  rw [List.nil_append, sweep_topLevel hnodup] at htop
  have hsub : newItems skrefs items ⊆ items := fun a ha => List.mem_of_mem_filter ha
  have hrsub : r ⊆ items := fun a ha => hsub
    (((sweeps_grows hr).mem ha).elim (fun h => List.mem_of_mem_filter h) id)
  obtain ⟨s, hs, hp⟩ := htop.replies hfirst hf n (fun a ha => hsub (List.mem_of_mem_filter ha))
    (by rw [sweeps_replies, hr])
  have hp' : PlanOf (planParent skrefs first r) first r s := by
    refine hp.congr fun x m y hxy => ?_
    rw [planParent, if_pos (by rw [hxy]; simp)]
  rw [buildImportPlan, hs, Option.map_some]
  refine ⟨_, rfl, ?_⟩
  cases includeUnsafe with
  | false => exact hp'
  | true =>
    have hlast := @PlanOf.pass _ skrefs _ _ _ _ hfirst hf planFallback (fun _ _ => true)
      (fun h => r ⊆ h)
      (fun h s _ hI _ m _ hmh _ => ⟨by
        rw [if_pos rfl, planParent, if_neg (fun hm => hmh (hI hm))]
        rfl, fun _ => List.subset_append_of_subset_left _ hI⟩)
      _ (List.Subset.refl items) hrsub (List.Subset.refl r) hp'
    have hsweep : sweep (planTakes skrefs fun _ _ => true) r items =
        (newItems skrefs items).filter fun a => a ∉ r := by
      have hand := @sweep_and _ (fun (h : List MsgItem) m => m ∉ h && true)
        (fun m => decide (¬ Known skrefs m.msg.msgid)) r items
      refine hand.trans ?_
      rw [sweep_fresh (hnodup.filter _)]
      simp [newItems]
    rw [hsweep] at hlast
    exact hlast

end Plan

/-! ## The plan and the import -/

/-- The plan names the files that are imported, with their numbers and parents. -/
def Predicts (plan : ImportPlan) (s : ImportState) : Prop :=
  ∀ filename n com, (∃ p ∈ plan.plans, p.filename = filename ∧ p.plannedTextnum = n ∧
    p.parentTextnum = com) ↔ ∃ i ∈ s.imported, i.item.filename = filename ∧ i.textnum = n ∧ i.com = com

/-- When the plan of an import is right: what it plans can be told apart by `MSGID`s, and the
replies stand where the passes of the plan put them. -/
structure PlanMatches (includeUnsafe : Bool) (items : List MsgItem) (skrefs : List Skref) : Prop where
  msgids : ∀ m ∈ items, Plannable includeUnsafe items skrefs m.msg → m.msg.msgid ≠ []
  distinct : ∀ m ∈ items, ∀ m' ∈ items, Plannable includeUnsafe items skrefs m.msg →
    Plannable includeUnsafe items skrefs m'.msg → m.msg.msgid = m'.msg.msgid → m = m'
  order : match includeUnsafe with
    | false => Behind (TopLevel false skrefs) AnswersTo (newItems skrefs items) ∨
        InFront (TopLevel false skrefs) AnswersTo (newItems skrefs items)
    | true => (newItems skrefs items).Pairwise fun a b =>
        kind (TopLevel true skrefs) AnswersTo (newItems skrefs items) a ≤
          kind (TopLevel true skrefs) AnswersTo (newItems skrefs items) b

section Match

variable {env : FtnEnv} {includeUnsafe : Bool} {items : List MsgItem} {skrefs : List Skref}
  {conf : FtnConf}

/-- An import places every message after those imported before it. -/
theorem placed_importAfter (hlast : 0 ≤ conf.lastText) (hindex : IndexOf conf.lastText skrefs)
    {h : List MsgItem} (hg : Grows (imports env includeUnsafe items (.start skrefs conf)) items [] h) :
    (importAfter env includeUnsafe items (.start skrefs conf) h).imported.map
        (fun i => (⟨i.item, i.textnum, i.com⟩ : Placed)) =
      placeWith (parentIn skrefs (conf.lastText + 1)) (conf.lastText + 1) [] h := by
  induction hg with
  | refl => rfl
  | @take r m hr _ hf ih =>
    have hp := passed_of_grows hlast hr
    obtain ⟨⟨com, reason⟩, hd⟩ := Option.isSome_iff_exists.mp hf
    have hnonneg : 0 ≤ findSkref (indexAfter skrefs (conf.lastText + 1) r) m.msg.reply := by
      have hold := (findSkref_le hlast hindex m.msg.reply).1
      by_cases hr : m.msg.reply = []
      · rw [hr]
        exact Int.le_refl 0
      have hfind := @findSkref_indexAfter (conf.lastText + 1) (by omega) skrefs r _ hr
      by_cases hex : ∃ a ∈ r, a.msg.msgid = m.msg.reply
      · exact Int.le_of_lt (hfind.1 hex).1
      · rw [hfind.2 fun a ha he => hex ⟨a, ha, he⟩]
        exact hold
    have hcom := importDecision_com (by rw [hp.skrefs_eq]; exact hnonneg) hd
    rw [hp.skrefs_eq] at hcom
    rw [importAfter_snoc, importItem, hd, placeWith_append, ← ih]
    show ((importAfter env includeUnsafe items (.start skrefs conf) r).imported ++
      [(⟨m, (sendFtn _ _ _ _ _).1, com, reason⟩ : Imported)]).map _ = _
    rw [List.map_append, sendFtn_fst, hp.lastText, hcom]
    congr 1
    show [Placed.mk _ _ _] = [Placed.mk _ _ _]
    congr 2
    show conf.lastText + (r.length : Int) + 1 = conf.lastText + 1 + (r.length : Int)
    omega

/-- The plan is right when it places the same messages as the import. -/
theorem predicts_iff (hf : MsgFiles items) {first : Int} {parent parent' : List MsgItem → MsgItem → Int}
    {hP hM : List MsgItem} {plan : ImportPlan} {s : ImportState} (hplan : PlanOf parent first hP plan)
    (hPsub : hP ⊆ items) (hMsub : hM ⊆ items)
    (himp : s.imported.map (fun i => (⟨i.item, i.textnum, i.com⟩ : Placed)) =
      placeWith parent' first [] hM) :
    Predicts plan s ↔ placeWith parent first [] hP = placeWith parent' first [] hM := by
  have hplans : ∀ filename n com, (∃ p ∈ plan.plans, p.filename = filename ∧ p.plannedTextnum = n ∧
      p.parentTextnum = com) ↔ ∃ e ∈ placeWith parent first [] hP,
        e.item.filename = filename ∧ e.textnum = n ∧ e.parent = com := by
    intro filename n com
    constructor
    · rintro ⟨p, hp, hpf, hpn, hpc⟩
      obtain ⟨e, he, h1, -, h2, h3⟩ := (hplan.mem_iff filename p.msgid n com).mp
        ⟨p, hp, hpf, rfl, hpn, hpc⟩
      exact ⟨e, he, h1, h2, h3⟩
    · rintro ⟨e, he, h1, h2, h3⟩
      obtain ⟨p, hp, hpf, -, hpn, hpc⟩ := (hplan.mem_iff filename e.item.msg.msgid n com).mpr
        ⟨e, he, h1, rfl, h2, h3⟩
      exact ⟨p, hp, hpf, hpn, hpc⟩
  have himps : ∀ filename n com, (∃ i ∈ s.imported, i.item.filename = filename ∧ i.textnum = n ∧
      i.com = com) ↔ ∃ e ∈ placeWith parent' first [] hM,
        e.item.filename = filename ∧ e.textnum = n ∧ e.parent = com := by
    intro filename n com
    rw [← himp]
    simp only [List.mem_map, exists_exists_and_eq_and]
  unfold Predicts
  simp only [hplans, himps]
  constructor
  · intro hsame
    have hitem : ∀ {parent : List MsgItem → MsgItem → Int} {h : List MsgItem} {e : Placed},
        h ⊆ items → e ∈ placeWith parent first [] h → e.item ∈ items := by
      intro parent h e hh he
      refine hh ?_
      rw [← items_placeWith parent first [] h]
      exact List.mem_map_of_mem he
    have hmem : ∀ e, e ∈ placeWith parent first [] hP ↔ e ∈ placeWith parent' first [] hM := by
      intro e
      constructor
      · intro he
        obtain ⟨e', he', hname, hnum, hcom⟩ := (hsame e.item.filename e.textnum e.parent).mp
          ⟨e, he, rfl, rfl, rfl⟩
        have heq : e' = e := by
          cases e
          cases e'
          simp only [Placed.mk.injEq]
          exact ⟨hf.inj (hitem hMsub he') (hitem hPsub he) hname, hnum, hcom⟩
        exact heq ▸ he'
      · intro he
        obtain ⟨e', he', hname, hnum, hcom⟩ := (hsame e.item.filename e.textnum e.parent).mpr
          ⟨e, he, rfl, rfl, rfl⟩
        have heq : e' = e := by
          cases e
          cases e'
          simp only [Placed.mk.injEq]
          exact ⟨hf.inj (hitem hPsub he') (hitem hMsub he) hname, hnum, hcom⟩
        exact heq ▸ he'
    -- both lists stand in the order of their numbers
    have hinc := placeWith_increasing parent first [] hP
    have hinc' := placeWith_increasing parent' first [] hM
    have hnodup : ∀ {l : List Placed}, l.Pairwise (fun a b => a.textnum < b.textnum) → l.Nodup :=
      fun hl => hl.imp fun hlt he => by
        rw [he] at hlt
        exact Int.lt_irrefl _ hlt
    exact ((List.perm_ext_iff_of_nodup (hnodup hinc) (hnodup hinc')).mpr hmem).eq_of_pairwise
      (fun a b _ _ hab hba => absurd hab (by omega)) hinc hinc'
  · intro heq filename n com
    rw [heq]

/-- The rule of an import, when the messages it is meant for each have a `MSGID` of their own. -/
theorem imports_eq (hlast : 0 ≤ conf.lastText)
    (hids : ∀ m ∈ items, Plannable includeUnsafe items skrefs m.msg → m.msg.msgid ≠ [])
    (hdistinct : ∀ m ∈ items, ∀ m' ∈ items, Plannable includeUnsafe items skrefs m.msg →
      Plannable includeUnsafe items skrefs m'.msg → m.msg.msgid = m'.msg.msgid → m = m')
    {h : List MsgItem} (hg : Grows (imports env includeUnsafe items (.start skrefs conf)) items [] h)
    (hplan : ∀ a ∈ h, a ∈ items ∧ Plannable includeUnsafe items skrefs a.msg) {m : MsgItem}
    (hm : m ∈ items) : imports env includeUnsafe items (.start skrefs conf) h m = true ↔
      ¬ Known skrefs m.msg.msgid ∧ m ∉ h ∧
        (includeUnsafe = true ∨ TopLevel false skrefs m = true ∨ ∃ d ∈ h, AnswersTo d m = true) := by
  have hans : (∃ d ∈ h, AnswersTo d m = true) ↔ ∃ a ∈ h, a.msg.msgid = m.msg.reply := by
    constructor
    · rintro ⟨d, hd, hans⟩
      exact ⟨d, hd, (answersTo_iff.mp hans).2⟩
    · rintro ⟨a, ha, hid⟩
      have hne := hids a (hplan a ha).1 (hplan a ha).2
      exact ⟨a, ha, answersTo_iff.mpr ⟨hid ▸ hne, hid⟩⟩
  have htop : TopLevel false skrefs m = true ↔ OpensThread m.msg ∨ Known skrefs m.msg.reply := by
    simp [topLevel_iff]
  have hrule : (includeUnsafe = true ∨ OpensThread m.msg ∨ (∃ a ∈ h, a.msg.msgid = m.msg.reply) ∨
      Known skrefs m.msg.reply) ↔ includeUnsafe = true ∨ TopLevel false skrefs m = true ∨
        ∃ d ∈ h, AnswersTo d m = true := by
    rw [hans, htop, or_assoc (a := OpensThread m.msg), or_comm (a := Known skrefs m.msg.reply)]
  rw [imports_iff hlast (passed_of_grows hlast hg), hrule]
  constructor
  · rintro ⟨⟨hnew, hfresh⟩, hrule⟩
    exact ⟨hnew.2, fun hmh => hfresh m hmh rfl, hrule⟩
  · rintro ⟨hnk, hmh, hrule⟩
    have hpl := plannable_of_rule hplan hnk hrule
    refine ⟨⟨⟨hids m hm hpl, hnk⟩, fun a ha he => hmh ?_⟩, hrule⟩
    exact hdistinct a (hplan a ha).1 m hm (hplan a ha).2 hpl he ▸ ha

/-- The order of a safe import, and that of an unsafe one. -/
theorem importOrder (hlast : 0 ≤ conf.lastText)
    (hids : ∀ m ∈ items, Plannable includeUnsafe items skrefs m.msg → m.msg.msgid ≠ [])
    (hdistinct : ∀ m ∈ items, ∀ m' ∈ items, Plannable includeUnsafe items skrefs m.msg →
      Plannable includeUnsafe items skrefs m'.msg → m.msg.msgid = m'.msg.msgid → m = m') (n : Nat) :
    sweeps (imports env includeUnsafe items (.start skrefs conf)) items n [] =
      match includeUnsafe with
      | false => sweeps (follow (TopLevel false skrefs) AnswersTo) (newItems skrefs items) n []
      | true => sweeps (fun h m => m ∉ h && true) (newItems skrefs items) n [] := by
  have hcongr := @sweeps_congr _ (imports env includeUnsafe items (.start skrefs conf)) items []
    (fun h m => decide (¬ Known skrefs m.msg.msgid) && (m ∉ h &&
      (includeUnsafe || (TopLevel false skrefs m || h.any fun d => AnswersTo d m))))
    (fun h => Grows (imports env includeUnsafe items (.start skrefs conf)) items [] h ∧
      ∀ a ∈ h, a ∈ items ∧ Plannable includeUnsafe items skrefs a.msg) ?_ ⟨.refl, by simp⟩ n
  · rw [hcongr, sweeps_and]
    cases includeUnsafe <;> rfl
  · rintro h ⟨hg, hplan⟩ m hm
    have hiff := imports_eq hlast hids hdistinct hg hplan hm
    refine ⟨?_, fun hf => ⟨hg.take hm hf, ?_⟩⟩
    · rw [Bool.eq_iff_iff, hiff]
      simp
    · intro a ha
      rw [List.mem_append, List.mem_singleton] at ha
      rcases ha with ha | rfl
      · exact hplan a ha
      · obtain ⟨hnk, -, hrule⟩ := hiff.mp hf
        exact ⟨hm, plannable_of_rule hplan hnk hrule⟩

/-- The messages of the plan, in an import of either kind. -/
theorem mem_planOrder {n : Nat} {r : List MsgItem}
    (hr : sweeps (follow (TopLevel includeUnsafe skrefs) AnswersTo) (newItems skrefs items) n
      ((newItems skrefs items).filter (TopLevel includeUnsafe skrefs)) = some r) (m : MsgItem) :
    m ∈ planOrder includeUnsafe skrefs items r ↔
      m ∈ items ∧ Plannable includeUnsafe items skrefs m.msg := by
  cases includeUnsafe with
  | false => exact mem_planned hr m
  | true => exact mem_planned_unsafe hr m

/-- The parents of the plan are those of the import when no fallback answers a message in front of
it. -/
theorem planParent_eq_iff {first : Int} (hfirst : 0 < first) (hindex : IndexOf conf.lastText skrefs)
    (hlast : 0 ≤ conf.lastText) {r h : List MsgItem} (hnodup : h.Nodup)
    (hnot : ∀ m ∈ h, m ∉ r → TopLevel true skrefs m = false) :
    placeWith (planParent skrefs first r) first [] h = placeWith (parentIn skrefs first) first [] h ↔
      ∀ c ∈ h, c ∉ r → ∀ d ∈ h, AnswersTo d c = true → ¬ [d, c].Sublist h := by
  have hzero : ∀ x m, m ∈ h → m ∉ r → (parentIn skrefs first x m = 0 ↔
      ∀ d ∈ x, AnswersTo d m = false) := by
    intro x m hm hmr
    have htop := hnot m hm hmr
    rw [Bool.eq_false_iff, ne_eq, topLevel_iff, not_or, not_or] at htop
    have hne : m.msg.reply ≠ [] := fun he => htop.1 ⟨he, rfl⟩
    have hold := (findSkref_le hlast hindex m.msg.reply).1
    have hk : ¬ 0 < findSkref skrefs m.msg.reply := htop.2.2
    have hfind := findSkref_indexAfter (h := x) hfirst skrefs hne
    unfold parentIn
    constructor
    · intro h0 d hd
      rw [Bool.eq_false_iff]
      intro hans
      have hpos := (hfind.1 ⟨d, hd, (answersTo_iff.mp hans).2⟩).1
      omega
    · intro hnone
      rw [hfind.2]
      · omega
      · intro a ha hid
        have hans := hnone a ha
        rw [answersTo_iff.mpr ⟨hne, hid⟩] at hans
        cases hans
  rw [placeWith_eq_iff]
  simp only [List.nil_append]
  constructor
  · intro heq c hc hcr d _ hans hpair
    obtain ⟨x, y, rfl⟩ := List.append_of_mem hc
    have hpar := heq x c y rfl
    rw [planParent, if_neg hcr] at hpar
    have hnone := (hzero x c hc hcr).mp hpar.symm d (mem_of_pair hnodup hpair)
    rw [hans] at hnone
    cases hnone
  · rintro hlate x m y rfl
    unfold planParent
    split
    · rfl
    · next hmr =>
      have hm : m ∈ x ++ m :: y := by simp
      refine ((hzero x m hm hmr).mpr fun d hd => ?_).symm
      rw [Bool.eq_false_iff]
      intro hans
      exact hlate m hm hmr d (List.mem_append_left _ hd) hans (pair_of_mem hd List.mem_cons_self)

/-- For the files of a directory in any order, the dry run predicts the import exactly when what it
plans has a `MSGID` each, all different, and the replies stand where its passes put them. -/
theorem buildImportPlan_predicts_iff (env : FtnEnv) (items : List MsgItem) (skrefs : List Skref)
    (conf : FtnConf) (includeUnsafe : Bool) (hf : MsgFiles items) (hlast : 0 ≤ conf.lastText)
    (hindex : IndexOf conf.lastText skrefs) :
    ∃ plan s, (∀ n, items.length < n →
        buildImportPlan items skrefs (conf.lastText + 1) includeUnsafe n = some plan ∧
        importLoop env includeUnsafe items n (.start skrefs conf) = some s) ∧
      (Predicts plan s ↔ PlanMatches includeUnsafe items skrefs) := by
  obtain ⟨hM, hg, hstable, hsweeps, hloop⟩ :=
    @importLoop_total env items skrefs conf hlast includeUnsafe
  have hpassed := passed_of_grows hlast hg
  have hnodup : items.Nodup := List.Nodup.of_map _ hf.distinct
  have hnew : (newItems skrefs items).Nodup := hnodup.filter _
  obtain ⟨r, hr⟩ := @sweeps_total _ (follow (TopLevel includeUnsafe skrefs) AnswersTo)
    (newItems skrefs items) ((newItems skrefs items).filter (TopLevel includeUnsafe skrefs)) _ _
    (fun r m _ hm => by
      rw [Bool.eq_false_iff]
      exact fun hf => (follow_iff.mp hf).1 hm)
    .refl (items.length + 1)
    (Nat.lt_succ_of_le (List.countP_le_length.trans (List.length_filter_le _ _)))
  have hmemP := mem_planOrder hr
  have hlate : ∀ m ∈ newItems skrefs items, m ∉ r → TopLevel includeUnsafe skrefs m = false := by
    intro m hm hmr
    rw [Bool.eq_false_iff]
    exact fun ht => hmr ((sweeps_grows hr).isPrefix.subset (List.mem_filter.mpr ⟨hm, ht⟩))
  obtain ⟨plan, hbuild, hplan⟩ := @buildImportPlan_eq _ _ (conf.lastText + 1) (by omega) hf
    includeUnsafe _ _ hr
  refine ⟨plan, _, fun n hn => ⟨?_, hloop n hn⟩, ?_⟩
  · obtain ⟨s, hs, hsp⟩ := Option.map_eq_some_iff.mp hbuild
    rw [buildImportPlan, planReplies_mono hn hs, Option.map_some, hsp]
  rw [predicts_iff hf hplan (fun m hm => ((hmemP m).mp hm).1)
    (fun m hm => (hg.mem hm).resolve_left List.not_mem_nil) (placed_importAfter hlast hindex hg)]
  constructor
  · intro heq
    have horder := congrArg (List.map (·.item)) heq
    rw [items_placeWith, items_placeWith] at horder
    have hmem : ∀ m ∈ items, Plannable includeUnsafe items skrefs m.msg → m ∈ hM := fun m hm hp =>
      horder ▸ (hmemP m).mpr ⟨hm, hp⟩
    have hids : ∀ m ∈ items, Plannable includeUnsafe items skrefs m.msg → m.msg.msgid ≠ [] :=
      fun m hm hp => (hpassed.isNew m (hmem m hm hp)).1
    have hdistinct : ∀ m ∈ items, ∀ m' ∈ items, Plannable includeUnsafe items skrefs m.msg →
        Plannable includeUnsafe items skrefs m'.msg → m.msg.msgid = m'.msg.msgid → m = m' :=
      fun m hm m' hm' hp hp' he =>
        List.inj_on_of_nodup_map hpassed.nodup (hmem m hm hp) (hmem m' hm' hp') he
    refine ⟨hids, hdistinct, ?_⟩
    rw [importOrder hlast hids hdistinct] at hsweeps
    cases includeUnsafe with
    | false => exact (headStart_iff hnew hsweeps hr).mp horder.symm
    | true =>
      have hM' := sweeps_fresh hnew hsweeps
      subst hM'
      rw [horder] at heq
      refine (inOrder_iff hnew hr).mp ⟨horder, ?_⟩
      exact (planParent_eq_iff (by omega) hindex hlast hnew hlate).mp heq
  · rintro ⟨hids, hdistinct, horder⟩
    rw [importOrder hlast hids hdistinct] at hsweeps
    cases includeUnsafe with
    | false =>
      have hM' := (headStart_iff hnew hsweeps hr).mpr horder
      subst hM'
      refine (placeWith_eq_iff _).mpr fun x m y hxy => ?_
      have hxy : hM = x ++ m :: y := hxy
      rw [planParent, if_pos (by rw [hxy]; simp)]
    | true =>
      have hM' := sweeps_fresh hnew hsweeps
      subst hM'
      obtain ⟨hcat, hanswers⟩ := (inOrder_iff hnew hr).mpr horder
      rw [planOrder, if_pos rfl, hcat]
      exact (planParent_eq_iff (by omega) hindex hlast hnew hlate).mpr hanswers

end Match

/-- A reply between two messages that start threads. -/
def replyBetween : List MsgItem :=
  spool [spoolMsg "A" "" "hej", spoolMsg "B" "A" "Re: hej", spoolMsg "C" "" "ny"]

theorem spool_msgFiles_two : MsgFiles (spool [spoolMsg "A" "" "hej", spoolMsg "B" "A" "Re: hej"]) :=
  ⟨by decide, by decide⟩

theorem buildImportPlan_predicts_thread :
    ∃ plan s, (∀ n, 2 < n →
        buildImportPlan (spool [spoolMsg "A" "" "hej", spoolMsg "B" "A" "Re: hej"]) [] (0 + 1) false n =
          some plan ∧
        importLoop ftnEnvExample false (spool [spoolMsg "A" "" "hej", spoolMsg "B" "A" "Re: hej"]) n
          (.start [] emptyFtnConf) = some s) ∧
      (Predicts plan s ↔
        PlanMatches false (spool [spoolMsg "A" "" "hej", spoolMsg "B" "A" "Re: hej"]) []) :=
  buildImportPlan_predicts_iff ftnEnvExample
    (spool [spoolMsg "A" "" "hej", spoolMsg "B" "A" "Re: hej"]) [] emptyFtnConf false
    spool_msgFiles_two (by decide) (by simp [IndexOf])

/-- The plan gives the reply the number after both threads, the import the one after its parent. -/
theorem buildImportPlan_mispredicts : ∃ plan s, MsgFiles replyBetween ∧
    buildImportPlan replyBetween [] 1 false 4 = some plan ∧
    importLoop ftnEnvExample false replyBetween 4 (.start [] emptyFtnConf) = some s ∧
    ¬ Predicts plan s := by
  have hplan : (buildImportPlan replyBetween [] 1 false 4).map (·.plans.map fun p =>
      (p.filename, p.plannedTextnum, p.parentTextnum)) = some [("2.msg".toList, 3, 1),
        ("3.msg".toList, 2, 0), ("1.msg".toList, 1, 0)] := by decide
  have himport : (importLoop ftnEnvExample false replyBetween 4 (.start [] emptyFtnConf)).map
      (·.imported.map fun i => (i.item.filename, i.textnum, i.com)) = some [("1.msg".toList, 1, 0),
        ("2.msg".toList, 2, 1), ("3.msg".toList, 3, 0)] := by decide
  obtain ⟨plan, hbuild, hplans⟩ := Option.map_eq_some_iff.mp hplan
  obtain ⟨s, hloop, himps⟩ := Option.map_eq_some_iff.mp himport
  refine ⟨plan, s, ⟨by decide, by decide⟩, hbuild, hloop, fun hpredicts => ?_⟩
  have hmem : ("2.msg".toList, (3 : Int), (1 : Int)) ∈ plan.plans.map fun p =>
      (p.filename, p.plannedTextnum, p.parentTextnum) := hplans ▸ List.mem_cons_self
  obtain ⟨p, hp, hpe⟩ := List.mem_map.mp hmem
  obtain ⟨i, hi, hfile, hnum, hcom⟩ := (hpredicts "2.msg".toList 3 1).mp
    ⟨p, hp, (Prod.mk.inj hpe).1, (Prod.mk.inj (Prod.mk.inj hpe).2).1,
      (Prod.mk.inj (Prod.mk.inj hpe).2).2⟩
  have hmem' := List.mem_map_of_mem (f := fun i : Imported => (i.item.filename, i.textnum, i.com)) hi
  rw [himps, hfile, hnum, hcom] at hmem'
  revert hmem'
  decide

end SklaffKom
