import Mathlib.Logic.Relation
import Mathlib.Data.Set.Basic
import Mathlib.Data.List.Nodup
import Mathlib.Logic.Function.Basic

/-!
# Copies of entries

Systems write entries into logs of their own, under names that no other entry has, and pass them on to each
other.  An entry may answer an earlier one.  A system takes an entry over when it does not have it yet, and
has what it answers.
-/

namespace Copies

variable {ι α : Type*}

/-- An entry of a log: its name, the place in the log of what it answers, and whether it was written there. -/
structure Entry (α : Type*) where
  id : α
  parent : Option Nat
  own : Bool

/-- The logs, and what has been sent: the name of an entry and the name of what it answers. -/
structure State (ι α : Type*) where
  logs : ι → List (Entry α)
  sent : Set (α × Option α)

/-- The name of the entry that stands at a place. -/
def nameAt (log : List (Entry α)) (k : Nat) : Option α := log[k]?.map (·.id)

/-- The name of what an entry answers. -/
def answered (log : List (Entry α)) (e : Entry α) : Option α := e.parent.bind (nameAt log)

/-- What an entry answers stands before it. -/
def Ordered (log : List (Entry α)) : Prop :=
  ∀ (k : Nat) (e : Entry α), log[k]? = some e → ∀ j ∈ e.parent, j < k

variable [DecidableEq ι] (name : ι → Nat → α)

/-- The state after one more entry in a log. -/
def State.add (s : State ι α) (x : ι) (e : Entry α) : State ι α :=
  { s with logs := Function.update s.logs x (s.logs x ++ [e]) }

/-- An entry is written, sent or taken over. -/
inductive Step (s : State ι α) : State ι α → Prop
  | write (x : ι) (parent : Option Nat) : (∀ j ∈ parent, j < (s.logs x).length) →
      Step s (s.add x ⟨name x (s.logs x).length, parent, true⟩)
  | send (x : ι) (n : Nat) (e : Entry α) : (s.logs x)[n]? = some e → e.own = true →
      Step s { s with sent := insert (e.id, answered (s.logs x) e) s.sent }
  | take (x : ι) (e : Entry α) : e.own = false → (∀ j ∈ e.parent, j < (s.logs x).length) →
      (e.id, answered (s.logs x) e) ∈ s.sent → (∀ a ∈ s.logs x, a.id ≠ e.id) → Step s (s.add x e)

def State.start : State ι α := ⟨fun _ => [], ∅⟩

/-- Up to a number of entries in each log the names are different. -/
def Distinct (bound : Nat) : Prop :=
  ∀ x y m n, m < bound → n < bound → name x m = name y n → x = y ∧ m = n

/-- An entry of this name was written, and what it answers. -/
def Origin (s : State ι α) (id : α) (parent : Option α) : Prop :=
  ∃ (x : ι) (n : Nat) (e : Entry α), (s.logs x)[n]? = some e ∧ e.own = true ∧ e.id = id ∧
    answered (s.logs x) e = parent

/-- What every step keeps. -/
structure Inv (s : State ι α) : Prop where
  ordered : ∀ x, Ordered (s.logs x)
  once : ∀ x, ((s.logs x).map (·.id)).Nodup
  named : ∀ (x : ι) (n : Nat) (e : Entry α), (s.logs x)[n]? = some e → e.own = true → e.id = name x n
  sent : ∀ p ∈ s.sent, Origin s p.1 p.2
  origin : ∀ x, ∀ e ∈ s.logs x, Origin s e.id (answered (s.logs x) e)

section Logs

variable {log : List (Entry α)} {e : Entry α}

omit [DecidableEq ι] in
theorem nameAt_append {k : Nat} (h : k < log.length) (more : List (Entry α)) :
    nameAt (log ++ more) k = nameAt log k := by
  unfold nameAt
  rw [List.getElem?_append_left h]

theorem answered_append (h : ∀ j ∈ e.parent, j < log.length) (more : List (Entry α)) :
    answered (log ++ more) e = answered log e := by
  unfold answered
  cases hp : e.parent with
  | none => rfl
  | some j =>
    rw [Option.bind_some, Option.bind_some, nameAt_append (h j hp)]

theorem Ordered.parent_lt (h : Ordered log) (he : e ∈ log) : ∀ j ∈ e.parent, j < log.length := by
  intro j hj
  obtain ⟨k, hk⟩ := List.getElem?_of_mem he
  have hlt := (List.getElem?_eq_some_iff.mp hk).1
  exact (h k e hk j hj).trans hlt

theorem Ordered.snoc (h : Ordered log) (he : ∀ j ∈ e.parent, j < log.length) : Ordered (log ++ [e]) := by
  intro k a hk j hj
  rw [List.getElem?_append] at hk
  split at hk
  · exact h k a hk j hj
  · next hge =>
    have hmem := List.mem_of_getElem? hk
    rw [List.mem_singleton] at hmem
    have hlt := he j (hmem ▸ hj)
    omega

end Logs

section Invariant

variable {name} {s : State ι α} {x : ι} {e : Entry α}

theorem logs_add (s : State ι α) (x : ι) (e : Entry α) (y : ι) :
    (s.add x e).logs y = s.logs y ++ if y = x then [e] else [] := by
  unfold State.add
  by_cases hy : y = x
  · rw [hy, if_pos rfl]
    exact Function.update_self _ _ _
  · rw [if_neg hy, List.append_nil]
    exact Function.update_of_ne hy _ _

/-- An entry stays where it was written. -/
theorem Origin.add {id : α} {parent : Option α} (h : Origin s id parent) (hord : ∀ y, Ordered (s.logs y)) :
    Origin (s.add x e) id parent := by
  obtain ⟨y, n, a, hn, hown, hid, hparent⟩ := h
  have hmem := List.mem_of_getElem? hn
  refine ⟨y, n, a, ?_, hown, hid, ?_⟩
  · rw [logs_add, List.getElem?_append_left (List.getElem?_eq_some_iff.mp hn).1, hn]
  · rw [logs_add, answered_append ((hord y).parent_lt hmem), hparent]

theorem Inv.add (h : Inv name s) (hparent : ∀ j ∈ e.parent, j < (s.logs x).length)
    (hfresh : ∀ a ∈ s.logs x, a.id ≠ e.id) (hnamed : e.own = true → e.id = name x (s.logs x).length)
    (horigin : Origin (s.add x e) e.id (answered (s.logs x) e)) : Inv name (s.add x e) := by
  refine ⟨?_, ?_, ?_, ?_, ?_⟩
  · intro y
    rw [logs_add]
    split
    · next hy => exact hy ▸ (h.ordered x).snoc hparent
    · rw [List.append_nil]
      exact h.ordered y
  · intro y
    rw [logs_add]
    split
    · next hy =>
      rw [hy, List.map_append, List.map_singleton, List.nodup_append]
      refine ⟨h.once x, List.nodup_singleton _, ?_⟩
      intro a ha b hb
      obtain ⟨c, hc, rfl⟩ := List.mem_map.mp ha
      rw [List.mem_singleton.mp hb]
      exact hfresh c hc
    · rw [List.append_nil]
      exact h.once y
  · intro y n a hn hown
    rw [logs_add, List.getElem?_append] at hn
    split at hn
    · exact h.named y n a hn hown
    · next hge =>
      split at hn
      · next hy =>
        have hlt := (List.getElem?_eq_some_iff.mp hn).1
        have hmem := List.mem_of_getElem? hn
        rw [List.length_singleton] at hlt
        rw [List.mem_singleton] at hmem
        obtain rfl : n = (s.logs x).length := by
          rw [hy] at hlt hge
          omega
        rw [hmem, hy]
        exact hnamed (hmem ▸ hown)
      · cases hn
  · intro p hp
    exact (h.sent p hp).add h.ordered
  · intro y a ha
    rw [logs_add] at ha ⊢
    rcases List.mem_append.mp ha with ha | ha
    · rw [answered_append ((h.ordered y).parent_lt ha)]
      exact (h.origin y a ha).add h.ordered
    · split at ha
      · next hy =>
        rw [List.mem_singleton] at ha
        rw [hy, ha, if_pos rfl, answered_append hparent]
        exact horigin
      · cases ha

omit [DecidableEq ι] in
/-- A name that is given does not stand anywhere yet. -/
theorem Inv.fresh (h : Inv name s) {bound : Nat} (hname : Distinct name bound)
    (hbound : ∀ y, (s.logs y).length ≤ bound) (hx : (s.logs x).length < bound) :
    ∀ a ∈ s.logs x, a.id ≠ name x (s.logs x).length := by
  intro a ha heq
  obtain ⟨y, n, b, hn, hown, hid, -⟩ := h.origin x a ha
  have hlt := (List.getElem?_eq_some_iff.mp hn).1
  have hb := hbound y
  obtain ⟨rfl, hlen⟩ := hname y x n _ (by omega) hx (by rw [← h.named y n b hn hown, hid, heq])
  omega

/-- A step keeps the invariant, as long as no log gets too long. -/
theorem Inv.step (h : Inv name s) {bound : Nat} (hname : Distinct name bound) {s' : State ι α}
    (hs : Step name s s') (hbound : ∀ y, (s'.logs y).length ≤ bound) : Inv name s' := by
  cases hs with
  | write x parent hparent =>
    have hlen : ∀ y, (s.logs y).length ≤ bound ∧ (y = x → (s.logs y).length < bound) := by
      intro y
      have hy := hbound y
      rw [logs_add, List.length_append] at hy
      refine ⟨by omega, fun hyx => ?_⟩
      rw [if_pos hyx, List.length_singleton] at hy
      omega
    refine h.add hparent (h.fresh hname (fun y => (hlen y).1) ((hlen x).2 rfl)) (fun _ => rfl) ?_
    refine ⟨x, (s.logs x).length, ⟨name x (s.logs x).length, parent, true⟩, ?_, rfl, rfl, ?_⟩
    · rw [logs_add, if_pos rfl, List.getElem?_concat_length]
    · rw [logs_add, answered_append hparent]
  | send x n e hn hown =>
    refine ⟨h.ordered, h.once, h.named, ?_, h.origin⟩
    rintro p (rfl | hp)
    · exact ⟨x, n, e, hn, hown, rfl, rfl⟩
    · exact h.sent p hp
  | take x e hown hparent hsent hfresh =>
    exact h.add hparent hfresh (fun h => by rw [hown] at h; cases h) ((h.sent _ hsent).add h.ordered)

theorem Step.length_le {s' : State ι α} (hs : Step name s s') (y : ι) :
    (s.logs y).length ≤ (s'.logs y).length := by
  cases hs with
  | write x parent hparent =>
    rw [logs_add, List.length_append]
    omega
  | send => exact Nat.le_refl _
  | take x e hown hparent hsent hfresh =>
    rw [logs_add, List.length_append]
    omega

omit [DecidableEq ι] in
theorem inv_start : Inv name (State.start : State ι α) where
  ordered := fun _ _ _ h => by cases h
  once := fun _ => List.nodup_nil
  named := fun _ _ _ h => by cases h
  sent := fun _ h => h.elim
  origin := fun _ _ h => by cases h

/-- The invariant holds in every state that can be reached. -/
theorem inv_of_reachable {bound : Nat} (hname : Distinct name bound)
    (hs : Relation.ReflTransGen (Step name) State.start s) (hbound : ∀ y, (s.logs y).length ≤ bound) :
    Inv name s := by
  induction hs with
  | refl => exact inv_start
  | tail _ hstep ih =>
    exact (ih fun y => (hstep.length_le y).trans (hbound y)).step hname hstep hbound

omit [DecidableEq ι] in
/-- Entries of one name answer the same, wherever they stand. -/
theorem Inv.agree (h : Inv name s) {bound : Nat} (hname : Distinct name bound)
    (hbound : ∀ y, (s.logs y).length ≤ bound) {y : ι} {a : Entry α} (he : e ∈ s.logs x) (ha : a ∈ s.logs y)
    (hid : e.id = a.id) : answered (s.logs x) e = answered (s.logs y) a := by
  obtain ⟨z, n, b, hn, hown1, hid1, hparent1⟩ := h.origin x e he
  obtain ⟨w, m, c, hm, hown2, hid2, hparent2⟩ := h.origin y a ha
  have hnlt := (List.getElem?_eq_some_iff.mp hn).1
  have hmlt := (List.getElem?_eq_some_iff.mp hm).1
  have hz := hbound z
  have hw := hbound w
  obtain ⟨rfl, rfl⟩ := hname z w n m (by omega) (by omega) 
    (by rw [← h.named z n b hn hown1, ← h.named w m c hm hown2, hid1, hid2, hid])
  rw [hn] at hm
  cases hm
  rw [← hparent1, hparent2]

end Invariant

end Copies
