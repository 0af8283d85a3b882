import Mathlib.Data.List.Basic
import Mathlib.Data.List.Infix

/-!
# Repeated sweeps over a list

A sweep goes through a list once and takes the items for which a rule fires, which may look at what
has been taken before.  Sweeps are repeated until one takes nothing.  What every single item keeps
holds of the whole history, and at the end the rule fires for no item.
-/

namespace Sweeps

variable {α : Type*} (fires : List α → α → Bool)

/-- The items that a sweep takes after the history `h`. -/
def sweep (h : List α) : List α → List α
  | [] => []
  | a :: l => if fires h a then a :: sweep (h ++ [a]) l else sweep h l

/-- `do { changed = 0; sweep } while (changed)`: the history afterwards. -/
def sweeps (l : List α) : Nat → List α → Option (List α)
  | 0, _ => none
  | n + 1, h =>
    if sweep fires h l = [] then some h else sweeps l n (h ++ sweep fires h l)

/-- `r` is `h` with items of `l` that have been taken one after the other. -/
inductive Grows (l : List α) (h : List α) : List α → Prop
  | refl : Grows l h h
  | take {r : List α} {a : α} : Grows l h r → a ∈ l → fires r a = true → Grows l h (r ++ [a])

variable {fires} {l l₁ l₂ h r : List α} {a : α}

/-! ## One sweep -/

@[simp] theorem sweep_nil (h : List α) : sweep fires h [] = [] := rfl

theorem sweep_of_fires (hf : fires h a = true) (l : List α) :
    sweep fires h (a :: l) = a :: sweep fires (h ++ [a]) l := by
  rw [sweep, if_pos hf]

theorem sweep_of_not (hf : fires h a = false) (l : List α) :
    sweep fires h (a :: l) = sweep fires h l := by
  rw [sweep, if_neg (by rw [hf]; exact Bool.false_ne_true)]

theorem sweep_append (h l₁ l₂ : List α) : sweep fires h (l₁ ++ l₂) =
    sweep fires h l₁ ++ sweep fires (h ++ sweep fires h l₁) l₂ := by
  induction l₁ generalizing h with
  | nil =>
    rw [List.nil_append, sweep_nil, List.nil_append, List.append_nil]
  | cons a l ih =>
    rw [List.cons_append]
    cases hf : fires h a with
    | true =>
      rw [sweep_of_fires hf, sweep_of_fires hf, ih, List.cons_append, List.append_assoc]
      rfl
    | false =>
      rw [sweep_of_not hf, sweep_of_not hf, ih]

theorem sweep_sublist (h l : List α) : (sweep fires h l).Sublist l := by
  induction l generalizing h with
  | nil => exact List.Sublist.refl []
  | cons a l ih =>
    rw [sweep]
    split
    · exact (ih _).cons_cons a
    · exact (ih h).cons a

/-- A sweep takes nothing exactly when the rule fires for no item. -/
theorem sweep_eq_nil : sweep fires h l = [] ↔ ∀ a ∈ l, fires h a = false := by
  induction l with
  | nil => simp
  | cons a l ih =>
    rw [List.forall_mem_cons, ← ih]
    cases hf : fires h a with
    | true => simp [sweep_of_fires hf]
    | false => simp [sweep_of_not hf]

/-- The first item that a sweep takes. -/
theorem fires_of_sweep {s : List α} (hs : sweep fires h l = a :: s) : a ∈ l ∧ fires h a = true := by
  induction l with
  | nil => cases hs
  | cons b l ih =>
    cases hf : fires h b with
    | true =>
      rw [sweep_of_fires hf] at hs
      cases hs
      exact ⟨List.mem_cons_self, hf⟩
    | false =>
      rw [sweep_of_not hf] at hs
      obtain ⟨hm, ha⟩ := ih hs
      exact ⟨List.mem_cons_of_mem b hm, ha⟩

/-- Two rules that agree on every history a sweep comes to take the same items. -/
theorem sweep_congr {fires' : List α → α → Bool} {I : List α → Prop}
    (hI : ∀ h, I h → ∀ a ∈ l, fires h a = fires' h a ∧ (fires h a = true → I (h ++ [a]))) (h0 : I h) :
    sweep fires h l = sweep fires' h l := by
  induction l generalizing h with
  | nil => rfl
  | cons a l ih =>
    have htail : ∀ h, I h → ∀ b ∈ l, fires h b = fires' h b ∧ (fires h b = true → I (h ++ [b])) :=
      fun h hh b hb => hI h hh b (List.mem_cons_of_mem a hb)
    obtain ⟨heq, hnext⟩ := hI h h0 a List.mem_cons_self
    rw [sweep, sweep, ← heq]
    split
    · next hf => rw [ih htail (hnext hf)]
    · exact ih htail h0

/-! ## Histories -/

theorem Grows.trans {h₁ h₂ h₃ : List α} (h12 : Grows fires l h₁ h₂) (h23 : Grows fires l h₂ h₃) :
    Grows fires l h₁ h₃ := by
  induction h23 with
  | refl => exact h12
  | take _ ha hf ih => exact .take ih ha hf

theorem Grows.mono (hsub : l₁ ⊆ l₂) (hg : Grows fires l₁ h r) : Grows fires l₂ h r := by
  induction hg with
  | refl => exact .refl
  | take _ ha hf ih => exact .take ih (hsub ha) hf

/-- What every item keeps holds afterwards. -/
theorem Grows.invariant {I : List α → Prop}
    (hI : ∀ r a, I r → a ∈ l → fires r a = true → I (r ++ [a])) (hg : Grows fires l h r) (h0 : I h) :
    I r := by
  induction hg with
  | refl => exact h0
  | take _ ha hf ih => exact hI _ _ ih ha hf

theorem Grows.isPrefix (hg : Grows fires l h r) : h <+: r := by
  induction hg with
  | refl => exact List.prefix_rfl
  | take _ _ _ ih => exact ih.trans (List.prefix_append _ _)

/-- The rule fired for every item at the place where it was taken. -/
theorem Grows.fires_at (hg : Grows fires l h r) {x y : List α} (hr : r = x ++ a :: y)
    (hx : h.length ≤ x.length) : fires x a = true := by
  induction hg generalizing y with
  | refl =>
    have hlen := congrArg List.length hr
    rw [List.length_append, List.length_cons] at hlen
    omega
  | @take r b _ _ hf ih =>
    induction y using List.reverseRecOn with
    | nil =>
      obtain ⟨rfl, hb⟩ := List.append_inj' hr rfl
      exact (List.cons.inj hb).1 ▸ hf
    | append_singleton y c _ =>
      rw [← List.cons_append, ← List.append_assoc] at hr
      exact ih (List.append_inj' hr rfl).1

/-- Every item of the history was there before or comes from the list. -/
theorem Grows.mem (hg : Grows fires l h r) (ha : a ∈ r) : a ∈ h ∨ a ∈ l := by
  induction hg with
  | refl => exact Or.inl ha
  | take _ hb _ ih =>
    rw [List.mem_append, List.mem_singleton] at ha
    cases ha with
    | inl ha => exact ih ha
    | inr ha => exact Or.inr (ha ▸ hb)

theorem grows_sweep (h l : List α) : Grows fires l h (h ++ sweep fires h l) := by
  induction l generalizing h with
  | nil =>
    rw [sweep_nil, List.append_nil]
    exact .refl
  | cons a l ih =>
    cases hf : fires h a with
    | true =>
      rw [sweep_of_fires hf, List.append_cons]
      have htake : Grows fires (a :: l) h (h ++ [a]) := .take .refl List.mem_cons_self hf
      exact htake.trans ((ih _).mono (List.subset_cons_self a l))
    | false =>
      rw [sweep_of_not hf]
      exact (ih h).mono (List.subset_cons_self a l)

/-! ## Sweeps until nothing is taken -/

theorem sweeps_grows {n : Nat} (hr : sweeps fires l n h = some r) : Grows fires l h r := by
  induction n generalizing h with
  | zero => cases hr
  | succ n ih =>
    rw [sweeps] at hr
    split at hr
    · cases hr
      exact .refl
    · exact (grows_sweep h l).trans (ih hr)

/-- At the end the rule fires for no item. -/
theorem sweeps_stable {n : Nat} (hr : sweeps fires l n h = some r) : ∀ a ∈ l, fires r a = false := by
  induction n generalizing h with
  | zero => cases hr
  | succ n ih =>
    rw [sweeps] at hr
    split at hr
    · next hnil =>
      cases hr
      exact sweep_eq_nil.mp hnil
    · exact ih hr

/-- More rounds than needed change nothing. -/
theorem sweeps_mono {n m : Nat} (hnm : n ≤ m) (hr : sweeps fires l n h = some r) :
    sweeps fires l m h = some r := by
  induction n generalizing h m with
  | zero => cases hr
  | succ n ih =>
    obtain ⟨m, rfl⟩ : ∃ k, m = k + 1 := ⟨m - 1, by omega⟩
    rw [sweeps] at hr ⊢
    split
    · next hnil => rwa [if_pos hnil] at hr
    · next hnil =>
      rw [if_neg hnil] at hr
      exact ih (by omega) hr

theorem sweeps_unique {n m : Nat} {r' : List α} (hr : sweeps fires l n h = some r)
    (hr' : sweeps fires l m h = some r') : r = r' := by
  have h1 := sweeps_mono (Nat.le_max_left n m) hr
  have h2 := sweeps_mono (Nat.le_max_right n m) hr'
  rw [h1] at h2
  exact Option.some.inj h2

/-- When no item is taken twice there are at most as many rounds as items, and one more. -/
theorem sweeps_total [DecidableEq α] {h₀ : List α}
    (hself : ∀ r a, Grows fires l h₀ r → a ∈ r → fires r a = false) (hg : Grows fires l h₀ h) {n : Nat}
    (hn : l.countP (fun a => decide (a ∉ h)) < n) : ∃ r, sweeps fires l n h = some r := by
  induction n generalizing h with
  | zero => omega
  | succ n ih =>
    rw [sweeps]
    split
    · exact ⟨h, rfl⟩
    · next hne =>
      obtain ⟨a, s, hs⟩ := List.exists_cons_of_ne_nil hne
      obtain ⟨ha, hf⟩ := fires_of_sweep hs
      have hnot : a ∉ h := by
        intro hmem
        rw [hself h a hg hmem] at hf
        cases hf
      -- the first item that is taken is no longer counted
      have hlt : l.countP (fun a => decide (a ∉ h ++ sweep fires h l)) <
          l.countP (fun a => decide (a ∉ h)) := by
        rw [List.countP_eq_length_filter, List.countP_eq_length_filter]
        have hfilter : (l.filter fun x => decide (x ∉ h ++ sweep fires h l)) =
            (l.filter fun x => decide (x ∉ h)).filter fun x => decide (x ∉ h ++ sweep fires h l) := by
          rw [List.filter_filter]
          congr 1
          funext x
          simp only [List.mem_append, not_or, Bool.decide_and, Bool.and_assoc]
          cases decide (x ∉ h) <;> simp
        rw [hfilter]
        apply List.length_filter_lt_length_iff_exists.mpr
        refine ⟨a, List.mem_filter.mpr ⟨ha, decide_eq_true hnot⟩, ?_⟩
        rw [hs]
        simp
      exact ih (hg.trans (grows_sweep h l)) (by omega)

/-- A sweep takes the whole list when the rule fires for every item after those in front of it. -/
theorem sweep_eq_self (hf : ∀ x a y, l = x ++ a :: y → fires (h ++ x) a = true) :
    sweep fires h l = l := by
  induction l generalizing h with
  | nil => rfl
  | cons a l ih =>
    have ha := hf [] a l rfl
    rw [List.append_nil] at ha
    rw [sweep_of_fires ha, ih]
    intro x b y hl
    rw [← List.append_cons]
    exact hf (a :: x) b y (by rw [hl, List.cons_append])

/-- Going on from what a sweep has taken. -/
theorem sweeps_step {n : Nat} (hr : sweeps fires l n h = some r) :
    ∃ m, sweeps fires l m (h ++ sweep fires h l) = some r := by
  cases n with
  | zero => cases hr
  | succ n =>
    by_cases hnil : sweep fires h l = []
    · rw [hnil, List.append_nil]
      exact ⟨n + 1, hr⟩
    · rw [sweeps, if_neg hnil] at hr
      exact ⟨n, hr⟩

theorem sweeps_isPrefix {n : Nat} (hr : sweeps fires l n h = some r) :
    h ++ sweep fires h l <+: r := by
  obtain ⟨m, hm⟩ := sweeps_step hr
  exact (sweeps_grows hm).isPrefix

theorem sweeps_congr {fires' : List α → α → Bool} {I : List α → Prop}
    (hI : ∀ h, I h → ∀ a ∈ l, fires h a = fires' h a ∧ (fires h a = true → I (h ++ [a]))) (h0 : I h)
    (n : Nat) : sweeps fires l n h = sweeps fires' l n h := by
  induction n generalizing h with
  | zero => rfl
  | succ n ih =>
    have hnext : I (h ++ sweep fires h l) :=
      (grows_sweep h l).invariant (fun r a hr ha hf => (hI r hr a ha).2 hf) h0
    rw [sweeps, sweeps, ih hnext, sweep_congr hI h0]

/-! ## Parts of a rule that do not change -/

/-- Items that a rule never takes may as well be absent. -/
theorem sweep_and {p : α → Bool} (h l : List α) :
    sweep (fun h a => p a && fires h a) h l = sweep fires h (l.filter p) := by
  induction l generalizing h with
  | nil => rfl
  | cons a l ih =>
    cases hpa : p a with
    | true =>
      rw [List.filter_cons_of_pos hpa, sweep, sweep, ih, ih, hpa, Bool.true_and]
    | false =>
      rw [List.filter_cons_of_neg (by rw [hpa]; exact Bool.false_ne_true), sweep, hpa,
        Bool.false_and, if_neg Bool.false_ne_true, ih]

theorem sweeps_and {p : α → Bool} (l : List α) (n : Nat) (h : List α) :
    sweeps (fun h a => p a && fires h a) l n h = sweeps fires (l.filter p) n h := by
  induction n generalizing h with
  | zero => rfl
  | succ n ih => rw [sweeps, sweeps, sweep_and, ih]

/-- A rule that takes every item once, whatever was taken before. -/
theorem sweep_fresh [DecidableEq α] {p : α → Bool} (hl : l.Nodup) (h : List α) :
    sweep (fun h a => a ∉ h && p a) h l = l.filter fun a => a ∉ h && p a := by
  induction l generalizing h with
  | nil => rfl
  | cons a l ih =>
    obtain ⟨ha, hl⟩ := List.nodup_cons.mp hl
    have hrest : (l.filter fun b => b ∉ h ++ [a] && p b) = l.filter fun b => b ∉ h && p b := by
      refine List.filter_congr fun b hb => ?_
      have hne : b ≠ a := fun he => ha (he ▸ hb)
      simp [hne]
    rw [sweep, List.filter_cons, ih hl, ih hl, hrest]

/-- The rule that takes every item once keeps the order of the list. -/
theorem sweeps_fresh [DecidableEq α] (hl : l.Nodup) {n : Nat}
    (hr : sweeps (fun h a => a ∉ h && true) l n [] = some r) : r = l := by
  have hfirst : sweep (fun h a => a ∉ h && true) [] l = l := by
    rw [sweep_fresh (p := fun _ => true) hl]
    simp
  have hsecond : sweep (fun h a => a ∉ h && true) l l = [] := by
    rw [sweep_fresh (p := fun _ => true) hl]
    simp
  obtain ⟨m, hm⟩ := sweeps_step hr
  rw [hfirst, List.nil_append] at hm
  cases m with
  | zero => cases hm
  | succ m =>
    rw [sweeps, if_pos hsecond] at hm
    exact (Option.some.inj hm).symm

/-! ## The order of two items -/

theorem pair_of_mem {b : α} {x y : List α} (ha : a ∈ x) (hb : b ∈ y) : [a, b].Sublist (x ++ y) :=
  (List.singleton_sublist.mpr ha).append (List.singleton_sublist.mpr hb)

/-- In a list without repetitions an item stands in front of what comes before another one. -/
theorem mem_left_of_pair {b : α} {x y : List α} (hl : (x ++ y).Nodup) (h : [a, b].Sublist (x ++ y))
    (hb : b ∈ x) : [a, b].Sublist x := by
  have hdisj := (List.nodup_append.mp hl).2.2
  obtain ⟨s, t, hst, hs, ht⟩ := List.sublist_append_iff.mp h
  have hnot : b ∉ y := fun hy => hdisj b hb b hy rfl
  cases t with
  | nil =>
    rw [List.append_nil] at hst
    exact hst ▸ hs
  | cons c t =>
    exfalso
    -- the end of the pair would stand in the other part
    have hlast : b ∈ c :: t := by
      have hgl := congrArg List.getLast? hst
      rw [List.getLast?_append_of_ne_nil _ (List.cons_ne_nil c t)] at hgl
      exact List.mem_of_getLast? hgl.symm
    exact hnot (ht.subset hlast)

theorem mem_of_pair {b : α} {x y : List α} (hl : (x ++ b :: y).Nodup)
    (h : [a, b].Sublist (x ++ b :: y)) : a ∈ x := by
  rw [List.append_cons] at h
  have hpair := mem_left_of_pair (by rw [← List.append_cons]; exact hl) h (by simp)
  have ha := hpair.subset (List.mem_cons_self (a := a))
  rw [List.mem_append, List.mem_singleton] at ha
  refine ha.resolve_right fun he => ?_
  subst he
  rw [List.append_cons] at hl
  have hdup := hl.sublist h
  simp at hdup

theorem not_pair_symm {b : α} (hl : l.Nodup) (h : [a, b].Sublist l) : ¬ [b, a].Sublist l := by
  intro h'
  obtain ⟨x, y, rfl⟩ := List.append_of_mem (h.subset (List.mem_cons_self (a := a)))
  have hb := mem_of_pair hl h'
  have hab := mem_left_of_pair hl h hb
  have ha := hab.subset (List.mem_cons_self (a := a))
  exact (List.nodup_append.mp hl).2.2 a ha a List.mem_cons_self rfl

/-! ## A head start

An item is taken on its own account or because of one that was taken before.  Taking all the items of
the first kind in advance may change the order in which the items are taken. -/

section HeadStart

variable [DecidableEq α] (direct : α → Bool) (answers : α → α → Bool)

/-- The rule: an item is taken once, and when it is not direct it answers one taken before it. -/
def follow (h : List α) (a : α) : Bool :=
  a ∉ h && (direct a || h.any fun d => answers d a)

variable {direct answers} {c d : α}

theorem follow_iff : follow direct answers h a = true ↔
    a ∉ h ∧ (direct a = true ∨ ∃ d ∈ h, answers d a = true) := by
  simp [follow]

/-- A sweep takes the direct items alone when none of the others answers one in front of it. -/
theorem sweep_follow_eq_filter (hl : (h ++ l).Nodup) (hh : ∀ d ∈ h, direct d = true) :
    sweep (follow direct answers) h l = l.filter direct ↔
      ∀ c ∈ l, direct c = false → ∀ d ∈ h ++ l, direct d = true → answers d c = true →
        [c, d].Sublist (h ++ l) := by
  induction l generalizing h with
  | nil => simp
  | cons a l ih =>
    have hnot : a ∉ h := fun ha =>
      (List.nodup_append.mp hl).2.2 a ha a List.mem_cons_self rfl
    cases hd : direct a with
    | true =>
      have hf : follow direct answers h a = true := follow_iff.mpr ⟨hnot, Or.inl hd⟩
      have hh' : ∀ d ∈ h ++ [a], direct d = true := by
        intro d hmem
        rw [List.mem_append, List.mem_singleton] at hmem
        exact hmem.elim (hh d) (fun he => he ▸ hd)
      rw [List.append_cons] at hl ⊢
      rw [sweep_of_fires hf, List.filter_cons_of_pos hd, List.cons_inj_right, ih hl hh',
        List.forall_mem_cons]
      refine ⟨fun hc => ⟨?_, hc⟩, fun hc => hc.2⟩
      intro hna
      rw [hd] at hna
      cases hna
    | false =>
      rw [List.filter_cons_of_neg (by rw [hd]; exact Bool.false_ne_true)]
      by_cases hans : ∃ d ∈ h, answers d a = true
      · have hf : follow direct answers h a = true := follow_iff.mpr ⟨hnot, Or.inr hans⟩
        obtain ⟨d, hdh, hda⟩ := hans
        rw [sweep_of_fires hf]
        refine iff_of_false ?_ ?_
        · intro heq
          have hmem : a ∈ l.filter direct := heq ▸ List.mem_cons_self
          rw [(List.mem_filter.mp hmem).2] at hd
          cases hd
        · intro hc
          have hpair := hc a List.mem_cons_self hd d (List.mem_append_left _ hdh) (hh d hdh) hda
          exact not_pair_symm hl hpair (pair_of_mem hdh List.mem_cons_self)
      · have hf : follow direct answers h a = false := by
          rw [Bool.eq_false_iff]
          intro hf
          rcases (follow_iff.mp hf).2 with h1 | h1
          · rw [hd] at h1
            cases h1
          · exact hans h1
        have hsub : (h ++ l).Sublist (h ++ a :: l) :=
          (List.Sublist.refl h).append (List.sublist_cons_self a l)
        rw [sweep_of_not hf, ih (hl.sublist hsub) hh]
        constructor
        · intro hc
          rw [List.forall_mem_cons]
          refine ⟨?_, ?_⟩
          · intro _ d hmem hdd hda
            rw [List.mem_append, List.mem_cons] at hmem
            rcases hmem with hmem | rfl | hmem
            · exact absurd ⟨d, hmem, hda⟩ hans
            · rw [hd] at hdd
              cases hdd
            · exact ((List.singleton_sublist.mpr hmem).cons_cons a).trans
                (List.sublist_append_right h _)
          · intro c hcl hcd d hmem hdd hda
            rw [List.mem_append, List.mem_cons] at hmem
            refine (hc c hcl hcd d ?_ hdd hda).trans hsub
            rw [List.mem_append]
            rcases hmem with hmem | rfl | hmem
            · exact Or.inl hmem
            · rw [hd] at hdd
              cases hdd
            · exact Or.inr hmem
        · intro hc c hcl hcd d hmem hdd hda
          have hpair := hc c (List.mem_cons_of_mem a hcl) hcd d (hsub.subset hmem) hdd hda
          -- neither of the two is the item that was left out
          have hnal : a ∉ h ++ l := by
            rw [List.append_cons] at hl
            have hperm : (h ++ [a] ++ l).Perm (a :: (h ++ l)) := by
              rw [← List.append_cons]
              exact List.perm_middle
            exact (List.nodup_cons.mp (hperm.nodup_iff.mp hl)).1
          have hfilter : (h ++ a :: l).filter (fun x => decide (x ≠ a)) = h ++ l := by
            rw [List.filter_append, List.filter_cons_of_neg (by simp), ← List.filter_append]
            exact List.filter_eq_self.mpr fun x hx =>
              decide_eq_true fun he => hnal (he ▸ hx)
          have hca : c ≠ a := fun he => hnal (he ▸ List.mem_append_right h hcl)
          have hda' : d ≠ a := fun he => hnal (he ▸ hmem)
          have hpair := hpair.filter fun x => decide (x ≠ a)
          rw [hfilter] at hpair
          simpa [hca, hda'] using hpair

omit [DecidableEq α] in
/-- A list up to the last of its direct items, and the rest. -/
theorem exists_last_direct (direct : α → Bool) (l : List α) : ∃ l₁ l₂, l = l₁ ++ l₂ ∧
    (∀ a ∈ l₂, direct a = false) ∧ ∀ a ∈ l₁.getLast?, direct a = true := by
  induction l using List.reverseRecOn with
  | nil => exact ⟨[], [], rfl, by simp, by simp⟩
  | append_singleton l a ih =>
    cases hd : direct a with
    | true => exact ⟨l ++ [a], [], by simp, by simp, by simpa using hd⟩
    | false =>
      obtain ⟨l₁, l₂, rfl, h2, h1⟩ := ih
      refine ⟨l₁, l₂ ++ [a], by simp, ?_, h1⟩
      intro b hb
      rw [List.mem_append, List.mem_singleton] at hb
      exact hb.elim (h2 b) (fun he => he ▸ hd)

theorem filter_sweep_follow (hl : (h ++ l).Nodup) :
    (sweep (follow direct answers) h l).filter direct = l.filter direct := by
  induction l generalizing h with
  | nil => rfl
  | cons a l ih =>
    have hnot : a ∉ h := fun ha =>
      (List.nodup_append.mp hl).2.2 a ha a List.mem_cons_self rfl
    have hsub : (h ++ l).Sublist (h ++ a :: l) :=
      (List.Sublist.refl h).append (List.sublist_cons_self a l)
    have hcons : (h ++ [a] ++ l).Nodup := by rwa [← List.append_cons]
    cases hf : follow direct answers h a with
    | true =>
      rw [sweep_of_fires hf, List.filter_cons, List.filter_cons, ih hcons]
    | false =>
      have hd : ¬ direct a = true := by
        intro hd
        rw [follow_iff.mpr ⟨hnot, Or.inl hd⟩] at hf
        cases hf
      rw [sweep_of_not hf, List.filter_cons_of_neg hd, ih (hl.sublist hsub)]

/-- The first sweep over the part up to the last direct item, when the direct items come first. -/
theorem sweep_eq_filter_of_isPrefix {l₁ : List α} (hl : l₁.Nodup)
    (hlast : ∀ a ∈ l₁.getLast?, direct a = true)
    (hs : sweep (follow direct answers) [] l₁ <+: r) (hd : l₁.filter direct <+: r) :
    sweep (follow direct answers) [] l₁ = l₁.filter direct := by
  induction l₁ using List.reverseRecOn with
  | nil => rfl
  | append_singleton x d _ =>
    have hdir : direct d = true := hlast d (by simp)
    have hfresh : d ∉ x := fun hx => (List.nodup_append.mp hl).2.2 d hx d (by simp) rfl
    have hmem : d ∉ sweep (follow direct answers) [] x := fun hx =>
      hfresh ((sweep_sublist [] x).subset hx)
    have hf : follow direct answers (sweep (follow direct answers) [] x) d = true :=
      follow_iff.mpr ⟨hmem, Or.inl hdir⟩
    have hcut := @filter_sweep_follow _ x [] _ direct answers (List.nodup_append.mp hl).1
    rw [sweep_append, List.nil_append, sweep_of_fires hf, sweep_nil] at hs ⊢
    rw [List.filter_append, List.filter_cons_of_pos hdir, List.filter_nil] at hd ⊢
    -- the item at the end is at one place in the common list
    have hle : (x.filter direct).length ≤ (sweep (follow direct answers) [] x).length := by
      rw [← hcut]
      exact List.length_filter_le _ _
    have hpre := List.prefix_of_prefix_length_le hd hs (by simpa using hle)
    rcases Nat.lt_or_ge (x.filter direct).length (sweep (follow direct answers) [] x).length with
      hlt | hge
    · exfalso
      have hpre := List.prefix_of_prefix_length_le hpre (List.prefix_append _ [d])
        (by rw [List.length_append, List.length_singleton]; exact hlt)
      exact hmem (hpre.subset (by simp))
    · exact (hpre.eq_of_length (by simp; omega)).symm

/-- After the direct items a sweep takes those that answer one of them. -/
theorem sweep_filter_eq_nil {x : List α} (hx : x ⊆ l) :
    sweep (follow direct answers) (l.filter direct) x = [] ↔
      ∀ c ∈ x, direct c = false → ∀ d ∈ l, direct d = true → answers d c = false := by
  rw [sweep_eq_nil]
  constructor
  · intro hs c hc hcd d hd hdd
    rw [Bool.eq_false_iff]
    intro hans
    have hf : follow direct answers (l.filter direct) c = true :=
      follow_iff.mpr ⟨by simp [hcd], Or.inr ⟨d, List.mem_filter.mpr ⟨hd, hdd⟩, hans⟩⟩
    rw [hs c hc] at hf
    cases hf
  · intro hq c hc
    rw [Bool.eq_false_iff]
    intro hf
    obtain ⟨hnot, hrule⟩ := follow_iff.mp hf
    cases hcd : direct c with
    | true => exact hnot (List.mem_filter.mpr ⟨hx hc, hcd⟩)
    | false =>
      rcases hrule with hd | ⟨d, hd, hans⟩
      · rw [hcd] at hd
        cases hd
      · obtain ⟨hd, hdd⟩ := List.mem_filter.mp hd
        rw [hq c hc hcd d hd hdd] at hans
        cases hans

/-- The items that answer a direct one, without being direct, stand behind all the direct ones. -/
def Behind (direct : α → Bool) (answers : α → α → Bool) (l : List α) : Prop :=
  ∀ c ∈ l, direct c = false → ∀ d ∈ l, direct d = true → answers d c = true →
    ∀ e ∈ l, direct e = true → [e, c].Sublist l

/-- They stand in front of the direct ones they answer. -/
def InFront (direct : α → Bool) (answers : α → α → Bool) (l : List α) : Prop :=
  ∀ c ∈ l, direct c = false → ∀ d ∈ l, direct d = true → answers d c = true → [c, d].Sublist l

/-- Taking the direct items in advance leaves the order as it is exactly when the others that answer
direct ones all stand behind the direct ones, or all stand in front of those they answer. -/
theorem headStart_iff {n m : Nat} {r' : List α} (hl : l.Nodup)
    (hr : sweeps (follow direct answers) l n [] = some r)
    (hr' : sweeps (follow direct answers) l m (l.filter direct) = some r') :
    r = r' ↔ Behind direct answers l ∨ InFront direct answers l := by
  obtain ⟨l₁, l₂, rfl, h2, h1⟩ := exists_last_direct direct l
  have hl1 := (List.nodup_append.mp hl).1
  have hdisj := (List.nodup_append.mp hl).2.2
  have hdir : (l₁ ++ l₂).filter direct = l₁.filter direct := by
    have hnil : l₂.filter direct = [] := List.filter_eq_nil_iff.mpr fun a ha => by simp [h2 a ha]
    rw [List.filter_append, hnil, List.append_nil]
  have hmem : ∀ {d}, d ∈ l₁ ++ l₂ → direct d = true → d ∈ l₁ := by
    intro d hd hdd
    rw [List.mem_append] at hd
    refine hd.resolve_right fun h => ?_
    rw [h2 d h] at hdd
    cases hdd
  have hstart := @sweep_follow_eq_filter _ l₁ [] _ direct answers hl1 (by simp)
  rw [List.nil_append] at hstart
  have hnil1 := @sweep_filter_eq_nil _ _ _ direct answers _ (List.subset_append_left l₁ l₂)
  have hnil2 := @sweep_filter_eq_nil _ _ _ direct answers _ (List.subset_append_right l₁ l₂)
  have hpre := sweeps_isPrefix hr
  have hpre' := sweeps_isPrefix hr'
  rw [sweep_append, List.nil_append, List.nil_append] at hpre
  rw [hdir, sweep_append] at hpre'
  rw [hdir] at hnil1 hnil2 hr'
  constructor
  · rintro rfl
    have hs := sweep_eq_filter_of_isPrefix hl1 h1 ((List.prefix_append _ _).trans hpre)
      ((List.prefix_append _ _).trans hpre')
    rw [hs] at hpre
    cases hq1 : sweep (follow direct answers) (l₁.filter direct) l₁ with
    | nil =>
      refine Or.inl fun c hc hcd d hd hdd hans e he hed => ?_
      refine pair_of_mem (hmem he hed) ((List.mem_append.mp hc).resolve_left fun hc1 => ?_)
      rw [hnil1.mp hq1 c hc1 hcd d hd hdd] at hans
      cases hans
    | cons t₁ s₁ =>
      cases hq2 : sweep (follow direct answers) (l₁.filter direct) l₂ with
      | nil =>
        refine Or.inr fun c hc hcd d hd hdd hans => ?_
        have hc1 : c ∈ l₁ := by
          refine (List.mem_append.mp hc).resolve_right fun hc2 => ?_
          rw [hnil2.mp hq2 c hc2 hcd d hd hdd] at hans
          cases hans
        exact (hstart.mp hs c hc1 hcd d (hmem hd hdd) hdd hans).trans (List.sublist_append_left _ _)
      | cons t₂ s₂ =>
        -- the two orders go on with items of different parts
        exfalso
        obtain ⟨u, hu⟩ := hpre
        obtain ⟨v, hv⟩ := hpre'
        rw [hq1, List.cons_append, List.append_assoc] at hv
        rw [hq2, List.append_assoc, ← hv] at hu
        have heq := (List.cons.inj (List.append_cancel_left hu)).1
        have ht1 : t₁ ∈ l₁ := (sweep_sublist _ l₁).subset (hq1 ▸ List.mem_cons_self)
        have ht2 : t₂ ∈ l₂ := (sweep_sublist _ l₂).subset (hq2 ▸ List.mem_cons_self)
        exact hdisj t₁ ht1 t₂ ht2 heq.symm
  · intro hcases
    have hparts : sweep (follow direct answers) [] l₁ = l₁.filter direct ∧
        (sweep (follow direct answers) (l₁.filter direct) l₁ = [] ∨
          sweep (follow direct answers) (l₁.filter direct) l₂ = []) := by
      rw [hstart, hnil1, hnil2]
      rcases hcases with hlate | hearly
      · have hnone : ∀ c ∈ l₁, direct c = false → ∀ d ∈ l₁ ++ l₂, direct d = true →
            answers d c = false := by
          intro c hc hcd d hd hdd
          rw [Bool.eq_false_iff]
          intro hans
          have hne : l₁ ≠ [] := List.ne_nil_of_mem hc
          have hlast := h1 _ (List.getLast?_eq_getLast_of_ne_nil hne)
          have he := List.getLast_mem hne
          have hpair := hlate c (List.mem_append_left _ hc) hcd d hd hdd hans _
            (List.mem_append_left _ he) hlast
          have hcl : c ∈ l₁.dropLast := by
            have hc := List.dropLast_append_getLast hne ▸ hc
            rw [List.mem_append, List.mem_singleton] at hc
            refine hc.resolve_right fun he => ?_
            rw [he, hlast] at hcd
            cases hcd
          have hpair' := pair_of_mem hcl (List.mem_singleton_self (l₁.getLast hne))
          rw [List.dropLast_append_getLast] at hpair'
          exact not_pair_symm hl hpair (hpair'.trans (List.sublist_append_left _ _))
        refine ⟨?_, Or.inl hnone⟩
        intro c hc hcd d hd hdd hans
        rw [hnone c hc hcd d (List.mem_append_left _ hd) hdd] at hans
        cases hans
      · refine ⟨?_, Or.inr ?_⟩
        · intro c hc hcd d hd hdd hans
          exact mem_left_of_pair hl (hearly c (List.mem_append_left _ hc) hcd d
            (List.mem_append_left _ hd) hdd hans) hd
        · intro c hc hcd d hd hdd
          rw [Bool.eq_false_iff]
          intro hans
          exact not_pair_symm hl (hearly c (List.mem_append_right _ hc) hcd d hd hdd hans)
            (pair_of_mem (hmem hd hdd) hc)
    obtain ⟨hs, hquiet⟩ := hparts
    obtain ⟨k, hk⟩ := sweeps_step hr
    rw [sweep_append, List.nil_append, List.nil_append, hs] at hk
    rcases hquiet with hq1 | hq2
    · obtain ⟨k', hk'⟩ := sweeps_step hr'
      rw [sweep_append, hq1, List.nil_append, List.append_nil] at hk'
      exact sweeps_unique hk hk'
    · rw [hq2, List.append_nil] at hk
      exact sweeps_unique hk hr'

/-- Direct items, items that answer one in front of them, and the others. -/
def kind (direct : α → Bool) (answers : α → α → Bool) (l : List α) (a : α) : Nat :=
  if direct a = true then 0
  else if ∃ d ∈ l, answers d a = true ∧ [d, a].Sublist l then 1
  else 2

theorem kind_le_two (a : α) : kind direct answers l a ≤ 2 := by
  unfold kind
  split
  · omega
  · split <;> omega

theorem kind_eq_zero : kind direct answers l a = 0 ↔ direct a = true := by
  unfold kind
  split
  · next hd => simp [hd]
  · next hd => split <;> simp [hd]

theorem kind_eq_one : kind direct answers l a = 1 ↔
    direct a = false ∧ ∃ d ∈ l, answers d a = true ∧ [d, a].Sublist l := by
  unfold kind
  split
  · next hd => simp [hd]
  · next hd =>
    rw [Bool.not_eq_true] at hd
    split
    · next hex => simpa [hd] using hex
    · next hno => simpa [hd] using hno

theorem kind_eq_two : kind direct answers l a = 2 ↔
    direct a = false ∧ ∀ d ∈ l, answers d a = true → ¬ [d, a].Sublist l := by
  unfold kind
  split
  · next hd => simp [hd]
  · next hd =>
    rw [Bool.not_eq_true] at hd
    split
    · next hex => simpa [hd] using hex
    · next hno => simpa [hd] using hno

omit [DecidableEq α] in
/-- The items of a list whose kinds never decrease stand kind by kind. -/
theorem eq_filter_append {k : α → Nat} (hk : ∀ a, k a ≤ 2) (hl : l.Pairwise fun a b => k a ≤ k b) :
    l = l.filter (fun a => k a = 0) ++ (l.filter (fun a => k a = 1) ++
      l.filter (fun a => k a = 2)) := by
  induction l with
  | nil => rfl
  | cons a l ih =>
    obtain ⟨ha, hl⟩ := List.pairwise_cons.mp hl
    have ih := ih hl
    have hnone : ∀ n, n < k a → l.filter (fun b => k b = n) = [] := by
      intro n hn
      rw [List.filter_eq_nil_iff]
      intro b hb
      have hle := ha b hb
      simp only [decide_eq_true_eq]
      omega
    have hka := hk a
    obtain h0 | h1 | h2 : k a = 0 ∨ k a = 1 ∨ k a = 2 := by omega
    · simpa [List.filter_cons, h0] using ih
    · rw [hnone 0 (by omega)] at ih
      simpa [List.filter_cons, h1, hnone 0 (by omega)] using ih
    · rw [hnone 0 (by omega), hnone 1 (by omega)] at ih
      simpa [List.filter_cons, h2, hnone 0 (by omega), hnone 1 (by omega)] using ih

omit [DecidableEq α] in
theorem pairwise_kind_append {x y z : List α} {k : α → Nat} (hx : ∀ a ∈ x, k a = 0)
    (hy : ∀ a ∈ y, k a = 1) (hz : ∀ a ∈ z, k a = 2) :
    (x ++ (y ++ z)).Pairwise fun a b => k a ≤ k b := by
  have hconst : ∀ {w : List α} {n : Nat}, (∀ a ∈ w, k a = n) →
      w.Pairwise fun a b => k a ≤ k b := by
    intro w n hw
    refine List.pairwise_of_forall_mem_list fun a ha b hb => ?_
    rw [hw a ha, hw b hb]
  refine List.pairwise_append.mpr ⟨hconst hx, List.pairwise_append.mpr ⟨hconst hy, hconst hz, ?_⟩, ?_⟩
  · intro a ha b hb
    rw [hy a ha, hz b hb]
    omega
  · intro a ha b _
    rw [hx a ha]
    exact Nat.zero_le _

theorem filter_not_mem_left {x y : List α} (hl : (x ++ y).Nodup) :
    (x ++ y).filter (fun a => a ∉ x) = y := by
  rw [List.filter_append, List.filter_eq_nil_iff.mpr (by simp), List.nil_append, List.filter_eq_self]
  intro a ha
  exact decide_eq_true fun hx => (List.nodup_append.mp hl).2.2 a hx a ha rfl

/-- The sweeps after the direct items take those of the second kind, when the kinds stand in
order. -/
theorem sweeps_of_kinds {m : Nat} {Q S : List α} (hl : (l.filter direct ++ (Q ++ S)).Nodup)
    (hcat : l = l.filter direct ++ (Q ++ S))
    (hQ : ∀ a ∈ Q, ∃ d ∈ l, answers d a = true ∧ [d, a].Sublist l)
    (hS : ∀ a ∈ S, direct a = false ∧ ∀ d ∈ l, answers d a = true → ¬ [d, a].Sublist l)
    (hr : sweeps (follow direct answers) l m (l.filter direct) = some r) :
    r = l.filter direct ++ Q := by
  have htaken : ∀ {h x : List α}, x ⊆ h → sweep (follow direct answers) h x = [] := by
    intro h x hx
    rw [sweep_eq_nil]
    intro a ha
    rw [Bool.eq_false_iff]
    exact fun hf => (follow_iff.mp hf).1 (hx ha)
  -- what is left answers nothing that has been taken
  have hrest : sweep (follow direct answers) (l.filter direct ++ Q) S = [] := by
    rw [sweep_eq_nil]
    intro a ha
    obtain ⟨hda, hno⟩ := hS a ha
    rw [Bool.eq_false_iff]
    intro hf
    rcases (follow_iff.mp hf).2 with hd | ⟨d, hd, hans⟩
    · rw [hda] at hd
      cases hd
    · have hpair : [d, a].Sublist l := by
        rw [hcat, ← List.append_assoc]
        exact pair_of_mem hd ha
      exact hno d (hpair.subset List.mem_cons_self) hans hpair
  have hsecond : sweep (follow direct answers) (l.filter direct) Q = Q := by
    refine sweep_eq_self fun x a y hxy => follow_iff.mpr ?_
    have hl' : l = (l.filter direct ++ x) ++ a :: (y ++ S) := by
      conv_lhs => rw [hcat, hxy]
      simp
    rw [← hcat, hl'] at hl
    refine ⟨fun h => (List.nodup_append.mp hl).2.2 a h a List.mem_cons_self rfl, Or.inr ?_⟩
    obtain ⟨d, -, hans, hpair⟩ := hQ a (hxy ▸ by simp)
    rw [hl'] at hpair
    exact ⟨d, mem_of_pair hl hpair, hans⟩
  have hsweep : ∀ h, l.filter direct ⊆ h → sweep (follow direct answers) h l =
      sweep (follow direct answers) h Q ++
        sweep (follow direct answers) (h ++ sweep (follow direct answers) h Q) S := by
    intro h hh
    conv_lhs => rw [hcat]
    rw [sweep_append, sweep_append, htaken hh, List.nil_append, List.append_nil]
  obtain ⟨k, hk⟩ := sweeps_step hr
  rw [hsweep _ (List.Subset.refl _), hsecond, hrest, List.append_nil] at hk
  cases k with
  | zero => cases hk
  | succ k =>
    rw [sweeps, if_pos] at hk
    · exact (Option.some.inj hk).symm
    · rw [hsweep _ (List.subset_append_left _ _), htaken (List.subset_append_right _ _),
        List.append_nil, List.nil_append, hrest]

/-- The direct items, the sweeps after them and then what is left give the list in its own order,
and nothing that is left answers an item in front of it, exactly when the kinds never decrease. -/
theorem inOrder_iff {m : Nat} (hl : l.Nodup)
    (hr : sweeps (follow direct answers) l m (l.filter direct) = some r) :
    (r ++ l.filter (fun a => a ∉ r) = l ∧
        ∀ c ∈ l, c ∉ r → ∀ d ∈ l, answers d c = true → ¬ [d, c].Sublist l) ↔
      l.Pairwise fun a b => kind direct answers l a ≤ kind direct answers l b := by
  constructor
  · rintro ⟨hcat, hlate⟩
    have hg := sweeps_grows hr
    obtain ⟨q, rfl⟩ := hg.isPrefix
    have hsub : (l.filter direct ++ q).Sublist l := by
      conv_rhs => rw [← hcat]
      exact List.sublist_append_left _ _
    have hnd : ∀ a ∈ l, a ∉ l.filter direct → direct a = false := by
      intro a ha hna
      rw [List.mem_filter, not_and, Bool.not_eq_true] at hna
      exact hna ha
    have hsorted : (l.filter direct ++ (q ++ l.filter fun a => a ∉ l.filter direct ++ q)).Pairwise
        fun a b => kind direct answers l a ≤ kind direct answers l b := by
      refine pairwise_kind_append ?_ ?_ ?_
      · intro a ha
        exact kind_eq_zero.mpr (List.mem_filter.mp ha).2
      · intro a ha
        obtain ⟨x, y, rfl⟩ := List.append_of_mem ha
        rw [← List.append_assoc] at hsub hg
        obtain ⟨hnot, hrule⟩ := follow_iff.mp (hg.fires_at rfl (by simp))
        have hda := hnd a (hsub.subset (by simp)) fun h => hnot (List.mem_append_left x h)
        rcases hrule with hd | ⟨d, hd, hans⟩
        · rw [hda] at hd
          cases hd
        · have hpair := (pair_of_mem hd (List.mem_cons_self (a := a) (l := y))).trans hsub
          exact kind_eq_one.mpr ⟨hda, d, hpair.subset List.mem_cons_self, hans, hpair⟩
      · intro a ha
        obtain ⟨hal, har⟩ := List.mem_filter.mp ha
        have har := of_decide_eq_true har
        exact kind_eq_two.mpr ⟨hnd a hal fun h => har (List.mem_append_left q h), hlate a hal har⟩
    rw [← List.append_assoc, hcat] at hsorted
    exact hsorted
  · intro hsorted
    have hparts := eq_filter_append kind_le_two hsorted
    rw [List.filter_congr (q := direct) fun a _ => by simp [kind_eq_zero]] at hparts
    have hS : ∀ a ∈ l.filter (fun a => kind direct answers l a = 2), direct a = false ∧
        ∀ d ∈ l, answers d a = true → ¬ [d, a].Sublist l := fun a ha =>
      kind_eq_two.mp (of_decide_eq_true (List.mem_filter.mp ha).2)
    have hr := sweeps_of_kinds (hparts ▸ hl) hparts
      (fun a ha => (kind_eq_one.mp (of_decide_eq_true (List.mem_filter.mp ha).2)).2) hS hr
    subst hr
    set Q := l.filter fun a => kind direct answers l a = 1
    set S := l.filter fun a => kind direct answers l a = 2
    have hleft : l.filter (fun a => a ∉ l.filter direct ++ Q) = S := by
      have hparts : l = l.filter direct ++ Q ++ S := by rwa [List.append_assoc]
      have hcut := filter_not_mem_left (hparts ▸ hl)
      rwa [← hparts] at hcut
    refine ⟨?_, ?_⟩
    · rw [hleft, List.append_assoc]
      exact hparts.symm
    · intro c hc hnot
      have hcS : c ∈ S := hleft ▸ List.mem_filter.mpr ⟨hc, decide_eq_true hnot⟩
      exact (hS c hcS).2

end HeadStart

end Sweeps
