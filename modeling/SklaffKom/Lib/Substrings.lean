import SklaffKom.Lib.CString

/-!
# Substrings

Where `strstr` finds a pattern in a string that is put together from parts: what follows a match does
not matter, and a pattern without the separator does not reach over it.
-/

namespace CString

variable {s t l rest pat : CString} {c d : Char}

theorem strstr_at_start (h : pat <+: s) : strstr s pat = some s := by
  unfold strstr
  rw [if_pos (List.isPrefixOf_iff_prefix.mpr h)]

theorem strstr_cons_of_not_start (h : ¬ pat <+: c :: s) : strstr (c :: s) pat = strstr s pat := by
  rw [strstr, if_neg (mt List.isPrefixOf_iff_prefix.mp h)]

theorem strstr_nil (h : pat ≠ []) : strstr [] pat = none := by
  unfold strstr
  rw [if_neg (mt List.isPrefixOf_iff_prefix.mp (mt List.prefix_nil.mp h))]

/-- A pattern cannot begin where its first character does not. -/
theorem strstr_cons_of_ne (h : pat.head? ≠ some c) (hne : pat ≠ []) :
    strstr (c :: s) pat = strstr s pat := by
  apply strstr_cons_of_not_start
  intro hp
  obtain ⟨p, pat, rfl⟩ := List.exists_cons_of_ne_nil hne
  rw [List.cons_prefix_cons] at hp
  exact h (by rw [List.head?_cons, hp.1])

theorem strstr_append_of_notMem (hs : ∀ p ∈ pat.head?, p ∉ s) (hne : pat ≠ []) :
    strstr (s ++ rest) pat = strstr rest pat := by
  induction s with
  | nil => rfl
  | cons a s ih =>
    have ha : pat.head? ≠ some a := fun h => hs a h List.mem_cons_self
    rw [List.cons_append, strstr_cons_of_ne ha hne]
    exact ih fun p hp hmem => hs p hp (List.mem_cons_of_mem _ hmem)

/-- What follows a match does not matter. -/
theorem strstr_append (h : strstr s pat = some t) (x : CString) :
    strstr (s ++ x) pat = some (t ++ x) := by
  induction s with
  | nil =>
    obtain ⟨⟨u, hu⟩, a, ha⟩ := strstr_eq_some h
    have ht : t = [] := (List.append_eq_nil_iff.mp ha.symm).2
    rw [ht] at hu ⊢
    rw [(List.append_eq_nil_iff.mp hu).1]
    exact strstr_at_start List.nil_prefix
  | cons a s ih =>
    by_cases hp : pat <+: a :: s
    · rw [strstr_at_start hp, Option.some.injEq] at h
      rw [← h]
      exact strstr_at_start (hp.trans (List.prefix_append _ _))
    · rw [strstr_cons_of_not_start hp] at h
      -- there is room for the pattern before `x`
      have hlen : pat.length ≤ (a :: s).length := by
        obtain ⟨hpre, b, hb⟩ := strstr_eq_some h
        have h1 := hpre.length_le
        have h2 := congrArg List.length hb
        rw [List.length_append] at h2
        rw [List.length_cons]
        omega
      have hpx : ¬ pat <+: a :: (s ++ x) := by
        intro hpx
        exact hp (List.prefix_of_prefix_length_le hpx (List.prefix_append _ x) hlen)
      rw [List.cons_append, strstr_cons_of_not_start hpx]
      exact ih h

theorem prefix_append_sep (hd : d ∉ pat) : pat <+: l ++ d :: rest ↔ pat <+: l := by
  refine ⟨fun h => ?_, fun h => h.trans (List.prefix_append _ _)⟩
  induction l generalizing pat with
  | nil =>
    cases pat with
    | nil => exact List.nil_prefix
    | cons p pat =>
      rw [List.nil_append, List.cons_prefix_cons] at h
      exact absurd (h.1 ▸ List.mem_cons_self) hd
  | cons a l ih =>
    cases pat with
    | nil => exact List.nil_prefix
    | cons p pat =>
      rw [List.cons_append, List.cons_prefix_cons] at h
      rw [List.cons_prefix_cons]
      exact ⟨h.1, ih (fun hm => hd (List.mem_cons_of_mem _ hm)) h.2⟩

/-- A pattern that is not in the first line is searched in the rest. -/
theorem strstr_append_sep (hd : d ∉ pat) (hne : pat ≠ []) (h : strstr l pat = none) :
    strstr (l ++ d :: rest) pat = strstr rest pat := by
  induction l with
  | nil =>
    rw [List.nil_append, strstr_cons_of_ne _ hne]
    intro hhead
    exact hd (List.mem_of_mem_head? hhead)
  | cons a l ih =>
    have hp : ¬ pat <+: a :: l := by
      intro hp
      rw [strstr_at_start hp] at h
      cases h
    rw [strstr_cons_of_not_start hp] at h
    have hp' : ¬ pat <+: a :: (l ++ d :: rest) := by
      intro hp'
      exact hp ((prefix_append_sep hd (l := a :: l)).mp hp')
    rw [List.cons_append, strstr_cons_of_not_start hp']
    exact ih h

theorem strstr_none {s pat : CString} (h : ¬ pat <:+: s) : strstr s pat = none := by
  cases hs : strstr s pat with
  | none => rfl
  | some t =>
    obtain ⟨hp, a, rfl⟩ := strstr_eq_some hs
    exact absurd (hp.isInfix.trans (List.suffix_append a t).isInfix) h

theorem exists_strstr {s pat : CString} (h : pat <:+: s) : ∃ t, strstr s pat = some t := by
  induction s with
  | nil =>
    rw [List.infix_nil.mp h]
    exact ⟨[], rfl⟩
  | cons c s ih =>
    by_cases hp : pat <+: c :: s
    · exact ⟨c :: s, strstr_at_start hp⟩
    · rw [strstr_cons_of_not_start hp]
      exact ih ((List.infix_cons_iff.mp h).resolve_left hp)

/-- The first match is not behind another one. -/
theorem strstr_first {pat : CString} (a b : CString) : ∃ u v, strstr (a ++ (pat ++ b)) pat = some (pat ++ v) ∧
    a ++ (pat ++ b) = u ++ (pat ++ v) ∧ u.length ≤ a.length := by
  induction a with
  | nil => exact ⟨[], b, strstr_at_start (List.prefix_append _ _), rfl, Nat.le_refl _⟩
  | cons c a ih =>
    by_cases hp : pat <+: c :: (a ++ (pat ++ b))
    · obtain ⟨v, hv⟩ := hp
      rw [List.cons_append]
      exact ⟨[], v, by rw [← hv]; exact strstr_at_start (List.prefix_append _ _), hv.symm, Nat.zero_le _⟩
    · obtain ⟨u, v, hfind, hsplit, hlen⟩ := ih
      rw [List.cons_append, strstr_cons_of_not_start hp]
      exact ⟨c :: u, v, hfind, by rw [hsplit]; rfl, Nat.succ_le_succ hlen⟩

end CString
