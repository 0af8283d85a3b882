import SklaffKom.Lib.Strtol

/-!
# Written numbers

`strtol` accepts more than digits: white space, one sign at most, and any number of leading zeros.
-/

namespace CString

variable {s t u r ds : CString} {n e : Int} {k : Nat}

/-- A written sign and its factor. -/
inductive Sign : CString → Int → Prop
  | absent : Sign [] 1
  | plus : Sign ['+'] 1
  | minus : Sign ['-'] (-1)

/-- What `strtol` converts, with its value. -/
inductive Numeral : CString → Int → Prop
  | mk {ws sg ds : CString} {e : Int} (hws : ws.all isSpace = true) (hsg : Sign sg e)
      (hne : ds ≠ []) (hds : ds.all Char.isDigit = true) :
      Numeral (ws ++ (sg ++ ds)) (e * (Nat.ofDigitChars 10 ds 0 : Int))

theorem scanDigits_iff : scanDigits s = some (k, r) ↔
    ∃ ds, ds ≠ [] ∧ ds.all Char.isDigit = true ∧ s = ds ++ r ∧ NoDigit r ∧
      k = Nat.ofDigitChars 10 ds 0 := by
  constructor
  · intro h
    unfold scanDigits at h
    split at h
    · cases h
    · rename_i hne
      rw [Option.some.injEq, Prod.mk.injEq] at h
      refine ⟨_, hne, List.all_takeWhile, ?_, ?_, h.1.symm⟩
      · rw [← h.2]
        exact List.takeWhile_append_dropWhile.symm
      · rw [← h.2]
        cases hd : s.dropWhile Char.isDigit with
        | nil => exact noDigit_nil
        | cons c t => exact noDigit_cons.mpr (dropWhile_head hd)
  · rintro ⟨ds, hne, hds, rfl, hr, rfl⟩
    have htake : (ds ++ r).takeWhile Char.isDigit = ds := by
      rw [List.takeWhile_append_of_pos (List.all_eq_true.mp hds)]
      cases r with
      | nil => simp
      | cons c r => rw [List.takeWhile_cons_of_neg (by simp [noDigit_cons.mp hr]), List.append_nil]
    have hdrop : (ds ++ r).dropWhile Char.isDigit = r := by
      rw [List.dropWhile_append_of_pos (List.all_eq_true.mp hds)]
      cases r with
      | nil => rfl
      | cons c r => exact List.dropWhile_cons_of_neg (by simp [noDigit_cons.mp hr])
    unfold scanDigits
    rw [htake, hdrop]
    cases ds with
    | nil => exact absurd rfl hne
    | cons d ds => rfl

/-- The sign is told from the first character. -/
theorem scanSigned_iff : scanSigned s = some (n, r) ↔
    ∃ sg ds e, Sign sg e ∧ ds ≠ [] ∧ ds.all Char.isDigit = true ∧ s = sg ++ (ds ++ r) ∧ NoDigit r ∧
      n = e * (Nat.ofDigitChars 10 ds 0 : Int) := by
  have hdigits : ∀ (t : CString) (e : Int),
      (scanDigits t).map (fun q => (e * (q.1 : Int), q.2)) = some (n, r) ↔
        ∃ ds, ds ≠ [] ∧ ds.all Char.isDigit = true ∧ t = ds ++ r ∧ NoDigit r ∧
          n = e * (Nat.ofDigitChars 10 ds 0 : Int) := by
    intro t e
    constructor
    · intro h
      obtain ⟨⟨k, r'⟩, hk, heq⟩ := Option.map_eq_some_iff.mp h
      cases heq
      obtain ⟨ds, hne, hds, ht, hr, hval⟩ := scanDigits_iff.mp hk
      exact ⟨ds, hne, hds, ht, hr, by rw [hval]⟩
    · rintro ⟨ds, hne, hds, ht, hr, rfl⟩
      rw [scanDigits_iff.mpr ⟨ds, hne, hds, ht, hr, rfl⟩]
      rfl
  constructor
  · intro h
    unfold scanSigned at h
    split at h
    · rename_i t
      obtain ⟨ds, hne, hds, ht, hr, hn⟩ := (hdigits t (-1)).mp (by simpa using h)
      exact ⟨_, ds, _, .minus, hne, hds, by rw [ht]; rfl, hr, hn⟩
    · rename_i t
      obtain ⟨ds, hne, hds, ht, hr, hn⟩ := (hdigits t 1).mp (by simpa using h)
      exact ⟨_, ds, _, .plus, hne, hds, by rw [ht]; rfl, hr, hn⟩
    · obtain ⟨ds, hne, hds, ht, hr, hn⟩ := (hdigits s 1).mp (by simpa using h)
      exact ⟨_, ds, _, .absent, hne, hds, ht, hr, hn⟩
  · rintro ⟨sg, ds, e, hsg, hne, hds, rfl, hr, hn⟩
    have hthis := (hdigits (ds ++ r) e).mpr ⟨ds, hne, hds, rfl, hr, hn⟩
    cases hsg with
    | absent =>
      have hhead : ∀ c t, c.isDigit = false → [] ++ (ds ++ r) ≠ c :: t := by
        intro c t hc heq
        cases ds with
        | nil => exact hne rfl
        | cons d ds =>
          have hd := List.all_eq_true.mp hds d List.mem_cons_self
          rw [List.nil_append, List.cons_append] at heq
          rw [(List.cons.inj heq).1, hc] at hd
          cases hd
      rw [scanSigned_unsigned (fun t => hhead '-' t rfl) (fun t => hhead '+' t rfl)]
      simpa using hthis
    | plus =>
      rw [List.singleton_append, scanSigned_plus]
      simpa using hthis
    | minus =>
      rw [List.singleton_append, scanSigned_minus]
      simpa using hthis

/-- Something is converted when `end` moved. -/
theorem strtol_iff : strtol s = (n, r) ∧ r ≠ s ↔ ∃ t, s = t ++ r ∧ Numeral t n ∧ NoDigit r := by
  rw [strtol_eq]
  constructor
  · rintro ⟨h, hne⟩
    cases hsc : scanSigned (s.dropWhile isSpace) with
    | none =>
      rw [hsc] at h
      exact absurd (congrArg Prod.snd h).symm hne
    | some q =>
      rw [hsc, Option.getD_some] at h
      rw [h] at hsc
      obtain ⟨sg, ds, e, hsg, hds, hall, hs, hr, rfl⟩ := scanSigned_iff.mp hsc
      refine ⟨_, ?_, .mk (List.all_takeWhile (l := s)) hsg hds hall, hr⟩
      rw [List.append_assoc, List.append_assoc, ← hs]
      exact List.takeWhile_append_dropWhile.symm
  · rintro ⟨t, rfl, ⟨hws, hsg, hne, hds⟩, hr⟩
    rename_i ws sg ds e
    have hstart : (sg ++ (ds ++ r)).dropWhile isSpace = sg ++ (ds ++ r) := by
      cases hsg with
      | absent =>
        cases ds with
        | nil => exact absurd rfl hne
        | cons d ds =>
          have hd := isSpace_of_isDigit (List.all_eq_true.mp hds d List.mem_cons_self)
          exact List.dropWhile_cons_of_neg (by simp [hd])
      | plus => rfl
      | minus => rfl
    rw [List.append_assoc, List.append_assoc, dropWhile_blank hws, hstart,
      scanSigned_iff.mpr ⟨sg, ds, e, hsg, hne, hds, rfl, hr, rfl⟩]
    refine ⟨rfl, fun heq => ?_⟩
    have hlen := congrArg List.length heq
    have hpos := List.length_pos_iff.mpr hne
    simp only [List.length_append] at hlen
    omega

theorem Numeral.ne_nil (h : Numeral t n) : t ≠ [] := by
  obtain ⟨-, -, hne, -⟩ := h
  simp [hne]

/-- White space, signs and digits. -/
theorem Numeral.notMem {c : Char} (h : Numeral t n) (hsp : isSpace c = false) (hp : c ≠ '+')
    (hm : c ≠ '-') (hd : c.isDigit = false) : c ∉ t := by
  obtain ⟨hws, hsg, -, hds⟩ := h
  intro hc
  rcases List.mem_append.mp hc with hc | hc
  · rw [List.all_eq_true.mp hws c hc] at hsp
    cases hsp
  · rcases List.mem_append.mp hc with hc | hc
    · cases hsg with
      | absent => cases hc
      | plus => exact hp (List.mem_singleton.mp hc)
      | minus => exact hm (List.mem_singleton.mp hc)
    · rw [List.all_eq_true.mp hds c hc] at hd
      cases hd

theorem ofDigitChars_lt (h : ds.all Char.isDigit = true) :
    Nat.ofDigitChars 10 ds 0 < 10 ^ ds.length := by
  induction ds using List.reverseRecOn with
  | nil => exact Nat.one_pos
  | append_singleton ds d ih =>
    rw [List.all_append, Bool.and_eq_true] at h
    have hd : d.toNat - '0'.toNat < 10 := by
      have hdig := List.all_eq_true.mp h.2 d List.mem_cons_self
      simp only [Char.isDigit, Bool.and_eq_true, decide_eq_true_eq] at hdig
      have h9 : d.toNat ≤ '9'.toNat := hdig.2
      have h9' : '9'.toNat = 57 := rfl
      have h0' : '0'.toNat = 48 := rfl
      omega
    have hlt := ih h.1
    rw [Nat.ofDigitChars_append, Nat.ofDigitChars_cons, Nat.ofDigitChars_nil, List.length_append,
      List.length_singleton, Nat.pow_succ]
    omega

/-- A number is printed no longer than it was written. -/
theorem Numeral.length_decimal_le (h : Numeral t n) (hn : 0 ≤ n) :
    (decimal n).length ≤ t.length := by
  obtain @⟨ws, sg, ds, e, -, hsg, hne, hds⟩ := h
  have hlt := ofDigitChars_lt hds
  generalize Nat.ofDigitChars 10 ds 0 = v at hn hlt ⊢
  have hval : e * (v : Int) = (v : Int) := by
    cases hsg with
    | absent => exact Int.one_mul _
    | plus => exact Int.one_mul _
    | minus => omega
  have hprint : (decimal (v : Int)).length ≤ ds.length :=
    (Nat.length_toDigits_le_iff (by decide) (List.length_pos_iff.mpr hne)).mpr hlt
  rw [hval, List.length_append, List.length_append]
  omega

theorem numeral_decimal (n : Int) : Numeral (decimal n) n := by
  have hall : ∀ m : Nat, (Nat.toDigits 10 m).all Char.isDigit = true := fun m =>
    List.all_eq_true.mpr fun c hc => isDigit_of_mem_toDigits hc
  cases n with
  | ofNat m =>
    have h := Numeral.mk (show [].all isSpace = true from rfl) .absent Nat.toDigits_ne_nil (hall m)
    rw [Nat.ofDigitChars_ten_toDigits, Int.one_mul] at h
    exact h
  | negSucc m =>
    have h := Numeral.mk (show [].all isSpace = true from rfl) .minus Nat.toDigits_ne_nil (hall (m + 1))
    rw [Nat.ofDigitChars_ten_toDigits, ← Int.neg_eq_neg_one_mul] at h
    exact h

end CString
