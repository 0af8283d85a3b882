import SklaffKom.MailBody

/-!
# Quoted-printable bodies

`mailbody.c` and `mailparse.c` each have a decoder.  `decode_qp` looks at an equals sign only when two
more bytes follow it, `mail_qp_decode_dup` looks as far as the terminator.
-/

open CString

namespace SklaffKom

/-- The text is a quoted-printable encoding of the bytes. -/
inductive QpEncodes : CString → CString → Prop
  | nil : QpEncodes [] []
  | literal {c : Char} {x e : CString} (hc : c ≠ '=') (h : QpEncodes x e) : QpEncodes (c :: x) (c :: e)
  | escape {a b : Char} {hi lo : Nat} {x e : CString} (ha : hexval a = some hi) (hb : hexval b = some lo)
      (h : QpEncodes x e) : QpEncodes (Char.ofNat (16 * hi + lo) :: x) ('=' :: a :: b :: e)
  | softLf {x e : CString} (h : QpEncodes x e) : QpEncodes x ('=' :: '\n' :: e)
  | softCrLf {x e : CString} (h : QpEncodes x e) : QpEncodes x ('=' :: '\r' :: '\n' :: e)

/-- What is expected of the decoders for a text: they give the same bytes, and those it encodes. -/
structure QpDecoded (s : CString) : Prop where
  agree : decodeQp s = mailQpDecode s
  undo : ∀ x, QpEncodes x s → decodeQp s = x ∧ mailQpDecode s = x

/-! ## Steps of the decoders -/

variable {a b c : Char} {hi lo : Nat} {s x e : CString}

theorem hexval_lt (h : hexval c = some lo) : lo < 16 := by
  unfold hexval at h
  split at h
  next hc =>
    obtain rfl := Option.some.inj h
    have hle : c.toNat ≤ '9'.toNat := hc.2
    show c.toNat - '0'.toNat < 16
    have hnine : '9'.toNat = '0'.toNat + 9 := rfl
    omega
  split at h
  next hc =>
    obtain rfl := Option.some.inj h
    have hle : c.toNat ≤ 'F'.toNat := hc.2
    have hf : 'F'.toNat = 'A'.toNat + 5 := rfl
    omega
  split at h
  next hc =>
    obtain rfl := Option.some.inj h
    have hle : c.toNat ≤ 'f'.toNat := hc.2
    have hf : 'f'.toNat = 'a'.toNat + 5 := rfl
    omega
  next => cases h

theorem hexval_ne {d : Char} (h : hexval c = some lo) (hd : hexval d = none) : c ≠ d := by
  intro heq
  rw [heq, hd] at h
  cases h

theorem decodeQp_cons (hc : c ≠ '=') (s : CString) : decodeQp (c :: s) = c :: decodeQp s := by
  rw [decodeQp]
  intro a b r h
  exact absurd h hc

theorem decodeQp_single (c : Char) : decodeQp [c] = [c] := by
  rw [decodeQp, decodeQp]
  intro a b r _ h
  cases h

theorem mailQpDecode_cons (hc : c ≠ '=') (s : CString) :
    mailQpDecode (c :: s) = c :: mailQpDecode s := by
  rw [mailQpDecode]
  · intro a b r h
    exact absurd h hc
  · intro a h
    exact absurd h hc

theorem mailQpDecode_escape (ha : hexval a = some hi) (hb : hexval b = some lo) (s : CString) :
    mailQpDecode ('=' :: a :: b :: s) = Char.ofNat (16 * hi + lo) :: mailQpDecode s := by
  have hcr : ¬ (a = '\r' ∧ b = '\n') := fun h => hexval_ne ha (by decide) h.1
  have hlf : a ≠ '\n' := hexval_ne ha (by decide)
  rw [mailQpDecode, if_neg hcr, if_neg hlf, ha, hb]
  show Char.ofNat ((hi <<< 4) ||| lo) :: _ = _
  rw [shiftLeft_or (k := 4) (hexval_lt hb), Nat.mul_comm]
  rfl

theorem mailQpDecode_softLf (s : CString) : mailQpDecode ('=' :: '\n' :: s) = mailQpDecode s := by
  cases s with
  | nil => rfl
  | cons b s =>
    rw [mailQpDecode, if_neg (by simp), if_pos rfl]

theorem mailQpDecode_softCrLf (s : CString) :
    mailQpDecode ('=' :: '\r' :: '\n' :: s) = mailQpDecode s := by
  rw [mailQpDecode, if_pos ⟨rfl, rfl⟩]

/-! ## The law -/

/-- `mail_qp_decode_dup` undoes every encoding. -/
theorem QpEncodes.decode (h : QpEncodes x e) : mailQpDecode e = x := by
  induction h with
  | nil => rfl
  | literal hc _ ih => rw [mailQpDecode_cons hc, ih]
  | escape ha hb _ ih => rw [mailQpDecode_escape ha hb, ih]
  | softLf _ ih => rw [mailQpDecode_softLf, ih]
  | softCrLf _ ih => rw [mailQpDecode_softCrLf, ih]

/-- A soft line break in front of the terminator, which `decode_qp` does not recognise. -/
def softEnd : CString := "=\n".toList

theorem softEnd_suffix_cons (h : c :: s ≠ softEnd) : softEnd <:+ c :: s ↔ softEnd <:+ s := by
  rw [List.suffix_cons_iff]
  exact or_iff_right fun heq => h heq.symm

theorem softEnd_suffix_cons_ne (h : c ≠ '=') (s : CString) : softEnd <:+ c :: s ↔ softEnd <:+ s :=
  softEnd_suffix_cons fun heq => h (List.cons.inj heq).1

/-- What `decode_qp` leaves at the end, and nothing else, is its difference. -/
theorem decodeQp_eq (s : CString) :
    decodeQp s = mailQpDecode s ++ if softEnd <:+ s then softEnd else [] := by
  induction hn : s.length using Nat.strong_induction_on generalizing s with
  | _ n ih =>
    subst hn
    match s with
    | [] => rfl
    | [c] =>
      have hshort : ¬ softEnd <:+ [c] := fun h => Nat.not_succ_le_self 1 h.length_le
      rw [if_neg hshort, List.append_nil, decodeQp_single]
      by_cases hc : c = '='
      · rw [hc]
        rfl
      · rw [mailQpDecode_cons hc]
        rfl
    | [c, a] =>
      by_cases hc : c = '='
      · subst hc
        by_cases ha : a = '\n'
        · rw [ha]
          rfl
        · have hend : ¬ softEnd <:+ ['=', a] := fun h =>
            ha (List.cons.inj (List.cons.inj (h.eq_of_length rfl)).2).1.symm
          rw [if_neg hend, List.append_nil, mailQpDecode, if_neg ha, decodeQp, decodeQp_single]
          intro x y r _ h
          cases h
      · have hrest := ih _ (by simp) [a] rfl
        rw [decodeQp_cons hc, mailQpDecode_cons hc, hrest, List.cons_append]
        simp only [softEnd_suffix_cons_ne hc]
    | c :: a :: b :: r =>
      have hrest := ih _ (by simp) (a :: b :: r) rfl
      by_cases hc : c = '='
      · subst hc
        have hthree : '=' :: a :: b :: r ≠ softEnd := by
          intro h
          simp [softEnd] at h
        simp only [softEnd_suffix_cons hthree]
        rw [decodeQp, mailQpDecode]
        split
        next hcr =>
          -- `=` CR LF
          rw [ih _ (by simp; omega) r rfl]
          simp only [softEnd_suffix_cons_ne (show a ≠ '=' by rw [hcr.1]; decide),
            softEnd_suffix_cons_ne (show b ≠ '=' by rw [hcr.2]; decide)]
        split
        next hlf =>
          rw [ih _ (by simp) (b :: r) rfl]
          simp only [softEnd_suffix_cons_ne (show a ≠ '=' by rw [hlf]; decide)]
        cases ha : hexval a with
        | none =>
          show '=' :: decodeQp (a :: b :: r) = ('=' :: mailQpDecode (a :: b :: r)) ++ _
          rw [hrest, List.cons_append]
        | some hi =>
          cases hb : hexval b with
          | none =>
            show '=' :: decodeQp (a :: b :: r) = ('=' :: mailQpDecode (a :: b :: r)) ++ _
            rw [hrest, List.cons_append]
          | some lo =>
            -- `=XX`
            show Char.ofNat _ :: decodeQp r = (Char.ofNat _ :: mailQpDecode r) ++ _
            rw [ih _ (by simp; omega) r rfl, List.cons_append]
            simp only [softEnd_suffix_cons_ne (hexval_ne ha (d := '=') (by decide)),
              softEnd_suffix_cons_ne (hexval_ne hb (d := '=') (by decide))]
      · rw [decodeQp_cons hc, mailQpDecode_cons hc, hrest, List.cons_append]
        simp only [softEnd_suffix_cons_ne hc]

/-- The decoders do what is expected of them exactly on the texts that do not end in a soft line break
`=` LF. -/
theorem qpDecoded_iff (s : CString) : QpDecoded s ↔ ¬ softEnd <:+ s := by
  constructor
  · intro h hend
    have heq := decodeQp_eq s
    rw [if_pos hend, h.agree] at heq
    exact absurd (List.append_right_eq_self.mp heq.symm) (by decide)
  · intro hend
    have heq : decodeQp s = mailQpDecode s := by rw [decodeQp_eq, if_neg hend, List.append_nil]
    exact ⟨heq, fun x hx => ⟨heq.trans hx.decode, hx.decode⟩⟩

theorem qpDecoded_softEnd : ¬ QpDecoded "Hej=\n".toList := by
  intro h
  have heq : decodeQp "Hej=\n".toList = mailQpDecode "Hej=\n".toList := h.agree
  exact absurd heq (by decide +kernel)

end SklaffKom
