import SklaffKom.Lib.Base64
import SklaffKom.MailBody
import SklaffKom.Rfc2047

/-!
# The base64 decoders

`decode_base64` shifts one `int` along the whole input, `mail_base64_decode_dup` collects four values at
a time and `b64_decode_bytes` steps over four bytes.  All of them undo the encoder.
-/

open CString Base64

namespace SklaffKom

/-- The bytes that the decoders for bodies do not skip. -/
def isBase64 (c : Char) : Bool := (b64val c).isSome || c = '='

/-- The encoding with any other bytes but NUL inserted. -/
structure Interspersed (encoded text : CString) : Prop where
  noNul : '\x00' ∉ text
  digits : text.filter isBase64 = encoded

/-! ## Digits -/

variable {d : Nat}

theorem b64val_digit (h : d < 64) : b64val (digit d) = some d := by
  have hall : ∀ d < 64, b64val (digit d) = some d := by decide +kernel
  exact hall d h

theorem digit_ne (h : d < 64) {c : Char} (hc : b64val c = none) : digit d ≠ c := by
  intro heq
  rw [← heq, b64val_digit h] at hc
  cases hc

theorem isSome_b64val_digit (h : d < 64) : (b64val (digit d)).isSome := by
  rw [b64val_digit h]
  rfl

theorem mailB64Vals_digit (h : d < 64) (s : CString) :
    mailB64Vals (digit d :: s) = some d :: mailB64Vals s := by
  rw [mailB64Vals_cons (isSome_b64val_digit h), b64val_digit h]

/-- One step of `decode_base64`. -/
theorem decodeBase64Loop_digit (h : d < 64) (val : Nat) (valb : Int) (s : CString) :
    decodeBase64Loop val valb (digit d :: s) =
      if 0 ≤ valb + 6 then
        Char.ofNat ((val * 64 + d) % 4294967296 / 2 ^ (valb + 6).toNat % 256) ::
          decodeBase64Loop ((val * 64 + d) % 4294967296) (valb + 6 - 8) s
      else decodeBase64Loop ((val * 64 + d) % 4294967296) (valb + 6) s := by
  rw [decodeBase64Loop, if_neg (digit_ne h (by decide)), b64val_digit h]
  show (if 0 ≤ valb + 6 then _ else _) = _
  rw [shiftLeft_or (k := 6) h, Nat.shiftRight_eq_div_pow]
  rfl

/-- The first digit of a group completes no byte. -/
theorem decodeBase64Loop_first (h : d < 64) (val : Nat) (s : CString) :
    decodeBase64Loop val (-8) (digit d :: s) =
      decodeBase64Loop ((val * 64 + d) % 4294967296) (-2) s :=
  decodeBase64Loop_digit h val (-8) s

theorem decodeBase64Loop_second (h : d < 64) (val : Nat) (s : CString) :
    decodeBase64Loop val (-2) (digit d :: s) = Char.ofNat ((val * 64 + d) % 4294967296 / 16 % 256) ::
      decodeBase64Loop ((val * 64 + d) % 4294967296) (-4) s :=
  decodeBase64Loop_digit h val (-2) s

theorem decodeBase64Loop_third (h : d < 64) (val : Nat) (s : CString) :
    decodeBase64Loop val (-4) (digit d :: s) = Char.ofNat ((val * 64 + d) % 4294967296 / 4 % 256) ::
      decodeBase64Loop ((val * 64 + d) % 4294967296) (-6) s :=
  decodeBase64Loop_digit h val (-4) s

theorem decodeBase64Loop_fourth (h : d < 64) (val : Nat) (s : CString) :
    decodeBase64Loop val (-6) (digit d :: s) = Char.ofNat ((val * 64 + d) % 4294967296 % 256) ::
      decodeBase64Loop ((val * 64 + d) % 4294967296) (-8) s := by
  have h1 := decodeBase64Loop_digit h val (-6) s
  rwa [if_pos (by decide), show ((-6 : Int) + 6).toNat = 0 from rfl, pow_zero, Nat.div_one] at h1

theorem decodeBase64Loop_pad (val : Nat) (valb : Int) (s : CString) :
    decodeBase64Loop val valb ('=' :: s) = [] := by
  rw [decodeBase64Loop, if_pos rfl]

/-! ## The encoded string -/

theorem ofNat_eq {n : Nat} {c : Char} (h : n = c.toNat) : Char.ofNat n = c := by
  rw [h, Char.ofNat_toNat]

/-- What stands in the accumulator before a group does not come out with it. -/
theorem decodeBase64Loop_encode {s : CString} (h : ∀ c ∈ s, c.toNat < 256) (val : Nat) :
    decodeBase64Loop val (-8) (encode s) = s := by
  induction s using encode.induct generalizing val with
  | case1 a b c s ih =>
    obtain ⟨ha, hb, hc, hs⟩ :
        a.toNat < 256 ∧ b.toNat < 256 ∧ c.toNat < 256 ∧ ∀ c ∈ s, c.toNat < 256 := by simpa using h
    rw [encode, decodeBase64Loop_first (by omega), decodeBase64Loop_second (by omega),
      decodeBase64Loop_third (by omega), decodeBase64Loop_fourth (by omega), ih hs]
    refine congrArg₂ List.cons (ofNat_eq ?_) (congrArg₂ List.cons (ofNat_eq ?_)
      (congrArg₂ List.cons (ofNat_eq ?_) rfl))
    · omega
    · omega
    · omega
  | case2 a b =>
    obtain ⟨ha, hb⟩ : a.toNat < 256 ∧ b.toNat < 256 := by simpa using h
    rw [encode, decodeBase64Loop_first (by omega), decodeBase64Loop_second (by omega),
      decodeBase64Loop_third (by omega), decodeBase64Loop_pad]
    refine congrArg₂ List.cons (ofNat_eq ?_) (congrArg₂ List.cons (ofNat_eq ?_) rfl)
    · omega
    · omega
  | case3 a =>
    have ha : a.toNat < 256 := by simpa using h
    rw [encode, decodeBase64Loop_first (by omega), decodeBase64Loop_second (by omega),
      decodeBase64Loop_pad]
    refine congrArg₂ List.cons (ofNat_eq ?_) rfl
    omega
  | case4 => rfl

theorem base64Text_encode {s : CString} (h : ∀ c ∈ s, c.toNat < 256) : Base64Text (encode s) := by
  induction s using encode.induct with
  | case1 a b c s ih =>
    obtain ⟨ha, hb, hc, hs⟩ :
        a.toNat < 256 ∧ b.toNat < 256 ∧ c.toNat < 256 ∧ ∀ c ∈ s, c.toNat < 256 := by simpa using h
    exact .group (isSome_b64val_digit (by omega)) (isSome_b64val_digit (by omega))
      (isSome_b64val_digit (by omega)) (isSome_b64val_digit (by omega)) (ih hs)
  | case2 a b =>
    obtain ⟨ha, hb⟩ : a.toNat < 256 ∧ b.toNat < 256 := by simpa using h
    exact .two (isSome_b64val_digit (by omega)) (isSome_b64val_digit (by omega))
      (isSome_b64val_digit (by omega))
  | case3 a =>
    have ha : a.toNat < 256 := by simpa using h
    exact .one (isSome_b64val_digit (by omega)) (isSome_b64val_digit (by omega))
  | case4 => exact .nil

variable {v₁ v₂ v₃ v₄ : Nat}

/-- The first byte of a group of `mail_base64_decode_dup`. -/
theorem mailB64_first (h : v₂ < 64) : (v₁ <<< 2) ||| (v₂ >>> 4) = v₁ * 4 + v₂ / 16 := by
  rw [Nat.shiftRight_eq_div_pow, shiftLeft_or (by omega)]
  rfl

theorem mailB64_second (h : v₃ < 64) :
    (low4 (some v₂) <<< 4) ||| (v₃ >>> 2) = v₂ % 16 * 16 + v₃ / 4 := by
  rw [Nat.shiftRight_eq_div_pow, shiftLeft_or (by omega)]
  rfl

theorem mailB64_third (h : v₄ < 64) : (low2 (some v₃) <<< 6) ||| v₄ = v₃ % 4 * 64 + v₄ := by
  rw [shiftLeft_or (by omega)]
  rfl

theorem mailBase64Decode_encode {s : CString} (h : ∀ c ∈ s, c.toNat < 256) :
    mailBase64Decode (encode s) = s := by
  unfold mailBase64Decode
  induction s using encode.induct with
  | case1 a b c s ih =>
    obtain ⟨ha, hb, hc, hs⟩ :
        a.toNat < 256 ∧ b.toNat < 256 ∧ c.toNat < 256 ∧ ∀ c ∈ s, c.toNat < 256 := by simpa using h
    rw [encode, mailB64Vals_digit (by omega), mailB64Vals_digit (by omega),
      mailB64Vals_digit (by omega), mailB64Vals_digit (by omega), mailB64Group, ih hs]
    show [Char.ofNat _] ++ [Char.ofNat _] ++ [Char.ofNat _] ++ s = _
    rw [mailB64_first (by omega), mailB64_second (by omega), mailB64_third (by omega)]
    refine congrArg₂ List.cons (ofNat_eq ?_) (congrArg₂ List.cons (ofNat_eq ?_)
      (congrArg₂ List.cons (ofNat_eq ?_) rfl))
    · omega
    · omega
    · omega
  | case2 a b =>
    obtain ⟨ha, hb⟩ : a.toNat < 256 ∧ b.toNat < 256 := by simpa using h
    rw [encode, mailB64Vals_digit (by omega), mailB64Vals_digit (by omega),
      mailB64Vals_digit (by omega), mailB64Vals_pad, mailB64Group]
    show [Char.ofNat _] ++ [Char.ofNat _] = _
    rw [mailB64_first (by omega), mailB64_second (by omega)]
    refine congrArg₂ List.cons (ofNat_eq ?_) (congrArg₂ List.cons (ofNat_eq ?_) rfl)
    · omega
    · omega
  | case3 a =>
    have ha : a.toNat < 256 := by simpa using h
    rw [encode, mailB64Vals_digit (by omega), mailB64Vals_digit (by omega), mailB64Vals_pad,
      mailB64Vals_pad, mailB64Group]
    show [Char.ofNat _] = _
    rw [mailB64_first (by omega)]
    refine congrArg₂ List.cons (ofNat_eq ?_) rfl
    omega
  | case4 => rfl

/-! ## What is skipped -/

theorem decodeBase64Loop_filter (val : Nat) (valb : Int) (text : CString) :
    decodeBase64Loop val valb (text.filter isBase64) = decodeBase64Loop val valb text := by
  induction text generalizing val valb with
  | nil => rfl
  | cons c text ih =>
    cases hc : isBase64 c with
    | true =>
      rw [List.filter_cons_of_pos hc, decodeBase64Loop, decodeBase64Loop]
      simp only [ih]
    | false =>
      obtain ⟨hval, hpad⟩ : b64val c = none ∧ c ≠ '=' := by simpa [isBase64] using hc
      have hskip : ¬ isBase64 c = true := by rw [hc]; decide
      rw [List.filter_cons_of_neg hskip, ih, decodeBase64Loop, if_neg hpad, hval]

theorem mailB64Vals_filter (text : CString) :
    mailB64Vals (text.filter isBase64) = mailB64Vals text := by
  unfold mailB64Vals
  rw [List.filterMap_filter]
  apply List.filterMap_congr
  intro c _
  cases hc : isBase64 c with
  | true => rfl
  | false =>
    obtain ⟨hval, hpad⟩ : b64val c = none ∧ c ≠ '=' := by simpa [isBase64] using hc
    rw [if_neg hpad, hval]
    rfl

/-- The three decoders give back the string that was encoded; those for bodies do so behind any
accumulator and with other bytes in between. -/
theorem base64_roundtrip (s : CString) (h : ∀ c ∈ s, c.toNat < 256) :
    (decodeBase64 (encode s) = s ∧ mailBase64Decode (encode s) = s ∧
      ∀ outlen, s.length ≤ outlen → b64DecodeBytes (encode s) outlen = s) ∧
    ∀ text, Interspersed (encode s) text →
      decodeBase64 text = s ∧ mailBase64Decode text = s ∧
      ∀ val, decodeBase64Loop val (-8) text = s := by
  have hbytes : b64Bytes (encode s) = s :=
    (b64Bytes_eq (base64Text_encode h)).trans (mailBase64Decode_encode h)
  refine ⟨⟨decodeBase64Loop_encode h 0, mailBase64Decode_encode h, fun outlen hlen => ?_⟩,
    fun text htext => ?_⟩
  · rw [b64DecodeBytes, hbytes, List.take_of_length_le hlen]
  · have hloop : ∀ val, decodeBase64Loop val (-8) text = s := fun val => by
      rw [← decodeBase64Loop_filter, htext.digits, decodeBase64Loop_encode h]
    have hmail : mailBase64Decode text = s := by
      rw [mailBase64Decode, ← mailB64Vals_filter, htext.digits]
      exact mailBase64Decode_encode h
    exact ⟨hloop 0, hmail, hloop⟩

theorem base64_roundtrip_hej :
    (decodeBase64 "SGVqIQ==".toList = "Hej!".toList ∧
      mailBase64Decode "SGVqIQ==".toList = "Hej!".toList ∧
      ∀ outlen, 4 ≤ outlen → b64DecodeBytes "SGVqIQ==".toList outlen = "Hej!".toList) ∧
    decodeBase64 "SGVq\r\nIQ==\n".toList = "Hej!".toList := by
  have hcode : encode "Hej!".toList = "SGVqIQ==".toList := by decide +kernel
  have hall : "Hej!".toList.all (fun c => c.toNat < 256) = true := by decide +kernel
  have h := base64_roundtrip "Hej!".toList fun c hc =>
    of_decide_eq_true (List.all_eq_true.mp hall c hc)
  rw [hcode] at h
  exact ⟨h.1, (h.2 "SGVq\r\nIQ==\n".toList ⟨by decide +kernel, by decide +kernel⟩).1⟩

end SklaffKom
