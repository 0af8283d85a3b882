import SklaffKom.Lib.CString

/-!
# Base64

The encoding of a byte string in groups of three bytes, the last one padded.
-/

open CString

namespace Base64

/-- The digit of a value below 64. -/
def digit (n : Nat) : Char :=
  if n < 26 then Char.ofNat (n + 'A'.toNat)
  else if n < 52 then Char.ofNat (n - 26 + 'a'.toNat)
  else if n < 62 then Char.ofNat (n - 52 + '0'.toNat)
  else if n = 62 then '+'
  else '/'

def encode : CString → CString
  | a :: b :: c :: s =>
    digit (a.toNat / 4) :: digit (a.toNat % 4 * 16 + b.toNat / 16) ::
      digit (b.toNat % 16 * 4 + c.toNat / 64) :: digit (c.toNat % 64) :: encode s
  | [a, b] =>
    [digit (a.toNat / 4), digit (a.toNat % 4 * 16 + b.toNat / 16), digit (b.toNat % 16 * 4), '=']
  | [a] => [digit (a.toNat / 4), digit (a.toNat % 4 * 16), '=', '=']
  | [] => []

end Base64
