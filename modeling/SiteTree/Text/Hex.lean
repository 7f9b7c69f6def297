/-!
# Hexadecimal text

Bytes as pairs of lower-case hexadecimal digits.

* `length_encodeHex` — two digits a byte.
-/

namespace SiteTree.Text

/-- The lower-case hexadecimal digit of a number below sixteen. -/
def hexDigit (n : Nat) : Char :=
  if n < 10 then Char.ofNat ('0'.toNat + n) else Char.ofNat ('a'.toNat + (n - 10))

def encodeHex (bytes : List UInt8) : List Char :=
  bytes.flatMap fun b => [hexDigit (b.toNat / 16), hexDigit (b.toNat % 16)]

theorem length_encodeHex (bytes : List UInt8) :
    (encodeHex bytes).length = 2 * bytes.length := by
  induction bytes with
  | nil => rfl
  | cons b bytes ih =>
    simp only [encodeHex, List.flatMap_cons, List.length_append, List.length_cons,
      List.length_nil] at ih ⊢
    omega

/-- The value of a hexadecimal digit in either case. -/
def hexValue? (c : Char) : Option Nat :=
  if c.isDigit then some (c.toNat - '0'.toNat)
  else if 'a' ≤ c ∧ c ≤ 'f' then some (c.toNat - 'a'.toNat + 10)
  else if 'A' ≤ c ∧ c ≤ 'F' then some (c.toNat - 'A'.toNat + 10)
  else none

/-- The bytes written as pairs of hexadecimal digits; `none` for any other text. -/
def decodeHex? : List Char → Option (List UInt8)
  | [] => some []
  | high :: low :: rest => do
    let h ← hexValue? high
    let l ← hexValue? low
    let more ← decodeHex? rest
    return UInt8.ofNat (16 * h + l) :: more
  | [_] => none

end SiteTree.Text
