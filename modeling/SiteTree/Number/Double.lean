/-!
# Doubles and their decimal text

A double is its 64 bits. Decimal text is read by rounding the exact value to the nearest
double, ties to the even one, and written with the fewest digits that read back; of two
such numbers the nearer is written, of two equally near ones the even one. All of it is
arithmetic on natural numbers.
-/

namespace SiteTree

/-- A double-precision number, by its bits. -/
structure Double where
  bits : UInt64
  deriving DecidableEq, Repr

namespace Double

/-- The bits of infinity without a sign. -/
def infiniteBits : Nat := 0x7FF <<< 52

def isNegative (d : Double) : Bool :=
  1 <<< 63 ≤ d.bits.toNat

/-- The bits without the sign. -/
def magnitude (d : Double) : Nat :=
  d.bits.toNat % (1 <<< 63)

def isFinite (d : Double) : Bool :=
  d.magnitude < infiniteBits

/-- Is the number finite and large enough to be written with all of its binary digits? -/
def isNormal (d : Double) : Bool :=
  1 <<< 52 ≤ d.magnitude && d.isFinite

/-- The number with a given sign and magnitude. -/
def ofMagnitude (negative : Bool) (magnitude : Nat) : Double :=
  ⟨UInt64.ofNat ((if negative then 1 <<< 63 else 0) + magnitude)⟩

def nan : Double := ⟨0x7FF8000000000000⟩

/-! ### Reading -/

/-- A power of ten. -/
def tenTo (n : Nat) : Nat :=
  Nat.pow 10 n

/-- The quotient rounded to the nearest number, ties to the even one. -/
def roundDiv (num den : Nat) : Nat :=
  let quotient := num / den
  let rest := num % den
  if 2 * rest < den ∨ (2 * rest = den ∧ quotient % 2 = 0) then quotient else quotient + 1

/-- The exponent of the unit in the last place of a positive quotient: the quotient divided
by that unit has 53 binary digits, or fewer for the least exponent. -/
def unitExponent (num den : Nat) : Int :=
  let guess : Int := (num.log2 : Int) - (den.log2 : Int) - 52
  let fits (e : Int) : Bool :=
    -- the quotient is at least 2 ^ (e + 52)
    if 0 ≤ e + 52 then den <<< (e + 52).toNat ≤ num else den ≤ num <<< (-(e + 52)).toNat
  max (if fits guess then guess else guess - 1) (-1074)

/-- The magnitude of the double nearest to a quotient. -/
def magnitudeOf (num den : Nat) : Nat :=
  if num = 0 then 0
  else
    let e := unitExponent num den
    let digits :=
      if 0 ≤ e then roundDiv num (den <<< e.toNat) else roundDiv (num <<< (-e).toNat) den
    min ((e + 1074).toNat <<< 52 + digits) infiniteBits

/-- The double nearest to `digits * 10 ^ exponent`. Exponents beyond the range of doubles are
cut off first, so that no power gets too large. -/
def ofDecimal (negative : Bool) (digits : Nat) (exponent : Int) : Double :=
  if digits = 0 then ofMagnitude negative 0
  else
    let leading : Int := (Nat.toDigits 10 digits).length + exponent
    if 310 < leading then ofMagnitude negative infiniteBits
    else if leading < -330 then ofMagnitude negative 0
    else if 0 ≤ exponent then
      ofMagnitude negative (magnitudeOf (digits * tenTo exponent.toNat) 1)
    else ofMagnitude negative (magnitudeOf digits (tenTo (-exponent).toNat))

/-- The number of a run of digits. -/
def digitsValue (digits : List Char) : Nat :=
  digits.foldl (fun n c => 10 * n + (c.toNat - '0'.toNat)) 0

/-- The exponent that stands behind a letter, if all that is left is one. -/
def exponentOf? : List Char → Option Int
  | [] => some 0
  | c :: text =>
    if c ≠ 'e' ∧ c ≠ 'E' then none
    else
      let (negative, digits) :=
        match text with
        | '-' :: rest => (true, rest)
        | '+' :: rest => (false, rest)
        | _ => (false, text)
      if digits.isEmpty ∨ !digits.all Char.isDigit then none
      else
        let value : Int := digitsValue digits
        some (if negative then -value else value)

/-- The number that a text writes: digits with a point among them or next to them, and an
exponent, or the name of a number that is not finite. -/
def ofText? (text : String) : Option Double :=
  let (negative, unsigned) :=
    match text.toList with
    | '-' :: rest => (true, rest)
    | '+' :: rest => (false, rest)
    | chars => (false, chars)
  let word := String.ofList (unsigned.map Char.toLower)
  if word = "inf" ∨ word = "infinity" then some (ofMagnitude negative infiniteBits)
  else if word = "nan" then some nan
  else
    let whole := unsigned.takeWhile Char.isDigit
    let behind := unsigned.dropWhile Char.isDigit
    let (fraction, rest) :=
      match behind with
      | '.' :: more => (more.takeWhile Char.isDigit, more.dropWhile Char.isDigit)
      | _ => ([], behind)
    if whole.isEmpty ∧ fraction.isEmpty then none
    else
      (exponentOf? rest).map fun exponent =>
        ofDecimal negative (digitsValue (whole ++ fraction)) (exponent - fraction.length)

/-- The order of two numbers; what is not a number has none. -/
def compare? (a b : Double) : Option Ordering :=
  let isNumber (d : Double) : Bool := d.magnitude ≤ infiniteBits
  let signed (d : Double) : Int := if d.isNegative then -d.magnitude else d.magnitude
  if isNumber a ∧ isNumber b then some (compare (signed a) (signed b)) else none

/-! ### Writing -/

/-- The integer `m` and exponent `q` of a finite number's magnitude `m * 2 ^ q`. -/
def parts (magnitude : Nat) : Nat × Int :=
  let e : Nat := magnitude >>> 52
  let fraction : Nat := magnitude % (1 <<< 52)
  if e = 0 then (fraction, -1074) else ((1 <<< 52) + fraction, (e : Int) - 1075)

/-- A finite number as a multiple of the least positive one. -/
def scaled (d : Double) : Int :=
  let (m, q) := parts d.magnitude
  let multiple : Int := m <<< (q + 1074).toNat
  if d.isNegative then -multiple else multiple

/-- The numbers that read as a positive magnitude: the magnitude and the two ends, as
numerators over one denominator, and whether the ends belong to them. -/
structure Span where
  low : Nat
  value : Nat
  high : Nat
  den : Nat
  closed : Bool

def spanOf (magnitude : Nat) : Span :=
  let (m, q) := parts magnitude
  -- the gap below a power of two is half the gap above it
  let below := if m = 1 <<< 52 ∧ 1 < magnitude >>> 52 then 1 else 2
  let scale (n : Nat) : Nat := if 0 ≤ q then n <<< q.toNat else n
  { low := scale (4 * m - below)
    value := scale (4 * m)
    high := scale (4 * m + 2)
    den := if 0 ≤ q then 4 else 4 <<< (-q).toNat
    closed := m % 2 = 0 }

/-- Does `digits * 10 ^ k` read as the number? -/
def Span.holds (span : Span) (digits : Nat) (k : Int) : Bool :=
  let point := if 0 ≤ k then digits * tenTo k.toNat * span.den else digits * span.den
  let scale (n : Nat) : Nat := if 0 ≤ k then n else n * tenTo (-k).toNat
  if span.closed then scale span.low ≤ point && point ≤ scale span.high
  else scale span.low < point && point < scale span.high

/-- The place of the first decimal digit: the largest `e` with `10 ^ e` at most the value. -/
def Span.leading (span : Span) : Int :=
  let whole := span.value / span.den
  if 0 < whole then (Nat.toDigits 10 whole).length - 1
  else
    let inverse := (span.den + span.value - 1) / span.value
    Int.negOfNat (Nat.toDigits 10 (inverse - 1)).length

/-- The digits at place `k` of the number nearest to the value, when they read back. -/
def Span.digitsAt? (span : Span) (k : Int) : Option Nat :=
  let num := if 0 ≤ k then span.value else span.value * tenTo (-k).toNat
  let den := if 0 ≤ k then span.den * tenTo k.toNat else span.den
  let down := num / den
  let nearest := roundDiv num den
  let other := if nearest = down then down + 1 else down
  if 0 < nearest ∧ span.holds nearest k then some nearest
  else if 0 < other ∧ span.holds other k then some other
  else none

/-- The fewest digits that read back, with the place of the last one, trying `count` places
downwards from `k`. -/
def Span.shortest (span : Span) : Nat → Int → Nat × Int
  | 0, k => (0, k)
  | count + 1, k =>
    match span.digitsAt? k with
    | some digits => (digits, k)
    | none => span.shortest count (k - 1)

/-- The digits without trailing zeros, and the place of the last digit that is left. -/
def dropZeros : Nat → Nat → Int → Nat × Int
  | 0, digits, k => (digits, k)
  | fuel + 1, digits, k =>
    if digits % 10 = 0 ∧ digits ≠ 0 then dropZeros fuel (digits / 10) (k + 1) else (digits, k)

/-- Digits with a point: positional when the first digit stands between the fifth place behind
the point and the sixteenth before it, and otherwise with an exponent that shows its sign. -/
def layoutDigits (digits : List Char) (k : Int) : List Char :=
  let first : Int := digits.length + k - 1
  if 0 ≤ k ∧ first ≤ 15 then digits ++ List.replicate k.toNat '0' ++ ['.', '0']
  else if 0 ≤ first ∧ first ≤ 15 then
    digits.take (first + 1).toNat ++ '.' :: digits.drop (first + 1).toNat
  else if -5 ≤ first ∧ first < 0 then
    '0' :: '.' :: (List.replicate (-first - 1).toNat '0' ++ digits)
  else
    let mantissa := match digits with
      | [d] => [d]
      | d :: more => d :: '.' :: more
      | [] => []
    let sign := if first < 0 then '-' else '+'
    mantissa ++ 'e' :: sign :: Nat.toDigits 10 first.natAbs

/-- The shortest decimal text of a finite number. -/
def text (d : Double) : List Char :=
  let sign := if d.isNegative then ['-'] else []
  if d.magnitude = 0 then sign ++ ['0', '.', '0']
  else
    let span := spanOf d.magnitude
    let (digits, k) := span.shortest 18 span.leading
    let (digits, k) := dropZeros 18 digits k
    sign ++ layoutDigits (Nat.toDigits 10 digits) k

end Double

end SiteTree
