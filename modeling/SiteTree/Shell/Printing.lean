import SiteTree.Command.ByteSet
import SiteTree.Number.Double
import SiteTree.Shell.Script

/-!
# Printing

`echo` writes its arguments, with escapes replaced. `printf` writes them as a format says, which
is used again as long as it takes up arguments and some are left.
-/

namespace SiteTree.Shell

open SiteTree.Command (octal)

/-! ### Escapes -/

/-- The byte that a letter behind a backslash stands for. -/
def escapeByte? (b : UInt8) : Option UInt8 :=
  if b = 0x65 then some 0x1B else Command.escapedByte? b

def isOctal (b : UInt8) : Bool :=
  0x30 ≤ b && b ≤ 0x37

/-- What an escape stands for, given the bytes behind the backslash, and the bytes behind it. A
backslash that escapes nothing stands for itself. -/
def escape : List UInt8 → List UInt8 × List UInt8
  | [] => ([0x5C], [])
  | b :: rest =>
    if isOctal b then
      let (value, rest) := octal 3 0 (b :: rest)
      ([value.toUInt8], rest)
    else if b = 0x22 ∨ b = 0x27 then ([b], rest)
    else
      match escapeByte? b with
      | some b => ([b], rest)
      | none => ([0x5C], b :: rest)

/-- The bytes of a text with its escapes replaced, and whether one of them ends all printing. A
zero in front of octal digits does not count as one of them. -/
def unescape : Nat → List UInt8 → List UInt8 × Bool
  | 0, text => (text, false)
  | _, [] => ([], false)
  | _, 0x5C :: 0x63 :: _ => ([], true)
  | fuel + 1, 0x5C :: 0x30 :: rest =>
    let (value, rest) := octal 3 0 rest
    let (more, stopped) := unescape fuel rest
    (value.toUInt8 :: more, stopped)
  | fuel + 1, 0x5C :: rest =>
    -- quotes keep their backslash here
    let (shown, rest) :=
      match rest with
      | 0x22 :: _ => ([0x5C], rest)
      | 0x27 :: _ => ([0x5C], rest)
      | _ => escape rest
    let (more, stopped) := unescape fuel rest
    (shown ++ more, stopped)
  | fuel + 1, b :: rest =>
    let (more, stopped) := unescape fuel rest
    (b :: more, stopped)

/-- What `echo` writes. -/
def echo (arguments : List String) : List UInt8 :=
  let (newline, arguments) : List UInt8 × List String :=
    match arguments with
    | "-n" :: rest => ([], rest)
    | rest => ([0x0A], rest)
  let text := toBytes (" ".intercalate arguments)
  let (shown, stopped) := unescape text.length text
  if stopped then shown else shown ++ newline

/-! ### Numbers -/

/-- How an argument is to be shown. -/
structure Directive where
  flags : List Char
  width : Nat
  precision : Option Nat

def Directive.has (directive : Directive) (flag : Char) : Bool :=
  directive.flags.contains flag

/-- Text in a field of the width that is asked for. -/
def Directive.pad (directive : Directive) (text : List Char) : List Char :=
  let fill := List.replicate (directive.width - text.length) ' '
  if directive.has '-' then text ++ fill else fill ++ text

/-- A number in its field, given what stands before its digits. -/
def Directive.padNumber (directive : Directive) (zeros : Bool) (start digits : List Char) :
    List Char :=
  if zeros ∧ directive.has '0' ∧ !directive.has '-' then
    start ++ List.replicate (directive.width - start.length - digits.length) '0' ++ digits
  else directive.pad (start ++ digits)

/-- The sign in front of a number. -/
def Directive.sign (directive : Directive) (negative : Bool) : List Char :=
  if negative then ['-']
  else if directive.has '+' then ['+']
  else if directive.has ' ' then [' ']
  else []

/-- At least as many digits as the precision says; for a zero there can be none. -/
def Directive.digits (directive : Directive) (base n : Nat) : List Char :=
  let digits := if n = 0 ∧ directive.precision = some 0 then [] else Nat.toDigits base n
  List.replicate (directive.precision.getD 1 - digits.length) '0' ++ digits

def Directive.integer (directive : Directive) (n : Int) : List Char :=
  directive.padNumber directive.precision.isNone (directive.sign (n < 0))
    (directive.digits 10 n.natAbs)

/-- A number without a sign, as the letter says. -/
def Directive.natural (directive : Directive) (letter : Char) (n : Nat) : List Char :=
  let alternate := directive.has '#'
  match letter with
  | 'o' =>
    let digits := directive.digits 8 n
    let start := if alternate ∧ digits.head? ≠ some '0' then ['0'] else []
    directive.padNumber directive.precision.isNone [] (start ++ digits)
  | 'x' =>
    let start := if alternate ∧ n ≠ 0 then ['0', 'x'] else []
    directive.padNumber directive.precision.isNone start (directive.digits 16 n)
  | 'X' =>
    let start := if alternate ∧ n ≠ 0 then ['0', 'X'] else []
    directive.padNumber directive.precision.isNone start
      ((directive.digits 16 n).map Char.toUpper)
  | _ => directive.padNumber directive.precision.isNone [] (directive.digits 10 n)

/-- The number at the front of a text: its value, and the text behind it. There may be none. -/
def leadingNumber (text : List Char) : Option (Int × List Char) :=
  let isSpace (c : Char) : Bool := c == ' ' || (9 ≤ c.toNat && c.toNat ≤ 13)
  let trimmed := text.dropWhile isSpace
  let (negative, unsigned) :=
    match trimmed with
    | '-' :: rest => (true, rest)
    | '+' :: rest => (false, rest)
    | _ => (false, trimmed)
  let digitValue (c : Char) : Nat :=
    if c.isDigit then c.toNat - 48
    else if c.isLower then c.toNat - 87
    else if c.isUpper then c.toNat - 55
    else 99
  let (base, digits) : Nat × List Char :=
    match unsigned with
    | '0' :: x :: c :: rest =>
      if (x = 'x' ∨ x = 'X') ∧ digitValue c < 16 then (16, c :: rest) else (8, unsigned)
    | '0' :: _ => (8, unsigned)
    | _ => (10, unsigned)
  let isDigit (c : Char) : Bool := digitValue c < base
  if !digits.head?.any isDigit then none
  else
    let value : Int := (digits.takeWhile isDigit).foldl (fun n c => n * base + digitValue c) 0
    some (if negative then -value else value, digits.dropWhile isDigit)

/-- The number that an argument writes, with a warning if it is not wholly one. -/
def numberOf (signed : Bool) (argument : Option String) : Int × Option String :=
  match argument with
  | none => (0, none)
  | some text =>
    match text.toList with
    | '"' :: c :: _ => (c.toNat, none)
    | '\'' :: c :: _ => (c.toNat, none)
    | [] => (0, none)
    | chars =>
      match leadingNumber chars with
      | none => (0, some (text ++ ": expected numeric value"))
      | some (value, behind) =>
        let low : Int := if signed then -(1 <<< 63) else -((1 <<< 64) - 1)
        let high : Int := if signed then (1 <<< 63) - 1 else (1 <<< 64) - 1
        let held :=
          if high < value then high
          else if value < low then (if signed then low else high)
          else value
        let warning :=
          if !behind.isEmpty then some (text ++ ": not completely converted")
          else if held ≠ value then some (text ++ ": Numerical result out of range")
          else none
        (held, warning)

/-! ### Fractions -/

/-- A magnitude as a numerator and a denominator. -/
def ratioOf (d : Double) : Nat × Nat :=
  let (m, q) := Double.parts d.magnitude
  if 0 ≤ q then (m <<< q.toNat, 1) else (m, 1 <<< (-q).toNat)

/-- A point and so many digits behind it, for a number of units of the last of them. -/
def fixedDigits (alternate : Bool) (places n : Nat) : List Char :=
  let digits := Nat.toDigits 10 n
  let digits := List.replicate (places + 1 - digits.length) '0' ++ digits
  let whole := digits.take (digits.length - places)
  let fraction := digits.drop (digits.length - places)
  if places = 0 then (if alternate then whole ++ ['.'] else whole)
  else whole ++ '.' :: fraction

/-- A magnitude with so many digits behind the point. -/
def fixedText (alternate : Bool) (places : Nat) (d : Double) : List Char :=
  let (num, den) := ratioOf d
  fixedDigits alternate places (Double.roundDiv (num * Double.tenTo places) den)

/-- The digits of a magnitude, one before the point and so many behind it, as one number, with
the exponent. -/
def scientific (places : Nat) (d : Double) : Nat × Int :=
  if d.magnitude = 0 then (0, 0)
  else
    let (num, den) := ratioOf d
    let leading := (Double.spanOf d.magnitude).leading
    let shift : Int := places - leading
    let rounded :=
      if 0 ≤ shift then Double.roundDiv (num * Double.tenTo shift.toNat) den
      else Double.roundDiv num (den * Double.tenTo (-shift).toNat)
    if Double.tenTo (places + 1) ≤ rounded then (rounded / 10, leading + 1)
    else (rounded, leading)

def exponentText (e : Int) : List Char :=
  let digits := Nat.toDigits 10 e.natAbs
  'e' :: (if e < 0 then '-' else '+') :: (List.replicate (2 - digits.length) '0' ++ digits)

/-- Digits behind a point without zeros at their end, and without the point if none are left. -/
def dropTrailingZeros (text : List Char) : List Char :=
  if text.contains '.' then
    match text.reverse.dropWhile (· == '0') with
    | '.' :: rest => rest.reverse
    | rest => rest.reverse
  else text

/-- A magnitude as the letter says. -/
def Directive.magnitude (directive : Directive) (letter : Char) (d : Double) : List Char :=
  let alternate := directive.has '#'
  let places := directive.precision.getD 6
  match letter with
  | 'f' => fixedText alternate places d
  | 'e' =>
    let (digits, exponent) := scientific places d
    fixedDigits alternate places digits ++ exponentText exponent
  | _ =>
    let significant := max places 1
    let (digits, exponent) := scientific (significant - 1) d
    let drop := if alternate then id else dropTrailingZeros
    if -4 ≤ exponent ∧ exponent < significant then
      drop (fixedText alternate ((significant : Int) - 1 - exponent).toNat d)
    else drop (fixedDigits alternate (significant - 1) digits) ++ exponentText exponent

def Directive.fraction (directive : Directive) (letter : Char) (d : Double) : List Char :=
  let lower := letter.toLower
  let sign := directive.sign d.isNegative
  let text :=
    if d.isFinite then directive.padNumber true sign (directive.magnitude lower d)
    else
      let name := if d.magnitude = Double.infiniteBits then "inf" else "nan"
      directive.pad (sign ++ name.toList)
  if letter.isUpper then text.map Char.toUpper else text

/-- The fraction that an argument writes, with a warning if it is not wholly one. -/
def fractionOf (argument : Option String) : Double × Option String :=
  let zero := Double.ofMagnitude false 0
  match argument with
  | none => (zero, none)
  | some text =>
    match text.toList with
    | '"' :: c :: _ => (Double.ofDecimal false c.toNat 0, none)
    | '\'' :: c :: _ => (Double.ofDecimal false c.toNat 0, none)
    | [] => (zero, none)
    | chars =>
      let trimmed := chars.dropWhile fun c => c == ' ' || c == '\t' || c == '\n'
      let (negative, unsigned) :=
        match trimmed with
        | '-' :: rest => (true, rest)
        | '+' :: rest => (false, rest)
        | _ => (false, trimmed)
      let lower := unsigned.map Char.toLower
      if lower = "inf".toList ∨ lower = "infinity".toList then
        (Double.ofMagnitude negative Double.infiniteBits, none)
      else if lower = "nan".toList then (Double.nan, none)
      else
        let whole := unsigned.takeWhile Char.isDigit
        let rest := unsigned.dropWhile Char.isDigit
        let (fraction, rest) :=
          match rest with
          | '.' :: more => (more.takeWhile Char.isDigit, more.dropWhile Char.isDigit)
          | _ => ([], rest)
        if whole.isEmpty ∧ fraction.isEmpty then
          (zero, some (text ++ ": expected numeric value"))
        else
          let (exponent, rest) : Int × List Char :=
            match rest with
            | e :: more =>
              if e = 'e' ∨ e = 'E' then
                let (down, digits) :=
                  match more with
                  | '-' :: digits => (true, digits)
                  | '+' :: digits => (false, digits)
                  | digits => (false, digits)
                if digits.head?.any Char.isDigit then
                  let n := (digits.takeWhile Char.isDigit).foldl
                    (fun (n : Nat) c => n * 10 + (c.toNat - 48)) 0
                  (if down then -(n : Int) else n, digits.dropWhile Char.isDigit)
                else (0, rest)
              else (0, rest)
            | [] => (0, rest)
          let value := (whole ++ fraction).foldl (fun n c => n * 10 + (c.toNat - 48)) 0
          let number := Double.ofDecimal negative value (exponent - fraction.length)
          (number, if rest.isEmpty then none else some (text ++ ": not completely converted"))

/-! ### Formats -/

/-- What printing leaves behind. -/
structure Printed where
  output : List UInt8 := []
  warnings : List String := []
  /-- arguments that were not used -/
  arguments : List String := []
  /-- Has an escape ended all printing? -/
  stopped : Bool := false
  /-- a format that is wrong -/
  mistake : Option String := none

def Printed.before (bytes : List UInt8) (printed : Printed) : Printed :=
  { printed with output := bytes ++ printed.output }

def Printed.warning (warning : Option String) (printed : Printed) : Printed :=
  { printed with warnings := warning.toList ++ printed.warnings }

/-- A number in a format, which an argument may give. -/
def formatNumber (text : List Char) (arguments : List String) :
    Option Int × List Char × List String × Option String :=
  match text with
  | '*' :: rest =>
    let (value, warning) := numberOf true arguments.head?
    (some value, rest, arguments.tail, warning)
  | _ =>
    let digits := text.takeWhile Char.isDigit
    let value : Nat := digits.foldl (fun n c => n * 10 + (c.toNat - 48)) 0
    (if digits.isEmpty then none else some value, text.dropWhile Char.isDigit, arguments, none)

def charsToBytes (chars : List Char) : List UInt8 :=
  chars.map fun c => c.toNat.toUInt8

/-- One use of a format. -/
def formatOnce : Nat → List Char → List String → Printed
  | 0, _, arguments => { arguments }
  | _, [], arguments => { arguments }
  | fuel + 1, '\\' :: rest, arguments =>
    let (shown, behind) := escape (charsToBytes rest)
    (formatOnce fuel (rest.drop (rest.length - behind.length)) arguments).before shown
  | fuel + 1, '%' :: '%' :: rest, arguments =>
    (formatOnce fuel rest arguments).before [0x25]
  | fuel + 1, '%' :: rest, arguments =>
    let isFlag (c : Char) : Bool := "#-+ 0".toList.contains c
    let (width, behindWidth, arguments, warning1) :=
      formatNumber (rest.dropWhile isFlag) arguments
    let (precision, behind, arguments, warning2) :=
      match behindWidth with
      | '.' :: more =>
        let (precision, behind, arguments, warning) := formatNumber more arguments
        (some (precision.getD 0), behind, arguments, warning)
      | _ => (none, behindWidth, arguments, none)
    let flags := rest.takeWhile isFlag
    let negative : Bool := width.any (· < 0)
    let directive : Directive :=
      { flags := if negative then '-' :: flags else flags
        width := (width.getD 0).natAbs
        precision := precision.bind fun n => if n < 0 then none else some n.toNat }
    let warn (printed : Printed) : Printed := (printed.warning warning2).warning warning1
    let cut (chars : List Char) : List Char :=
      match directive.precision with
      | some n => chars.take n
      | none => chars
    match behind with
    | [] => warn { arguments, mistake := some "missing format character" }
    | letter :: more =>
      let go (shown : List Char) : Printed :=
        (formatOnce fuel more arguments.tail).before (charsToBytes shown)
      let first := arguments.head?
      let text := (first.getD "").toList
      if letter = 's' then warn (go (directive.pad (cut text)))
      else if letter = 'c' then
        warn (go (directive.pad (if text.isEmpty then ['\x00'] else text.take 1)))
      else if letter = 'b' then
        let bytes := charsToBytes text
        let (shown, stopped) := unescape bytes.length bytes
        let chars := directive.pad (cut (shown.map Char.ofUInt8))
        if stopped then
          warn { output := charsToBytes chars, arguments := arguments.tail, stopped }
        else warn (go chars)
      else if letter = 'd' ∨ letter = 'i' then
        let (value, warning) := numberOf true first
        warn ((go (directive.integer value)).warning warning)
      else if "ouxX".toList.contains letter then
        let (value, warning) := numberOf false first
        warn ((go (directive.natural letter (value % (1 <<< 64)).toNat)).warning warning)
      else if "eEfFgG".toList.contains letter then
        let (value, warning) := fractionOf first
        warn ((go (directive.fraction letter value)).warning warning)
      else
        let shown := rest.take (rest.length - more.length)
        warn { arguments
               mistake := some ("%" ++ String.ofList shown ++ ": invalid directive") }
  | fuel + 1, c :: rest, arguments =>
    (formatOnce fuel rest arguments).before [c.toNat.toUInt8]

/-- Uses a format as long as it takes up arguments and some are left. -/
def formatAll (format : List Char) : Nat → List String → Printed
  | 0, arguments => { arguments }
  | fuel + 1, arguments =>
    let printed := formatOnce (format.length + 1) format arguments
    let left := printed.arguments
    if left.isEmpty ∨ left.length = arguments.length ∨ printed.stopped
        ∨ printed.mistake.isSome then printed
    else
      let more := formatAll format fuel left
      { more with
        output := printed.output ++ more.output
        warnings := printed.warnings ++ more.warnings }

end SiteTree.Shell
