import SiteTree.Toml.Lexeme

/-!
# TOML numbers, dates and times

These are read from the whole run of characters that a number or a date may be made of.
-/

namespace SiteTree.Toml

/-! ### Digits -/

/-- The digits of a run in which single underscores may stand between two digits. -/
def digitRun? (isDigit : Char → Bool) : List Char → Option (List Char)
  | [] => none
  | [c] => if isDigit c then some [c] else none
  | c :: '_' :: rest =>
    if isDigit c then (digitRun? isDigit rest).map (c :: ·) else none
  | c :: rest => if isDigit c then (digitRun? isDigit rest).map (c :: ·) else none

def valueOfDigits (base : Nat) (digits : List Char) : Nat :=
  digits.foldl (fun n c => base * n + (Text.hexValue? c).getD 0) 0

/-- A sign in front, if there is one: whether it is a minus, and the text behind it. -/
def splitSign : List Char → Bool × List Char
  | '-' :: rest => (true, rest)
  | '+' :: rest => (false, rest)
  | text => (false, text)

/-- The digits of a whole number, which has no zero in front of other digits. -/
def wholeDigits? (text : List Char) : Option (List Char) :=
  match digitRun? Char.isDigit text with
  | some ('0' :: _ :: _) => none
  | digits => digits

/-! ### Integers -/

/-- A number that fits into 64 bits. -/
def checkedInteger (value : Int) : Except String Toml :=
  if -0x8000000000000000 ≤ value ∧ value < 0x8000000000000000 then .ok (.integer value)
  else .error "expected an integer of 64 bits"

def inBase (base : Nat) (isDigit : Char → Bool) (text : List Char) : Except String Toml :=
  match digitRun? isDigit text with
  | some digits => checkedInteger (valueOfDigits base digits)
  | none => .error "expected digits"

def isOctal (c : Char) : Bool :=
  '0' ≤ c && c ≤ '7'

def isBinary (c : Char) : Bool :=
  c == '0' || c == '1'

def isHex (c : Char) : Bool :=
  (Text.hexValue? c).isSome

/-! ### Floats -/

/-- Splits at the first character that satisfies `p`, which is dropped. -/
def splitAt? (p : Char → Bool) (text : List Char) : List Char × Option (List Char) :=
  match text.dropWhile fun c => !p c with
  | [] => (text, none)
  | _ :: rest => (text.takeWhile fun c => !p c, some rest)

/-- A number with a fraction or an exponent, or both. -/
def float? (text : List Char) : Option Double := do
  let (negative, text) := splitSign text
  let (mantissa, exponent) := splitAt? (fun c => c == 'e' || c == 'E') text
  let (whole, fraction) := splitAt? (· == '.') mantissa
  if exponent.isNone ∧ fraction.isNone then none
  else
    let whole ← wholeDigits? whole
    let fraction ← match fraction with
      | none => some []
      | some digits => digitRun? Char.isDigit digits
    let exponent ← match exponent with
      | none => some (0 : Int)
      | some text =>
        let (negative, digits) := splitSign text
        (digitRun? Char.isDigit digits).map fun digits =>
          let n : Int := valueOfDigits 10 digits
          if negative then -n else n
    return Double.ofDecimal negative (valueOfDigits 10 (whole ++ fraction))
      (exponent - fraction.length)

/-- Infinity and the value that is no number, with an optional sign. -/
def specialFloat? (text : List Char) : Option Double :=
  let (negative, text) := splitSign text
  if text = "inf".toList then some (Double.ofMagnitude negative Double.infiniteBits)
  else if text = "nan".toList then some Double.nan
  else none

/-! ### Dates and times -/

/-- A number of exactly `count` digits. -/
def fixedDigits? (count : Nat) (text : List Char) : Option (Nat × List Char) :=
  let digits := text.take count
  if digits.length = count ∧ digits.all Char.isDigit then
    some (valueOfDigits 10 digits, text.drop count)
  else none

def daysInMonth (year month : Nat) : Nat :=
  if month = 2 then
    if (year % 4 = 0 ∧ year % 100 ≠ 0) ∨ year % 400 = 0 then 29 else 28
  else if [4, 6, 9, 11].contains month then 30
  else 31

/-- `year-month-day`, answered as it is written. -/
def date? (text : List Char) : Option (List Char × List Char) := do
  match ← fixedDigits? 4 text with
  | (year, '-' :: rest) =>
    match ← fixedDigits? 2 rest with
    | (month, '-' :: rest) =>
      let (day, rest) ← fixedDigits? 2 rest
      if 1 ≤ month ∧ month ≤ 12 ∧ 1 ≤ day ∧ day ≤ daysInMonth year month then
        some (text.take 10, rest)
      else none
    | _ => none
  | _ => none

/-- Digits behind the point of a second: nine at most, without zeros at the end. -/
def fractionText (digits : List Char) : List Char :=
  match ((digits.take 9).reverse.dropWhile (· == '0')).reverse with
  | [] => []
  | digits => '.' :: digits

/-- `hour:minute:second` with an optional fraction. -/
def time? (text : List Char) : Option (List Char × List Char) := do
  match ← fixedDigits? 2 text with
  | (hour, ':' :: rest) =>
    match ← fixedDigits? 2 rest with
    | (minute, ':' :: rest) =>
      let (second, rest) ← fixedDigits? 2 rest
      if hour < 24 ∧ minute < 60 ∧ second ≤ 60 then
        match rest with
        | '.' :: more =>
          match more.takeWhile Char.isDigit with
          | [] => none
          | digits =>
            some (text.take 8 ++ fractionText digits, more.dropWhile Char.isDigit)
        | _ => some (text.take 8, rest)
      else none
    | _ => none
  | _ => none

/-- The distance from universal time; none of it is written with a plus. -/
def offset? : List Char → Option (List Char)
  | [] => some []
  | ['z'] => some ['Z']
  | ['Z'] => some ['Z']
  | sign :: rest => do
    if sign ≠ '+' ∧ sign ≠ '-' then none
    else
      match ← fixedDigits? 2 rest with
      | (hour, ':' :: minutes) =>
        match ← fixedDigits? 2 minutes with
        | (minute, []) =>
          if hour < 24 ∧ minute < 60 then
            some ((if hour = 0 ∧ minute = 0 then '+' else sign) :: rest)
          else none
        | _ => none
      | _ => none

/-- A date, a time, or both with an optional offset, in the form that is kept. -/
def datetime? (text : List Char) : Option (List Char) :=
  match date? text with
  | some (date, []) => some date
  | some (date, separator :: rest) => do
    if separator = 'T' ∨ separator = 't' ∨ separator = ' ' then
      let (time, rest) ← time? rest
      let offset ← offset? rest
      return date ++ 'T' :: (time ++ offset)
    else none
  | none => do
    match ← time? text with
    | (time, []) => some time
    | _ => none

/-! ### Scalars -/

/-- The characters that numbers, dates and booleans are made of. -/
def isScalarChar (c : Char) : Bool :=
  c.isAlphanum || c == '+' || c == '-' || c == '_' || c == '.' || c == ':'

/-- The value that a run of such characters writes. -/
def scalar (text : List Char) : Except String Toml :=
  match text with
  | [] => .error "expected a value"
  | '0' :: 'x' :: digits => inBase 16 isHex digits
  | '0' :: 'o' :: digits => inBase 8 isOctal digits
  | '0' :: 'b' :: digits => inBase 2 isBinary digits
  | _ =>
    if text = "true".toList then .ok (.boolean true)
    else if text = "false".toList then .ok (.boolean false)
    else
      match datetime? text, specialFloat? text, wholeDigits? (splitSign text).2 with
      | some written, _, _ => .ok (.datetime (String.ofList written))
      | _, some value, _ => .ok (.float value)
      | _, _, some digits =>
        let n : Int := valueOfDigits 10 digits
        checkedInteger (if (splitSign text).1 then -n else n)
      | _, _, none =>
        match float? text with
        | some value =>
          if value = Double.ofMagnitude false Double.infiniteBits then
            .error "expected a finite number"
          else .ok (.float value)
        | none => .error "expected a value"

/-- A number, date or boolean. A date and a time may have one space between them. -/
def scalarRead : Reader Toml := fun text =>
  let run := text.takeWhile isScalarChar
  let rest := text.dropWhile isScalarChar
  match (date? run).map Prod.snd, rest with
  | some [], ' ' :: c :: more =>
    if c.isDigit then do
      let time := (c :: more).takeWhile isScalarChar
      return (← scalar (run ++ ' ' :: time), (c :: more).dropWhile isScalarChar)
    else return (← scalar run, rest)
  | _, _ => do return (← scalar run, rest)

end SiteTree.Toml
