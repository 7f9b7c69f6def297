import SiteTree.Json.Basic
import SiteTree.Text.Hex

/-!
# Reading JSON text

A reader takes a value off the front of a text and answers it together with the rest.
A number without point and exponent that fits in 64 bits, signed or not, is an integer; any
other number is the nearest double, if that is finite. No number begins with a needless zero. Of two fields with one name the last one counts.
-/

namespace SiteTree.Json

def isSpace (c : Char) : Bool :=
  c == ' ' || c == '\t' || c == '\n' || c == '\r'

def skipSpace (text : List Char) : List Char :=
  text.dropWhile isSpace

/-! ### Strings -/

/-- Four hexadecimal digits as a number. -/
def hex4? : List Char → Option (Nat × List Char)
  | a :: b :: c :: d :: rest => do
    let a ← Text.hexValue? a
    let b ← Text.hexValue? b
    let c ← Text.hexValue? c
    let d ← Text.hexValue? d
    return (((a * 16 + b) * 16 + c) * 16 + d, rest)
  | _ => none

/-- The character behind `\u`: one unit, or a high surrogate and the low one escaped next. -/
def unicodeEscape? (text : List Char) : Option (Char × List Char) := do
  let (unit, rest) ← hex4? text
  if 0xD800 ≤ unit ∧ unit ≤ 0xDBFF then
    match rest with
    | '\\' :: 'u' :: rest =>
      let (low, rest) ← hex4? rest
      if 0xDC00 ≤ low ∧ low ≤ 0xDFFF then
        return (Char.ofNat (0x10000 + (unit - 0xD800) * 0x400 + (low - 0xDC00)), rest)
      else none
    | _ => none
  else if 0xDC00 ≤ unit ∧ unit ≤ 0xDFFF then none
  else return (Char.ofNat unit, rest)

/-- The character that a letter behind a backslash stands for. -/
def simpleEscape? : Char → Option Char
  | '"' => some '"'
  | '\\' => some '\\'
  | '/' => some '/'
  | 'b' => some '\x08'
  | 'f' => some '\x0c'
  | 'n' => some '\n'
  | 'r' => some '\r'
  | 't' => some '\t'
  | _ => none

/-- The characters of a string whose opening quote has been read, last one first. -/
def stringRest? : Nat → List Char → List Char → Option (List Char × List Char)
  | 0, _, _ => none
  | fuel + 1, read, text =>
    match text with
    | '"' :: rest => some (read, rest)
    | '\\' :: 'u' :: rest => do
      let (c, rest) ← unicodeEscape? rest
      stringRest? fuel (c :: read) rest
    | '\\' :: e :: rest => do
      let c ← simpleEscape? e
      stringRest? fuel (c :: read) rest
    | c :: rest => if c.toNat < 0x20 then none else stringRest? fuel (c :: read) rest
    | [] => none

def string? (text : List Char) : Option (String × List Char) :=
  (stringRest? (text.length + 1) [] text).map fun (read, rest) =>
    (String.ofList read.reverse, rest)

/-! ### Numbers -/

/-- A number as it is written. -/
structure Numeral where
  negative : Bool
  whole : List Char
  fraction : Option (List Char)
  exponent : Option Int

def exponent? : List Char → Option Int × List Char
  | e :: rest =>
    if e = 'e' ∨ e = 'E' then
      let (negative, rest') := match rest with
        | '-' :: rest => (true, rest)
        | '+' :: rest => (false, rest)
        | _ => (false, rest)
      match rest'.takeWhile Char.isDigit with
      | [] => (none, e :: rest)
      | digits =>
        let n : Int := Double.digitsValue digits
        (some (if negative then -n else n), rest'.dropWhile Char.isDigit)
    else (none, e :: rest)
  | [] => (none, [])

def numeral? (text : List Char) : Option (Numeral × List Char) :=
  let (negative, rest) := match text with
    | '-' :: rest => (true, rest)
    | _ => (false, text)
  match rest.takeWhile Char.isDigit, rest.dropWhile Char.isDigit with
  | [], _ => none
  | '0' :: _ :: _, _ => none
  | whole, rest =>
    let (fraction, rest) := match rest with
      | '.' :: more =>
        match more.takeWhile Char.isDigit with
        | [] => (none, rest)
        | digits => (some digits, more.dropWhile Char.isDigit)
      | _ => (none, rest)
    let (exponent, rest) := exponent? rest
    some (⟨negative, whole, fraction, exponent⟩, rest)

/-- The value of a number. -/
def Numeral.value (n : Numeral) : Json :=
  let fraction := n.fraction.getD []
  let magnitude := Double.digitsValue n.whole
  let signed : Int := if n.negative then -magnitude else magnitude
  let double := Double.ofDecimal n.negative (Double.digitsValue (n.whole ++ fraction))
    (n.exponent.getD 0 - fraction.length)
  if n.fraction.isSome ∨ n.exponent.isSome then .double double
  else if n.negative ∧ magnitude = 0 then .double double
  else if -0x8000000000000000 ≤ signed ∧ signed < 0x10000000000000000 then .int signed
  else .double double

/-- The value of a number that is not too large to have one. -/
def Numeral.value? (n : Numeral) : Option Json :=
  match n.value with
  | .double value => if value.isFinite then some (.double value) else none
  | value => some value

/-! ### Values -/

/-- Adds a field, in place of an earlier one with the same name. -/
def putField (fields : List (String × Json)) (name : String) (value : Json) :
    List (String × Json) :=
  if fields.any (·.1 == name) then
    fields.map fun field => if field.1 == name then (name, value) else field
  else fields ++ [(name, value)]

mutual

/-- The value that a text begins with; `fuel` bounds the number of steps. -/
def value? : Nat → List Char → Option (Json × List Char)
  | 0, _ => none
  | fuel + 1, text =>
    match skipSpace text with
    | 'n' :: 'u' :: 'l' :: 'l' :: rest => some (.null, rest)
    | 't' :: 'r' :: 'u' :: 'e' :: rest => some (.bool true, rest)
    | 'f' :: 'a' :: 'l' :: 's' :: 'e' :: rest => some (.bool false, rest)
    | '"' :: rest => (string? rest).map fun (s, rest) => (.string s, rest)
    | '[' :: rest =>
      match skipSpace rest with
      | ']' :: rest => some (.array [], rest)
      | rest => (items? fuel [] rest).map fun (items, rest) => (.array items.reverse, rest)
    | '{' :: rest =>
      match skipSpace rest with
      | '}' :: rest => some (.object [], rest)
      | rest => (fields? fuel [] rest).map fun (fields, rest) => (.object fields, rest)
    | text => do
      let (n, rest) ← numeral? text
      return (← n.value?, rest)

/-- The items of an array up to its closing bracket, last one first. -/
def items? : Nat → List Json → List Char → Option (List Json × List Char)
  | 0, _, _ => none
  | fuel + 1, items, text => do
    let (item, rest) ← value? fuel text
    match skipSpace rest with
    | ',' :: rest => items? fuel (item :: items) rest
    | ']' :: rest => some (item :: items, rest)
    | _ => none

/-- The fields of an object up to its closing brace. -/
def fields? : Nat → List (String × Json) → List Char →
    Option (List (String × Json) × List Char)
  | 0, _, _ => none
  | fuel + 1, fields, text =>
    match skipSpace text with
    | '"' :: rest => do
      let (name, rest) ← string? rest
      match skipSpace rest with
      | ':' :: rest =>
        let (value, rest) ← value? fuel rest
        match skipSpace rest with
        | ',' :: rest => fields? fuel (putField fields name value) rest
        | '}' :: rest => some (putField fields name value, rest)
        | _ => none
      | _ => none
    | _ => none

end

/-- The value that a whole text is; `none` for text that is no JSON value. -/
def parse? (text : String) : Option Json :=
  let text := text.toList
  match value? (text.length + 1) text with
  | some (value, rest) => if (skipSpace rest).isEmpty then some value else none
  | none => none

end SiteTree.Json
