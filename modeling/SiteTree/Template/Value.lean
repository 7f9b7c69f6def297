import SiteTree.Json.Reader
import SiteTree.Json.Text

/-!
# Values in templates

How values are shown, which of them count as true, and how they compare.
-/

namespace SiteTree.Template

/-- Does the value count as true? -/
def isTruthy : Json → Bool
  | .null => false
  | .bool value => value
  | .int value => value != 0
  | .double value => value.isNormal
  | .string value => !value.isEmpty
  | .array items => !items.isEmpty
  | .object fields => !fields.isEmpty

/-! ### Showing -/

mutual

/-- A value as it is shown. -/
def showValue : Json → String
  | .null => ""
  | .string value => value
  | .array items => "[" ++ ", ".intercalate (showItems items) ++ "]"
  | .object _ => "[object]"
  | value => value.render

def showItems : List Json → List String
  | [] => []
  | item :: items => showValue item :: showItems items

end

/-- What stands for a character of a value in markup. -/
def escapeChar (c : Char) : List Char :=
  match c with
  | '<' => "&lt;".toList
  | '>' => "&gt;".toList
  | '"' => "&quot;".toList
  | '&' => "&amp;".toList
  | '\'' => "&#x27;".toList
  | '=' => "&#x3D;".toList
  | '\x60' => "&#x60;".toList
  | c => [c]

def escape (text : String) : String :=
  String.ofList (text.toList.flatMap escapeChar)

/-! ### Comparing -/

/-- A number as a multiple of the least positive double. -/
def scaled? : Json → Option Int
  | .int value => some (value * (1 <<< 1074))
  | .double value => some value.scaled
  | _ => none

/-- The double that is nearest to a number. -/
def double? : Json → Option Double
  | .int value => some (Double.ofDecimal (value < 0) value.natAbs 0)
  | .double value => some value
  | _ => none

/-- The order of a number and text that writes one, as doubles. -/
def compareToText? (number : Json) (text : String) : Option Ordering := do
  let a ← double? number
  let b ← Double.ofText? text
  Double.compare? a b

/-- The order of two values: of numbers, text, truth values, or a number and text that writes
one. Other values have none. -/
def compareValues? : Json → Json → Option Ordering
  | .string a, .string b => some (compare a b)
  | .bool a, .bool b => some (compare a.toNat b.toNat)
  | a, .string b => compareToText? a b
  | .string a, b => (compareToText? b a).map Ordering.swap
  | a, b => do return compare (← scaled? a) (← scaled? b)

/-- Are two values the same? The order of the fields of an object has no meaning, nor has the
sign of zero. -/
def sameValues : Json → Json → Bool
  | .double a, .double b => a.scaled == b.scaled
  | a, b => a.text == b.text

end SiteTree.Template
