import SiteTree.Json.Basic
import SiteTree.Text.Hex

/-!
# Compact JSON text

A value is written without spaces and with the fields of objects sorted by name, so that
values which differ only in the order of fields have one text.
-/

namespace SiteTree.Json

/-- One character inside a string: quotes, backslashes and control characters are escaped. -/
def escapeChar (c : Char) : List Char :=
  if c = '"' then ['\\', '"']
  else if c = '\\' then ['\\', '\\']
  else if c = '\n' then ['\\', 'n']
  else if c = '\r' then ['\\', 'r']
  else if c = '\t' then ['\\', 't']
  else if c = '\x08' then ['\\', 'b']
  else if c = '\x0c' then ['\\', 'f']
  else if c.toNat < 0x20 then
    ['\\', 'u', '0', '0', Text.hexDigit (c.toNat / 16), Text.hexDigit (c.toNat % 16)]
  else [c]

def quote (text : List Char) : List Char :=
  '"' :: (text.flatMap escapeChar ++ ['"'])

/-- A field as it is written. -/
def fieldText (field : String × List Char) : List Char :=
  quote field.1.toList ++ ':' :: field.2

mutual

/-- The text of a value. -/
def text : Json → List Char
  | .null => "null".toList
  | .bool true => "true".toList
  | .bool false => "false".toList
  | .int value => (toString value).toList
  | .double value => value.text
  | .string value => quote value.toList
  | .array items => '[' :: ([','].intercalate (itemTexts items) ++ [']'])
  | .object fields =>
    '{' :: ([','].intercalate ((sortFields (fieldTexts fields)).map fieldText) ++ ['}'])

def itemTexts : List Json → List (List Char)
  | [] => []
  | item :: items => item.text :: itemTexts items

def fieldTexts : List (String × Json) → List (String × List Char)
  | [] => []
  | (name, value) :: fields => (name, value.text) :: fieldTexts fields

end

/-- The text of a value as a string. -/
def render (value : Json) : String :=
  String.ofList value.text

end SiteTree.Json
