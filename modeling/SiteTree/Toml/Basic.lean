import SiteTree.Json.Basic

/-!
# TOML values

What a manifest holds once its tables are put together. Dates and times are kept as the
text that TOML gives them.
-/

namespace SiteTree

inductive Toml where
  | string (value : String)
  | integer (value : Int)
  | float (value : Double)
  | boolean (value : Bool)
  | datetime (text : String)
  | array (items : List Toml)
  | table (fields : List (String × Toml))
  deriving Inhabited

namespace Toml

/-- The field under which a date or time stands in JSON. -/
def datetimeField : String := "$__toml_private_datetime"

mutual

/-- The value as JSON. Numbers that JSON cannot write are null. -/
def toJson : Toml → Json
  | .string value => .string value
  | .integer value => .int value
  | .float value => if value.isFinite then .double value else .null
  | .boolean value => .bool value
  | .datetime text => .object [(datetimeField, .string text)]
  | .array items => .array (itemsToJson items)
  | .table fields => .object (fieldsToJson fields)

def itemsToJson : List Toml → List Json
  | [] => []
  | item :: items => item.toJson :: itemsToJson items

def fieldsToJson : List (String × Toml) → List (String × Json)
  | [] => []
  | (name, value) :: fields => (name, value.toJson) :: fieldsToJson fields

end

end Toml

end SiteTree
