import SiteTree.Template.Scope

/-!
# Helpers

A helper shows a block, or makes a value of its arguments.
-/

namespace SiteTree.Template

/-- The arguments of a helper. -/
structure Inputs where
  arguments : List Json
  options : List (String × Json)

inductive Helper where
  /-- shows a block, or else the other one -/
  | cond
  | unless
  /-- shows a block for each item of a value -/
  | each
  /-- goes into a value -/
  | into
  /-- shows a block as it is -/
  | raw
  /-- tells nobody -/
  | log
  | lookup
  | length
  | negation
  | all
  | any
  | same
  | different
  /-- holds for values that stand in one of these orders -/
  | ordered (orders : List Ordering)
  deriving DecidableEq, Repr

def Helper.ofName? : String → Option Helper
  | "if" => some .cond
  | "unless" => some .unless
  | "each" => some .each
  | "with" => some .into
  | "raw" => some .raw
  | "log" => some .log
  | "lookup" => some .lookup
  | "len" => some .length
  | "not" => some .negation
  | "and" => some .all
  | "or" => some .any
  | "eq" => some .same
  | "ne" => some .different
  | "gt" => some (.ordered [.gt])
  | "gte" => some (.ordered [.gt, .eq])
  | "lt" => some (.ordered [.lt])
  | "lte" => some (.ordered [.lt, .eq])
  | _ => none

def Inputs.first (inputs : Inputs) : Except String Json :=
  match inputs.arguments with
  | first :: _ => .ok first
  | [] => .error "expected an argument"

def Inputs.firstTwo (inputs : Inputs) : Except String (Json × Json) :=
  match inputs.arguments with
  | first :: second :: _ => .ok (first, second)
  | _ => .error "expected two arguments"

/-- Does the subject of a condition count as true? Zero does if that is asked for. -/
def Inputs.holds (inputs : Inputs) (subject : Json) : Bool :=
  let includesZero :=
    match inputs.options.lookup "includeZero" with
    | some (.bool value) => value
    | _ => false
  match subject with
  | .int _ => includesZero || isTruthy subject
  | .double _ => includesZero || isTruthy subject
  | _ => isTruthy subject

/-- Is the level of a message one that there is? -/
def Inputs.hasLevel (inputs : Inputs) : Bool :=
  match inputs.options.lookup "level" with
  | some (.string level) => ["error", "warn", "info", "debug", "trace"].contains level.toLower
  | _ => true

/-- What stands at a place of a value. -/
def itemAt : Json → Json → Json
  | .array items, .int i => if i < 0 then .null else (items[i.toNat]?).getD .null
  | .object fields, .string name => (fields.lookup name).getD .null
  | _, _ => .null

/-- The size of a value; that of text is in bytes. -/
def sizeOfValue : Json → Nat
  | .array items => items.length
  | .object fields => fields.length
  | .string text => text.utf8ByteSize
  | _ => 0

/-- What a helper makes of its arguments. One that shows a block makes nothing without it. -/
def Helper.apply (inputs : Inputs) : Helper → Except String Json
  | .raw => .ok (.string "")
  | .log => if inputs.hasLevel then .ok (.string "") else .error "no such level"
  | .lookup => do
    let (value, place) ← inputs.firstTwo
    return itemAt value place
  | .length => do return .int (sizeOfValue (← inputs.first))
  | .negation => do return .bool (!isTruthy (← inputs.first))
  | .all => .ok (.bool (inputs.arguments.all isTruthy))
  | .any => .ok (.bool (inputs.arguments.any isTruthy))
  | .same => do
    let (a, b) ← inputs.firstTwo
    return .bool (sameValues a b)
  | .different => do
    let (a, b) ← inputs.firstTwo
    return .bool (!sameValues a b)
  | .ordered orders => do
    let (a, b) ← inputs.firstTwo
    return .bool ((compareValues? a b).any orders.contains)
  | _ => do
    let _ ← inputs.first
    return .string ""

/-- The helper of a given name. -/
def helper (name : String) : Except String Helper :=
  match Helper.ofName? name with
  | some helper => .ok helper
  | none => .error ("no helper is named " ++ name)

/-! ### Values of expressions -/

mutual

/-- The value of an expression; one that is missing is null. -/
def Expression.value (scopes : List Scope) : Expression → Except String Json
  | .literal value => .ok value
  | .reference target => do return (← resolve scopes target).getD .null
  | .call name arguments options => do
    let arguments ← argumentValues scopes arguments
    let options ← optionValues scopes options
    (← helper name).apply { arguments, options }

def argumentValues (scopes : List Scope) : List Expression → Except String (List Json)
  | [] => .ok []
  | argument :: arguments => do
    return (← argument.value scopes) :: (← argumentValues scopes arguments)

def optionValues (scopes : List Scope) :
    List (String × Expression) → Except String (List (String × Json))
  | [] => .ok []
  | (name, argument) :: options => do
    return (name, ← argument.value scopes) :: (← optionValues scopes options)

end

/-- The values of all arguments, whether the helper needs them or not. -/
def Call.inputs (call : Call) (scopes : List Scope) : Except String Inputs := do
  let arguments ← argumentValues scopes call.arguments
  let options ← optionValues scopes call.options
  return { arguments, options }

/-- The value of an expression that stands on its own. Where it names a helper, that helper is
meant. -/
def Expression.shownValue (scopes : List Scope) (expression : Expression) :
    Except String Json := do
  let alone : Inputs := { arguments := [], options := [] }
  match expression with
  | .reference target =>
    match target.word.bind Helper.ofName? with
    | some helper => helper.apply alone
    | none => expression.value scopes
  | _ =>
    let value ← expression.value scopes
    match Helper.ofName? (showValue value) with
    | some helper => helper.apply alone
    | none => return value

end SiteTree.Template
