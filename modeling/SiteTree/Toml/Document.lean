import SiteTree.Toml.Number

/-!
# TOML documents

A document is read line by line into a tree of tables that remembers how each table came
about, because that decides whether it may be extended: a table that a header names is
defined once, a table that a dotted key makes is extended by dotted keys alone, and values,
inline tables and arrays among them, are never extended.
-/

namespace SiteTree.Toml

/-! ### Tables that grow -/

/-- How a table came about. -/
inductive TableOrigin where
  /-- as a part of a longer header -/
  | implied
  /-- as a part of a dotted key -/
  | dotted
  /-- by a header of its own -/
  | defined
  deriving DecidableEq, Repr

/-- What stands under a key while a document is read. -/
inductive Node where
  | value (value : Toml)
  | table (origin : TableOrigin) (fields : List (String × Node))
  /-- the tables of an array of tables, the last one first -/
  | tables (items : List (List (String × Node)))

abbrev Fields := List (String × Node)

def putNode (fields : Fields) (key : String) (node : Node) : Fields :=
  if fields.any (·.1 == key) then
    fields.map fun field => if field.1 == key then (key, node) else field
  else fields ++ [(key, node)]

mutual

/-- The finished value of a node. -/
def Node.toToml : Node → Toml
  | .value value => value
  | .table _ fields => .table (fieldsToToml fields)
  | .tables items => .array (tablesToToml items).reverse

def fieldsToToml : List (String × Node) → List (String × Toml)
  | [] => []
  | (key, node) :: fields => (key, node.toToml) :: fieldsToToml fields

def tablesToToml : List (List (String × Node)) → List Toml
  | [] => []
  | fields :: items => .table (fieldsToToml fields) :: tablesToToml items

end

def duplicate {α : Type} (key : String) : Except String α :=
  .error ("duplicate key " ++ key)

/-- Changes the table that a path of keys leads to; missing tables on the way are made. In
an array of tables the way goes through the last one. The change is told how its table came
about. -/
def changeAt (dotted : Bool) (change : TableOrigin → Fields → Except String Fields) :
    List String → TableOrigin → Fields → Except String Fields
  | [], origin, fields => change origin fields
  | key :: path, _, fields =>
    match fields.lookup key with
    | none => do
      let origin := if dotted then TableOrigin.dotted else .implied
      let inner ← changeAt dotted change path origin []
      return putNode fields key (.table origin inner)
    | some (.value _) => duplicate key
    | some (.table origin inner) => do
      if dotted ∧ origin = .defined then duplicate key
      else return putNode fields key (.table origin (← changeAt dotted change path origin inner))
    | some (.tables []) => duplicate key
    | some (.tables (last :: items)) => do
      let last ← changeAt dotted change path .defined last
      return putNode fields key (.tables (last :: items))

/-- Adds a value under a dotted key, given as the parts before the last and the last. -/
def addValue (path : List String) (key : String) (value : Toml) :
    TableOrigin → Fields → Except String Fields :=
  changeAt true (fun origin fields =>
    if !path.isEmpty ∧ origin ≠ .dotted then duplicate key
    else if fields.any (·.1 == key) then duplicate key
    else .ok (fields ++ [(key, .value value)])) path

/-- Defines the table that a header names. -/
def defineTable (path : List String) (key : String) : Fields → Except String Fields :=
  changeAt false (fun _ fields =>
    match fields.lookup key with
    | none => .ok (fields ++ [(key, .table .defined [])])
    | some (.table .implied inner) => .ok (putNode fields key (.table .defined inner))
    | some _ => duplicate key) path .defined

/-- Begins a further table of the array of tables that a header names. -/
def appendTable (path : List String) (key : String) : Fields → Except String Fields :=
  changeAt false (fun _ fields =>
    match fields.lookup key with
    | none => .ok (fields ++ [(key, .tables [[]])])
    | some (.tables items) => .ok (putNode fields key (.tables ([] :: items)))
    | some _ => duplicate key) path .defined

/-! ### Values -/

/-- Splits the parts of a key into those before the last and the last. -/
def splitLastPart (parts : List String) : List String × String :=
  (parts.dropLast, parts.getLastD "")

/-- The longest key, in parts, and the deepest nesting of arrays and inline tables. -/
def maxDepth : Nat := 79

mutual

/-- A value; arrays and inline tables nest at most `depth` deep. -/
def value (depth : Nat) : Reader Toml := fun text =>
  match quoted? text with
  | some read => read.map fun (s, rest) => (.string s, rest)
  | none =>
    match depth, text with
    | depth + 1, '[' :: rest =>
      (items depth (rest.length + 1) rest).map fun (items, rest) => (.array items, rest)
    | depth + 1, '{' :: rest =>
      match skipSpace rest with
      | '}' :: rest => .ok (.table [], rest)
      | rest => inlineFields depth (rest.length + 1) [] rest
    | _, text => scalarRead text
termination_by (depth, 0)

/-- The items of an array up to its closing bracket. -/
def items (depth fuel : Nat) : Reader (List Toml) := fun text =>
  match fuel with
  | 0 => .error "expected a closing bracket"
  | fuel + 1 =>
    match skipLines text.length text with
    | ']' :: rest => .ok ([], rest)
    | text => do
      let (item, rest) ← value depth text
      match skipLines rest.length rest with
      | ',' :: rest =>
        let (more, rest) ← items depth fuel rest
        return (item :: more, rest)
      | ']' :: rest => return ([item], rest)
      | _ => .error "expected a comma or a closing bracket"
termination_by (depth, fuel + 1)

/-- The fields of an inline table up to its closing brace. -/
def inlineFields (depth fuel : Nat) (fields : Fields) : Reader Toml := fun text =>
  match fuel with
  | 0 => .error "expected a closing brace"
  | fuel + 1 => do
    let (parts, rest) ← keyParts maxDepth text
    match rest with
    | '=' :: rest =>
      let (read, rest) ← value depth (skipSpace rest)
      let (path, key) := splitLastPart parts
      let fields ← addValue path key read .defined fields
      match skipSpace rest with
      | ',' :: rest => inlineFields depth fuel fields rest
      | '}' :: rest => return (.table (fieldsToToml fields), rest)
      | _ => .error "expected a comma or a closing brace"
    | _ => .error "expected an equals sign"
termination_by (depth, fuel + 1)

end

/-! ### Lines -/

/-- A document while it is read: its tables, and the table that the last header named, as
the keys that lead to it. -/
structure Draft where
  fields : Fields
  current : List String

/-- Adds a value to the current table. -/
def Draft.add (draft : Draft) (parts : List String) (value : Toml) : Except String Draft := do
  let (path, key) := splitLastPart parts
  let fields ← changeAt false (addValue path key value) draft.current .defined draft.fields
  return { draft with fields }

def Draft.define (draft : Draft) (parts : List String) : Except String Draft := do
  let (path, key) := splitLastPart parts
  return ⟨← defineTable path key draft.fields, parts⟩

def Draft.append (draft : Draft) (parts : List String) : Except String Draft := do
  let (path, key) := splitLastPart parts
  return ⟨← appendTable path key draft.fields, parts⟩

/-- Reads one line. -/
def line (draft : Draft) (text : List Char) : Except String (Draft × List Char) := do
  match skipSpace text with
  | '[' :: '[' :: rest =>
    let (parts, rest) ← keyParts maxDepth rest
    match rest with
    | ']' :: ']' :: rest => return (← draft.append parts, ← endLine rest)
    | _ => .error "expected closing brackets"
  | '[' :: rest =>
    let (parts, rest) ← keyParts maxDepth rest
    match rest with
    | ']' :: rest => return (← draft.define parts, ← endLine rest)
    | _ => .error "expected a closing bracket"
  | text =>
    if (skipComment text).isEmpty ∨ (afterBreak? (skipComment text)).isSome then
      return (draft, ← endLine text)
    else
      let (parts, rest) ← keyParts maxDepth text
      match rest with
      | '=' :: rest =>
        let (value, rest) ← value maxDepth (skipSpace rest)
        return (← draft.add parts value, ← endLine rest)
      | _ => .error "expected an equals sign"

/-- Reads lines to the end of the text; every line is at least one character. -/
def lines : Nat → Draft → List Char → Except String Draft
  | 0, draft, _ => .ok draft
  | _, draft, [] => .ok draft
  | fuel + 1, draft, text => do
    let (draft, rest) ← line draft text
    lines fuel draft rest

/-- The top-level fields of a document. A byte order mark in front does not count. -/
def parse (text : String) : Except String (List (String × Toml)) := do
  let text := match text.toList with
    | '\uFEFF' :: rest => rest
    | text => text
  let draft ← lines text.length ⟨[], []⟩ text
  return fieldsToToml draft.fields

end SiteTree.Toml
