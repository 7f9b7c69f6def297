import SiteTree.Template.Basic
import SiteTree.Template.Value
import SiteTree.Text.Search

/-!
# Scopes

A block may go into a value, which is then the value at hand for its body. What a reference
means is found in the scopes of the blocks around it. What is missing is found as nothing.
-/

namespace SiteTree.Template

/-- A block that the element at hand is in: the value it went into, its local variables, and the
names it gave to values. -/
structure Scope where
  here : Json
  locals : List (String × Json) := []
  named : List (String × Json) := []

/-- The largest number of an item. -/
def maxIndex : Nat := 0xFFFFFFFFFFFFFFFF

/-- The number that a name writes. -/
def index? (name : String) : Option Nat :=
  let digits := (Text.after? ['+'] name.toList).getD name.toList
  if digits.isEmpty || !digits.all Char.isDigit then none
  else (String.ofList digits).toNat?.filter (· ≤ maxIndex)

/-- Goes down from a value. An item of an array is named by its number, and nothing else. -/
def descend : Json → List String → Except String (Option Json)
  | value, [] => .ok (some value)
  | .object fields, name :: names =>
    match fields.lookup name with
    | some value => descend value names
    | none => .ok none
  | .array items, name :: names =>
    match index? name with
    | some i =>
      match items[i]? with
      | some value => descend value names
      | none => .ok none
    | none => .error ("no item of an array is named " ++ name)
  | _, _ :: _ => .ok none

/-- The value of a reference, where there is one. The scopes are those of the blocks around,
the innermost first and the whole template last. -/
def resolve (scopes : List Scope) (reference : Reference) : Except String (Option Json) :=
  let named := reference.names.head?.bind fun name =>
    scopes.findSome? fun scope => scope.named.lookup name
  if reference.isVariable then
    .ok ((scopes[reference.up]?).bind fun scope =>
      reference.names.head?.bind fun name => scope.locals.lookup name)
  else
    match reference.fromRoot, named with
    | false, some value => descend value reference.names.tail
    | fromRoot, _ =>
      let scope? :=
        if fromRoot then scopes.getLast? else (scopes[reference.up]?).or scopes.head?
      match scope? with
      | some scope => descend scope.here reference.names
      | none => .ok none

/-- The scope of a block that goes into a value, with the local variables of the scopes
around. -/
def Scope.into (scopes : List Scope) (names : List String) (value : Json) : Scope :=
  { here := value
    locals := (scopes.head?.map (·.locals)).getD []
    named :=
      match names with
      | [name] => [(name, value)]
      | _ => [] }

/-- The names of an item and its label; the label has the name if there is only one. -/
def itemNames (names : List String) (item label : Json) : List (String × Json) :=
  (names.zip [item, label]).reverse

/-- The scopes that the items of a value are shown in, one for each item. -/
def itemScopes (names : List String) (value : Json) : List Scope :=
  let items : List (Json × Option Json) :=
    match value with
    | .array items => items.map fun item => (item, none)
    | .object fields => (Json.sortFields fields).map fun (name, item) => (item, some (.string name))
    | _ => []
  items.zipIdx.map fun ((item, key), i) =>
    let index := Json.int i
    let place :=
      [("first", .bool (i == 0)), ("last", .bool (i + 1 == items.length)), ("index", index)]
    { here := item
      locals := (key.map ("key", ·)).toList ++ place
      named := itemNames names item (key.getD index) }

end SiteTree.Template
