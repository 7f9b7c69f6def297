import SiteTree.Json.Basic

/-!
# Templates

A template is text with tags between double braces. A tag shows a value, calls a helper, or
opens and closes a block, whose body is shown as its helper says. A template can also give
names to parts of itself, which can then be included elsewhere in it.
-/

namespace SiteTree.Template

/-- Names a value: a way up, and the names on the way down from there. -/
structure Reference where
  /-- Is the way down one from the values of the whole template? -/
  fromRoot : Bool := false
  /-- Is it a variable of the block, such as the position of an item? -/
  isVariable : Bool := false
  /-- how many blocks it goes up -/
  up : Nat := 0
  names : List String := []
  /-- the word it is, if that is all it is: where a helper has this name, the helper is meant -/
  word : Option String := none
  deriving DecidableEq, Repr

/-- What has a value. -/
inductive Expression where
  | literal (value : Json)
  | reference (reference : Reference)
  /-- what a helper makes of its arguments, some of which are given by name -/
  | call (helper : String) (arguments : List Expression) (options : List (String × Expression))

/-- A helper with its arguments. -/
structure Call where
  helper : String
  arguments : List Expression := []
  /-- arguments that are given by name -/
  options : List (String × Expression) := []

def Call.expression (call : Call) : Expression :=
  .call call.helper call.arguments call.options

/-- The place where another template is included: its name, what it is shown for, and the white
space that its further lines begin with. -/
structure Inclusion where
  name : Expression
  arguments : List Expression := []
  options : List (String × Expression) := []
  indent : String := ""

/-- A part of a template. -/
inductive Element where
  | text (text : String)
  /-- the value of an expression; `escaped` for use in markup -/
  | value (escaped : Bool) (expression : Expression)
  /-- what a helper with arguments makes of them -/
  | call (escaped : Bool) (call : Call)
  /-- a body that a helper shows, with names for what it is shown for, and another body for
  when there is nothing to show -/
  | block (call : Call) (names : List String) (body : List Element)
      (otherwise : Option (List Element))
  /-- another template; if there is none of the name, the body is shown in its place -/
  | inclusion (inclusion : Inclusion) (body : Option (List Element))
  /-- something to be done with a body -/
  | directive (call : Call) (body : Option (List Element))

end SiteTree.Template
