import SiteTree.Component.Basic

/-!
# Configurations

A configuration says how a site is built and declares its components. All settings have
defaults; a component must name its template.
-/

namespace SiteTree.Config

/-! ### Settings with a fixed set of values -/

/-- A setting whose values are written as words. -/
class Setting (α : Type) where
  all : List α
  word : α → String

/-- The value that a word stands for. -/
def Setting.ofWord? {α : Type} [Setting α] (word : String) : Option α :=
  (all : List α).find? fun value => Setting.word value == word

/-- What templates are written in. -/
inductive Templating where
  /-- templates are used as they are -/
  | verbatim
  /-- templates hold expressions and blocks that are filled in with values -/
  | handlebars
  deriving DecidableEq, Repr

instance : Setting Templating where
  all := [.verbatim, .handlebars]
  word
    | .verbatim => "none"
    | .handlebars => "handlebars"

/-- What scope identifiers are made from. -/
inductive ScopeIds where
  /-- the component's key -/
  | hashed
  /-- the order in which components are met -/
  | sequential
  deriving DecidableEq, Repr

instance : Setting ScopeIds where
  all := [.hashed, .sequential]
  word
    | .hashed => "hashed"
    | .sequential => "sequential"

/-- What stylesheets go through before they are scoped. -/
inductive Preprocessing where
  | nothing
  | command
  deriving DecidableEq, Repr

instance : Setting Preprocessing where
  all := [.nothing, .command]
  word
    | .nothing => "none"
    | .command => "command"

/-- What a bundle goes through before it is written. -/
inductive Transform where
  | nothing
  | minify
  deriving DecidableEq, Repr

instance : Setting Transform where
  all := [.nothing, .minify]
  word
    | .nothing => "none"
    | .minify => "minify"

/-- The part of a page at whose end its scripts are linked. -/
inductive ScriptPosition where
  | body
  | head
  deriving DecidableEq, Repr

instance : Setting ScriptPosition where
  all := [.body, .head]
  word
    | .body => "body"
    | .head => "head"

/-! ### How a site is built -/

structure StyleSettings where
  preprocessing : Preprocessing := .nothing
  /-- the preprocessor, as a program and its arguments -/
  command : List String := ["sass", "--stdin"]
  /-- directories in which the preprocessor looks for further stylesheets -/
  includePaths : List Path := []
  transform : Transform := .nothing
  deriving DecidableEq, Repr

structure ScriptSettings where
  position : ScriptPosition := .body
  transform : Transform := .nothing
  deriving DecidableEq, Repr

structure BuildSettings where
  output : Path := ⟨"public"⟩
  /-- the component that is the root page -/
  root : String := "index"
  /-- the directory whose contents go into the output as they are -/
  assets : Option Path := none
  /-- further files and directories that go into the output; behind a directory with a slash
  at its end, only its contents do -/
  copy : List String := []
  /-- Is the output deleted before it is built anew? -/
  clean : Bool := true
  minify : Bool := false
  templating : Templating := .verbatim
  scopeIds : ScopeIds := .hashed
  styles : StyleSettings := {}
  scripts : ScriptSettings := {}
  deriving DecidableEq, Repr

/-! ### Components as they are declared -/

/-- A component mentioned by another one. -/
structure Reference where
  key : String
  /-- the values to use in place of the component's own -/
  overrides : Option Json := none

/-- What a configuration says about one component. Paths are as they are written. -/
structure ComponentTable where
  /-- the name, where it differs from the key of the table -/
  name : Option String := none
  template : Path
  selector : Option String := none
  imports : List Reference := []
  externalStyles : List Path := []
  externalScripts : List Path := []
  globalStyles : List Path := []
  globalScripts : List Path := []
  children : List Reference := []
  values : Option Json := none

/-- The declared components by key. -/
abbrev Components := List (String × ComponentTable)

end SiteTree.Config

namespace SiteTree

structure Config where
  /-- where the configuration was read from -/
  path : Path := ⟨""⟩
  build : Config.BuildSettings := {}
  components : Config.Components := []

end SiteTree
