import SiteTree.Template.Helper
import SiteTree.Template.Reader

/-!
# Rendering templates

A template is rendered with a value. What is missing shows as nothing. Elements are rendered
given what renders the templates that they include; `renderWithin` ties the two together, with
fuel for how deep inclusions are nested.
-/

namespace SiteTree.Template

/-- A value as it is shown, for use in markup if it is `escaped`. -/
def shownText (escaped : Bool) (value : Json) : String :=
  if escaped then escape (showValue value) else showValue value

/-! ### Templates to include -/

/-- The parts of a template that can be included where the rendering has come to. -/
structure Library where
  templates : List (String × List Element) := []
  /-- the bodies that the inclusions around were given, the innermost first -/
  bodies : List (List Element) := []
  /-- how many of these bodies are being shown at the moment -/
  depth : Nat := 0

abbrev Rendering := StateT Library (Except String)

def Rendering.ofExcept {α : Type} (result : Except String α) : Rendering α :=
  StateT.lift result

/-- The name for the body that the inclusion around was given. -/
def bodyName : String :=
  "@partial-block"

def Library.find? (library : Library) (name : String) : Option (List Element) :=
  if name = bodyName then library.bodies[library.depth]? else library.templates.lookup name

/-- Gives a name to a body. There is no directive for anything else. -/
def define (scopes : List Scope) (call : Call) (body : Option (List Element)) :
    Rendering Unit := do
  let inputs ← Rendering.ofExcept (call.inputs scopes)
  match call.helper, inputs.arguments, body with
  | "inline", .string name :: _, some body =>
    modify fun library =>
      { library with templates := (name, body) :: library.templates }
  | _, _, _ => throw "there is no such directive"

/-- Does what the directives among some elements say. -/
def defineAll (scopes : List Scope) : List Element → Rendering Unit
  | [] => return
  | .directive call body :: elements => do
    define scopes call body
    defineAll scopes elements
  | _ :: elements => defineAll scopes elements

/-- An object with further fields, which replace those of the same names. -/
def withFields (value : Json) (fields : List (String × Json)) : Json :=
  let old :=
    match value with
    | .object old => old
    | _ => []
  .object (fields ++ old.filter fun entry => (fields.lookup entry.1).isNone)

/-- The scopes that an included template is shown in: those at hand, unless it is shown for a
value that is there, or with further values. -/
def Inclusion.scopes (inclusion : Inclusion) (scopes : List Scope) :
    Except String (List Scope) := do
  let subject ←
    match inclusion.arguments with
    | .reference target :: _ => if target.isVariable then pure none else resolve scopes target
    | _ => pure none
  let options ← optionValues scopes inclusion.options
  let inner :=
    match subject with
    | some value => { here := value } :: scopes
    | none => scopes
  match options, inner, subject with
  | [], _, _ => return inner
  | _, scope :: outer, some _ => return { scope with here := withFields scope.here options } :: outer
  | _, scope :: _, none => return { scope with here := withFields scope.here options } :: inner
  | _, [], _ => return inner

/-- Text with white space in front of every line but the first one. -/
def indentLines (indent : List Char) : List Char → List Char
  | [] => []
  | ['\n'] => ['\n']
  | '\n' :: text => '\n' :: indent ++ indentLines indent text
  | c :: text => c :: indentLines indent text

/-! ### Elements -/

/-- Renders what is included. -/
abbrev Renderer := List Scope → List Element → Rendering String

mutual

def renderElement (again : Renderer) (scopes : List Scope) : Element → Rendering String
  | .text text => return text
  | .value escaped expression => do
    return shownText escaped (← Rendering.ofExcept (expression.shownValue scopes))
  | .call escaped call => do
    return shownText escaped (← Rendering.ofExcept (call.expression.value scopes))
  | .directive call body => do
    define scopes call body
    return ""
  | .inclusion inclusion body => do
    let name ← Rendering.ofExcept (inclusion.name.value scopes)
    let _ ← Rendering.ofExcept (argumentValues scopes inclusion.arguments)
    let inner ← Rendering.ofExcept (inclusion.scopes scopes)
    defineAll scopes (body.getD [])
    match ((← get).find? (showValue name)).or body with
    | none => throw "there is no such template"
    | some elements =>
      let library ← get
      let depth := if showValue name = bodyName then library.depth + 1 else library.depth - 1
      set { library with depth, bodies := body.toList ++ library.bodies }
      let shown ← again inner elements
      modify fun after => { after with depth := library.depth, bodies := library.bodies }
      return String.ofList (indentLines inclusion.indent.toList shown.toList)
  | .block call names body otherwise => do
    let helper ← Rendering.ofExcept (helper call.helper)
    let inputs ← Rendering.ofExcept (call.inputs scopes)
    match helper with
    | .cond =>
      if inputs.holds (← Rendering.ofExcept inputs.first) then renderAll again scopes body
      else renderOptional again scopes otherwise
    | .unless =>
      if inputs.holds (← Rendering.ofExcept inputs.first) then
        renderOptional again scopes otherwise
      else renderAll again scopes body
    | .into =>
      let subject ← Rendering.ofExcept inputs.first
      if isTruthy subject then
        renderAll again (Scope.into scopes names subject :: scopes) body
      else renderOptional again scopes otherwise
    | .each =>
      match itemScopes names (← Rendering.ofExcept inputs.first) with
      | [] => renderOptional again scopes otherwise
      | inner => do
        let shown ← inner.mapM fun scope => renderAll again (scope :: scopes) body
        return String.join shown
    | .raw => renderAll again scopes body
    | _ => return shownText true (← Rendering.ofExcept (helper.apply inputs))

def renderAll (again : Renderer) (scopes : List Scope) : List Element → Rendering String
  | [] => return ""
  | element :: elements => do
    let first ← renderElement again scopes element
    return first ++ (← renderAll again scopes elements)

def renderOptional (again : Renderer) (scopes : List Scope) :
    Option (List Element) → Rendering String
  | none => return ""
  | some elements => renderAll again scopes elements

end

/-- Renders elements in which inclusions are nested at most so deep. -/
def renderWithin : Nat → Renderer
  | 0 => fun _ _ => throw "inclusions are nested too deep"
  | fuel + 1 => renderAll (renderWithin fuel)

/-- How deep inclusions can be nested. -/
def maxInclusions : Nat := 200

/-- The text of a template with its values filled in. -/
def render (template : String) (values : Json) : Except String String := do
  let elements ← parse template
  let (shown, _) ← (renderWithin maxInclusions [{ here := values }] elements).run {}
  return shown

end SiteTree.Template
