import SiteTree.Json.Basic
import SiteTree.Path

/-!
# Components

A component is a declared page or fragment; a mount is a component in a place, with the
values it is rendered with there. Imports are embedded in the markup of the component,
children are pages below it. All paths of a declaration are absolute.
-/

namespace SiteTree

/-- The identity of a component: its name and its template together. -/
structure Key where
  text : String
  deriving DecidableEq, Repr

def Key.of (name : String) (template : Path) : Key :=
  ⟨name ++ "@" ++ template.text⟩

/-- What a component says about itself, its references to other components apart. -/
structure Declaration where
  name : String
  template : Path
  /-- the tag under which the component can be embedded -/
  selector : Option String
  /-- stylesheets whose rules hold for this component only -/
  externalStyles : List Path
  externalScripts : List Path
  /-- stylesheets for this page and all pages below it -/
  globalStyles : List Path
  globalScripts : List Path
  values : Option Json

def Declaration.key (declaration : Declaration) : Key :=
  Key.of declaration.name declaration.template

/-- A component in a place. -/
inductive Mount where
  | mk (declaration : Declaration) (overrides : Option Json) (imports children : List Mount)

namespace Mount

def declaration : Mount → Declaration
  | mk declaration _ _ _ => declaration

def overrides : Mount → Option Json
  | mk _ overrides _ _ => overrides

def imports : Mount → List Mount
  | mk _ _ imports _ => imports

def children : Mount → List Mount
  | mk _ _ _ children => children

def name (mount : Mount) : String :=
  mount.declaration.name

def key (mount : Mount) : Key :=
  mount.declaration.key

/-- The values that the mount is rendered with: its own where it has any, and else those of
the component. -/
def values (mount : Mount) : Option Json :=
  mount.overrides.or mount.declaration.values

/-- The same component with other values. -/
def withValues (values : Json) : Mount → Mount
  | mk declaration _ imports children => mk declaration (some values) imports children

end Mount

end SiteTree
