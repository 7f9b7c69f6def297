import SiteTree.Config.Basic
import SiteTree.Failure

/-!
# From component tables to a tree of mounts

References are followed depth first, imports before children. Every component is built once
and shared by all who refer to it. A component that is met again while it is being built is
on a cycle.
-/

namespace SiteTree

/-- Component tables, and how the paths in them are read. -/
structure Manifest where
  components : Config.Components
  locate : Path → Path

namespace Manifest

/-- The components that are built already, by key. -/
abbrev Built := List (String × Mount)

/-- Builds something out of components. -/
abbrev Building (α : Type) := StateT Built (Except ManifestError) α

/-- What a component says about itself. -/
def declaration (manifest : Manifest) (key : String) (table : Config.ComponentTable) :
    Declaration where
  name := table.name.getD key
  template := manifest.locate table.template
  selector := table.selector
  externalStyles := table.externalStyles.map manifest.locate
  externalScripts := table.externalScripts.map manifest.locate
  globalStyles := table.globalStyles.map manifest.locate
  globalScripts := table.globalScripts.map manifest.locate
  values := table.values

/-- The keys from the first mention of `key` on, closed by `key` itself. -/
def cycleAt (key : String) (stack : List String) : List String :=
  stack.dropWhile (· != key) ++ [key]

/-- A component as it is referred to. -/
def place (reference : Config.Reference) (mount : Mount) : Mount :=
  match reference.overrides with
  | some values => mount.withValues values
  | none => mount

/-- The component of a key: the one that is built already, or else what `fresh` makes of the
key's table. -/
def reuse (manifest : Manifest) (referencedBy key : String)
    (fresh : Config.ComponentTable → Building Mount) : Building Mount := do
  match manifest.components.lookup key with
  | none => throw (.unknownComponent key referencedBy)
  | some table =>
    match (← get).lookup key with
    | some mount => return mount
    | none => fresh table

/-- Makes a component out of its table. -/
def assemble (manifest : Manifest) (key : String) (table : Config.ComponentTable)
    (follow : Config.Reference → Building Mount) : Building Mount := do
  let imports ← table.imports.mapM follow
  let children ← table.children.mapM follow
  let mount := Mount.mk (manifest.declaration key table) none imports children
  modify fun built => (key, mount) :: built
  return mount

/-- Builds the component of a key. The stack holds the keys of the components that are being
built, the outermost first; they are distinct, so no more than all of them are on it. -/
def build (manifest : Manifest) :
    (fuel : Nat) → (stack : List String) → (referencedBy key : String) → Building Mount
  | 0, stack, referencedBy, key =>
    manifest.reuse referencedBy key fun _ => throw (.importCycle (cycleAt key stack))
  | fuel + 1, stack, referencedBy, key =>
    manifest.reuse referencedBy key fun table =>
      if key ∈ stack then throw (.importCycle (cycleAt key stack))
      else
        manifest.assemble key table fun reference => do
          return place reference (← manifest.build fuel (stack ++ [key]) key reference.key)

/-- The tree below the component of a key. -/
def resolve (manifest : Manifest) (root : String) : Except ManifestError Mount :=
  if (manifest.components.lookup root).isNone then .error (.missingRoot root)
  else
    ((manifest.build (manifest.components.length + 1) [] root root).run []).map Prod.fst

end Manifest

end SiteTree
