import SiteTree.Files
import SiteTree.Page.Tree
import SiteTree.ScopeId

/-!
# Layouts

A layout gives every page a directory of its own and every component that takes part in the
site a scope identifier. Laying out walks the pages in order: it checks each page and makes
its directory before it goes on to the next, and stops at the first fault.
-/

namespace SiteTree

/-! ### Scope identifiers -/

namespace Mount

mutual

/-- Adds the keys of the imports of a mount, and of their imports in turn, to the keys met
before, the latest first. What is imported by a key met before is not looked at again. -/
def addImportKeys : Mount → List Key → List Key
  | mk _ _ imports _, met => addKeys imports met

/-- Adds the keys of mounts and of all that they import. -/
def addKeys : List Mount → List Key → List Key
  | [], met => met
  | mount :: mounts, met =>
    if mount.key ∈ met then addKeys mounts met
    else addKeys mounts (mount.addImportKeys (mount.key :: met))

end

end Mount

/-- The keys that get identifiers, in the order in which they are met: every page's, and those
of its imports that no page before it imports. -/
def scopeOrder : List Page → (imported : List Key) → List Key
  | [], _ => []
  | page :: pages, imported =>
    let all := page.mount.addImportKeys imported
    page.key :: (all.take (all.length - imported.length)).reverse ++ scopeOrder pages all

/-! ### Layouts -/

structure Layout where
  tree : PageTree
  scopes : List (Key × ScopeId)

namespace Layout

/-- The pages, each before the pages below it. -/
def pages (layout : Layout) : List Page :=
  layout.tree.pages

/-- The identifier of a component of the site. -/
def scope (layout : Layout) (key : Key) : Except Failure ScopeId :=
  match layout.scopes.lookup key with
  | some id => .ok id
  | none => .error (.of (.layout (.unknownScope key)))

/-! ### The walk -/

/-- Can the name be that of a page below another one? It has to be one ordinary component of
a path. -/
def isPageName (name : String) : Bool :=
  match (Path.mk name).components with
  | [.name _] => true
  | _ => false

/-- Enters a page: it must not have been entered before, and its directory is made. The keys
of the pages entered so far are handed on, the latest first. -/
def enter (directory : Path) (name : String) (key : Key) (entered : List Key) :
    Job (List Key) := do
  if key ∈ entered then throw (.of (.layout (.duplicatePage key)))
  else
    (Files.makeDirectory directory).within
      ("could not create directory for page " ++ ticked name)
    return key :: entered

/-- Looks at the name of a child, given those of the children before it. -/
def inspect (parent : String) (siblings : List String) (name : String) : Job Unit := do
  if !isPageName name then throw (.of (.layout (.invalidName name)))
  else if name ∈ siblings then throw (.of (.layout (.duplicateName parent name)))

mutual

/-- Enters the page of a mount and the pages below it. -/
def visit (directory : Path) : Mount → (entered : List Key) → Job (List Key)
  | .mk declaration _ _ children, entered => do
    let entered ← enter directory declaration.name declaration.key entered
    visitChildren directory declaration.name [] children entered

/-- Enters the children of a page one after the other, each with the pages below it. -/
def visitChildren (directory : Path) (parent : String) (siblings : List String) :
    List Mount → (entered : List Key) → Job (List Key)
  | [], entered => return entered
  | child :: children, entered => do
    inspect parent siblings child.name
    let entered ← visit (directory.join ⟨child.name⟩) child entered
    visitChildren directory parent (siblings ++ [child.name]) children entered

end

/-- Gives an identifier to each of some keys. -/
def assignAll {σ : Type} (registry : Registry σ) : List Key → Except Failure (Registry σ)
  | [] => .ok registry
  | key :: keys =>
    match registry.assign? key with
    | some (_, registry) => assignAll registry keys
    | none => .error (.plain ("no scope id left for " ++ ticked key.text))

/-- Lays a site out below the directory `output`: checks its pages, makes their directories
and gives out identifiers. -/
def walk {σ : Type} (root : Mount) (output : Path) (registry : Registry σ) : Job Layout := do
  let _ ← visit output root []
  let tree := PageTree.ofMount output root
  let registry ← Job.ofExcept (assignAll registry (scopeOrder tree.pages []))
  return ⟨tree, registry.assigned⟩

end Layout

end SiteTree
