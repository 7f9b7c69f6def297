import SiteTree.Json.Fingerprint
import SiteTree.Markup.ScopeClass
import SiteTree.Markup.Usage
import SiteTree.Page.Layout
import SiteTree.Page.Stage

/-!
# The markup of pages

The markup of a mount is its template, rendered with the mount's values, with the scope class
on every element if the component has styles of its own, and with every usage of an import's
tag replaced by the markup of the import. What was compiled once is kept for all mounts of
the same component with the same values.
-/

namespace SiteTree

/-- Renders a template with values, or says what is wrong with it. -/
abbrev TemplateEngine := (template : String) → (values : Json) → Except String String

/-- What compiling depends on. -/
structure Compiler where
  layout : Layout
  /-- how templates are rendered; without an engine they are used as they are -/
  engine : Option TemplateEngine
  disk : Disk

namespace Compiler

/-- Mounts of one component with the same values have the same markup. -/
structure CacheKey where
  key : Key
  values : Option String
  deriving DecidableEq, Repr

/-- The markup compiled so far. -/
abbrev Cache := List (CacheKey × String)

/-- Compiles, with the cache at hand; the cache stays when compiling fails. -/
abbrev Compilation (α : Type) := ExceptT Failure (StateM Cache) α

def cacheKey (mount : Mount) : CacheKey :=
  ⟨mount.key, mount.values.map Json.fingerprint⟩

/-- The template of a mount, rendered with its values. -/
def rendered (compiler : Compiler) (mount : Mount) : Except Failure String := do
  let path := mount.declaration.template
  let template ← Files.read compiler.disk path
  match compiler.engine with
  | none => return template
  | some engine =>
    match engine template (mount.values.getD (.object [])) with
    | .ok html => return html
    | .error detail => throw (.of (.build (.render path detail)))

/-- The rendered template, scoped if the component has styles of its own. -/
def withScopeClass (compiler : Compiler) (mount : Mount) : Except Failure String := do
  let html ← compiler.rendered mount
  if mount.declaration.externalStyles.isEmpty then return html
  else return Markup.injectClass html (← compiler.layout.scope mount.key).className

def lift {α : Type} (result : Except Failure α) : Compilation α :=
  match result with
  | .ok value => pure value
  | .error failure => throw failure

mutual

/-- The markup of a mount. -/
def compile (compiler : Compiler) : Mount → Compilation String
  | .mk declaration overrides imports children => do
    let mount := Mount.mk declaration overrides imports children
    match (← get).lookup (cacheKey mount) with
    | some html => return html
    | none =>
      let html ← compiler.embed imports (← lift (compiler.withScopeClass mount))
      modify fun cache => (cacheKey mount, html) :: cache
      return html

/-- Replaces the usages of imports in markup, one import after the other. An import without a
tag is not embedded. -/
def embed (compiler : Compiler) : List Mount → String → Compilation String
  | [], html => return html
  | mount :: mounts, html =>
    match mount.declaration.selector with
    | none => compiler.embed mounts html
    | some selector => do
      let fragment ← ExceptT.adapt
        (Failure.within ("failed to compile import " ++ ticked mount.name))
        (compiler.compile mount)
      compiler.embed mounts (Markup.substitute html selector fragment)

end

/-- The markup of every page, in the order of the pages. -/
def compilePages (compiler : Compiler) : Compilation (Pages .compiled) := do
  let html ← compiler.layout.pages.mapM fun page =>
    ExceptT.adapt (Failure.within ("failed to compile page " ++ ticked page.name))
      (compiler.compile page.mount)
  return ⟨html⟩

end Compiler

end SiteTree
