import SiteTree.Markup.Usage
import SiteTree.Page.Layout
import SiteTree.Text.Blank

/-!
# Bundles

Every page gets one file with all the styles that hold for it, and one with all its scripts:
first the files that it shares with the pages below it, inherited ones before its own, then
what its component and the components embedded in it bring along. A bundle that is blank is
neither written nor linked.
-/

namespace SiteTree

/-- What distinguishes the bundles of styles from those of scripts. -/
structure BundleKind where
  /-- the name under which it is logged -/
  module : String
  fileName : (page : String) → String
  /-- the tag that links the bundle of a page -/
  tag : (page : String) → String
  /-- the closing tag that the link goes in front of -/
  anchor : String
  /-- the files that hold for a page and all pages below it -/
  globals : Page → List Path
  /-- what a component brings along -/
  own : Mount → Job String
  /-- Does an import bring its part along? -/
  follows : Mount → Bool
  /-- what a bundle goes through, given the directory that it is written to -/
  transform : Path → String → Except Failure String
  /-- the context of a failure of the transform -/
  transformContext : (page : String) → String

namespace BundleKind

/-! ### Contents -/

mutual

/-- What a mount and the imports it follows bring along, each component once. The keys met so
far are handed on; that of the mount is among them. -/
def gather (kind : BundleKind) : Mount → (met : List Key) → Job (String × List Key)
  | .mk declaration overrides imports children, met => do
    let own ← kind.own (.mk declaration overrides imports children)
    let (rest, met) ← kind.gatherImports imports met
    return (own ++ rest, met)

def gatherImports (kind : BundleKind) : List Mount → (met : List Key) → Job (String × List Key)
  | [], met => return ("", met)
  | mount :: mounts, met =>
    if kind.follows mount ∧ mount.key ∉ met then do
      let (text, met) ← kind.gather mount (mount.key :: met)
      let (rest, met) ← kind.gatherImports mounts met
      return (text ++ rest, met)
    else kind.gatherImports mounts met

end

/-- The bundle of a page, given the files that hold for it as global ones. -/
def contents (kind : BundleKind) (page : Page) (globals : List Path) : Job String := do
  let shared ← Job.ofExcept (Files.readAll (← Job.disk) globals)
  let (brought, _) ← kind.gather page.mount [page.key]
  return shared ++ brought

/-! ### Writing and linking -/

/-- Writes a bundle and answers the page with a link to it. A page without a place for the
link stays as it is. -/
def emit (kind : BundleKind) (page : Page) (text html : String) : Job String := do
  if Text.allBlank text.toList then return html
  else
    let fileName := kind.fileName page.name
    Files.write (page.directory.join ⟨fileName⟩) text
    match Markup.spliceBefore? html kind.anchor (kind.tag page.name) with
    | some linked => return linked
    | none =>
      Job.log "warn" (kind.module ++ ": no " ++ ticked kind.anchor ++ " in page, " ++ fileName
        ++ " not linked")
      return html

/-- Makes the bundle of one page and answers the page with the link. -/
def bundlePage (kind : BundleKind) (page : Page) (globals : List Path) (html : String) :
    Job String := do
  let text ← kind.contents page globals
  let text ← Job.within (kind.transformContext page.name)
    (Job.ofExcept (kind.transform page.directory text))
  kind.emit page text html

/-- Makes the bundles of all pages, each page before the pages below it. -/
def bundlePages (kind : BundleKind) (layout : Layout) (html : List String) :
    Job (List String) := do
  if html.length ≠ layout.pages.length then throw (.plain "page count does not match layout")
  else
    ((layout.tree.gathered kind.globals []).zip html).mapM fun ((page, globals), html) =>
      kind.bundlePage page globals html

end BundleKind

end SiteTree
