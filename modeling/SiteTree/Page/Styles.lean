import SiteTree.Page.Bundle
import SiteTree.Page.Stage
import SiteTree.Stylesheet.Minify
import SiteTree.Stylesheet.Scope

/-!
# Styles of pages

A component's own stylesheets hold for its elements only: they are preprocessed, and then
their selectors are narrowed to its scope class. Imports bring theirs along if they have a
tag under which they can be embedded.
-/

namespace SiteTree

/-- How stylesheets are preprocessed and bundles of them transformed. -/
structure StyleOptions where
  preprocess : Option (String → Job String) := none
  transform : Path → String → Except Failure String := fun _ text => .ok text

/-- A bundle of styles written as short as possible; of a blank one nothing is left. -/
def minifyStyles (text : String) : Except Failure String :=
  if Text.allBlank text.toList then .ok ""
  else
    match Stylesheet.minify text with
    | .ok text => .ok text
    | .error detail => .error (.plain ("CSS parse error: " ++ detail))

namespace StyleOptions

/-- The stylesheets of a component, preprocessed. -/
def preprocessed (options : StyleOptions) (mount : Mount) : Job String := do
  let css ← Job.ofExcept (Files.readAll (← Job.disk) mount.declaration.externalStyles)
  match options.preprocess with
  | none => return css
  | some preprocess =>
    Job.within ("could not preprocess styles of " ++ ticked mount.name) (preprocess css)

/-- The styles that hold for the elements of a component only. -/
def scopedStyles (options : StyleOptions) (layout : Layout) (mount : Mount) : Job String := do
  if mount.declaration.externalStyles.isEmpty then return ""
  else
    let css ← options.preprocessed mount
    return Stylesheet.scope css (← Job.ofExcept (layout.scope mount.key)).className

def bundleKind (options : StyleOptions) (layout : Layout) : BundleKind where
  module := "styles"
  fileName page := page ++ ".css"
  tag page := "<link rel=\"stylesheet\" href=\"" ++ page ++ ".css\">"
  anchor := "</head>"
  globals page := page.declaration.globalStyles
  own := options.scopedStyles layout
  follows mount := mount.declaration.selector.isSome
  transform := options.transform
  transformContext page := "style transform failed for page " ++ ticked page

end StyleOptions

/-- Makes the style bundle of every page and links it. -/
def bundleStyles (options : StyleOptions) (layout : Layout) (pages : Pages .compiled) :
    Job (Pages .styled) := do
  return ⟨← (options.bundleKind layout).bundlePages layout pages.html⟩

end SiteTree
