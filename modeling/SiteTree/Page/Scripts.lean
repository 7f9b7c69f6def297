import SiteTree.Config.Basic
import SiteTree.Page.Bundle
import SiteTree.Page.Stage
import SiteTree.Script.Minify

/-!
# Scripts of pages

A component brings its scripts along wherever it is imported, whether it can be embedded or
not. A page links its scripts at the end of its body or of its head.
-/

namespace SiteTree

/-- The closing tag in front of which scripts are linked. -/
def Config.ScriptPosition.anchor : Config.ScriptPosition → String
  | .body => "</body>"
  | .head => "</head>"

/-- Where scripts are linked and how bundles of them are transformed. -/
structure ScriptOptions where
  position : Config.ScriptPosition := .body
  transform : Path → String → Except Failure String := fun _ text => .ok text

/-- A bundle of scripts written as short as possible; of a blank one nothing is left. -/
def minifyScripts (text : String) : String :=
  if Text.allBlank text.toList then "" else Script.minify text

def ScriptOptions.bundleKind (options : ScriptOptions) : BundleKind where
  module := "scripts"
  fileName page := page ++ ".js"
  tag page := "<script src=\"" ++ page ++ ".js\"></script>"
  anchor := options.position.anchor
  globals page := page.declaration.globalScripts
  own mount := do Job.ofExcept (Files.readAll (← Job.disk) mount.declaration.externalScripts)
  follows _ := true
  transform := options.transform
  transformContext page := "script transform failed for page " ++ ticked page

/-- Makes the script bundle of every page and links it. -/
def bundleScripts (options : ScriptOptions) (layout : Layout) (pages : Pages .styled) :
    Job (Pages .scripted) := do
  return ⟨← options.bundleKind.bundlePages layout pages.html⟩

end SiteTree
