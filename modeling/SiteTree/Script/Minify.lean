import SiteTree.Text.Blank
import SiteTree.Text.Search

/-!
# Short scripts

A script loses the white space around it and the semicolon at its end. A script that could
not stand between `script` tags, because it closes them, is left as it is.
-/

namespace SiteTree.Script

/-- Does the text close a `script` tag and go on behind that? -/
def leavesElement (text : List Char) : Bool :=
  match Text.splitFirst? "</script>".toList text with
  | some (_, rest) => !rest.isEmpty
  | none => false

/-- The text without a semicolon at its end. -/
def dropSemicolon (text : List Char) : List Char :=
  if text.getLast? = some ';' then text.dropLast else text

def minify (script : String) : String :=
  let text := script.toList
  if leavesElement text then script else String.ofList (dropSemicolon (Text.trim text))

end SiteTree.Script
