import SiteTree.Markup.Tag
import SiteTree.Text.Search

/-!
# Short markup

White space next to the tags of blocks and at the ends of a document goes away; other white
space becomes one blank. Comments are dropped.
-/

namespace SiteTree.Markup

/-- Names of elements that are laid out as blocks or not shown at all. -/
def blockNames : List (List Char) :=
  ["html", "head", "body", "title", "meta", "link", "script", "style", "div", "p", "h1", "h2",
    "h3", "h4", "h5", "h6", "ul", "ol", "li", "dl", "dt", "dd", "nav", "main", "section",
    "article", "aside", "header", "footer", "table", "thead", "tbody", "tfoot", "tr", "td", "th",
    "form", "fieldset", "figure", "figcaption", "blockquote", "pre", "hr", "br", "address",
    "details", "summary"].map String.toList

/-- A tag of any kind, as it is written, or a run of text. -/
inductive Chunk where
  | tag (written : List Char)
  | text (text : List Char)

/-- The chunks of a document. Comments are left out. -/
def chunks : Nat → List Char → List Chunk
  | 0, _ => []
  | _, [] => []
  | fuel + 1, text =>
    match Text.after? "<!--".toList text with
    | some rest =>
      match Text.splitFirst? "-->".toList rest with
      | some (_, rest) => chunks fuel rest
      | none => []
    | none =>
      match text with
      | '<' :: rest =>
        match tagBody? none rest with
        | some (body, rest) => .tag ('<' :: body ++ ['>']) :: chunks fuel rest
        | none => [.text text]
      | _ => .text (text.takeWhile (· != '<')) :: chunks fuel (text.dropWhile (· != '<'))

/-- The name in a tag, in small letters. -/
def tagName (written : List Char) : List Char :=
  ((written.dropWhile fun c => c == '<' || c == '/').takeWhile isNameChar).map Char.toLower

/-- Is there nothing beside the text, or the tag of a block? -/
def isEdge : Option Chunk → Bool
  | none => true
  | some (.tag written) => blockNames.contains (tagName written)
  | some (.text _) => false

/-- The text with one blank for every run of white space. -/
def collapse : List Char → List Char
  | [] => []
  | c :: rest =>
    if Text.isBlank c then
      match rest with
      | d :: _ => if Text.isBlank d then collapse rest else ' ' :: collapse rest
      | [] => [' ']
    else c :: collapse rest

def writeChunks (before : Option Chunk) : List Chunk → List Char
  | [] => []
  | .tag written :: rest => written ++ writeChunks (some (.tag written)) rest
  | .text text :: rest =>
    let shown := collapse text
    let shown := if isEdge before then Text.trimStart shown else shown
    let shown := if isEdge rest.head? then Text.trimEnd shown else shown
    shown ++ writeChunks (some (.text text)) rest

def minify (html : String) : String :=
  String.ofList (writeChunks none (chunks (html.length + 1) html.toList))

end SiteTree.Markup
