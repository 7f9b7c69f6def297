import SiteTree.Text.Utf8

/-!
# Console lines

A line is written behind the name of the module it comes from and is cut to the width of
the console. It begins with the control sequence that clears the line.
-/

namespace SiteTree.Console

/-- The width that lines are cut to, in bytes. -/
def width : Nat := 120

/-- The escape character. -/
def escape : String := "\x1b"

/-- The colour code of a module's name. -/
def colour (module : String) : String :=
  match String.ofList (module.toList.map Char.toLower) with
  | "build" => "1;95"
  | "done" => "1;92"
  | "warn" => "1;33"
  | "error" => "1;91"
  | _ => "1;93"

/-- The message cut to what the console has room for behind the module's name. -/
def fit (module message : String) : String :=
  String.ofList (Text.truncateBytes (width - (module.utf8ByteSize + 3)) message.toList)

/-- The control sequence that ends a style. -/
def reset : String := escape ++ "[0m"

/-- A text in the style that a control sequence begins. Where the text ends the style itself,
the style begins anew. -/
def inStyle (style text : String) : String :=
  style ++ (reset ++ style).intercalate (text.splitOn reset) ++ reset

/-- A line as it is written, its end included. -/
def line (coloured : Bool) (module message : String) : String :=
  let label := "[" ++ module ++ "]"
  let label := if coloured then inStyle (escape ++ "[" ++ colour module ++ "m") label else label
  escape ++ "[K" ++ label ++ " " ++ fit module message ++ "\n"

end SiteTree.Console
