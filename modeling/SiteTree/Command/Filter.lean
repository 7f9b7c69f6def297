import SiteTree.Command.Concatenate
import SiteTree.Command.Transliterate

/-!
# Filter programs

The programs that are installed besides the shell.
-/

namespace SiteTree.Command

/-- The program that does nothing and fails. -/
def failing : Program := fun invocation =>
  { ending := .exited 1, unread := invocation.input }

/-- The filters by name. -/
def filters : List (String × Program) :=
  [("cat", cat), ("tr", tr), ("false", failing)]

end SiteTree.Command
