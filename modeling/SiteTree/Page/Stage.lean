/-!
# Stages of pages

The markup of a site's pages is compiled, then linked to styles, then linked to scripts. The
stage is part of the type, so no stage can be left out or run twice.
-/

namespace SiteTree

inductive Stage where
  | compiled
  | styled
  | scripted
  deriving DecidableEq, Repr

/-- The markup of all pages at a stage, in the order of the pages. -/
structure Pages (stage : Stage) where
  html : List String
  deriving DecidableEq, Repr

end SiteTree
