import SiteTree.Markup.Minify
import SiteTree.Page.Layout
import SiteTree.Page.Stage

/-!
# Writing pages

Every page is the index of its directory.
-/

namespace SiteTree

/-- Writes one page. -/
def writePage (minify : Bool) (page : Page) (html : String) : Job Unit :=
  Job.within ("failed to write page " ++ ticked page.name)
    (Files.write (page.directory.join ⟨"index.html"⟩)
      (if minify then Markup.minify html else html))

/-- Writes all pages and answers how many there are. -/
def writePages (layout : Layout) (pages : Pages .scripted) (minify : Bool) : Job Nat := do
  if pages.html.length ≠ layout.pages.length then
    throw (.plain "page count does not match layout")
  else
    for (page, html) in layout.pages.zip pages.html do
      writePage minify page html
    return pages.html.length

end SiteTree
