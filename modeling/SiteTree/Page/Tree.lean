import SiteTree.Component.Basic

/-!
# Trees of pages

A mounted component is a page with its children as the pages below it. The root page has a
directory; every other page has the one of its name in the directory of the page above it.
-/

namespace SiteTree

/-- A page: a mounted component and the directory that it is written to. -/
structure Page where
  mount : Mount
  directory : Path

namespace Page

def name (page : Page) : String :=
  page.mount.name

def key (page : Page) : Key :=
  page.mount.key

def declaration (page : Page) : Declaration :=
  page.mount.declaration

end Page

/-- A page with the pages below it. -/
inductive PageTree where
  | node (page : Page) (children : List PageTree)

namespace PageTree

def page : PageTree → Page
  | node page _ => page

def children : PageTree → List PageTree
  | node _ children => children

/-! ### Directories -/

mutual

/-- The tree of a mount whose page is written to the directory given. -/
def ofMount (directory : Path) : Mount → PageTree
  | .mk declaration overrides imports children =>
    .node ⟨.mk declaration overrides imports children, directory⟩ (forestOf directory children)

/-- The trees of mounts whose pages are written below the directory given. -/
def forestOf (directory : Path) : List Mount → List PageTree
  | [] => []
  | child :: children =>
    ofMount (directory.join ⟨child.name⟩) child :: forestOf directory children

end

/-! ### Pages in order -/

mutual

/-- The pages of a tree, each before the pages below it. -/
def pages : PageTree → List Page
  | node page children => page :: forestPages children

def forestPages : List PageTree → List Page
  | [] => []
  | tree :: trees => tree.pages ++ forestPages trees

end

mutual

/-- The pages in order, each with what it gathers on the way from the root: what the pages
above it contribute, the root first, and what it contributes itself. -/
def gathered {α : Type} (contribute : Page → List α) (inherited : List α) :
    PageTree → List (Page × List α)
  | node page children =>
    let all := inherited ++ contribute page
    (page, all) :: forestGathered contribute all children

def forestGathered {α : Type} (contribute : Page → List α) (inherited : List α) :
    List PageTree → List (Page × List α)
  | [] => []
  | tree :: trees =>
    tree.gathered contribute inherited ++ forestGathered contribute inherited trees

end

/-! ### Positions -/

/-- A page, and the positions of the pages right below it in the order of all pages. -/
structure Numbered where
  page : Page
  children : List Nat

mutual

/-- The number of pages in a tree. -/
def size : PageTree → Nat
  | node _ children => 1 + forestSize children

def forestSize : List PageTree → Nat
  | [] => 0
  | tree :: trees => tree.size + forestSize trees

end

/-- The positions of the roots of trees whose pages are numbered from `next` on. -/
def rootPositions (next : Nat) : List PageTree → List Nat
  | [] => []
  | tree :: trees => next :: rootPositions (next + tree.size) trees

mutual

/-- The pages in order, numbered from `position` on. -/
def numbered (position : Nat) : PageTree → List Numbered
  | node page children =>
    ⟨page, rootPositions (position + 1) children⟩ :: forestNumbered (position + 1) children

def forestNumbered (position : Nat) : List PageTree → List Numbered
  | [] => []
  | tree :: trees => tree.numbered position ++ forestNumbered (position + tree.size) trees

end

end PageTree

end SiteTree
