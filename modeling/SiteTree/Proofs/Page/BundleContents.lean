import SiteTree.Page.Scripts
import SiteTree.Page.Styles
import SiteTree.Proofs.Component.ImportOrder
import SiteTree.Proofs.Job

/-!
# What bundles say

A bundle begins with the files that the pages on the way from the root share, the root's first.
Behind them comes what the component of the page and those embedded in it bring along, each in
the order in which it is met and only the first time.

* `PageTree.gathered_eq` — what a page gathers is what the pages on the way to it contribute.
* `BundleKind.contents_eq` — what a bundle consists of, whatever a component brings along.
* `BundleKind.bundlePages_eq` — bundles that are made of files as these are on the disk.
-/

namespace SiteTree

/-! ### The way to a page -/

namespace PageTree

/-- A page and the pages above it, the root first. -/
structure Trail where
  above : List Page
  page : Page

namespace Trail

/-- The pages from the root down to the page. -/
def pages (trail : Trail) : List Page :=
  trail.above ++ [trail.page]

/-- The trail with one more page at its top. -/
def under (page : Page) (trail : Trail) : Trail :=
  ⟨page :: trail.above, trail.page⟩

end Trail

mutual

/-- The ways down to all pages of a tree, in the order of the pages. -/
def trails : PageTree → List Trail
  | node page children => ⟨[], page⟩ :: (forestTrails children).map (Trail.under page)

def forestTrails : List PageTree → List Trail
  | [] => []
  | tree :: trees => tree.trails ++ forestTrails trees

end

mutual

theorem map_page_trails : ∀ tree : PageTree, tree.trails.map Trail.page = tree.pages
  | node page children => by
    rw [trails, pages, List.map_cons, List.map_map, ← map_page_forestTrails children]
    rfl

theorem map_page_forestTrails : ∀ trees : List PageTree,
    (forestTrails trees).map Trail.page = forestPages trees
  | [] => rfl
  | tree :: trees => by
    rw [forestTrails, forestPages, List.map_append, map_page_trails, map_page_forestTrails]

end

/-- Pages lead down from the root of a tree, each to one right below it. -/
inductive Leads : PageTree → List Page → Prop
  | here (page : Page) (children : List PageTree) : Leads (node page children) [page]
  | down (page : Page) {children : List PageTree} {child : PageTree} {pages : List Page}
      (hchild : child ∈ children) (hbelow : Leads child pages) :
      Leads (node page children) (page :: pages)

mutual

theorem leads_of_mem_trails {trail : Trail} : ∀ tree : PageTree,
    trail ∈ tree.trails → tree.Leads trail.pages
  | node page children, h => by
    rw [trails] at h
    rcases List.mem_cons.mp h with rfl | h
    · exact .here page children
    · obtain ⟨below, hbelow, rfl⟩ := List.mem_map.mp h
      obtain ⟨child, hchild, hleads⟩ := leads_of_mem_forestTrails children hbelow
      exact .down page hchild hleads

theorem leads_of_mem_forestTrails {trail : Trail} : ∀ trees : List PageTree,
    trail ∈ forestTrails trees → ∃ tree ∈ trees, tree.Leads trail.pages
  | [], h => nomatch h
  | tree :: trees, h => by
    rw [forestTrails] at h
    rcases List.mem_append.mp h with h | h
    · exact ⟨tree, List.mem_cons_self, leads_of_mem_trails tree h⟩
    · obtain ⟨other, hother, hleads⟩ := leads_of_mem_forestTrails trees h
      exact ⟨other, List.mem_cons_of_mem _ hother, hleads⟩

end

theorem mem_forestTrails {trees : List PageTree} {tree : PageTree} {trail : Trail}
    (htree : tree ∈ trees) (h : trail ∈ tree.trails) : trail ∈ forestTrails trees := by
  induction trees with
  | nil => cases htree
  | cons first trees ih =>
    rw [forestTrails, List.mem_append]
    rcases List.mem_cons.mp htree with rfl | htree
    · exact .inl h
    · exact .inr (ih htree)

/-- The trails of a tree are all the ways down from its root. -/
theorem mem_trails_iff {tree : PageTree} {pages : List Page} :
    (∃ trail ∈ tree.trails, trail.pages = pages) ↔ tree.Leads pages := by
  constructor
  · rintro ⟨trail, htrail, rfl⟩
    exact leads_of_mem_trails tree htrail
  · intro h
    induction h with
    | here page children =>
      rw [trails]
      exact ⟨⟨[], page⟩, List.mem_cons_self, rfl⟩
    | down page hchild _ ih =>
      obtain ⟨trail, htrail, rfl⟩ := ih
      rw [trails]
      refine ⟨trail.under page, List.mem_cons_of_mem _ ?_, rfl⟩
      exact List.mem_map_of_mem (mem_forestTrails hchild htrail)

section Gathered

variable {α : Type} (contribute : Page → List α)

mutual

/-- A page gathers what the pages on the way to it contribute, the root first. -/
theorem gathered_eq : ∀ (tree : PageTree) (inherited : List α),
    tree.gathered contribute inherited
      = tree.trails.map fun trail => (trail.page, inherited ++ trail.pages.flatMap contribute)
  | node page children, inherited => by
    rw [gathered, trails, List.map_cons, List.map_map, forestGathered_eq children]
    congr 1
    · simp [Trail.pages]
    · refine List.map_congr_left fun trail _ => ?_
      simp [Trail.pages, Trail.under]

theorem forestGathered_eq : ∀ (trees : List PageTree) (inherited : List α),
    forestGathered contribute inherited trees
      = (forestTrails trees).map fun trail =>
          (trail.page, inherited ++ trail.pages.flatMap contribute)
  | [], _ => rfl
  | tree :: trees, inherited => by
    rw [forestGathered, forestTrails, List.map_append, gathered_eq tree, forestGathered_eq trees]

end

end Gathered

end PageTree

/-! ### What a component and its imports bring along -/

/-- The components that a mount brings along, its own first, each once. -/
def Mount.visited (follows : Mount → Bool) (mount : Mount) : List Mount :=
  Mount.firstMet follows [mount] []

/-- Only what is embedded is visited. -/
theorem Mount.mem_unfolded_of_mem_visited {follows : Mount → Bool} {mount inner : Mount}
    (h : inner ∈ mount.visited follows) : inner ∈ mount.unfolded follows := by
  obtain ⟨first, hfirst, hinner⟩ := Mount.mem_unfolded_of_mem_firstMet h
  rwa [List.mem_singleton.mp hfirst] at hinner

theorem Mount.visited_eq_singleton {mount : Mount} (follows : Mount → Bool)
    (himports : mount.imports = []) : mount.visited follows = [mount] := by
  rw [Mount.visited, Mount.firstMet_cons_of_notMem List.not_mem_nil, himports, List.filter_nil,
    List.append_nil, Mount.firstMet_nil]

namespace BundleKind

open Mount (firstMet keysAfter)

mutual

/-- Gathering takes up what each component brings along in the order of the visits. -/
theorem gather_eq (kind : BundleKind) : ∀ (mount : Mount) (met : List Key),
    kind.gather mount met = do
      let own ← kind.own mount
      let texts ← (firstMet kind.follows (mount.imports.filter kind.follows) met).mapM kind.own
      return (own ++ String.join texts,
        keysAfter kind.follows (mount.imports.filter kind.follows) met)
  | .mk declaration overrides imports children, met => by
    rw [gather, gatherImports_eq kind imports met]
    simp only [bind_assoc, pure_bind, Mount.imports]

theorem gatherImports_eq (kind : BundleKind) : ∀ (mounts : List Mount) (met : List Key),
    kind.gatherImports mounts met = do
      let texts ← (firstMet kind.follows (mounts.filter kind.follows) met).mapM kind.own
      return (String.join texts, keysAfter kind.follows (mounts.filter kind.follows) met)
  | [], met => by
    rw [gatherImports, List.filter_nil, Mount.firstMet_nil, Mount.keysAfter_nil, List.mapM_nil,
      pure_bind, String.join_nil]
  | mount :: mounts, met => by
    rw [gatherImports]
    cases hfollows : kind.follows mount with
    | false =>
      rw [if_neg (by simp), List.filter_cons_of_neg (by simp [hfollows])]
      exact gatherImports_eq kind mounts met
    | true =>
      rw [List.filter_cons_of_pos hfollows]
      by_cases hmet : mount.key ∈ met
      · rw [if_neg (fun h => h.2 hmet), Mount.firstMet_cons_of_mem hmet,
          Mount.keysAfter_cons_of_mem hmet]
        exact gatherImports_eq kind mounts met
      · rw [if_pos ⟨rfl, hmet⟩, Mount.firstMet_cons_of_notMem hmet,
          Mount.keysAfter_cons_of_notMem hmet, Mount.firstMet_append, Mount.keysAfter_append,
          gather_eq kind mount]
        simp only [gatherImports_eq kind mounts, List.mapM_cons, List.mapM_append, bind_assoc,
          pure_bind, String.join_cons, String.join_append, String.append_assoc]

end

/-- A bundle is made of the files that hold for the page, and then of what each component that is
visited brings along. -/
theorem contents_eq (kind : BundleKind) (page : Page) (globals : List Path) :
    kind.contents page globals = do
      let shared ← Job.reading fun disk => Files.readAll disk globals
      let texts ← (page.mount.visited kind.follows).mapM kind.own
      return shared ++ String.join texts := by
  have hvisited : page.mount.visited kind.follows = page.mount ::
      firstMet kind.follows (page.mount.imports.filter kind.follows) [page.key] := by
    rw [Mount.visited, Mount.firstMet_cons_of_notMem List.not_mem_nil, List.append_nil]
    rfl
  rw [contents, gather_eq, hvisited]
  simp only [Job.reading, List.mapM_cons, bind_assoc, pure_bind, String.join_cons]

/-! ### Bundles made of files -/

/-- What components bring along depends on certain files only, and the bundle is not changed before
it is written. -/
structure Reads (kind : BundleKind) (files : Mount → List Path)
    (own : Disk → Mount → Except Failure String) : Prop where
  own_eq : ∀ mount, kind.own mount = Job.reading fun disk => own disk mount
  only : ∀ {first second : Disk} {mount : Mount},
    (∀ source ∈ files mount,
      (Files.read first source).toOption = (Files.read second source).toOption) →
    (own first mount).toOption = (own second mount).toOption
  transform : ∀ directory text, kind.transform directory text = .ok text

/-- The text of the bundle at the end of a trail, as the disk is. -/
def text (kind : BundleKind) (own : Disk → Mount → Except Failure String) (disk : Disk)
    (trail : PageTree.Trail) : Except Failure String := do
  let shared ← Files.readAll disk (trail.pages.flatMap kind.globals)
  let texts ← (trail.page.mount.visited kind.follows).mapM (own disk)
  return shared ++ String.join texts

/-- Makes the bundle at the end of a trail of the text that it has at that time. -/
def make (kind : BundleKind) (text : Disk → PageTree.Trail → Except Failure String)
    (trail : PageTree.Trail) (html : String) : Job String := do
  let text ← Job.reading fun disk => text disk trail
  kind.emit trail.page text html

variable {kind : BundleKind} {files : Mount → List Path}
  {own : Disk → Mount → Except Failure String}

theorem Reads.contents_eq (h : kind.Reads files own) (trail : PageTree.Trail) :
    kind.contents trail.page (trail.pages.flatMap kind.globals)
      = Job.reading fun disk => kind.text own disk trail := by
  have hown : kind.own = fun mount => Job.reading fun disk => own disk mount := funext h.own_eq
  rw [BundleKind.contents_eq, hown, Job.mapM_reading]
  simp only [Job.pure_eq_reading, Job.reading_bind]
  rfl

theorem Reads.bundlePage_eq (h : kind.Reads files own) (trail : PageTree.Trail) (html : String) :
    kind.bundlePage trail.page (trail.pages.flatMap kind.globals) html
      = kind.make (kind.text own) trail html := by
  rw [bundlePage, h.contents_eq, make]
  refine bind_congr fun text => ?_
  rw [h.transform]
  rfl

/-- Bundling takes the pages in order. Of each page that it gets to, it writes and links the text
that the files of the bundle have at that time. -/
theorem Reads.bundlePages_eq (h : kind.Reads files own) {layout : Layout} {html : List String}
    (hcount : html.length = layout.pages.length) :
    kind.bundlePages layout html
      = (layout.tree.trails.zip html).mapM fun item =>
          kind.make (kind.text own) item.1 item.2 := by
  rw [bundlePages, if_neg (not_not_intro hcount), PageTree.gathered_eq, List.zip_map_left,
    List.mapM_map]
  exact congrArg (List.mapM · _) (funext fun item => h.bundlePage_eq item.1 item.2)

end BundleKind

end SiteTree
