import SiteTree.Page.Layout
import SiteTree.Proofs.Outcome
import SiteTree.Proofs.Path

/-!
# Directories of pages

The directory of a page below another one is the directory of that page and one name more.

* `PageTree.nodup_pages_iff` — the directories of all pages denote different paths exactly when
  the names of the children of each page do.
* `Layout.pageNames_of_walk` — laying out a site makes sure that all children have such names.
-/

namespace SiteTree

/-! ### Children of every page -/

namespace Mount

mutual

/-- Does something hold of the children of each page of the tree? -/
def EveryPage (property : List Mount → Prop) : Mount → Prop
  | mk _ _ _ children => property children ∧ AllPages property children

def AllPages (property : List Mount → Prop) : List Mount → Prop
  | [] => True
  | mount :: mounts => mount.EveryPage property ∧ AllPages property mounts

end

/-- The components that the name of a child adds to the directory of its parent. -/
def added (mount : Mount) : List Path.Component :=
  (Path.mk mount.name).components

/-- Each of the children is named by one ordinary component. -/
def NamesOfPages (children : List Mount) : Prop :=
  ∀ child ∈ children, Layout.isPageName child.name = true

/-- Every page below another one is named by one ordinary component. -/
def PageNames (mount : Mount) : Prop :=
  mount.EveryPage NamesOfPages

/-- No two children of a page have names that denote the same path. -/
def ChildrenApart (mount : Mount) : Prop :=
  mount.EveryPage fun children => (children.map added).Nodup

end Mount

theorem isName_of_isPageName {name : String} (h : Layout.isPageName name = true) :
    ∃ component, Path.IsName ⟨name⟩ component := by
  unfold Layout.isPageName at h
  split at h
  · next component hcomponents => exact ⟨component, Path.isName_of_components hcomponents⟩
  · cases h

theorem components_join_of_isPageName {child : Mount} (h : Layout.isPageName child.name = true)
    (directory : Path) :
    (directory.join ⟨child.name⟩).components = directory.components ++ child.added := by
  obtain ⟨component, hname⟩ := isName_of_isPageName h
  rw [Path.components_join hname, Mount.added, hname.components]

theorem exists_added {child : Mount} (h : Layout.isPageName child.name = true) :
    ∃ component, child.added = [component] := by
  obtain ⟨component, hname⟩ := isName_of_isPageName h
  exact ⟨.name component, hname.components⟩

/-! ### The pages below a directory -/

namespace PageTree

variable {page : Page}

mutual

/-- The directories of all pages of a tree begin like that of its root. -/
theorem prefix_of_mem_pages : ∀ (mount : Mount) (directory : Path), mount.PageNames →
    page ∈ (ofMount directory mount).pages → directory.components <+: page.directory.components
  | .mk declaration overrides imports children, directory, hnames, hpage => by
    rw [ofMount, pages] at hpage
    rcases List.mem_cons.mp hpage with rfl | hpage
    · exact List.prefix_refl _
    · obtain ⟨child, -, hprefix⟩ :=
        prefix_of_mem_forest children directory hnames.1 hnames.2 hpage
      exact (List.prefix_append _ _).trans hprefix

/-- The directory of a page below another one begins like that of one of the children. -/
theorem prefix_of_mem_forest : ∀ (children : List Mount) (directory : Path),
    Mount.NamesOfPages children → Mount.AllPages Mount.NamesOfPages children →
    page ∈ forestPages (forestOf directory children) →
    ∃ child ∈ children, directory.components ++ child.added <+: page.directory.components
  | [], _, _, _, hpage => by simp [forestOf, forestPages] at hpage
  | child :: children, directory, hchildren, hall, hpage => by
    rw [forestOf, forestPages] at hpage
    rcases List.mem_append.mp hpage with hpage | hpage
    · refine ⟨child, List.mem_cons_self, ?_⟩
      rw [← components_join_of_isPageName (hchildren child List.mem_cons_self)]
      exact prefix_of_mem_pages child _ hall.1 hpage
    · obtain ⟨other, hother, hprefix⟩ := prefix_of_mem_forest children directory
        (fun c hc => hchildren c (List.mem_cons_of_mem _ hc)) hall.2 hpage
      exact ⟨other, List.mem_cons_of_mem _ hother, hprefix⟩

end

theorem root_mem_pages (mount : Mount) (directory : Path) :
    ⟨mount, directory⟩ ∈ (ofMount directory mount).pages := by
  cases mount with
  | mk declaration overrides imports children =>
    rw [ofMount, pages]
    exact List.mem_cons_self

theorem child_mem_forest {child : Mount} {children : List Mount} (hchild : child ∈ children)
    (directory : Path) :
    ⟨child, directory.join ⟨child.name⟩⟩ ∈ forestPages (forestOf directory children) := by
  induction children with
  | nil => cases hchild
  | cons other children ih =>
    rw [forestOf, forestPages]
    rcases List.mem_cons.mp hchild with rfl | hchild
    · exact List.mem_append_left _ (root_mem_pages _ _)
    · exact List.mem_append_right _ (ih hchild)

/-- Two names that a directory is continued with at the start of one path are the same. -/
theorem added_eq_of_prefix {child other : Mount} (hchild : Layout.isPageName child.name = true)
    (hother : Layout.isPageName other.name = true) {base path : List Path.Component}
    (hfirst : base ++ child.added <+: path) (hsecond : base ++ other.added <+: path) :
    child.added = other.added := by
  obtain ⟨first, hadded⟩ := exists_added hchild
  obtain ⟨second, hadded'⟩ := exists_added hother
  rw [hadded] at hfirst ⊢
  rw [hadded'] at hsecond ⊢
  have hsame := (List.prefix_of_prefix_length_le hfirst hsecond (by simp)).eq_of_length (by simp)
  exact List.append_cancel_left hsame

/-- The pages of a tree and those of the trees beside it have directories apart exactly when no
root beside it has a name that denotes the same path. -/
theorem apart_forest_iff {child : Mount} {children : List Mount} {directory : Path}
    (hchild : Layout.isPageName child.name = true) (hown : child.PageNames)
    (hothers : Mount.NamesOfPages children) (hall : Mount.AllPages Mount.NamesOfPages children) :
    (∀ first ∈ (ofMount (directory.join ⟨child.name⟩) child).pages.map
        fun page => page.directory.components,
      ∀ second ∈ (forestPages (forestOf directory children)).map
        fun page => page.directory.components, first ≠ second)
    ↔ child.added ∉ children.map Mount.added := by
  have hcomponents := components_join_of_isPageName hchild directory
  constructor
  · intro hne hmem
    obtain ⟨other, hother, hadded⟩ := List.mem_map.mp hmem
    refine hne _ (List.mem_map_of_mem (root_mem_pages child _)) _
      (List.mem_map_of_mem (child_mem_forest hother directory)) ?_
    change (directory.join ⟨child.name⟩).components = (directory.join ⟨other.name⟩).components
    rw [hcomponents, components_join_of_isPageName (hothers other hother), hadded]
  · intro hnot first hfirst second hsecond heq
    obtain ⟨firstPage, hfirstPage, rfl⟩ := List.mem_map.mp hfirst
    obtain ⟨secondPage, hsecondPage, rfl⟩ := List.mem_map.mp hsecond
    obtain ⟨other, hother, hprefix⟩ :=
      prefix_of_mem_forest children directory hothers hall hsecondPage
    have hbelow := prefix_of_mem_pages child _ hown hfirstPage
    rw [hcomponents, heq] at hbelow
    have hadded := added_eq_of_prefix hchild (hothers other hother) hbelow hprefix
    exact hnot (hadded ▸ List.mem_map_of_mem hother)

mutual

theorem nodup_pages_iff : ∀ (mount : Mount) (directory : Path), mount.PageNames →
    (((ofMount directory mount).pages.map fun page => page.directory.components).Nodup
      ↔ mount.ChildrenApart)
  | .mk declaration overrides imports children, directory, hnames => by
    -- What is below a page has a longer path.
    have hroot : directory.components ∉ (forestPages (forestOf directory children)).map
        fun page => page.directory.components := by
      intro hmem
      obtain ⟨page, hpage, heq⟩ := List.mem_map.mp hmem
      obtain ⟨child, hchild, hprefix⟩ :=
        prefix_of_mem_forest children directory hnames.1 hnames.2 hpage
      obtain ⟨component, hadded⟩ := exists_added (hnames.1 child hchild)
      have hlength := hprefix.length_le
      rw [heq, hadded, List.length_append, List.length_singleton] at hlength
      omega
    rw [ofMount, pages, List.map_cons, List.nodup_cons, and_iff_right hroot,
      nodup_forest_iff children directory hnames.1 hnames.2]
    rfl

theorem nodup_forest_iff : ∀ (children : List Mount) (directory : Path),
    Mount.NamesOfPages children → Mount.AllPages Mount.NamesOfPages children →
    (((forestPages (forestOf directory children)).map fun page =>
        page.directory.components).Nodup
      ↔ (children.map Mount.added).Nodup
        ∧ Mount.AllPages (fun children => (children.map Mount.added).Nodup) children)
  | [], directory, _, _ => by simp [forestOf, forestPages, Mount.AllPages]
  | child :: children, directory, hchildren, hall => by
    have hchild := hchildren child List.mem_cons_self
    have hothers : Mount.NamesOfPages children :=
      fun other hother => hchildren other (List.mem_cons_of_mem _ hother)
    rw [forestOf, forestPages, List.map_append, List.nodup_append,
      apart_forest_iff hchild hall.1 hothers hall.2,
      nodup_pages_iff child _ hall.1, nodup_forest_iff children directory hothers hall.2,
      List.map_cons, List.nodup_cons]
    constructor
    · rintro ⟨hpages, ⟨hnodup, hbelow⟩, hnew⟩
      exact ⟨⟨hnew, hnodup⟩, hpages, hbelow⟩
    · rintro ⟨⟨hnew, hnodup⟩, hpages, hbelow⟩
      exact ⟨hpages, ⟨hnodup, hbelow⟩, hnew⟩

end

end PageTree

/-! ### Laying out -/

namespace Layout

theorem isPageName_of_inspect {parent name : String} {siblings : List String}
    {session later : Session} {result : Unit}
    (h : (inspect parent siblings name).run.run session = (.ok result, later)) :
    isPageName name = true := by
  unfold inspect at h
  split at h
  · cases h
  · next hname => simpa using hname

mutual

theorem pageNames_of_visit : ∀ (mount : Mount) (directory : Path) (entered keys : List Key)
    (session later : Session),
    (visit directory mount entered).run.run session = (.ok keys, later) → mount.PageNames
  | .mk declaration overrides imports children, directory, entered, keys, session, later, h => by
    rw [visit] at h
    obtain ⟨_, _, -, h⟩ := run_bind_eq_ok h
    exact pageNames_of_visitChildren children directory _ _ _ _ _ _ h

theorem pageNames_of_visitChildren : ∀ (children : List Mount) (directory : Path)
    (parent : String) (siblings : List String) (entered keys : List Key)
    (session later : Session),
    (visitChildren directory parent siblings children entered).run.run session
      = (.ok keys, later) →
    Mount.NamesOfPages children ∧ Mount.AllPages Mount.NamesOfPages children
  | [], _, _, _, _, _, _, _, _ => ⟨nofun, trivial⟩
  | child :: children, directory, parent, siblings, entered, keys, session, later, h => by
    rw [visitChildren] at h
    obtain ⟨_, _, hinspect, h⟩ := run_bind_eq_ok h
    obtain ⟨_, _, hvisit, h⟩ := run_bind_eq_ok h
    obtain ⟨hothers, hall⟩ := pageNames_of_visitChildren children _ _ _ _ _ _ _ h
    refine ⟨?_, pageNames_of_visit child _ _ _ _ _ hvisit, hall⟩
    rintro other (_ | ⟨_, hother⟩)
    · exact isPageName_of_inspect hinspect
    · exact hothers other hother

end

/-- A site that is laid out is the tree of its root, all of whose children have names of
their own. -/
theorem pageNames_of_walk {σ : Type} {root : Mount} {output : Path} {registry : Registry σ}
    {session later : Session} {layout : Layout}
    (h : (walk root output registry).run.run session = (.ok layout, later)) :
    layout.tree = PageTree.ofMount output root ∧ root.PageNames := by
  rw [walk] at h
  obtain ⟨_, _, hvisit, h⟩ := run_bind_eq_ok h
  obtain ⟨_, _, -, h⟩ := run_bind_eq_ok h
  cases h
  exact ⟨rfl, pageNames_of_visit root output _ _ _ _ hvisit⟩

/-! ### Steps of a successful walk -/

section Walks

variable {directory : Path} {entered : List Key} {session : Session} {disk : Disk}

theorem run_enter {name : String} {key : Key} (hkey : key ∉ entered)
    (hmake : session.disk.makeDirectories directory = (none, disk)) :
    (enter directory name key entered).run.run session
      = (.ok (key :: entered), { session with disk }) := by
  have hdisk : Job.disk.run.run session = (.ok session.disk, session) := rfl
  rw [enter, if_neg hkey, run_bind, Job.within, run_adapt, Files.makeDirectory,
    Job.changeAnyway, run_bind, hdisk]
  dsimp only
  rw [hmake]
  rfl

/-- A page that was not entered before is entered, and then its children are. -/
theorem run_visit {declaration : Declaration} {overrides : Option Json}
    {imports children : List Mount} (hkey : declaration.key ∉ entered)
    (hmake : session.disk.makeDirectories directory = (none, disk)) :
    (visit directory (.mk declaration overrides imports children) entered).run.run session
      = (visitChildren directory declaration.name [] children
          (declaration.key :: entered)).run.run { session with disk } := by
  rw [visit, run_bind, run_enter hkey hmake]

theorem run_visit_leaf {declaration : Declaration} {overrides : Option Json}
    {imports : List Mount} (hkey : declaration.key ∉ entered)
    (hmake : session.disk.makeDirectories directory = (none, disk)) :
    (visit directory (.mk declaration overrides imports []) entered).run.run session
      = (.ok (declaration.key :: entered), { session with disk }) := by
  rw [run_visit hkey hmake, visitChildren]
  rfl

/-- A child with a new name is visited before the children after it. -/
theorem run_visitChildren {parent : String} {siblings : List String} {child : Mount}
    {children : List Mount} {keys : List Key} {later : Session}
    (hname : isPageName child.name = true) (hnew : child.name ∉ siblings)
    (hvisit : (visit (directory.join ⟨child.name⟩) child entered).run.run session
      = (.ok keys, later)) :
    (visitChildren directory parent siblings (child :: children) entered).run.run session
      = (visitChildren directory parent (siblings ++ [child.name]) children keys).run.run
          later := by
  have hinspect : (inspect parent siblings child.name).run.run session = (.ok (), session) := by
    rw [inspect, if_neg (by simp [hname]), if_neg hnew]
    rfl
  rw [visitChildren, run_bind, hinspect]
  dsimp only
  rw [run_bind, hvisit]

end Walks

end Layout

end SiteTree
