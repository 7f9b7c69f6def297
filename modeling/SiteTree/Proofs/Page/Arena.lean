import SiteTree.Proofs.Page.Output
import Mathlib.Data.List.Perm.Basic
import Mathlib.Logic.Relation

/-!
# Positions of pages

The pages of a site stand in one list, each with the positions of the pages right below it. The
list can be filled in one pass down the tree: a page is put at the end, and the position of a page
below it is noted when all that is below that one has been put down.

* `PageTree.fill_eq` — such a pass leaves every page with the positions of its children.
* `PageTree.below_iff` — what is below a page are the pages that follow it, as many as its tree has.
* `Layout.arena_preorder` — the list for a site that is laid out is its tree in preorder.
-/

namespace SiteTree

namespace Mount

mutual

/-- The mounts of a tree of pages, each before those below it. -/
def preorder : Mount → List Mount
  | mk declaration overrides imports children =>
    mk declaration overrides imports children :: forestPreorder children

def forestPreorder : List Mount → List Mount
  | [] => []
  | mount :: mounts => mount.preorder ++ forestPreorder mounts

end

end Mount

namespace PageTree

/-! ### Filling a list of pages -/

mutual

/-- Puts the pages of a tree at the end of a list. -/
def fill (nodes : List Numbered) : PageTree → List Numbered
  | node page children => fillChildren nodes.length (nodes ++ [⟨page, []⟩]) children

/-- Puts the pages of trees at the end of a list, and notes where their roots are at the page
above them, the position of which is given. -/
def fillChildren (above : Nat) (nodes : List Numbered) : List PageTree → List Numbered
  | [] => nodes
  | tree :: trees =>
    let filled := fill nodes tree
    fillChildren above
      (filled.modify above fun node => { node with children := node.children ++ [nodes.length] })
      trees

end

/-! ### Numbers of pages -/

mutual

theorem length_numbered (position : Nat) : ∀ tree : PageTree,
    (tree.numbered position).length = tree.size
  | node page children => by
    rw [numbered, List.length_cons, length_forestNumbered (position + 1) children, size]
    exact Nat.add_comm ..

theorem length_forestNumbered (position : Nat) : ∀ trees : List PageTree,
    (forestNumbered position trees).length = forestSize trees
  | [] => rfl
  | tree :: trees => by
    rw [forestNumbered, List.length_append, length_numbered position tree,
      length_forestNumbered (position + tree.size) trees, forestSize]

end

mutual

theorem map_page_numbered (position : Nat) : ∀ tree : PageTree,
    (tree.numbered position).map Numbered.page = tree.pages
  | node page children => by
    rw [numbered, pages, List.map_cons, map_page_forestNumbered (position + 1) children]

theorem map_page_forestNumbered (position : Nat) : ∀ trees : List PageTree,
    (forestNumbered position trees).map Numbered.page = forestPages trees
  | [] => rfl
  | tree :: trees => by
    rw [forestNumbered, forestPages, List.map_append, map_page_numbered position tree,
      map_page_forestNumbered (position + tree.size) trees]

end

mutual

theorem map_mount_pages (directory : Path) : ∀ mount : Mount,
    (ofMount directory mount).pages.map Page.mount = mount.preorder
  | .mk declaration overrides imports children => by
    rw [ofMount, pages, Mount.preorder, List.map_cons, map_mount_forestPages directory children]

theorem map_mount_forestPages (directory : Path) : ∀ children : List Mount,
    (forestPages (forestOf directory children)).map Page.mount = Mount.forestPreorder children
  | [] => rfl
  | child :: children => by
    rw [forestOf, forestPages, Mount.forestPreorder, List.map_append,
      map_mount_pages _ child, map_mount_forestPages directory children]

end

theorem size_ofMount (directory : Path) (mount : Mount) :
    (ofMount directory mount).size = mount.preorder.length := by
  rw [← length_numbered 0, ← map_mount_pages directory, ← map_page_numbered 0, List.length_map,
    List.length_map]

/-! ### The filled list -/

mutual

/-- Filling puts the numbered pages of the tree behind what is there. -/
theorem fill_eq (nodes : List Numbered) : ∀ tree : PageTree,
    fill nodes tree = nodes ++ tree.numbered nodes.length
  | node page children => by
    rw [fill, fillChildren_eq page children nodes [] [], numbered]
    rfl

/-- The page above stands between what was there before it and what is below it already. -/
theorem fillChildren_eq (page : Page) : ∀ (trees : List PageTree) (before below : List Numbered)
    (noted : List Nat),
    fillChildren before.length (before ++ ⟨page, noted⟩ :: below) trees
      = before ++ ⟨page, noted ++ rootPositions (before.length + 1 + below.length) trees⟩
          :: (below ++ forestNumbered (before.length + 1 + below.length) trees)
  | [], before, below, noted => by
    rw [fillChildren, rootPositions, forestNumbered, List.append_nil, List.append_nil]
  | tree :: trees, before, below, noted => by
    have hlength : (before ++ ⟨page, noted⟩ :: below).length
        = before.length + 1 + below.length := by
      rw [List.length_append, List.length_cons]
      omega
    have hbelow : before.length + 1 + (below ++ tree.numbered
        (before.length + 1 + below.length)).length
          = before.length + 1 + below.length + tree.size := by
      rw [List.length_append, length_numbered]
      omega
    have hnote : (before ++ ⟨page, noted⟩ :: (below ++ tree.numbered
        (before.length + 1 + below.length))).modify before.length
          (fun node => { node with
            children := node.children ++ [before.length + 1 + below.length] })
        = before ++ ⟨page, noted ++ [before.length + 1 + below.length]⟩
            :: (below ++ tree.numbered (before.length + 1 + below.length)) := by
      simp [List.modify_eq_take_cons_drop]
    rw [fillChildren, fill_eq _ tree, hlength, List.append_assoc, List.cons_append, hnote,
      fillChildren_eq page trees, hbelow, rootPositions, forestNumbered, List.append_assoc,
      List.append_assoc]
    rfl

end

/-! ### Parts of the list -/

/-- Some nodes stand one behind the other in a list, the first of them at the position given. -/
def StandsAt (nodes : List Numbered) (position : Nat) (part : List Numbered) : Prop :=
  part <+: nodes.drop position

variable {nodes : List Numbered} {position : Nat}

theorem StandsAt.getElem? {part : List Numbered} (h : StandsAt nodes position part) {n : Nat}
    (hn : n < part.length) : nodes[position + n]? = part[n]? := by
  obtain ⟨rest, hrest⟩ := h
  rw [← List.getElem?_drop, ← hrest, List.getElem?_append_left hn]

theorem StandsAt.left {first second : List Numbered}
    (h : StandsAt nodes position (first ++ second)) : StandsAt nodes position first :=
  (List.prefix_append first second).trans h

theorem StandsAt.right {first second : List Numbered}
    (h : StandsAt nodes position (first ++ second)) :
    StandsAt nodes (position + first.length) second := by
  obtain ⟨rest, hrest⟩ := h
  rw [StandsAt, ← List.drop_drop, ← hrest, List.append_assoc, List.drop_left]
  exact List.prefix_append second rest

theorem StandsAt.below {page : Page} {children : List PageTree}
    (h : StandsAt nodes position ((node page children).numbered position)) :
    StandsAt nodes (position + 1) (forestNumbered (position + 1) children) := by
  rw [numbered, ← List.singleton_append] at h
  exact h.right

theorem StandsAt.first {tree : PageTree} {trees : List PageTree}
    (h : StandsAt nodes position (forestNumbered position (tree :: trees))) :
    StandsAt nodes position (tree.numbered position) := by
  rw [forestNumbered] at h
  exact h.left

theorem StandsAt.others {tree : PageTree} {trees : List PageTree}
    (h : StandsAt nodes position (forestNumbered position (tree :: trees))) :
    StandsAt nodes (position + tree.size) (forestNumbered (position + tree.size) trees) := by
  rw [forestNumbered] at h
  have hright := h.right
  rwa [length_numbered] at hright

theorem StandsAt.root {tree : PageTree}
    (h : StandsAt nodes position (tree.numbered position)) :
    nodes[position]? = some ⟨tree.page, rootPositions (position + 1) tree.children⟩ := by
  cases tree with
  | node page children =>
    rw [numbered] at h
    exact h.getElem? (n := 0) (Nat.zero_lt_succ _)

mutual

/-- At every position in the list of a tree, the list of a tree below it begins. -/
theorem exists_standsAt_of_lt : ∀ (mount : Mount) (directory : Path) (position n : Nat),
    n < (ofMount directory mount).size → ∃ (inner : Mount) (place : Path),
      StandsAt ((ofMount directory mount).numbered position) n
        ((ofMount place inner).numbered (position + n))
  | .mk declaration overrides imports children, directory, position, n, hn => by
    cases n with
    | zero => exact ⟨.mk declaration overrides imports children, directory, List.prefix_refl _⟩
    | succ n =>
      rw [ofMount, size] at hn
      obtain ⟨inner, place, hinner⟩ :=
        exists_standsAt_of_lt_forest children directory (position + 1) n (by omega)
      refine ⟨inner, place, ?_⟩
      rw [StandsAt, ofMount, numbered, List.drop_succ_cons]
      rwa [show position + (n + 1) = position + 1 + n by omega]

theorem exists_standsAt_of_lt_forest : ∀ (children : List Mount) (directory : Path)
    (position n : Nat), n < forestSize (forestOf directory children) →
    ∃ (inner : Mount) (place : Path),
      StandsAt (forestNumbered position (forestOf directory children)) n
        ((ofMount place inner).numbered (position + n))
  | [], _, _, _, hn => by
    rw [forestOf, forestSize] at hn
    omega
  | child :: children, directory, position, n, hn => by
    rw [forestOf, forestSize] at hn
    rw [forestOf, forestNumbered]
    by_cases hfirst : n < (ofMount (directory.join ⟨child.name⟩) child).size
    · obtain ⟨inner, place, hinner⟩ := exists_standsAt_of_lt child _ position n hfirst
      refine ⟨inner, place, ?_⟩
      rw [StandsAt, List.drop_append_of_le_length (by rw [length_numbered]; omega)]
      exact hinner.trans (List.prefix_append _ _)
    · obtain ⟨inner, place, hinner⟩ := exists_standsAt_of_lt_forest children directory
        (position + (ofMount (directory.join ⟨child.name⟩) child).size)
        (n - (ofMount (directory.join ⟨child.name⟩) child).size) (by omega)
      refine ⟨inner, place, ?_⟩
      rw [StandsAt, List.drop_append, List.drop_eq_nil_of_le (by rw [length_numbered]; omega),
        List.nil_append, length_numbered]
      rwa [show position + n = position + (ofMount (directory.join ⟨child.name⟩) child).size
        + (n - (ofMount (directory.join ⟨child.name⟩) child).size) by omega]

end

/-! ### Children -/

/-- The positions noted at a page are those of the roots of the trees right below it. -/
theorem map_page_rootPositions {position : Nat} : ∀ {trees : List PageTree},
    StandsAt nodes position (forestNumbered position trees) →
    (rootPositions position trees).map (fun n => nodes[n]?.map Numbered.page)
      = trees.map fun tree => some tree.page
  | [], _ => rfl
  | tree :: trees, h => by
    rw [rootPositions, List.map_cons, List.map_cons, h.first.root, map_page_rootPositions h.others]
    rfl

theorem map_page_forestOf (directory : Path) (children : List Mount) :
    (forestOf directory children).map page
      = children.map fun child => ⟨child, directory.join ⟨child.name⟩⟩ := by
  induction children with
  | nil => rfl
  | cons child children ih =>
    obtain ⟨declaration, overrides, imports, below⟩ := child
    rw [forestOf, List.map_cons, List.map_cons, ih, ofMount]
    rfl

theorem le_of_mem_rootPositions {position n : Nat} : ∀ {trees : List PageTree},
    n ∈ rootPositions position trees → position ≤ n
  | [], h => nomatch h
  | tree :: trees, h => by
    rw [rootPositions] at h
    rcases List.mem_cons.mp h with rfl | h
    · exact Nat.le_refl _
    · exact Nat.le_trans (Nat.le_add_right ..) (le_of_mem_rootPositions h)

theorem size_pos (tree : PageTree) : 0 < tree.size := by
  cases tree with
  | node page children =>
    rw [size]
    omega

mutual

/-- All positions but that of the root are noted at some page, each once. -/
theorem perm_children_numbered (position : Nat) : ∀ tree : PageTree,
    ((tree.numbered position).flatMap Numbered.children).Perm
      (List.range' (position + 1) (tree.size - 1))
  | node page children => by
    rw [numbered, List.flatMap_cons, size, Nat.add_sub_cancel_left]
    exact perm_children_forestNumbered (position + 1) children

/-- All positions are those of roots or are noted at some page, each once. -/
theorem perm_children_forestNumbered (position : Nat) : ∀ trees : List PageTree,
    (rootPositions position trees
        ++ (forestNumbered position trees).flatMap Numbered.children).Perm
      (List.range' position (forestSize trees))
  | [] => List.Perm.refl _
  | tree :: trees => by
    have hfirst := perm_children_numbered position tree
    have hothers := perm_children_forestNumbered (position + tree.size) trees
    have hsize := tree.size_pos
    have hrange : List.range' position (forestSize (tree :: trees))
        = position :: (List.range' (position + 1) (tree.size - 1)
            ++ List.range' (position + tree.size) (forestSize trees)) := by
      rw [forestSize, ← List.range'_append_1, ← List.cons_append, ← List.range'_succ,
        Nat.sub_add_cancel hsize]
    rw [rootPositions, forestNumbered, List.flatMap_append, hrange, List.cons_append]
    refine List.Perm.cons position ?_
    calc rootPositions (position + tree.size) trees
          ++ ((tree.numbered position).flatMap Numbered.children
            ++ (forestNumbered (position + tree.size) trees).flatMap Numbered.children)
        |>.Perm ((tree.numbered position).flatMap Numbered.children
          ++ (rootPositions (position + tree.size) trees
            ++ (forestNumbered (position + tree.size) trees).flatMap Numbered.children)) :=
          List.perm_append_comm_assoc ..
      _ |>.Perm _ := hfirst.append hothers

end

/-! ### What is below a page -/

/-- One position is noted at the page that another one is the position of. -/
def Above (nodes : List Numbered) (above below : Nat) : Prop :=
  ∃ node, nodes[above]? = some node ∧ below ∈ node.children

/-- The way down from one page to another, by the positions noted. -/
def Below (nodes : List Numbered) : Nat → Nat → Prop :=
  Relation.ReflTransGen (Above nodes)

mutual

theorem below_of_standsAt {n : Nat} : ∀ (tree : PageTree) {position : Nat},
    StandsAt nodes position (tree.numbered position) → position ≤ n →
    n < position + tree.size → Below nodes position n
  | node page children, position, h, hle, hlt => by
    rw [size] at hlt
    rcases Nat.eq_or_lt_of_le hle with rfl | hgt
    · exact Relation.ReflTransGen.refl
    · obtain ⟨root, hroot, hbelow⟩ := below_of_standsAt_forest children h.below hgt (by omega)
      exact Relation.ReflTransGen.head ⟨_, h.root, hroot⟩ hbelow

theorem below_of_standsAt_forest {n : Nat} : ∀ (trees : List PageTree) {position : Nat},
    StandsAt nodes position (forestNumbered position trees) → position ≤ n →
    n < position + forestSize trees →
    ∃ root ∈ rootPositions position trees, Below nodes root n
  | [], position, _, hle, hlt => by
    rw [forestSize] at hlt
    omega
  | tree :: trees, position, h, hle, hlt => by
    rw [forestSize] at hlt
    rw [rootPositions]
    by_cases hfirst : n < position + tree.size
    · exact ⟨position, List.mem_cons_self, below_of_standsAt tree h.first hle hfirst⟩
    · have hle : position + tree.size ≤ n := Nat.le_of_not_lt hfirst
      have hlt : n < position + tree.size + forestSize trees := by omega
      obtain ⟨root, hroot, hbelow⟩ := below_of_standsAt_forest trees h.others hle hlt
      exact ⟨root, List.mem_cons_of_mem _ hroot, hbelow⟩

end

/-- No way leads out of the part of the list that belongs to a tree. -/
theorem bounds_of_below {tree : PageTree} (h : StandsAt nodes position (tree.numbered position))
    {n : Nat} (hbelow : Below nodes position n) : position ≤ n ∧ n < position + tree.size := by
  have hsize := tree.size_pos
  induction hbelow with
  | refl => omega
  | tail _ hstep ih =>
    obtain ⟨node, hnode, hchild⟩ := hstep
    rename_i above below _
    have hlength : above - position < (tree.numbered position).length := by
      rw [length_numbered]
      omega
    have hsame := h.getElem? hlength
    rw [Nat.add_sub_cancel' ih.1, hnode] at hsame
    have hnoted : below ∈ (tree.numbered position).flatMap Numbered.children :=
      List.mem_flatMap.mpr ⟨node, List.mem_of_getElem? hsame.symm, hchild⟩
    have hrange := (perm_children_numbered position tree).mem_iff.mp hnoted
    rw [List.mem_range'_1] at hrange
    omega

/-- What is below a page are the pages that follow it, as many as its tree has. -/
theorem below_iff {tree : PageTree} (h : StandsAt nodes position (tree.numbered position))
    {n : Nat} : Below nodes position n ↔ position ≤ n ∧ n < position + tree.size := by
  constructor
  · intro hbelow
    exact bounds_of_below h hbelow
  · rintro ⟨hle, hlt⟩
    exact below_of_standsAt tree h hle hlt

/-! ### The whole list -/

/-- A list of pages with positions is the tree of a mount in preorder. -/
structure IsPreorder (nodes : List Numbered) (root : Mount) (output : Path) : Prop where
  /-- There is one page for each mount of the tree, a mount before those below it. -/
  mounts : nodes.map (fun node => node.page.mount) = root.preorder
  root : nodes[0]?.map Numbered.page = some ⟨root, output⟩
  /-- The positions noted at a page are those of its children in the order of their declaration,
  and the directory of each of these is that of the page and its name. -/
  children : ∀ (n : Nat) (node : Numbered), nodes[n]? = some node →
    node.children.map (fun child => nodes[child]?.map Numbered.page)
      = node.page.mount.children.map fun child =>
          some ⟨child, node.page.directory.join ⟨child.name⟩⟩
  later : ∀ (n : Nat) (node : Numbered), nodes[n]? = some node → ∀ child ∈ node.children, n < child
  /-- Every position but the first is noted once, at one page. -/
  once : (nodes.flatMap Numbered.children).Perm (List.range' 1 (nodes.length - 1))
  contiguous : ∀ (n : Nat) (node : Numbered), nodes[n]? = some node → ∀ other,
    Below nodes n other ↔ n ≤ other ∧ other < n + node.page.mount.preorder.length

theorem isPreorder_numbered (root : Mount) (output : Path) :
    IsPreorder ((ofMount output root).numbered 0) root output := by
  have hstands : ∀ (n : Nat) (node : Numbered),
      ((ofMount output root).numbered 0)[n]? = some node →
      ∃ (inner : Mount) (place : Path), node.page = ⟨inner, place⟩ ∧
        node.children = rootPositions (n + 1) (forestOf place inner.children) ∧
        StandsAt ((ofMount output root).numbered 0) n ((ofMount place inner).numbered n) := by
    intro n node hnode
    obtain ⟨hlt, -⟩ := List.getElem?_eq_some_iff.mp hnode
    rw [length_numbered] at hlt
    obtain ⟨inner, place, hinner⟩ := exists_standsAt_of_lt root output 0 n hlt
    rw [Nat.zero_add] at hinner
    have hroot := hinner.root
    rw [hnode] at hroot
    obtain ⟨declaration, overrides, imports, children⟩ := inner
    rw [ofMount] at hroot
    cases hroot
    exact ⟨_, place, rfl, rfl, hinner⟩
  constructor
  · rw [← map_mount_pages output root, ← map_page_numbered 0, List.map_map]
    rfl
  · rw [(StandsAt.root (List.prefix_refl _) :
      ((ofMount output root).numbered 0)[0]? = some _)]
    obtain ⟨declaration, overrides, imports, children⟩ := root
    rw [ofMount]
    rfl
  · intro n node hnode
    obtain ⟨inner, place, hpage, hchildren, hinner⟩ := hstands n node hnode
    obtain ⟨declaration, overrides, imports, children⟩ := inner
    rw [ofMount] at hinner
    have hpages := congrArg (List.map some) (map_page_forestOf place children)
    rw [List.map_map, List.map_map] at hpages
    rw [hchildren, hpage, Mount.children, map_page_rootPositions hinner.below]
    exact hpages
  · intro n node hnode child hchild
    obtain ⟨inner, place, -, hchildren, -⟩ := hstands n node hnode
    rw [hchildren] at hchild
    exact le_of_mem_rootPositions hchild
  · have hperm := perm_children_numbered 0 (ofMount output root)
    rwa [Nat.zero_add, ← length_numbered 0] at hperm
  · intro n node hnode other
    obtain ⟨inner, place, hpage, -, hinner⟩ := hstands n node hnode
    rw [below_iff hinner, hpage, size_ofMount]

end PageTree

namespace Layout

/-- The pages of a site that is laid out are its tree in preorder, each with the positions of its
children; this is the list that is filled by going down the tree once. -/
theorem arena_preorder {σ : Type} {root : Mount} {output : Path} {registry : Registry σ}
    {session later : Session} {layout : Layout}
    (h : (walk root output registry).run.run session = (.ok layout, later)) :
    PageTree.IsPreorder (layout.tree.numbered 0) root output ∧
      (layout.tree.numbered 0).map PageTree.Numbered.page = layout.pages ∧
      PageTree.fill [] layout.tree = layout.tree.numbered 0 := by
  obtain ⟨htree, -⟩ := pageNames_of_walk h
  refine ⟨?_, PageTree.map_page_numbered 0 layout.tree, PageTree.fill_eq [] layout.tree⟩
  rw [htree]
  exact PageTree.isPreorder_numbered root output

/-- The two books of a shelf stand behind its page. -/
theorem news_preorder :
    ∃ layout, (walk (shelf "news") ⟨"out"⟩ (Registry.new sequentialIds 0)).run.run
        ⟨folders [], []⟩ = (.ok layout, ⟨newsFolders, []⟩) ∧
      PageTree.IsPreorder (layout.tree.numbered 0) (shelf "news") ⟨"out"⟩ ∧
      (layout.tree.numbered 0).map PageTree.Numbered.children = [[1, 2], [], []] := by
  obtain ⟨layout, hwalk⟩ := exists_walk_news
  obtain ⟨hpreorder, -⟩ := arena_preorder hwalk
  obtain ⟨htree, -⟩ := pageNames_of_walk hwalk
  refine ⟨layout, hwalk, hpreorder, ?_⟩
  rw [htree]
  rfl

end Layout

end SiteTree
