import SiteTree.Page.Bundle
import SiteTree.Proofs.Page.Arena

/-!
# Visits of pages by position

Bundling takes up the pages in order. The same is done by going from a page to the positions noted
at it, with one list of pages in which each page is replaced when it is visited.

* `BundleKind.visit_eq` — visiting a tree amends its part of the list, once, and leaves the rest.
* `BundleKind.bundlePages_eq_visit` — bundling is the visit of the whole list from the root on.
-/

namespace SiteTree

open PageTree (Numbered StandsAt)

/-- What follows on many steps has to agree for as many results only. -/
theorem mapM_bind_congr {m : Type → Type} [Monad m] [LawfulMonad m] {α β γ : Type} {f : α → m β} :
    ∀ {items : List α} {first second : List β → m γ},
      (∀ results : List β, results.length = items.length → first results = second results) →
      items.mapM f >>= first = items.mapM f >>= second
  | [], first, second, h => by
    rw [List.mapM_nil, pure_bind, pure_bind]
    exact h [] rfl
  | item :: items, first, second, h => by
    simp only [List.mapM_cons, bind_assoc, pure_bind]
    refine bind_congr fun result => mapM_bind_congr fun results hlength => ?_
    exact h (result :: results) (congrArg (· + 1) hlength)

/-! ### Numbers of pages -/

namespace PageTree

mutual

theorem length_gathered {α : Type} (contribute : Page → List α) : ∀ (tree : PageTree)
    (inherited : List α), (tree.gathered contribute inherited).length = tree.size
  | node page children, inherited => by
    rw [gathered, List.length_cons, length_forestGathered contribute children,
      size, Nat.add_comm]

theorem length_forestGathered {α : Type} (contribute : Page → List α) : ∀ (trees : List PageTree)
    (inherited : List α),
    (forestGathered contribute inherited trees).length = forestSize trees
  | [], _ => rfl
  | tree :: trees, inherited => by
    rw [forestGathered, List.length_append, length_gathered contribute tree,
      length_forestGathered contribute trees, forestSize]

end

end PageTree

/-! ### Visits -/

namespace BundleKind

variable {kind : BundleKind}

/-- Visits the page at a position and the pages below it, by the positions noted, down to a depth.
Each page is taken out of the list of all pages and put back with its link. -/
def visit (kind : BundleKind) (nodes : List Numbered) :
    (depth position : Nat) → (inherited : List Path) → (html : List String) → Job (List String)
  | 0, _, _, html => return html
  | depth + 1, position, inherited, html =>
    match nodes[position]? with
    | none => return html
    | some node => do
      let globals := inherited ++ kind.globals node.page
      let amended ← kind.bundlePage node.page globals (html.getD position "")
      node.children.foldlM (fun html child => kind.visit nodes depth child globals html)
        (html.set position amended)

variable {nodes : List Numbered}

mutual

/-- Visiting a tree amends its part of the list and leaves the rest as it is. -/
theorem visit_eq : ∀ (tree : PageTree) {depth : Nat} {inherited : List Path}
    {before part after : List String},
    StandsAt nodes before.length (tree.numbered before.length) → tree.size ≤ depth →
    part.length = tree.size →
    kind.visit nodes depth before.length inherited (before ++ part ++ after) = do
      let amended ← ((tree.gathered kind.globals inherited).zip part).mapM
        fun ((page, globals), html) => kind.bundlePage page globals html
      return before ++ amended ++ after
  | .node page children, depth, inherited, before, part, after, hstands, hdepth, hpart => by
    rw [PageTree.size] at hdepth hpart
    obtain ⟨depth, rfl⟩ : ∃ deeper, depth = deeper + 1 := ⟨depth - 1, by omega⟩
    obtain ⟨html, part, rfl⟩ : ∃ html others, part = html :: others :=
      List.exists_cons_of_length_pos (by omega)
    have hget : (before ++ html :: part ++ after).getD before.length "" = html := by simp
    have hset : ∀ amended, (before ++ html :: part ++ after).set before.length amended
        = (before ++ [amended]) ++ part ++ after := by simp
    rw [visit, hstands.root]
    dsimp only
    rw [hget, PageTree.gathered, List.zip_cons_cons, List.mapM_cons]
    simp only [bind_assoc, pure_bind, PageTree.page, PageTree.children, hset]
    refine bind_congr fun amended => ?_
    have hbelow := hstands.below
    have hlength : (before ++ [amended]).length = before.length + 1 := by simp
    rw [← hlength] at hbelow ⊢
    rw [visitForest_eq children hbelow (by omega) (by rw [List.length_cons] at hpart; omega)]
    simp only [List.append_assoc, List.cons_append, List.nil_append]

theorem visitForest_eq : ∀ (trees : List PageTree) {depth : Nat} {inherited : List Path}
    {before part after : List String},
    StandsAt nodes before.length (PageTree.forestNumbered before.length trees) →
    PageTree.forestSize trees ≤ depth → part.length = PageTree.forestSize trees →
    (PageTree.rootPositions before.length trees).foldlM
      (fun html child => kind.visit nodes depth child inherited html) (before ++ part ++ after) = do
      let amended ← ((PageTree.forestGathered kind.globals inherited trees).zip part).mapM
        fun ((page, globals), html) => kind.bundlePage page globals html
      return before ++ amended ++ after
  | [], depth, inherited, before, part, after, _, _, hpart => by
    obtain rfl : part = [] := List.eq_nil_of_length_eq_zero hpart
    rw [PageTree.rootPositions, List.foldlM_nil, PageTree.forestGathered, List.zip_nil_left,
      List.mapM_nil, pure_bind]
  | tree :: trees, depth, inherited, before, part, after, hstands, hdepth, hpart => by
    rw [PageTree.forestSize] at hdepth hpart
    obtain ⟨first, others, rfl, hfirst⟩ : ∃ first others, part = first ++ others ∧
        first.length = tree.size :=
      ⟨part.take tree.size, part.drop tree.size, (List.take_append_drop _ _).symm,
        List.length_take_of_le (by omega)⟩
    have hothers : others.length = PageTree.forestSize trees := by
      rw [List.length_append] at hpart
      omega
    have hgathered : (tree.gathered kind.globals inherited).length = first.length := by
      rw [PageTree.length_gathered, hfirst]
    have hvisit : kind.visit nodes depth before.length inherited
        (before ++ first ++ (others ++ after)) = _ :=
      visit_eq tree hstands.first (by omega) hfirst
    rw [PageTree.rootPositions, List.foldlM_cons, PageTree.forestGathered,
      List.zip_append hgathered, List.mapM_append, List.append_assoc, List.append_assoc,
      ← List.append_assoc, hvisit]
    simp only [bind_assoc, pure_bind]
    refine mapM_bind_congr fun amended hamended => ?_
    rw [List.length_zip, hgathered, Nat.min_self, hfirst] at hamended
    have hlength : (before ++ amended).length = before.length + tree.size := by
      rw [List.length_append, hamended]
    have hrest := hstands.others
    rw [← hlength] at hrest ⊢
    rw [← List.append_assoc, visitForest_eq trees hrest (by omega) hothers]
    simp only [List.append_assoc]

end

/-- Bundling is the visit of the pages by their positions, from the root on. -/
theorem bundlePages_eq_visit (layout : Layout) {html : List String}
    (hcount : html.length = layout.pages.length) :
    kind.bundlePages layout html
      = kind.visit (layout.tree.numbered 0) layout.tree.size 0 [] html := by
  have hsize : html.length = layout.tree.size := by
    rw [hcount, Layout.pages, ← PageTree.map_page_numbered 0, List.length_map,
      PageTree.length_numbered]
  have hstands : StandsAt (layout.tree.numbered 0) ([] : List String).length
      (layout.tree.numbered 0) := List.prefix_refl _
  have hvisit : kind.visit (layout.tree.numbered 0) layout.tree.size 0 [] ([] ++ html ++ []) = _ :=
    visit_eq layout.tree hstands (Nat.le_refl _) hsize
  rw [List.nil_append, List.append_nil] at hvisit
  rw [hvisit, bundlePages, if_neg (not_not_intro hcount)]
  simp

end BundleKind

end SiteTree
