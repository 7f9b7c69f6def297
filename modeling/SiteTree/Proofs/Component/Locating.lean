import SiteTree.Proofs.Component.Graph

/-!
# Where the files of components are

The tables name files by paths, and resolving locates them. How it locates other paths than those of
the tables that the root leads to makes no difference.

* `Manifest.resolve_congr` — resolving depends on the paths of these tables only.
-/

namespace SiteTree

/-- The paths of the files that a table names. -/
def Config.ComponentTable.paths (table : Config.ComponentTable) : List Path :=
  table.template :: (table.externalStyles ++ table.externalScripts ++ table.globalStyles
    ++ table.globalScripts)

namespace Manifest

open Relation (ReflTransGen)

theorem mapM_congr {m : Type → Type} [Monad m] [LawfulMonad m] {α β : Type} {first second : α → m β}
    (items : List α) (h : ∀ item ∈ items, first item = second item) :
    items.mapM first = items.mapM second := by
  induction items with
  | nil => rw [List.mapM_nil, List.mapM_nil]
  | cons item items ih =>
    rw [List.mapM_cons, List.mapM_cons, h item List.mem_cons_self,
      ih fun other hother => h other (List.mem_cons_of_mem _ hother)]

/-- Do two ways to locate paths agree on all files that a component and those that it leads to name? -/
def LocatesAlike (components : Config.Components) (first second : Path → Path) (key : String) : Prop :=
  ∀ other table, ReflTransGen (Manifest.mk components first).Refers key other →
    components.lookup other = some table → ∀ path ∈ table.paths, first path = second path

variable {components : Config.Components} {first second : Path → Path}

theorem declaration_congr {key : String} {table : Config.ComponentTable}
    (h : ∀ path ∈ table.paths, first path = second path) :
    (Manifest.mk components first).declaration key table
      = (Manifest.mk components second).declaration key table := by
  have hmap : ∀ {paths : List Path}, paths ⊆ table.paths → paths.map first = paths.map second :=
    fun hpaths => List.map_congr_left fun path hpath => h path (hpaths hpath)
  have hparts : table.externalStyles ⊆ table.paths ∧ table.externalScripts ⊆ table.paths ∧
      table.globalStyles ⊆ table.paths ∧ table.globalScripts ⊆ table.paths := by
    simp only [List.subset_def, Config.ComponentTable.paths, List.mem_cons, List.mem_append]
    tauto
  simp only [declaration, h table.template List.mem_cons_self, hmap hparts.1, hmap hparts.2.1,
    hmap hparts.2.2.1, hmap hparts.2.2.2]

theorem build_congr {fuel : Nat} {stack : List String} {referencedBy key : String}
    (h : LocatesAlike components first second key) :
    (Manifest.mk components first).build fuel stack referencedBy key
      = (Manifest.mk components second).build fuel stack referencedBy key := by
  induction fuel generalizing stack referencedBy key with
  | zero => rfl
  | succ fuel ih =>
    rw [build, build, reuse, reuse]
    cases htable : components.lookup key with
    | none => rfl
    | some table =>
      refine bind_congr fun built => ?_
      split
      · rfl
      split
      · rfl
      have hfollow : ∀ reference ∈ table.imports ++ table.children,
          (Manifest.mk components first).build fuel (stack ++ [key]) key reference.key
            = (Manifest.mk components second).build fuel (stack ++ [key]) key reference.key := by
        intro reference hreference
        refine ih fun other found hreaches => h other found (.head ?_ hreaches)
        exact ⟨table, htable, reference, hreference, rfl⟩
      rw [assemble, assemble, declaration_congr (h key table .refl htable)]
      rw [mapM_congr table.imports fun reference hreference => by
          rw [hfollow reference (List.mem_append_left _ hreference)],
        mapM_congr table.children fun reference hreference => by
          rw [hfollow reference (List.mem_append_right _ hreference)]]

/-- Resolving depends on where the files are that the root and all that it leads to name. -/
theorem resolve_congr {root : String} (h : LocatesAlike components first second root) :
    (Manifest.mk components first).resolve root = (Manifest.mk components second).resolve root := by
  rw [resolve, resolve, build_congr h]

end Manifest

end SiteTree
