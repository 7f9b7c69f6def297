import SiteTree.Page.Html
import SiteTree.Proofs.Component.Unfolding
import SiteTree.Proofs.Config.Loading
import SiteTree.Proofs.Config.Values
import SiteTree.Proofs.Json.Fingerprint

/-!
# What the keys of the compile cache tell apart

The values of a mount come from the configuration: from the component's table, or from the reference that
placed the mount. All of them have fields with names of their own, so the fingerprints in the cache keys
tell them apart.

* `Config.hasApartValues_of_rootMount` — in a tree of pages all values are such.
* `Compiler.cacheKey_eq_iff` — mounts have one cache key exactly when they have one component key and the
  same values.
-/

namespace SiteTree

/-- In the values of a mount, are objects maps? -/
structure Mount.HasApartValues (mount : Mount) : Prop where
  placed : ∀ values ∈ mount.overrides, values.namesApart = true
  own : ∀ values ∈ mount.declaration.values, values.namesApart = true

theorem Mount.HasApartValues.namesApart {mount : Mount} (h : mount.HasApartValues) {values : Json}
    (hvalues : values ∈ mount.values) : values.namesApart = true := by
  rw [Mount.values, Option.mem_def, Option.or_eq_some_iff] at hvalues
  rcases hvalues with hplaced | ⟨-, hown⟩
  · exact h.placed values hplaced
  · exact h.own values hown

/-! ### Trees of a manifest -/

namespace Manifest

variable {manifest : Manifest} {stack : List String} {referencedBy key : String} {mount : Mount}

/-- A mount that was built for some reference, or as the root: a component of the manifest, with values of
the reference put in place of its own. -/
def IsPlaced (manifest : Manifest) (mount : Mount) : Prop :=
  ∃ stack referencedBy key component, manifest.buildAfresh stack referencedBy key = .ok component ∧
    mount.SameComponent component ∧ ∀ values ∈ mount.overrides, values.namesApart = true

theorem isPlaced_of_followAfresh {reference : Config.Reference}
    (hreference : ∀ values ∈ reference.overrides, values.namesApart = true)
    (h : manifest.followAfresh stack key reference = .ok mount) : manifest.IsPlaced mount := by
  obtain ⟨component, hcomponent, hplace⟩ := exists_of_bind_eq_ok h
  cases hplace
  refine ⟨_, _, _, component, hcomponent, sameComponent_place reference component, ?_⟩
  obtain ⟨table, imports, children, -, -, -, -, rfl⟩ := buildAfresh_eq_ok hcomponent
  unfold place
  split
  · next values hvalues =>
    rintro _ ⟨⟩
    exact hreference values hvalues
  · intro values hvalues
    cases hvalues

theorem isPlaced_of_reaches {root : Mount}
    (htables : ∀ entry ∈ manifest.components, Config.TableApart entry.2)
    (hroot : manifest.IsPlaced root) (h : root.Reaches mount) : manifest.IsPlaced mount := by
  -- what a component of the manifest refers to was built and placed with it
  have hrefers {outer inner : Mount} (houter : manifest.IsPlaced outer)
      (hinner : inner ∈ outer.imports ++ outer.children) : manifest.IsPlaced inner := by
    obtain ⟨stack, referencedBy, key, component, hcomponent, hsame, -⟩ := houter
    obtain ⟨table, imports, children, htable, -, himports, hchildren, rfl⟩ :=
      buildAfresh_eq_ok hcomponent
    have hplaced := (htables (key, table) (Json.mem_of_lookup htable)).placed
    rw [hsame.imports, hsame.children] at hinner
    rcases List.mem_append.mp hinner with himport | hchild
    · obtain ⟨reference, hreference, hfollow⟩ := exists_of_mem_mapM himports himport
      exact isPlaced_of_followAfresh (hplaced reference (List.mem_append_left _ hreference)) hfollow
    · obtain ⟨reference, hreference, hfollow⟩ := exists_of_mem_mapM hchildren hchild
      exact isPlaced_of_followAfresh (hplaced reference (List.mem_append_right _ hreference)) hfollow
  induction h with
  | refl => exact hroot
  | imported _ hother ih => exact hrefers ih (List.mem_append_left _ hother)
  | child _ hother ih => exact hrefers ih (List.mem_append_right _ hother)

theorem isPlaced_of_resolve {root : Mount} (h : manifest.resolve key = .ok root) :
    manifest.IsPlaced root := by
  rw [resolve_eq_resolveAfresh, resolveAfresh] at h
  split at h
  · cases h
  · refine ⟨_, _, _, root, h, .refl root, ?_⟩
    obtain ⟨table, imports, children, -, -, -, -, rfl⟩ := buildAfresh_eq_ok h
    intro values hvalues
    cases hvalues

theorem IsPlaced.hasApartValues (h : manifest.IsPlaced mount)
    (htables : ∀ entry ∈ manifest.components, Config.TableApart entry.2) : mount.HasApartValues := by
  obtain ⟨stack, referencedBy, key, component, hcomponent, hsame, hplaced⟩ := h
  obtain ⟨table, imports, children, htable, -, -, -, rfl⟩ := buildAfresh_eq_ok hcomponent
  refine ⟨hplaced, ?_⟩
  rw [hsame.declaration]
  exact (htables (key, table) (Json.mem_of_lookup htable)).own

end Manifest

/-! ### Trees of a configuration -/

namespace Config

variable {host : Host} {disk : Disk} {config : Config} {options : CommandLine.Options}

theorem tableApart_of_prepare (h : Run.prepare host disk options = .ok config) :
    ∀ entry ∈ config.components, TableApart entry.2 := by
  obtain ⟨loaded, hload, rfl, -⟩ := exists_of_prepare h
  obtain ⟨text, read, -, hread, rfl⟩ := exists_of_load hload
  exact givesOnly_ofText text read hread

/-- In a tree of pages, the fields of all objects that components are rendered with have names of their
own. -/
theorem hasApartValues_of_rootMount (h : Run.prepare host disk options = .ok config) {later : Disk}
    {root mount : Mount} (hroot : config.rootMount host later = .ok root)
    (hreaches : root.Reaches mount) : mount.HasApartValues := by
  have htables := tableApart_of_prepare h
  exact (Manifest.isPlaced_of_reaches htables (Manifest.isPlaced_of_resolve hroot)
    hreaches).hasApartValues htables

end Config

/-! ### Cache keys -/

namespace Compiler

/-- Mounts have one cache key exactly when they have one component key and the same values, as far as the
texts of their values do not collide. -/
theorem cacheKey_eq_iff {first second : Mount} (hfirst : first.HasApartValues)
    (hsecond : second.HasApartValues)
    (hcollision : ∀ v ∈ first.values, ∀ w ∈ second.values,
      Hash.Blake3.hash v.digested = Hash.Blake3.hash w.digested → v.digested = w.digested) :
    cacheKey first = cacheKey second ↔ first.key = second.key ∧
      Option.Rel (fun v w => v.same w = true) first.values second.values := by
  rw [cacheKey, cacheKey, CacheKey.mk.injEq]
  refine and_congr_right fun _ => ?_
  cases hv : first.values with
  | none =>
    cases hw : second.values with
    | none => exact iff_of_true rfl .none
    | some w => exact iff_of_false nofun nofun
  | some v =>
    cases hw : second.values with
    | none => exact iff_of_false nofun nofun
    | some w =>
      have hsame := Json.fingerprint_eq_iff_same (hfirst.namesApart hv) (hsecond.namesApart hw)
        (hcollision v hv w hw)
      rw [Option.map_some, Option.map_some, Option.some_inj, hsame]
      constructor
      · intro h
        exact .some h
      · intro h
        cases h with
        | some h => exact h

end Compiler

end SiteTree
