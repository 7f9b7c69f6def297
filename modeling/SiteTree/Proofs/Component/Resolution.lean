import SiteTree.Component.Resolution
import Mathlib.Data.List.Nodup
import Mathlib.Tactic.Set

/-!
# Components are shared

Resolving builds every component once and shares it among all who refer to it. Two mounts of
a resolved tree that stand for the same table differ in their values at most.

* `Manifest.sameComponent_of_key` — where no two tables make the same component key, mounts
  with the same key have the same declaration, imports and children.
-/

namespace SiteTree

/-! ### Mounts of a tree -/

namespace Mount

/-- The mounts of a tree: its root, and all that these import or have as children. -/
inductive Reaches (root : Mount) : Mount → Prop where
  | refl : Reaches root root
  | imported {mount other : Mount} : Reaches root mount → other ∈ mount.imports →
      Reaches root other
  | child {mount other : Mount} : Reaches root mount → other ∈ mount.children →
      Reaches root other

/-- Do two mounts differ in their values at most? -/
structure SameComponent (first second : Mount) : Prop where
  declaration : first.declaration = second.declaration
  imports : first.imports = second.imports
  children : first.children = second.children

theorem SameComponent.refl (mount : Mount) : SameComponent mount mount :=
  ⟨rfl, rfl, rfl⟩

theorem SameComponent.trans_symm {first second common : Mount}
    (hfirst : first.SameComponent common) (hsecond : second.SameComponent common) :
    first.SameComponent second :=
  ⟨hfirst.declaration.trans hsecond.declaration.symm, hfirst.imports.trans hsecond.imports.symm,
    hfirst.children.trans hsecond.children.symm⟩

end Mount

namespace Manifest

variable {manifest : Manifest}

/-! ### What is built -/

/-- The mount is a component that is built already, but for its values. -/
def Shared (built : Built) (mount : Mount) : Prop :=
  ∃ key component, built.lookup key = some component ∧ mount.SameComponent component

/-- Every component that is built is that of its table, and refers to such components only. -/
structure WellBuilt (manifest : Manifest) (built : Built) : Prop where
  declared : ∀ key component, built.lookup key = some component →
    ∃ table, manifest.components.lookup key = some table
      ∧ component.declaration = manifest.declaration key table
  shared : ∀ key component, built.lookup key = some component →
    ∀ mount ∈ component.imports ++ component.children, Shared built mount

/-- What is built stays built. -/
def Extends (built later : Built) : Prop :=
  ∀ key component, built.lookup key = some component → later.lookup key = some component

theorem Extends.trans {first second third : Built} (hfirst : Extends first second)
    (hsecond : Extends second third) : Extends first third :=
  fun key component h => hsecond key component (hfirst key component h)

theorem Shared.mono {built later : Built} (h : Extends built later) {mount : Mount}
    (hshared : Shared built mount) : Shared later mount := by
  obtain ⟨key, component, hlookup, hsame⟩ := hshared
  exact ⟨key, component, h key component hlookup, hsame⟩

/-- A component that was not built before changes no look-up but its own. -/
theorem extends_cons {built : Built} {key : String} (component : Mount)
    (hnew : built.lookup key = none) : Extends built ((key, component) :: built) := by
  intro other found hfound
  rw [Disk.lookup_cons_ite, if_neg, hfound]
  intro heq
  rw [eq_of_beq heq, hnew] at hfound
  cases hfound

theorem WellBuilt.cons {built : Built} {key : String} {component : Mount}
    {table : Config.ComponentTable} (hwell : WellBuilt manifest built)
    (htable : manifest.components.lookup key = some table)
    (hdeclared : component.declaration = manifest.declaration key table)
    (hnew : built.lookup key = none)
    (hshared : ∀ mount ∈ component.imports ++ component.children, Shared built mount) :
    WellBuilt manifest ((key, component) :: built) := by
  have hgrows := extends_cons component hnew
  constructor
  · intro other found hfound
    rw [Disk.lookup_cons_ite] at hfound
    split at hfound
    · next heq =>
      cases hfound
      obtain rfl := eq_of_beq heq
      exact ⟨table, htable, hdeclared⟩
    · exact hwell.declared other found hfound
  · intro other found hfound mount hmount
    rw [Disk.lookup_cons_ite] at hfound
    split at hfound
    · next heq =>
      cases hfound
      exact (hshared mount hmount).mono hgrows
    · exact (hwell.shared other found hfound mount hmount).mono hgrows

theorem sameComponent_place (reference : Config.Reference) (mount : Mount) :
    (place reference mount).SameComponent mount := by
  cases mount with
  | mk declaration overrides imports children =>
    rw [place]
    split
    · exact ⟨rfl, rfl, rfl⟩
    · exact ⟨rfl, rfl, rfl⟩

/-- What a step of building has done when it is over, while the components of a stack are
being built. -/
structure Grown (manifest : Manifest) (stack : List String) (built later : Built) : Prop where
  well : WellBuilt manifest later
  grows : Extends built later
  open_ : ∀ key ∈ stack, later.lookup key = none

/-! ### Building -/

theorem run_bind_eq_ok {α β : Type} {step : Building α} {next : α → Building β} {built : Built}
    {result : β × Built} (h : (step >>= next).run built = .ok result) :
    ∃ value later, step.run built = .ok (value, later) ∧ (next value).run later = .ok result := by
  rw [StateT.run_bind] at h
  cases hstep : step.run built with
  | error error =>
    rw [hstep] at h
    cases h
  | ok answer =>
    rw [hstep] at h
    exact ⟨answer.1, answer.2, rfl, h⟩

theorem reuse_spec {referencedBy key : String} {fresh : Config.ComponentTable → Building Mount}
    {stack : List String} {built later : Built} {mount : Mount}
    (h : (manifest.reuse referencedBy key fresh).run built = .ok (mount, later))
    (hgrown : Grown manifest stack built built)
    (hfresh : ∀ table, manifest.components.lookup key = some table → built.lookup key = none →
      (fresh table).run built = .ok (mount, later) →
      Grown manifest stack built later ∧ later.lookup key = some mount) :
    Grown manifest stack built later ∧ later.lookup key = some mount := by
  unfold reuse at h
  split at h
  · cases h
  · next table htable =>
    obtain ⟨_, _, hget, h⟩ := run_bind_eq_ok h
    cases hget
    split at h
    · next hlookup =>
      cases h
      exact ⟨hgrown, hlookup⟩
    · next hlookup => exact hfresh table htable hlookup h

theorem mapM_spec {α : Type} {follow : α → Building Mount} {stack : List String}
    (hfollow : ∀ reference built later mount,
      (follow reference).run built = .ok (mount, later) → Grown manifest stack built built →
      Grown manifest stack built later ∧ Shared later mount)
    {references : List α} {built later : Built} {mounts : List Mount}
    (h : (references.mapM follow).run built = .ok (mounts, later))
    (hgrown : Grown manifest stack built built) :
    Grown manifest stack built later ∧ ∀ mount ∈ mounts, Shared later mount := by
  induction references generalizing built mounts with
  | nil =>
    cases h
    exact ⟨hgrown, by simp⟩
  | cons reference references ih =>
    rw [List.mapM_cons] at h
    obtain ⟨mount, between, hmount, h⟩ := run_bind_eq_ok h
    obtain ⟨rest, _, hrest, h⟩ := run_bind_eq_ok h
    cases h
    obtain ⟨hbetween, hshared⟩ := hfollow reference built between mount hmount hgrown
    obtain ⟨hlater, hall⟩ := ih hrest ⟨hbetween.well, fun _ _ h => h, hbetween.open_⟩
    refine ⟨⟨hlater.well, hbetween.grows.trans hlater.grows, hlater.open_⟩, ?_⟩
    rintro other (_ | ⟨_, hother⟩)
    · exact hshared.mono hlater.grows
    · exact hall other hother

/-- Putting a component on top of what is built. -/
theorem assemble_spec {key : String} {table : Config.ComponentTable}
    {follow : Config.Reference → Building Mount} {stack : List String} {built later : Built}
    {mount : Mount} (htable : manifest.components.lookup key = some table) (hkey : key ∉ stack)
    (hfollow : ∀ reference built later mount,
      (follow reference).run built = .ok (mount, later) →
      Grown manifest (stack ++ [key]) built built →
      Grown manifest (stack ++ [key]) built later ∧ Shared later mount)
    (h : (manifest.assemble key table follow).run built = .ok (mount, later))
    (hgrown : Grown manifest (stack ++ [key]) built built) :
    Grown manifest stack built later ∧ later.lookup key = some mount := by
  unfold assemble at h
  obtain ⟨imports, between, himports, h⟩ := run_bind_eq_ok h
  obtain ⟨children, before, hchildren, h⟩ := run_bind_eq_ok h
  obtain ⟨_, _, hmodify, h⟩ := run_bind_eq_ok h
  cases hmodify
  cases h
  obtain ⟨hbetween, himported⟩ := mapM_spec hfollow himports hgrown
  obtain ⟨hbefore, hchild⟩ := mapM_spec hfollow hchildren
    ⟨hbetween.well, fun _ _ h => h, hbetween.open_⟩
  have hnew : before.lookup key = none := hbefore.open_ key (by simp)
  set component := Mount.mk (manifest.declaration key table) none imports children
  have hgrows := extends_cons component hnew
  have hshared : ∀ mount ∈ component.imports ++ component.children, Shared before mount := by
    intro mount hmount
    rcases List.mem_append.mp hmount with himport | hchildren
    · exact (himported mount himport).mono hbefore.grows
    · exact hchild mount hchildren
  refine ⟨⟨hbefore.well.cons htable rfl hnew hshared,
    (hbetween.grows.trans hbefore.grows).trans hgrows, ?_⟩, ?_⟩
  · intro other hother
    rw [Disk.lookup_cons_ite, if_neg]
    · exact hbefore.open_ other (List.mem_append_left _ hother)
    · intro heq
      exact hkey (eq_of_beq heq ▸ hother)
  · rw [Disk.lookup_cons_ite, if_pos (beq_self_eq_true key)]

/-- Building keeps what is built, adds the component asked for, and builds none of the
components on the stack. -/
theorem build_spec {fuel : Nat} {stack : List String} {referencedBy key : String}
    {built later : Built} {mount : Mount}
    (h : (manifest.build fuel stack referencedBy key).run built = .ok (mount, later))
    (hgrown : Grown manifest stack built built) :
    Grown manifest stack built later ∧ later.lookup key = some mount := by
  induction fuel generalizing stack referencedBy key built later mount with
  | zero =>
    rw [build] at h
    refine reuse_spec h hgrown fun table htable hlookup hrun => ?_
    cases hrun
  | succ fuel ih =>
    rw [build] at h
    refine reuse_spec h hgrown fun table htable hlookup hrun => ?_
    split at hrun
    · cases hrun
    · next hkey =>
      refine assemble_spec htable hkey ?_ hrun ⟨hgrown.well, fun _ _ h => h, ?_⟩
      · intro reference built later placed hplaced hgrown
        obtain ⟨component, between, hcomponent, hplaced⟩ := run_bind_eq_ok hplaced
        cases hplaced
        obtain ⟨hlater, hfound⟩ := ih hcomponent hgrown
        exact ⟨hlater, reference.key, component, hfound, sameComponent_place reference component⟩
      · intro other hother
        rcases List.mem_append.mp hother with hother | hother
        · exact hgrown.open_ other hother
        · rw [List.mem_singleton.mp hother]
          exact hlookup

/-! ### Resolved trees -/

/-- All mounts of a resolved tree are components that were built. -/
theorem shared_of_reaches {key : String} {root : Mount} (h : manifest.resolve key = .ok root) :
    ∃ built, WellBuilt manifest built ∧ ∀ mount, root.Reaches mount → Shared built mount := by
  unfold resolve at h
  split at h
  · cases h
  · cases hrun : (manifest.build (manifest.components.length + 1) [] key key).run [] with
    | error error =>
      rw [hrun] at h
      cases h
    | ok answer =>
      rw [hrun] at h
      cases h
      have hempty : Grown manifest [] [] [] := ⟨⟨by simp, by simp⟩, fun _ _ h => h, by simp⟩
      obtain ⟨hgrown, hroot⟩ := build_spec hrun hempty
      refine ⟨answer.2, hgrown.well, ?_⟩
      intro mount hreaches
      induction hreaches with
      | refl => exact ⟨key, answer.1, hroot, .refl _⟩
      | imported _ hmem ih =>
        obtain ⟨key, component, hlookup, hsame⟩ := ih
        exact hgrown.well.shared key component hlookup _
          (List.mem_append_left _ (hsame.imports ▸ hmem))
      | child _ hmem ih =>
        obtain ⟨key, component, hlookup, hsame⟩ := ih
        exact hgrown.well.shared key component hlookup _
          (List.mem_append_right _ (hsame.children ▸ hmem))

/-- No two tables make the same component key. -/
def KeysApart (manifest : Manifest) : Prop :=
  ∀ key other table otherTable, manifest.components.lookup key = some table →
    manifest.components.lookup other = some otherTable →
    (manifest.declaration key table).key = (manifest.declaration other otherTable).key →
    key = other

theorem keysApart_of_nodup
    (h : (manifest.components.map fun e => (manifest.declaration e.1 e.2).key).Nodup) :
    manifest.KeysApart := by
  intro key other table otherTable hkey hother heq
  have hmem : ∀ {key table}, manifest.components.lookup key = some table →
      (key, table) ∈ manifest.components := by
    intro key table hlookup
    obtain ⟨before, after, hentries, -⟩ := List.lookup_eq_some_iff.mp hlookup
    simp [hentries]
  exact congrArg Prod.fst (List.inj_on_of_nodup_map h (hmem hkey) (hmem hother) heq)

theorem sameComponent_of_key {key : String} {root : Mount} (h : manifest.resolve key = .ok root)
    (hapart : manifest.KeysApart) {first second : Mount} (hfirst : root.Reaches first)
    (hsecond : root.Reaches second) (hkey : first.key = second.key) :
    first.SameComponent second := by
  obtain ⟨built, hwell, hshared⟩ := shared_of_reaches h
  obtain ⟨firstKey, firstBuilt, hfirstBuilt, hfirstSame⟩ := hshared first hfirst
  obtain ⟨secondKey, secondBuilt, hsecondBuilt, hsecondSame⟩ := hshared second hsecond
  obtain ⟨firstTable, hfirstTable, hfirstDecl⟩ := hwell.declared firstKey firstBuilt hfirstBuilt
  obtain ⟨secondTable, hsecondTable, hsecondDecl⟩ :=
    hwell.declared secondKey secondBuilt hsecondBuilt
  have hkeys : firstKey = secondKey := by
    refine hapart firstKey secondKey firstTable secondTable hfirstTable hsecondTable ?_
    rw [← hfirstDecl, ← hsecondDecl, ← hfirstSame.declaration, ← hsecondSame.declaration]
    exact hkey
  subst hkeys
  obtain rfl : firstBuilt = secondBuilt := by
    rw [hfirstBuilt] at hsecondBuilt
    exact Option.some.inj hsecondBuilt
  exact hfirstSame.trans_symm hsecondSame

end Manifest

end SiteTree
