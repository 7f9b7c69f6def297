import SiteTree.Proofs.Component.Graph
import SiteTree.Proofs.Outcome

/-!
# Building without sharing

Resolving builds every component once. It is compared with a recursion that knows only the components
being built and builds a component anew for every reference to it.

What is built already is taken as it is, before it is asked whether the component is being built just
now. Nothing is missed by that: all that a built component leads to has been built without meeting a
cycle, and a component that is being built would lead back to itself through it.

* `Manifest.buildAfresh_congr` — a tree that can be built does not depend on what is being built.
* `Manifest.agrees_build` — the search with sharing, call by call.
* `Manifest.resolve_eq_resolveAfresh` — both give the same tree or the same error.
-/

namespace SiteTree.Manifest

open Relation (ReflTransGen)

/-! ### Building anew -/

/-- The tree of a component, built anew whatever was built before. The stack holds the components that
are being built, the outermost first. -/
def buildAfresh (manifest : Manifest) (stack : List String) (referencedBy key : String) :
    Except ManifestError Mount :=
  match _ : manifest.components.lookup key with
  | none => .error (.unknownComponent key referencedBy)
  | some table =>
    if _ : key ∈ stack then .error (.importCycle (cycleAt key stack))
    else do
      let imports ← table.imports.mapM fun reference => do
        return place reference (← manifest.buildAfresh (stack ++ [key]) key reference.key)
      let children ← table.children.mapM fun reference => do
        return place reference (← manifest.buildAfresh (stack ++ [key]) key reference.key)
      return .mk (manifest.declaration key table) none imports children
termination_by manifest.unopened stack
decreasing_by
  all_goals exact unopened_concat_lt (Option.isSome_iff_exists.mpr ⟨table, ‹_›⟩) ‹_›

/-- The tree below the component of a key, nothing in it being shared. -/
def resolveAfresh (manifest : Manifest) (root : String) : Except ManifestError Mount :=
  if (manifest.components.lookup root).isNone then .error (.missingRoot root)
  else manifest.buildAfresh [] root root

variable {manifest : Manifest}

/-- What a reference stands for, while the components of a stack are being built. -/
def followAfresh (manifest : Manifest) (stack : List String) (key : String)
    (reference : Config.Reference) : Except ManifestError Mount := do
  return place reference (← manifest.buildAfresh (stack ++ [key]) key reference.key)

section Steps

variable {stack : List String} {referencedBy key : String} {table : Config.ComponentTable}

theorem buildAfresh_of_undeclared (h : manifest.components.lookup key = none) :
    manifest.buildAfresh stack referencedBy key = .error (.unknownComponent key referencedBy) := by
  rw [buildAfresh]
  split
  · rfl
  · next htable =>
    rw [h] at htable
    cases htable

theorem buildAfresh_of_mem (htable : manifest.components.lookup key = some table)
    (hkey : key ∈ stack) :
    manifest.buildAfresh stack referencedBy key = .error (.importCycle (cycleAt key stack)) := by
  rw [buildAfresh]
  split
  · next hnone =>
    rw [htable] at hnone
    cases hnone
  · rw [dif_pos hkey]

theorem buildAfresh_of_notMem (htable : manifest.components.lookup key = some table)
    (hkey : key ∉ stack) :
    manifest.buildAfresh stack referencedBy key = do
      let imports ← table.imports.mapM (manifest.followAfresh stack key)
      let children ← table.children.mapM (manifest.followAfresh stack key)
      return .mk (manifest.declaration key table) none imports children := by
  rw [buildAfresh]
  split
  · next hnone =>
    rw [htable] at hnone
    cases hnone
  · next found hfound =>
    obtain rfl : table = found := Option.some.inj (htable.symm.trans hfound)
    rw [dif_neg hkey]
    rfl

end Steps

/-! ### Trees that can be built -/

section Built

variable {stack : List String} {referencedBy key : String} {mount : Mount}

/-- A tree that can be built is that of a table, put together from trees that can be built. -/
theorem buildAfresh_eq_ok (h : manifest.buildAfresh stack referencedBy key = .ok mount) :
    ∃ table imports children, manifest.components.lookup key = some table ∧ key ∉ stack ∧
      table.imports.mapM (manifest.followAfresh stack key) = .ok imports ∧
      table.children.mapM (manifest.followAfresh stack key) = .ok children ∧
      mount = .mk (manifest.declaration key table) none imports children := by
  cases htable : manifest.components.lookup key with
  | none =>
    rw [buildAfresh_of_undeclared htable] at h
    cases h
  | some table =>
    by_cases hkey : key ∈ stack
    · rw [buildAfresh_of_mem htable hkey] at h
      cases h
    · rw [buildAfresh_of_notMem htable hkey] at h
      obtain ⟨imports, himports, h⟩ := exists_of_bind_eq_ok h
      obtain ⟨children, hchildren, h⟩ := exists_of_bind_eq_ok h
      cases h
      exact ⟨table, imports, children, rfl, hkey, himports, hchildren, rfl⟩

/-- Where a tree can be built, all that its component refers to has one. -/
theorem exists_buildAfresh_of_refers (h : manifest.buildAfresh stack referencedBy key = .ok mount)
    {other : String} (hrefers : manifest.Refers key other) :
    ∃ inner, manifest.buildAfresh (stack ++ [key]) key other = .ok inner := by
  obtain ⟨table, imports, children, htable, -, himports, hchildren, -⟩ := buildAfresh_eq_ok h
  obtain ⟨found, hfound, reference, hreference, rfl⟩ := hrefers
  obtain rfl : table = found := Option.some.inj (htable.symm.trans hfound)
  have hfollow : ∃ placed, manifest.followAfresh stack key reference = .ok placed :=
    (List.mem_append.mp hreference).elim (exists_ok_of_mapM himports) (exists_ok_of_mapM hchildren)
  obtain ⟨placed, hplaced⟩ := hfollow
  obtain ⟨inner, hinner, -⟩ := exists_of_bind_eq_ok hplaced
  exact ⟨inner, hinner⟩

/-- A tree that can be built is finite. -/
theorem grounded_of_buildAfresh (h : manifest.buildAfresh stack referencedBy key = .ok mount) :
    manifest.Grounded key := by
  induction hless : manifest.unopened stack using Nat.strong_induction_on
    generalizing stack referencedBy key mount with
  | _ n ih =>
    obtain ⟨table, -, -, htable, hkey, -⟩ := buildAfresh_eq_ok h
    have hdeclared : manifest.Declared key := Option.isSome_iff_exists.mpr ⟨table, htable⟩
    refine .intro hdeclared fun other hrefers => ?_
    obtain ⟨inner, hinner⟩ := exists_buildAfresh_of_refers h hrefers
    exact ih _ (hless ▸ unopened_concat_lt hdeclared hkey) hinner rfl

/-- A tree that can be built is the same wherever it is built: it matters neither who refers to it nor
which components are being built, as long as the tree leads to none of them. -/
theorem buildAfresh_congr (h : manifest.buildAfresh stack referencedBy key = .ok mount)
    {others : List String} (hfree : ∀ other, ReflTransGen manifest.Refers key other → other ∉ others)
    (user : String) : manifest.buildAfresh others user key = .ok mount := by
  induction grounded_of_buildAfresh h generalizing stack others referencedBy user mount with
  | @intro key hdeclared hgrounded ih =>
    have hacyclic := (Grounded.intro hdeclared hgrounded).acyclic
    obtain ⟨table, imports, children, htable, -, himports, hchildren, rfl⟩ := buildAfresh_eq_ok h
    have hfollow : ∀ reference ∈ table.imports ++ table.children, ∀ placed,
        manifest.followAfresh stack key reference = .ok placed →
        manifest.followAfresh others key reference = .ok placed := by
      intro reference hreference placed hplaced
      have hrefers : manifest.Refers key reference.key := ⟨table, htable, reference, hreference, rfl⟩
      obtain ⟨inner, hinner, hplaced⟩ := exists_of_bind_eq_ok hplaced
      have hbelow : ∀ other, ReflTransGen manifest.Refers reference.key other →
          other ∉ others ++ [key] := by
        intro other hreaches hmem
        rcases List.mem_append.mp hmem with hmem | hmem
        · exact hfree other (.head hrefers hreaches) hmem
        · rw [List.mem_singleton.mp hmem] at hreaches
          exact hacyclic (.head' hrefers hreaches)
      rw [followAfresh, ih _ hrefers hinner hbelow key]
      exact hplaced
    rw [buildAfresh_of_notMem htable (hfree key .refl),
      mapM_congr_of_ok himports fun reference hmem => hfollow reference (List.mem_append_left _ hmem),
      mapM_congr_of_ok hchildren fun reference hmem => hfollow reference (List.mem_append_right _ hmem)]
    rfl

end Built

/-! ### Building with what is built -/

/-- All that is built is what can be built anew. -/
def Faithful (manifest : Manifest) (built : Built) : Prop :=
  ∀ key component, built.lookup key = some component →
    ∃ stack referencedBy, manifest.buildAfresh stack referencedBy key = .ok component

/-- Where all that is built is faithful, the step gives the result and leaves it so. -/
def Agrees {α : Type} (manifest : Manifest) (step : Building α) (result : Except ManifestError α) :
    Prop :=
  ∀ built, manifest.Faithful built →
    match step.run built with
    | .ok (value, later) => result = .ok value ∧ manifest.Faithful later
    | .error error => result = .error error

theorem agrees_pure {α : Type} (value : α) : manifest.Agrees (pure value) (.ok value) :=
  fun _ hbuilt => ⟨rfl, hbuilt⟩

theorem agrees_throw {α : Type} (error : ManifestError) :
    manifest.Agrees (throw error : Building α) (.error error) :=
  fun _ _ => rfl

/-- What comes next can rely on the result. -/
theorem Agrees.bind {α β : Type} {step : Building α} {next : α → Building β}
    {result : Except ManifestError α} {nextResult : α → Except ManifestError β}
    (hstep : manifest.Agrees step result)
    (hnext : ∀ value, result = .ok value → manifest.Agrees (next value) (nextResult value)) :
    manifest.Agrees (step >>= next) (result >>= nextResult) := by
  intro built hbuilt
  have hrun := hstep built hbuilt
  rw [StateT.run_bind]
  cases hanswer : step.run built with
  | error error =>
    rw [hanswer] at hrun
    rw [show result = .error error from hrun]
    rfl
  | ok answer =>
    rw [hanswer] at hrun
    obtain ⟨rfl, hlater⟩ := hrun
    exact hnext answer.1 rfl answer.2 hlater

theorem agrees_mapM {α : Type} {references : List Config.Reference}
    {follow : Config.Reference → Building α} {result : Config.Reference → Except ManifestError α}
    (h : ∀ reference ∈ references, manifest.Agrees (follow reference) (result reference)) :
    manifest.Agrees (references.mapM follow) (references.mapM result) := by
  induction references with
  | nil =>
    rw [List.mapM_nil, List.mapM_nil]
    exact agrees_pure []
  | cons reference references ih =>
    rw [List.mapM_cons, List.mapM_cons]
    refine (h reference List.mem_cons_self).bind fun value _ => ?_
    have hothers := ih fun other hother => h other (List.mem_cons_of_mem _ hother)
    exact hothers.bind fun values _ => agrees_pure (value :: values)

/-- Putting something that can be built anew on top of what is built. -/
theorem agrees_note {key : String} {component : Mount} {stack : List String} {referencedBy : String}
    (h : manifest.buildAfresh stack referencedBy key = .ok component) :
    manifest.Agrees (do
      modify fun built => (key, component) :: built
      return component) (.ok component) := by
  intro built hbuilt
  refine ⟨rfl, ?_⟩
  intro other found hfound
  rw [Disk.lookup_cons_ite] at hfound
  split at hfound
  · next heq =>
    cases hfound
    exact ⟨stack, referencedBy, eq_of_beq heq ▸ h⟩
  · exact hbuilt other found hfound

/-- What is built already can be taken if it is what the component gives here as well. -/
theorem agrees_reuse {referencedBy key : String} {fresh : Config.ComponentTable → Building Mount}
    {result : Except ManifestError Mount}
    (hundeclared : manifest.components.lookup key = none →
      result = .error (.unknownComponent key referencedBy))
    (hbuilt : ∀ stack user component, manifest.buildAfresh stack user key = .ok component →
      result = .ok component)
    (hfresh : ∀ table, manifest.components.lookup key = some table →
      manifest.Agrees (fresh table) result) :
    manifest.Agrees (manifest.reuse referencedBy key fresh) result := by
  rw [reuse]
  cases htable : manifest.components.lookup key with
  | none =>
    rw [hundeclared htable]
    exact agrees_throw _
  | some table =>
    intro built hfaithful
    cases hlookup : built.lookup key with
    | none =>
      have hrun := hfresh table htable built hfaithful
      simpa [hlookup] using hrun
    | some component =>
      obtain ⟨stack, user, hcomponent⟩ := hfaithful key component hlookup
      simpa [hlookup] using ⟨hbuilt stack user component hcomponent, hfaithful⟩

theorem agrees_assemble {stack : List String} {referencedBy key : String}
    {table : Config.ComponentTable} {follow : Config.Reference → Building Mount}
    (htable : manifest.components.lookup key = some table) (hkey : key ∉ stack)
    (h : ∀ reference ∈ table.imports ++ table.children,
      manifest.Agrees (follow reference) (manifest.followAfresh stack key reference)) :
    manifest.Agrees (manifest.assemble key table follow)
      (manifest.buildAfresh stack referencedBy key) := by
  have hafresh := @buildAfresh_of_notMem manifest stack referencedBy key table htable hkey
  have himports := agrees_mapM fun reference hmem => h reference (List.mem_append_left _ hmem)
  have hchildren := agrees_mapM fun reference hmem => h reference (List.mem_append_right _ hmem)
  rw [hafresh, assemble]
  refine himports.bind fun imports himported => hchildren.bind fun children hchild => ?_
  have hcomponent : manifest.buildAfresh stack referencedBy key
      = .ok (.mk (manifest.declaration key table) none imports children) := by
    rw [hafresh, himported, hchild]
    rfl
  exact agrees_note hcomponent

/-- A component on the way to one that can be built is not led to by it: they would be on a cycle. -/
theorem LeadsTo.notMem_of_buildAfresh {root : String} {stack before : List String}
    {referencedBy key other : String} {component : Mount} (hleads : manifest.LeadsTo root stack key)
    (h : manifest.buildAfresh before referencedBy key = .ok component)
    (hreaches : ReflTransGen manifest.Refers key other) : other ∉ stack := by
  intro hother
  refine ((grounded_of_buildAfresh h).of_reaches hreaches).acyclic ?_
  exact (leads_of_isChain hleads.chain hother).trans_left hreaches

/-- A call of the search is answered as it is without sharing. -/
theorem agrees_build {root : String} {fuel : Nat} {stack : List String} {referencedBy key : String}
    (hfuel : manifest.unopened stack < fuel) (hleads : manifest.LeadsTo root stack key) :
    manifest.Agrees (manifest.build fuel stack referencedBy key)
      (manifest.buildAfresh stack referencedBy key) := by
  induction fuel generalizing stack referencedBy key with
  | zero => exact absurd hfuel (Nat.not_lt_zero _)
  | succ fuel ih =>
    rw [build_succ, call]
    refine agrees_reuse buildAfresh_of_undeclared ?_ fun table htable => ?_
    · intro before user component hcomponent
      exact buildAfresh_congr hcomponent
        (fun other hreaches => hleads.notMem_of_buildAfresh hcomponent hreaches) referencedBy
    split
    · next hkey =>
      rw [buildAfresh_of_mem htable hkey]
      exact agrees_throw _
    · next hkey =>
      have hless := unopened_concat_lt (Option.isSome_iff_exists.mpr ⟨table, htable⟩) hkey
      refine agrees_assemble htable hkey fun reference hreference => ?_
      have hrefers : manifest.Refers key reference.key := ⟨table, htable, reference, hreference, rfl⟩
      have hnext : manifest.Agrees (manifest.build fuel (stack ++ [key]) key reference.key)
          (manifest.buildAfresh (stack ++ [key]) key reference.key) :=
        ih (by omega) (hleads.extend hkey hrefers)
      exact hnext.bind fun mount _ => agrees_pure (place reference mount)

/-- The search from a declared root is that without sharing. -/
theorem resolve_eq_buildAfresh {root : String} (h : manifest.Declared root) :
    manifest.resolve root = manifest.buildAfresh [] root root := by
  have hagrees : manifest.Agrees (manifest.build (manifest.components.length + 1) [] root root)
      (manifest.buildAfresh [] root root) := agrees_build unopened_nil_lt (.nil root)
  have hrun := hagrees [] nofun
  rw [resolve_eq_of_declared h]
  cases hanswer : (manifest.build (manifest.components.length + 1) [] root root).run [] with
  | error error =>
    rw [hanswer] at hrun
    exact hrun.symm
  | ok answer =>
    rw [hanswer] at hrun
    exact hrun.1.symm

/-- Sharing makes no difference: resolving gives the tree, or the error, of the recursion that builds
every component anew for each reference to it. -/
theorem resolve_eq_resolveAfresh (manifest : Manifest) (root : String) :
    manifest.resolve root = manifest.resolveAfresh root := by
  rw [resolveAfresh]
  split
  · next hmissing => rw [resolve, if_pos hmissing]
  · next hmissing => exact resolve_eq_buildAfresh (not_not.mp (isNone_lookup_iff.not.mp hmissing))

end SiteTree.Manifest
