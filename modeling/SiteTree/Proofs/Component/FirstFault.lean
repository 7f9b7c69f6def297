import SiteTree.Proofs.Component.Unfolding

/-!
# The fault that resolving reports

References are followed depth first, the imports of a component before its children. What is met on the
way stands in the order of its places: a place says which reference was taken at each component from the
root on, and the earlier of two places is the smaller one in lexicographic order. So a reference comes
before all that is met behind it.

* `Manifest.exists_first_of_buildAfresh` — building stops at the first reference that is to something
  undeclared or closes a cycle.
* `Manifest.resolve_reports_first_fault` — the error of resolving is that of this reference.
-/

namespace SiteTree.Manifest

open Relation (ReflTransGen TransGen)

variable {manifest : Manifest} {root : String}

/-! ### What is met -/

/-- A reference as it is met: the components on the way to it, the one that refers, and the one that is
referred to. -/
structure Encounter where
  ancestors : List String
  referencedBy : String
  key : String

namespace Encounter

/-- The root is not referred to by another component. -/
def start (root : String) : Encounter :=
  ⟨[], root, root⟩

/-- Going on from a component by one of its references. -/
def next (encounter : Encounter) (reference : Config.Reference) : Encounter :=
  ⟨encounter.ancestors ++ [encounter.key], encounter.key, reference.key⟩

/-- The reference is to something declared, and not back to one of the components on the way. -/
def Sane (manifest : Manifest) (encounter : Encounter) : Prop :=
  manifest.Declared encounter.key ∧ encounter.key ∉ encounter.ancestors

end Encounter

/-- From one encounter on another one is met at a place, which gives the position of each reference on
the way among those of its component. -/
inductive Meets (manifest : Manifest) : Encounter → (place : List Nat) → Encounter → Prop where
  | here (encounter : Encounter) : Meets manifest encounter [] encounter
  | behind {encounter other : Encounter} {table : Config.ComponentTable}
      {reference : Config.Reference} {n : Nat} {place : List Nat} :
      manifest.components.lookup encounter.key = some table →
      (table.imports ++ table.children)[n]? = some reference →
      Meets manifest (encounter.next reference) place other →
      Meets manifest encounter (n :: place) other

/-- All that is met before a place is sane. -/
def SaneBefore (manifest : Manifest) (encounter : Encounter) (place : List Nat) : Prop :=
  ∀ earlier < place, ∀ other, manifest.Meets encounter earlier other → other.Sane manifest

theorem saneBefore_nil (encounter : Encounter) : manifest.SaneBefore encounter [] :=
  fun earlier hearlier => absurd hearlier (List.not_lt_nil earlier)

/-- Behind the root, the component that refers is the last one on the way. -/
theorem Meets.exists_concat {encounter other : Encounter} {place : List Nat}
    (h : manifest.Meets encounter place other)
    (hlast : ∃ before, encounter.ancestors = before ++ [encounter.referencedBy]) :
    ∃ before, other.ancestors = before ++ [other.referencedBy] := by
  induction h with
  | here => exact hlast
  | behind _ _ _ ih => exact ih ⟨_, rfl⟩

/-- Where a component can be built, everything that is met from it on is sane. -/
theorem Meets.sane {encounter other : Encounter} {place : List Nat}
    (h : manifest.Meets encounter place other) {mount : Mount}
    (hbuild : manifest.buildAfresh encounter.ancestors encounter.referencedBy encounter.key
      = .ok mount) : other.Sane manifest := by
  induction h generalizing mount with
  | here =>
    obtain ⟨table, -, -, htable, hkey, -⟩ := buildAfresh_eq_ok hbuild
    exact ⟨Option.isSome_iff_exists.mpr ⟨table, htable⟩, hkey⟩
  | @behind encounter _ table reference _ _ htable hreference _ ih =>
    have hrefers : manifest.Refers encounter.key reference.key :=
      ⟨table, htable, reference, List.mem_of_getElem? hreference, rfl⟩
    obtain ⟨inner, hinner⟩ := exists_buildAfresh_of_refers hbuild hrefers
    exact ih hinner

/-! ### The first fault -/

/-- What is wrong with an encounter that is not sane, as an error. -/
inductive Encounter.Refused (manifest : Manifest) (encounter : Encounter) : ManifestError → Prop where
  | unknown : ¬ manifest.Declared encounter.key →
      Refused manifest encounter (.unknownComponent encounter.key encounter.referencedBy)
  | cycle : encounter.key ∈ encounter.ancestors →
      Refused manifest encounter (.importCycle (cycleAt encounter.key encounter.ancestors))

/-- A component that is declared and not being built fails where one of its references does, imports
before children. -/
theorem mapM_eq_error_of_buildAfresh {stack : List String} {referencedBy key : String}
    {table : Config.ComponentTable} {error : ManifestError}
    (htable : manifest.components.lookup key = some table) (hkey : key ∉ stack)
    (h : manifest.buildAfresh stack referencedBy key = .error error) :
    (table.imports ++ table.children).mapM (manifest.followAfresh stack key) = .error error := by
  rw [buildAfresh_of_notMem htable hkey] at h
  rw [List.mapM_append]
  rcases bind_eq_error h with himports | ⟨imports, himports, h⟩
  · rw [himports]
    rfl
  · rcases bind_eq_error h with hchildren | ⟨children, -, h⟩
    · rw [himports, hchildren]
      rfl
    · cases h

theorem followAfresh_eq_error {stack : List String} {key : String} {reference : Config.Reference}
    {error : ManifestError} (h : manifest.followAfresh stack key reference = .error error) :
    manifest.buildAfresh (stack ++ [key]) key reference.key = .error error := by
  rw [followAfresh] at h
  rcases bind_eq_error h with hbuild | ⟨mount, -, h⟩
  · exact hbuild
  · cases h

/-- What is sane before a place behind one of the references of a component, if the component is, and
its references before this one can be built. -/
theorem saneBefore_cons {encounter : Encounter} {table : Config.ComponentTable}
    {reference : Config.Reference} {before after : List Config.Reference} {place : List Nat}
    (hsane : encounter.Sane manifest)
    (htable : manifest.components.lookup encounter.key = some table)
    (hreferences : table.imports ++ table.children = before ++ reference :: after)
    (hbefore : ∀ earlier ∈ before, ∃ placed,
      manifest.followAfresh encounter.ancestors encounter.key earlier = .ok placed)
    (hplace : manifest.SaneBefore (encounter.next reference) place) :
    manifest.SaneBefore encounter (before.length :: place) := by
  intro earlier hearlier other hmeets
  cases hmeets with
  | here => exact hsane
  | @behind _ _ found taken n rest hfound htaken hmeets =>
    obtain rfl : table = found := Option.some.inj (htable.symm.trans hfound)
    rw [hreferences] at htaken
    rcases List.cons_lt_cons_iff.mp hearlier with hless | ⟨rfl, hrest⟩
    · rw [List.getElem?_append_left hless] at htaken
      obtain ⟨placed, hplaced⟩ := hbefore taken (List.mem_of_getElem? htaken)
      obtain ⟨mount, hmount, -⟩ := exists_of_bind_eq_ok hplaced
      exact hmeets.sane hmount
    · obtain rfl : reference = taken := by simpa using htaken
      exact hplace rest hrest other hmeets

/-- Building stops at the first encounter that is not sane, with the error of this encounter. -/
theorem exists_first_of_buildAfresh {encounter : Encounter} {error : ManifestError}
    (hleads : manifest.LeadsTo root encounter.ancestors encounter.key)
    (h : manifest.buildAfresh encounter.ancestors encounter.referencedBy encounter.key
      = .error error) :
    ∃ place other, manifest.Meets encounter place other ∧
      manifest.LeadsTo root other.ancestors other.key ∧ other.Refused manifest error ∧
      manifest.SaneBefore encounter place := by
  induction hless : manifest.unopened encounter.ancestors using Nat.strong_induction_on
    generalizing encounter with
  | _ n ih =>
    cases htable : manifest.components.lookup encounter.key with
    | none =>
      rw [buildAfresh_of_undeclared htable] at h
      cases h
      exact ⟨[], encounter, .here encounter, hleads, .unknown (by simp [Declared, htable]),
        saneBefore_nil encounter⟩
    | some table =>
      have hdeclared : manifest.Declared encounter.key :=
        Option.isSome_iff_exists.mpr ⟨table, htable⟩
      by_cases hkey : encounter.key ∈ encounter.ancestors
      · rw [buildAfresh_of_mem htable hkey] at h
        cases h
        exact ⟨[], encounter, .here encounter, hleads, .cycle hkey, saneBefore_nil encounter⟩
      · obtain ⟨before, reference, after, hreferences, herror, hbefore⟩ :=
          exists_of_mapM_eq_error (mapM_eq_error_of_buildAfresh htable hkey h)
        have htaken : (table.imports ++ table.children)[before.length]? = some reference := by
          simp [hreferences]
        have hrefers : manifest.Refers encounter.key reference.key :=
          ⟨table, htable, reference, List.mem_of_getElem? htaken, rfl⟩
        obtain ⟨place, other, hmeets, hother, hrefused, hplace⟩ :=
          @ih _ (hless ▸ unopened_concat_lt hdeclared hkey) (encounter.next reference)
            (hleads.extend hkey hrefers) (followAfresh_eq_error herror) rfl
        exact ⟨before.length :: place, other, .behind htable htaken hmeets, hother, hrefused,
          saneBefore_cons ⟨hdeclared, hkey⟩ htable hreferences hbefore hplace⟩

/-- The first encounter from the root on that is not sane. -/
def IsFirstFault (manifest : Manifest) (root : String) (encounter : Encounter) : Prop :=
  ∃ place, manifest.Meets (.start root) place encounter ∧ manifest.SaneBefore (.start root) place

/-! ### Errors of resolving -/

theorem declared_of_resolve_error {error : ManifestError} (h : manifest.resolve root = .error error)
    (herror : error ≠ .missingRoot root) : manifest.Declared root := by
  by_contra hmissing
  rw [resolve, if_pos (isNone_lookup_iff.mpr hmissing)] at h
  cases h
  exact herror rfl

/-- Where a declared root is not resolved, the error is that of the first fault, which lies behind the
root. -/
theorem exists_firstFault_of_resolve {error : ManifestError} (h : manifest.resolve root = .error error)
    (hdeclared : manifest.Declared root) :
    ∃ encounter, manifest.IsFirstFault root encounter ∧
      manifest.LeadsTo root encounter.ancestors encounter.key ∧ encounter.Refused manifest error ∧
      ∃ before, encounter.ancestors = before ++ [encounter.referencedBy] := by
  rw [resolve_eq_buildAfresh hdeclared] at h
  obtain ⟨place, encounter, hmeets, hleads, hrefused, hplace⟩ :=
    @exists_first_of_buildAfresh _ _ (.start root) _ (.nil root) h
  refine ⟨encounter, ⟨place, hmeets, hplace⟩, hleads, hrefused, ?_⟩
  cases hmeets with
  | here =>
    cases hrefused with
    | unknown hundeclared => exact absurd hdeclared hundeclared
    | cycle hkey => cases hkey
  | behind _ _ hmeets => exact hmeets.exists_concat ⟨[], rfl⟩

/-- The way to a component leads through the last one before it, which refers to it. -/
theorem LeadsTo.of_concat {before : List String} {last key : String}
    (h : manifest.LeadsTo root (before ++ [last]) key) :
    manifest.LeadsTo root before last ∧ manifest.Refers last key := by
  have hchain := h.chain
  have hfirst := h.first
  refine ⟨⟨hchain.left_of_append, ?_, h.nodup.sublist (List.sublist_append_left before _)⟩, ?_⟩
  · rw [List.head?_append] at hfirst
    cases hhead : (before ++ [last]).head? with
    | none => simp at hhead
    | some first =>
      rw [hhead] at hfirst
      exact hfirst
  · rw [List.append_assoc] at hchain
    exact List.isChain_pair.mp hchain.right_of_append

/-- All components on a way refer to the next one, so they are declared. -/
theorem declared_of_isChain {stack : List String} {key other : String}
    (h : (stack ++ [key]).IsChain manifest.Refers) (hother : other ∈ stack) :
    manifest.Declared other := by
  obtain ⟨_, hrefers, -⟩ := TransGen.head'_iff.mp (leads_of_isChain h hother)
  exact hrefers.declared

/-- The errors of resolving are those of the first fault. A cycle is reported by its keys in order, from
the one that is met again to this one: they are declared and distinct, each refers to the next, and
the last of them makes the reference that is the fault. An unknown component is undeclared, and the
component that is said to refer to it does so and can be reached from the root. -/
theorem resolve_reports_first_fault (manifest : Manifest) (root : String) :
    (∀ keys, manifest.resolve root = .error (.importCycle keys) →
      ∃ before key others, keys = key :: others ++ [key] ∧
        (∀ other ∈ key :: others, manifest.Declared other) ∧ (key :: others).Nodup ∧
        ReflTransGen manifest.Refers root key ∧
        (key :: others ++ [key]).IsChain manifest.Refers ∧
        manifest.IsFirstFault root
          ⟨before ++ key :: others, (key :: others).getLast (List.cons_ne_nil key others), key⟩) ∧
    ∀ key referencedBy, manifest.resolve root = .error (.unknownComponent key referencedBy) →
      ¬ manifest.Declared key ∧ manifest.Declared referencedBy ∧
      ReflTransGen manifest.Refers root referencedBy ∧ manifest.Refers referencedBy key ∧
      ∃ before, manifest.IsFirstFault root ⟨before ++ [referencedBy], referencedBy, key⟩ := by
  constructor
  · intro keys hkeys
    obtain ⟨⟨ancestors, last, key⟩, hfirst, hleads, hrefused, front, hlast⟩ :=
      exists_firstFault_of_resolve hkeys (declared_of_resolve_error hkeys nofun)
    cases hrefused with
    | cycle hkey =>
      change key ∈ ancestors at hkey
      obtain ⟨before, others, rfl, hbefore⟩ := List.eq_append_cons_of_mem hkey
      have hchain := hleads.chain
      rw [List.append_assoc] at hchain
      have hgetLast : (key :: others).getLast (List.cons_ne_nil key others) = last := by
        have hsame : (before ++ key :: others).getLast? = (front ++ [last]).getLast? :=
          congrArg List.getLast? hlast
        rw [List.getLast?_append_of_ne_nil before (List.cons_ne_nil key others),
          List.getLast?_concat, List.getLast?_eq_some_getLast (List.cons_ne_nil key others)] at hsame
        exact Option.some.inj hsame
      refine ⟨before, key, others, cycleAt_append hbefore others, ?_, ?_, hleads.reached,
        hchain.right_of_append, hgetLast ▸ hfirst⟩
      · exact fun other hother => declared_of_isChain hchain.right_of_append hother
      · exact hleads.nodup.sublist (List.suffix_append before _).sublist
  · intro key referencedBy herror
    obtain ⟨⟨ancestors, last, other⟩, hfirst, hleads, hrefused, before, hlast⟩ :=
      exists_firstFault_of_resolve herror (declared_of_resolve_error herror nofun)
    cases hrefused with
    | unknown hundeclared =>
      obtain rfl : ancestors = before ++ [last] := hlast
      obtain ⟨hbefore, hrefers⟩ := hleads.of_concat
      exact ⟨hundeclared, hrefers.declared, hbefore.reached, hrefers, before, hfirst⟩

/-- Tables of which one has a component as a child that imports it, and one refers to nothing that is
declared. -/
def diary : Manifest where
  components :=
    [("home", {
        template := ⟨"home.html"⟩, imports := [⟨"nav", none⟩], children := [⟨"blog", none⟩] }),
      ("nav", { template := ⟨"nav.html"⟩ }),
      ("blog", { template := ⟨"blog.html"⟩, imports := [⟨"nav", none⟩, ⟨"home", none⟩] }),
      ("draft", { template := ⟨"draft.html"⟩, imports := [⟨"nav", none⟩, ⟨"notes", none⟩] })]
  locate := id

theorem diary_first_faults :
    (diary.resolve "home" = .error (.importCycle ["home", "blog", "home"]) ∧
      ∃ before, diary.IsFirstFault "home" ⟨before ++ ["home", "blog"], "blog", "home"⟩) ∧
    diary.resolve "draft" = .error (.unknownComponent "notes" "draft") ∧
      ∃ before, diary.IsFirstFault "draft" ⟨before ++ ["draft"], "draft", "notes"⟩ := by
  have hcycle : diary.resolve "home" = .error (.importCycle ["home", "blog", "home"]) := rfl
  have hunknown : diary.resolve "draft" = .error (.unknownComponent "notes" "draft") := rfl
  obtain ⟨before, key, others, hkeys, -, -, -, -, hfirst⟩ :=
    (resolve_reports_first_fault diary "home").1 _ hcycle
  obtain ⟨-, -, -, -, hdraft⟩ := (resolve_reports_first_fault diary "draft").2 _ _ hunknown
  obtain ⟨rfl, hothers⟩ := List.cons.inj hkeys
  obtain rfl : ["blog"] = others := List.append_cancel_right hothers
  exact ⟨⟨hcycle, before, hfirst⟩, hunknown, hdraft⟩

end SiteTree.Manifest
