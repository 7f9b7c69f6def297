import SiteTree.Proofs.Markup.Embedding
import SiteTree.Proofs.Page.CompileCache
import Mathlib.Data.List.Perm.Basic

/-!
# The order of imports

The imports of a component are put into its template one after the other. A later one is looked for in
what the earlier ones have brought along, so the order matters when an import brings along the tag of
another one. Otherwise each import comes into its slots and no fragment changes any more, in whichever
order they come.

* `embedAfresh_eq_ok_iff` — imports that bring no tags along fill the slots of the template.
* `compile_imports_perm` — then all orders of the imports give the same markup.
* `order_matters` — a box with a leaf in it, and a page that imports both.
-/

namespace SiteTree.Compiler

/-- The markup of the import with a selector. -/
def fragments (compiler : Compiler) (imports : List Mount) : Markup.Filling := fun selector =>
  (imports.find? (·.declaration.selector = some selector)).bind fun mount =>
    (compiler.compileAfresh mount).toOption

/-- The selectors of imports that are embedded. -/
def selectors (imports : List Mount) : List String :=
  imports.filterMap (·.declaration.selector)

section Fragments

variable {compiler : Compiler}

theorem selectors_cons_of_none {mount : Mount} (h : mount.declaration.selector = none)
    (imports : List Mount) : selectors (mount :: imports) = selectors imports := by
  rw [selectors, selectors, List.filterMap_cons, h]

theorem selectors_cons_of_some {mount : Mount} {selector : String}
    (h : mount.declaration.selector = some selector) (imports : List Mount) :
    selectors (mount :: imports) = selector :: selectors imports := by
  rw [selectors, selectors, List.filterMap_cons, h]

theorem fragments_cons_of_eq {mount : Mount} {imports : List Mount} {selector : String}
    (h : mount.declaration.selector = some selector) :
    compiler.fragments (mount :: imports) selector = (compiler.compileAfresh mount).toOption := by
  rw [fragments, List.find?_cons_of_pos (by simpa using h)]
  rfl

theorem fragments_cons_of_ne {mount : Mount} {imports : List Mount} {selector : String}
    (h : mount.declaration.selector ≠ some selector) :
    compiler.fragments (mount :: imports) selector = compiler.fragments imports selector := by
  rw [fragments, List.find?_cons_of_neg (by simpa using h)]
  rfl

/-- With distinct selectors, the import with a selector is the only one. -/
theorem fragments_of_mem {imports : List Mount} (hdistinct : (selectors imports).Nodup)
    {mount : Mount} (hmem : mount ∈ imports) {selector : String}
    (h : mount.declaration.selector = some selector) :
    compiler.fragments imports selector = (compiler.compileAfresh mount).toOption := by
  induction imports with
  | nil => cases hmem
  | cons first imports ih =>
    rcases List.mem_cons.mp hmem with rfl | hmem
    · exact fragments_cons_of_eq h
    · have hlater : selector ∈ selectors imports := List.mem_filterMap.mpr ⟨mount, hmem, h⟩
      cases hfirst : first.declaration.selector with
      | none =>
        rw [selectors_cons_of_none hfirst] at hdistinct
        rw [fragments_cons_of_ne (by simp [hfirst]), ih hdistinct hmem]
      | some other =>
        rw [selectors_cons_of_some hfirst, List.nodup_cons] at hdistinct
        have hne : first.declaration.selector ≠ some selector := by
          rw [hfirst]
          rintro ⟨⟩
          exact hdistinct.1 hlater
        rw [fragments_cons_of_ne hne, ih hdistinct.2 hmem]

theorem fragments_of_notMem {imports : List Mount} {selector : String}
    (h : selector ∉ selectors imports) : compiler.fragments imports selector = none := by
  rw [fragments, List.find?_eq_none.mpr, Option.bind_none]
  intro mount hmount hselector
  exact h (List.mem_filterMap.mpr ⟨mount, hmount, by simpa using hselector⟩)

theorem selectors_perm {imports imports' : List Mount} (h : imports.Perm imports') :
    (selectors imports).Perm (selectors imports') :=
  h.filterMap _

theorem fragments_perm {imports imports' : List Mount} (hperm : imports.Perm imports')
    (hdistinct : (selectors imports).Nodup) :
    compiler.fragments imports' = compiler.fragments imports := by
  have hselectors := selectors_perm hperm
  funext selector
  by_cases hmem : selector ∈ selectors imports
  · obtain ⟨mount, hmount, hselector⟩ := List.mem_filterMap.mp hmem
    rw [fragments_of_mem hdistinct hmount hselector, fragments_of_mem
      (hselectors.nodup_iff.mp hdistinct) (hperm.mem_iff.mp hmount) hselector]
  · rw [fragments_of_notMem hmem, fragments_of_notMem (mt hselectors.mem_iff.mpr hmem)]

end Fragments

/-! ### Embedding -/

section Embed

variable {compiler : Compiler} {whole filling : Markup.Filling} {parts : List Markup.Part}
  {mount : Mount} {imports : List Mount} {selector fragment : String}

/-- Imports that are still to be embedded in a page where other fragments are already. -/
structure Pending (compiler : Compiler) (whole filling : Markup.Filling) (imports : List Mount) :
    Prop where
  distinct : (selectors imports).Nodup
  compiled : ∀ mount ∈ imports, ∀ selector, mount.declaration.selector = some selector →
    whole selector = (compiler.compileAfresh mount).toOption
  missing : ∀ selector ∈ selectors imports, filling selector = none
  present : ∀ selector fragment, filling selector = some fragment → whole selector = some fragment

/-- An import without a selector is passed over. -/
theorem Pending.skip (h : Pending compiler whole filling (mount :: imports))
    (hselector : mount.declaration.selector = none) : Pending compiler whole filling imports where
  distinct := selectors_cons_of_none hselector imports ▸ h.distinct
  compiled other hother := h.compiled other (List.mem_cons_of_mem _ hother)
  missing := selectors_cons_of_none hselector imports ▸ h.missing
  present := h.present

/-- The fragment of an import comes in, and is not put in again. -/
theorem Pending.put (h : Pending compiler whole filling (mount :: imports))
    (hselector : mount.declaration.selector = some selector)
    (hmount : compiler.compileAfresh mount = .ok fragment) :
    Pending compiler whole (Function.update filling selector (some fragment)) imports := by
  have hselectors := selectors_cons_of_some hselector imports
  obtain ⟨hnew, hdistinct⟩ := List.nodup_cons.mp (hselectors ▸ h.distinct)
  refine ⟨hdistinct, fun other hother => h.compiled other (List.mem_cons_of_mem _ hother), ?_, ?_⟩
  · intro other hother
    have hne : other ≠ selector := fun heq => hnew (heq ▸ hother)
    rw [Function.update_of_ne hne, h.missing other (hselectors ▸ List.mem_cons_of_mem _ hother)]
  · intro other found hother
    by_cases heq : other = selector
    · rw [heq, Function.update_self] at hother
      rw [heq, h.compiled mount List.mem_cons_self selector hselector, hmount, ← hother]
      rfl
    · rw [Function.update_of_ne heq] at hother
      exact h.present other found hother

/-- What is in the page in the end does not depend on how much of it is there already. -/
theorem or_fragments_put (hmissing : filling selector = none)
    (hselector : mount.declaration.selector = some selector)
    (hmount : compiler.compileAfresh mount = .ok fragment) (other : String) :
    (Function.update filling selector (some fragment) other).or (compiler.fragments imports other)
      = (filling other).or (compiler.fragments (mount :: imports) other) := by
  by_cases heq : other = selector
  · rw [heq, Function.update_self, hmissing, fragments_cons_of_eq hselector, hmount]
    rfl
  · have hne : mount.declaration.selector ≠ some other := by
      rw [hselector]
      exact fun h => heq (Option.some.inj h).symm
    rw [Function.update_of_ne heq, fragments_cons_of_ne hne]

/-- Imports that bring no tags along are embedded if all of them are compiled, and then fill the slots
that are still empty. -/
theorem embedAfresh_eq_ok_iff (hnone : Markup.BringsNone whole parts)
    (hpending : Pending compiler whole filling imports) {html : String} :
    compiler.embedAfresh imports (String.ofList (Markup.shown filling parts)) = .ok html
      ↔ (∀ mount ∈ imports, mount.declaration.selector.isSome = true →
          ∃ fragment, compiler.compileAfresh mount = .ok fragment) ∧
        html = String.ofList (Markup.shown
          (fun selector => (filling selector).or (compiler.fragments imports selector)) parts) := by
  induction imports generalizing filling with
  | nil =>
    have hsame : (fun selector => (filling selector).or (compiler.fragments [] selector)) = filling := by
      funext selector
      rw [fragments_of_notMem List.not_mem_nil, Option.or_none]
    rw [embedAfresh_nil, hsame]
    constructor
    · intro h
      cases h
      exact ⟨nofun, rfl⟩
    · rintro ⟨-, rfl⟩
      rfl
  | cons mount imports ih =>
    rw [List.forall_mem_cons]
    cases hselector : mount.declaration.selector with
    | none =>
      have hsame : compiler.fragments (mount :: imports) = compiler.fragments imports := by
        funext selector
        exact fragments_cons_of_ne (by simp [hselector])
      rw [hsame, embedAfresh_cons_of_none hselector, ih (hpending.skip hselector)]
      simp
    | some selector =>
      have hmissing : filling selector = none :=
        hpending.missing selector (by rw [selectors_cons_of_some hselector]; exact List.mem_cons_self)
      cases hmount : compiler.compileAfresh mount with
      | error failure =>
        rw [embedAfresh_cons_of_error hselector hmount]
        refine iff_of_false nofun ?_
        rintro ⟨⟨hok, -⟩, -⟩
        obtain ⟨fragment, hfragment⟩ := hok rfl
        cases hfragment
      | ok fragment =>
        have hfound : (whole selector).isSome = true := by
          rw [hpending.compiled mount List.mem_cons_self selector hselector, hmount]
          rfl
        have hslots := hnone filling hpending.present selector hfound hmissing
        rw [embedAfresh_cons_of_ok hselector hmount, Markup.substitute_shown hmissing hslots,
          ih (hpending.put hselector hmount),
          funext (or_fragments_put hmissing hselector hmount)]
        simp

end Embed

/-! ### Orders of imports -/

/-- The template of a mount has its imports in slots that close themselves, and none of them brings a tag
of another one along. -/
def EmbedsInSlots (compiler : Compiler) (mount : Mount) : Prop :=
  ∀ template, compiler.withScopeClass mount = .ok template →
    ∃ parts, template = String.ofList (Markup.shown Markup.unfilled parts) ∧
      Markup.BringsNone (compiler.fragments mount.imports) parts

/-- What a call is answered with. -/
def answer (compiler : Compiler) (mount : Mount) (cache : Cache) : Except Failure String :=
  ((compiler.compile mount).run.run cache).1

/-- The markup is the template with the markup of each import in its slots. -/
def FillsSlots (compiler : Compiler) (mount : Mount) (cache : Cache) (html : String) : Prop :=
  ∃ (filling : Markup.Filling) (parts : List Markup.Part),
    compiler.withScopeClass mount = .ok (String.ofList (Markup.shown Markup.unfilled parts)) ∧
    html = String.ofList (Markup.shown filling parts) ∧
    ∀ import_ ∈ mount.imports, ∀ selector, import_.declaration.selector = some selector →
      ∃ fragment, filling selector = some fragment ∧ compiler.answer import_ cache = .ok fragment

section Order

variable {compiler : Compiler} {declaration : Declaration} {overrides : Option Json}
  {imports imports' children : List Mount}

theorem compileAfresh_eq_ok_iff (hdistinct : (selectors imports).Nodup)
    (hslots : compiler.EmbedsInSlots (.mk declaration overrides imports children)) {html : String} :
    compiler.compileAfresh (.mk declaration overrides imports children) = .ok html
      ↔ ∃ parts, compiler.withScopeClass (.mk declaration overrides imports children)
          = .ok (String.ofList (Markup.shown Markup.unfilled parts)) ∧
        Markup.BringsNone (compiler.fragments imports) parts ∧
        (∀ mount ∈ imports, mount.declaration.selector.isSome = true →
          ∃ fragment, compiler.compileAfresh mount = .ok fragment) ∧
        html = String.ofList (Markup.shown (compiler.fragments imports) parts) := by
  rw [compileAfresh]
  have hembed {parts : List Markup.Part}
      (hnone : Markup.BringsNone (compiler.fragments imports) parts) :
      compiler.embedAfresh imports (String.ofList (Markup.shown Markup.unfilled parts)) = .ok html
        ↔ (∀ mount ∈ imports, mount.declaration.selector.isSome = true →
            ∃ fragment, compiler.compileAfresh mount = .ok fragment) ∧
          html = String.ofList (Markup.shown (compiler.fragments imports) parts) :=
    embedAfresh_eq_ok_iff hnone
      { distinct := hdistinct
        compiled := fun mount hmount selector hselector =>
          fragments_of_mem hdistinct hmount hselector
        missing := fun _ _ => rfl
        present := fun _ _ h => nomatch h }
  constructor
  · intro h
    obtain ⟨template, htemplate, hhtml⟩ := exists_of_bind_eq_ok h
    obtain ⟨parts, rfl, hnone⟩ := hslots template htemplate
    exact ⟨parts, htemplate, hnone, (hembed hnone).mp hhtml⟩
  · rintro ⟨parts, htemplate, hnone, hfilled⟩
    rw [htemplate]
    exact (hembed hnone).mpr hfilled

section Perm

variable (hperm : imports.Perm imports') (hdistinct : (selectors imports).Nodup)

include hperm

theorem reaches_perm {other : Mount}
    (h : (Mount.mk declaration overrides imports' children).Reaches other) :
    other = .mk declaration overrides imports' children ∨
      (Mount.mk declaration overrides imports children).Reaches other := by
  induction h with
  | refl => exact .inl rfl
  | imported _ hmem ih =>
    rcases ih with rfl | hreaches
    · exact .inr (.imported .refl (hperm.mem_iff.mpr hmem))
    · exact .inr (.imported hreaches hmem)
  | child _ hmem ih =>
    rcases ih with rfl | hreaches
    · exact .inr (.child .refl hmem)
    · exact .inr (.child hreaches hmem)

include hdistinct

theorem EmbedsInSlots.perm
    (h : compiler.EmbedsInSlots (.mk declaration overrides imports children)) :
    compiler.EmbedsInSlots (.mk declaration overrides imports' children) := by
  intro template htemplate
  obtain ⟨parts, hparts, hnone⟩ := h template htemplate
  refine ⟨parts, hparts, ?_⟩
  change Markup.BringsNone (compiler.fragments imports') parts
  rwa [fragments_perm hperm hdistinct]

/-- Without a cache, all orders of imports in slots give the same markup. -/
theorem compileAfresh_perm
    (hslots : compiler.EmbedsInSlots (.mk declaration overrides imports children)) {html : String} :
    compiler.compileAfresh (.mk declaration overrides imports' children) = .ok html
      ↔ compiler.compileAfresh (.mk declaration overrides imports children) = .ok html := by
  have hdistinct' := (selectors_perm hperm).nodup_iff.mp hdistinct
  rw [compileAfresh_eq_ok_iff hdistinct hslots,
    compileAfresh_eq_ok_iff hdistinct' (hslots.perm hperm hdistinct), fragments_perm hperm hdistinct]
  have hscoped : compiler.withScopeClass (.mk declaration overrides imports' children)
      = compiler.withScopeClass (.mk declaration overrides imports children) := rfl
  rw [hscoped]
  simp only [hperm.mem_iff]

theorem KeysDetermine.perm
    (hslots : compiler.EmbedsInSlots (.mk declaration overrides imports children))
    (h : compiler.KeysDetermine (.mk declaration overrides imports children)) :
    compiler.KeysDetermine (.mk declaration overrides imports' children) := by
  intro first second hfirst hsecond hkey html hhtml
  rcases reaches_perm hperm hfirst with rfl | hfirst
  · rcases reaches_perm hperm hsecond with rfl | hsecond
    · exact hhtml
    · exact h _ second .refl hsecond hkey html
        ((compileAfresh_perm hperm hdistinct hslots).mp hhtml)
  · rcases reaches_perm hperm hsecond with rfl | hsecond
    · exact (compileAfresh_perm hperm hdistinct hslots).mpr
        (h first _ hfirst .refl hkey html hhtml)
    · exact h first second hfirst hsecond hkey html hhtml

theorem Sound.perm
    (hslots : compiler.EmbedsInSlots (.mk declaration overrides imports children)) {cache : Cache}
    (h : Sound compiler (.mk declaration overrides imports children) cache) :
    Sound compiler (.mk declaration overrides imports' children) cache := by
  intro mount hmount html hlookup
  rcases reaches_perm hperm hmount with rfl | hmount
  · exact (compileAfresh_perm hperm hdistinct hslots).mpr (h _ .refl html hlookup)
  · exact h mount hmount html hlookup

end Perm

/-- If the imports of a component have distinct selectors, stand in slots of its template and bring no
tags of each other along, then all orders of them give the same markup, which is the template with the
markup of each import in its slots. -/
theorem compile_imports_perm (hperm : imports.Perm imports') (hdistinct : (selectors imports).Nodup)
    (hslots : compiler.EmbedsInSlots (.mk declaration overrides imports children))
    (hkeys : compiler.KeysDetermine (.mk declaration overrides imports children)) {cache : Cache}
    (hsound : Sound compiler (.mk declaration overrides imports children) cache) (html : String) :
    (compiler.answer (.mk declaration overrides imports' children) cache = .ok html
      ↔ compiler.answer (.mk declaration overrides imports children) cache = .ok html) ∧
    (compiler.answer (.mk declaration overrides imports children) cache = .ok html →
      compiler.FillsSlots (.mk declaration overrides imports children) cache html) := by
  have hanswer : compiler.answer (.mk declaration overrides imports children) cache
      = compiler.compileAfresh (.mk declaration overrides imports children) :=
    (gives_compile hkeys _ .refl cache hsound).1
  have hanswer' : compiler.answer (.mk declaration overrides imports' children) cache
      = compiler.compileAfresh (.mk declaration overrides imports' children) :=
    (gives_compile (hkeys.perm hperm hdistinct hslots) _ .refl cache
      (hsound.perm hperm hdistinct hslots)).1
  rw [hanswer, hanswer']
  refine ⟨compileAfresh_perm hperm hdistinct hslots, fun hhtml => ?_⟩
  obtain ⟨parts, hscoped, -, hcompiled, rfl⟩ := (compileAfresh_eq_ok_iff hdistinct hslots).mp hhtml
  refine ⟨_, parts, hscoped, rfl, fun import_ himport selector hselector => ?_⟩
  obtain ⟨fragment, hfragment⟩ := hcompiled import_ himport (by rw [hselector]; rfl)
  have hreaches : (Mount.mk declaration overrides imports children).Reaches import_ :=
    .imported .refl himport
  refine ⟨fragment, ?_, ?_⟩
  · rw [fragments_of_mem hdistinct himport hselector, hfragment]
    rfl
  · rw [← hfragment]
    exact (gives_compile hkeys import_ hreaches cache hsound).1

end Order

/-! ### A shelf

A page with places for two components, on the disk of the two boxes. -/

section Shelf

/-- The tables, given the imports of the page. -/
def shelfTables (imports : List String) : Config.Components :=
  [("home", {
      name := some "index", template := ⟨"home.html"⟩, imports := imports.map (⟨·, none⟩) }),
    ("a", { template := ⟨"leaf.html"⟩, selector := some "x-a" }),
    ("b", { template := ⟨"box.html"⟩, selector := some "x-b" }),
    ("leaf", { template := ⟨"leaf.html"⟩, selector := some "x-leaf" })]

def shelf (imports : List String) : Manifest :=
  ⟨shelfTables imports, (Path.mk "/srv/site").join⟩

/-- What the tables of the shelf declare. -/
def shelfDeclaration (key : String) : Declaration :=
  (shelf []).declaration key (((shelfTables []).lookup key).getD ⟨none, ⟨""⟩, none,
    [], [], [], [], [], [], none⟩)

def shelfPage (imports : List String) : Mount :=
  .mk (shelfDeclaration "home") none (imports.map fun key => .mk (shelfDeclaration key) none [] []) []

/-- The compiler of the page, which uses templates as they are. -/
def shelfCompiler : Compiler where
  layout := ⟨.ofMount ⟨"out"⟩ (shelfPage []), []⟩
  engine := none
  disk := boxDisk

theorem read_home : Files.read boxDisk (shelfDeclaration "home").template = .ok "<x-a/><x-b/>" := by
  have hpath : (shelfDeclaration "home").template = ⟨"/srv/site/home.html"⟩ := rfl
  rw [hpath]
  exact read_boxDisk "home.html" rfl (by decide) (by decide) (by decide) rfl

theorem withScopeClass_shelfPage (imports : List String) :
    shelfCompiler.withScopeClass (shelfPage imports) = .ok "<x-a/><x-b/>" :=
  withScopeClass_plain rfl read_home rfl

theorem compileAfresh_shelf {key text : String}
    (hread : Files.read boxDisk (shelfDeclaration key).template = .ok text)
    (hstyles : (shelfDeclaration key).externalStyles = []) :
    shelfCompiler.compileAfresh (.mk (shelfDeclaration key) none [] []) = .ok text := by
  have hembed : shelfCompiler.compileAfresh (.mk (shelfDeclaration key) none [] [])
      = shelfCompiler.embedAfresh [] text := compileAfresh_plain rfl hread hstyles
  rw [hembed, embedAfresh_nil]

theorem read_leaf {key : String} (hpath : (shelfDeclaration key).template = ⟨"/srv/site/leaf.html"⟩) :
    Files.read boxDisk (shelfDeclaration key).template = .ok "<i></i>" := by
  rw [hpath]
  exact read_boxDisk "leaf.html" rfl (by decide) (by decide) (by decide) rfl

theorem read_box {key : String} (hpath : (shelfDeclaration key).template = ⟨"/srv/site/box.html"⟩) :
    Files.read boxDisk (shelfDeclaration key).template = .ok "<p><x-leaf/></p>" := by
  rw [hpath]
  exact read_boxDisk "box.html" rfl (by decide) (by decide) (by decide) rfl

theorem compileAfresh_shelf_a :
    shelfCompiler.compileAfresh (.mk (shelfDeclaration "a") none [] []) = .ok "<i></i>" :=
  compileAfresh_shelf (read_leaf rfl) rfl

theorem compileAfresh_shelf_b :
    shelfCompiler.compileAfresh (.mk (shelfDeclaration "b") none [] [])
      = .ok "<p><x-leaf/></p>" :=
  compileAfresh_shelf (read_box rfl) rfl

theorem compileAfresh_shelf_leaf :
    shelfCompiler.compileAfresh (.mk (shelfDeclaration "leaf") none [] [])
      = .ok "<i></i>" :=
  compileAfresh_shelf (read_leaf rfl) rfl

/-- No two of the tables have a key in common. -/
theorem keysDetermine_shelf {imports : List String}
    (hresolve : (shelf imports).resolve "home" = .ok (shelfPage imports)) :
    shelfCompiler.KeysDetermine (shelfPage imports) := by
  have hapart : (shelf imports).KeysApart := by
    refine Manifest.keysApart_of_nodup ?_
    change List.Nodup [(shelfDeclaration "home").key, (shelfDeclaration "a").key,
      (shelfDeclaration "b").key, (shelfDeclaration "leaf").key]
    decide
  refine keysDetermine_of_keysApart hresolve hapart ?_
  intro first second _ _ _ engine hengine
  cases hengine

theorem compileAfresh_shelfPage (imports : List String) :
    shelfCompiler.compileAfresh (shelfPage imports)
      = shelfCompiler.embedAfresh (shelfPage imports).imports "<x-a/><x-b/>" :=
  compileAfresh_plain rfl read_home rfl

theorem isUsage_self {selector : String} :
    Markup.IsUsage selector.toList ('<' :: (selector.toList ++ ['/', '>'])) :=
  .mk (@Markup.Named.mk _ _ [] _ nofun .slash)

/-- The parts of the template. -/
def shelfParts : List Markup.Part :=
  [.slot "x-a" "<x-a/>".toList isUsage_self (by decide),
    .slot "x-b" "<x-b/>".toList isUsage_self (by decide)]

theorem fragments_shelf {selector fragment : String}
    (h : shelfCompiler.fragments (shelfPage ["a", "b"]).imports selector = some fragment) :
    selector = "x-a" ∧ fragment = "<i></i>" ∨ selector = "x-b" ∧ fragment = "<p><x-leaf/></p>" := by
  have hlist : (shelfPage ["a", "b"]).imports
      = [.mk (shelfDeclaration "a") none [] [], .mk (shelfDeclaration "b") none [] []] := rfl
  rw [hlist] at h
  by_cases ha : selector = "x-a"
  · rw [ha, fragments_cons_of_eq rfl, compileAfresh_shelf_a] at h
    cases h
    exact .inl ⟨ha, rfl⟩
  · have hne : (Mount.mk (shelfDeclaration "a") none [] []).declaration.selector ≠ some selector :=
      fun heq => ha (Option.some.inj heq).symm
    rw [fragments_cons_of_ne hne] at h
    by_cases hb : selector = "x-b"
    · rw [hb, fragments_cons_of_eq rfl, compileAfresh_shelf_b] at h
      cases h
      exact .inr ⟨hb, rfl⟩
    · have hne : (Mount.mk (shelfDeclaration "b") none [] []).declaration.selector ≠ some selector :=
        fun heq => hb (Option.some.inj heq).symm
      rw [fragments_cons_of_ne hne, fragments_of_notMem List.not_mem_nil] at h
      cases h

/-- Neither of the two has a tag of the other one. -/
theorem embedsInSlots_shelf :
    shelfCompiler.EmbedsInSlots (shelfPage ["a", "b"]) := by
  intro template htemplate
  cases htemplate.symm.trans (withScopeClass_shelfPage ["a", "b"])
  refine ⟨shelfParts, rfl, .of_idle ?names ?parts ?fragments⟩
  case names =>
    intro selector hselector
    obtain ⟨fragment, hfragment⟩ := Option.isSome_iff_exists.mp hselector
    rcases fragments_shelf hfragment with ⟨rfl, -⟩ | ⟨rfl, -⟩
    · exact ⟨'x', "-a".toList, rfl, by decide, List.all_eq_true.mp (by decide)⟩
    · exact ⟨'x', "-b".toList, rfl, by decide, List.all_eq_true.mp (by decide)⟩
  case parts =>
    intro selector hselector part hpart hslot
    obtain ⟨fragment, hfragment⟩ := Option.isSome_iff_exists.mp hselector
    rw [shelfParts, List.mem_pair] at hpart
    rcases fragments_shelf hfragment with ⟨rfl, -⟩ | ⟨rfl, -⟩
    · rcases hpart with rfl | rfl
      · exact absurd rfl hslot
      · change Markup.Idle "x-a".toList "<x-b/>".toList
        decide +kernel
    · rcases hpart with rfl | rfl
      · change Markup.Idle "x-b".toList "<x-a/>".toList
        decide +kernel
      · exact absurd rfl hslot
  case fragments =>
    intro selector other fragment hselector hother hne
    obtain ⟨own, hown⟩ := Option.isSome_iff_exists.mp hselector
    rcases fragments_shelf hown with ⟨rfl, -⟩ | ⟨rfl, -⟩
    · rcases fragments_shelf hother with ⟨rfl, -⟩ | ⟨-, rfl⟩
      · exact absurd rfl hne
      · decide +kernel
    · rcases fragments_shelf hother with ⟨-, rfl⟩ | ⟨rfl, -⟩
      · decide +kernel
      · exact absurd rfl hne

/-- A box and a leaf in two places of a page, in either order. -/
theorem shelf_order :
    (shelf ["a", "b"]).resolve "home" = .ok (shelfPage ["a", "b"]) ∧
      (selectors (shelfPage ["a", "b"]).imports).Nodup ∧
      shelfCompiler.EmbedsInSlots (shelfPage ["a", "b"]) ∧
      shelfCompiler.KeysDetermine (shelfPage ["a", "b"]) ∧
      Sound shelfCompiler (shelfPage ["a", "b"]) [] ∧
      shelfCompiler.answer (shelfPage ["b", "a"]) []
        = .ok "<i></i><p><x-leaf/></p>" ∧
      shelfCompiler.FillsSlots (shelfPage ["a", "b"]) [] "<i></i><p><x-leaf/></p>" := by
  have hresolve : (shelf ["a", "b"]).resolve "home" = .ok (shelfPage ["a", "b"]) := rfl
  have hdistinct : (selectors (shelfPage ["a", "b"]).imports).Nodup := by decide
  have hslots := embedsInSlots_shelf
  have hkeys := keysDetermine_shelf hresolve
  have hsound : Sound shelfCompiler (shelfPage ["a", "b"]) [] := fun _ _ _ h => nomatch h
  have hanswer : shelfCompiler.answer (shelfPage ["a", "b"]) []
      = .ok "<i></i><p><x-leaf/></p>" := by
    have hfirst : Markup.substitute "<x-a/><x-b/>" "x-a" "<i></i>" = "<i></i><x-b/>" := by
      decide +kernel
    have hsecond : Markup.substitute "<i></i><x-b/>" "x-b" "<p><x-leaf/></p>"
        = "<i></i><p><x-leaf/></p>" := by
      decide +kernel
    rw [answer, (gives_compile hkeys _ .refl [] hsound).1, compileAfresh_shelfPage]
    change shelfCompiler.embedAfresh [.mk (shelfDeclaration "a") none [] [],
      .mk (shelfDeclaration "b") none [] []] _ = _
    rw [embedAfresh_cons_of_ok rfl compileAfresh_shelf_a, hfirst,
      embedAfresh_cons_of_ok rfl compileAfresh_shelf_b, hsecond, embedAfresh_nil]
  have hperm : (shelfPage ["a", "b"]).imports.Perm (shelfPage ["b", "a"]).imports := List.Perm.swap ..
  obtain ⟨hsame, hfills⟩ := compile_imports_perm hperm hdistinct hslots hkeys hsound
    "<i></i><p><x-leaf/></p>"
  exact ⟨hresolve, hdistinct, hslots, hkeys, hsound, hsame.mpr hanswer, hfills hanswer⟩

/-- Are the usages of its imports in the template of a mount slots? -/
def HasSlots (compiler : Compiler) (mount : Mount) : Prop :=
  ∃ parts, compiler.withScopeClass mount
      = .ok (String.ofList (Markup.shown Markup.unfilled parts)) ∧
    ∀ selector ∈ selectors mount.imports, Markup.SlotsOnly selector Markup.unfilled parts

theorem hasSlots_shelf : shelfCompiler.HasSlots (shelfPage ["b", "leaf"]) := by
  refine ⟨[.plain "<x-a/>".toList, .slot "x-b" "<x-b/>".toList isUsage_self (by decide)],
    withScopeClass_shelfPage _, fun selector hselector => ?_⟩
  have hselectors : selectors (shelfPage ["b", "leaf"]).imports = ["x-b", "x-leaf"] := by decide
  rw [hselectors, List.mem_pair] at hselector
  rcases hselector with rfl | rfl
  · refine .of_idle ⟨'x', "-b".toList, rfl, by decide, List.all_eq_true.mp (by decide)⟩ ?_
    intro part hpart hslot
    rcases List.mem_pair.mp hpart with rfl | rfl
    · change Markup.Idle "x-b".toList "<x-a/>".toList
      decide +kernel
    · exact absurd rfl hslot
  · refine .of_idle ⟨'x', "-leaf".toList, rfl, by decide, List.all_eq_true.mp (by decide)⟩ ?_
    intro part hpart hslot
    rcases List.mem_pair.mp hpart with rfl | rfl
    · change Markup.Idle "x-leaf".toList "<x-a/>".toList
      decide +kernel
    · change Markup.Idle "x-leaf".toList "<x-b/>".toList
      decide +kernel

/-- A box with the tag of a leaf in it takes the leaf in if the page imports it behind the box, and does
not if the page imports it in front. -/
theorem order_matters :
    (shelf ["b", "leaf"]).resolve "home" = .ok (shelfPage ["b", "leaf"]) ∧
      (shelfPage ["b", "leaf"]).imports.Perm (shelfPage ["leaf", "b"]).imports ∧
      (selectors (shelfPage ["b", "leaf"]).imports).Nodup ∧
      shelfCompiler.HasSlots (shelfPage ["b", "leaf"]) ∧
      shelfCompiler.answer (shelfPage ["b", "leaf"]) [] = .ok "<x-a/><p><i></i></p>" ∧
      shelfCompiler.answer (shelfPage ["leaf", "b"]) [] = .ok "<x-a/><p><x-leaf/></p>" := by
  have hresolve : (shelf ["b", "leaf"]).resolve "home" = .ok (shelfPage ["b", "leaf"]) := rfl
  have hsound (page : Mount) : Sound shelfCompiler page [] := fun _ _ _ h => nomatch h
  have hbox : Markup.substitute "<x-a/><x-b/>" "x-b" "<p><x-leaf/></p>"
      = "<x-a/><p><x-leaf/></p>" := by
    decide +kernel
  refine ⟨hresolve, List.Perm.swap .., by decide, hasSlots_shelf, ?_, ?_⟩
  · have hleaf : Markup.substitute "<x-a/><p><x-leaf/></p>" "x-leaf" "<i></i>"
        = "<x-a/><p><i></i></p>" := by
      decide +kernel
    rw [answer, (gives_compile (keysDetermine_shelf hresolve) _ .refl [] (hsound _)).1,
      compileAfresh_shelfPage]
    change shelfCompiler.embedAfresh [.mk (shelfDeclaration "b") none [] [],
      .mk (shelfDeclaration "leaf") none [] []] _ = _
    rw [embedAfresh_cons_of_ok rfl compileAfresh_shelf_b, hbox,
      embedAfresh_cons_of_ok rfl compileAfresh_shelf_leaf, hleaf, embedAfresh_nil]
  · have hresolve : (shelf ["leaf", "b"]).resolve "home" = .ok (shelfPage ["leaf", "b"]) := rfl
    have hleaf : Markup.substitute "<x-a/><x-b/>" "x-leaf" "<i></i>" = "<x-a/><x-b/>" := by
      decide +kernel
    rw [answer, (gives_compile (keysDetermine_shelf hresolve) _ .refl [] (hsound _)).1,
      compileAfresh_shelfPage]
    change shelfCompiler.embedAfresh [.mk (shelfDeclaration "leaf") none [] [],
      .mk (shelfDeclaration "b") none [] []] _ = _
    rw [embedAfresh_cons_of_ok rfl compileAfresh_shelf_leaf, hleaf,
      embedAfresh_cons_of_ok rfl compileAfresh_shelf_b, hbox, embedAfresh_nil]

end Shelf

end SiteTree.Compiler
