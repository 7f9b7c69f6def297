import SiteTree.Proofs.Build.Confinement
import SiteTree.Proofs.Page.CompileCache

/-!
# Sites of one page

A site that is a single page, without styles and scripts of its own, is built as soon as its template
and the files that it shares can be read and its files can be written.

* `Build.gives_fillOutput` — filling the output of such a site.
-/

namespace SiteTree

open Job (Gives Fails)

/-- A page that embeds nothing, with no pages below it. -/
def Declaration.single (declaration : Declaration) : Mount :=
  .mk declaration none [] []

/-- The layout of a site of one page. -/
def singleLayout (declaration : Declaration) (output : Path) (scopes : List (Key × ScopeId)) : Layout :=
  ⟨PageTree.ofMount output declaration.single, scopes⟩

variable {declaration : Declaration} {output : Path} {disk middle after : Disk}
  {scopes : List (Key × ScopeId)}

/-! ### Laying out -/

/-- The first key gets the first identifier that is proposed. -/
theorem Registry.exists_assign?_new {σ : Type} (generator : Generator σ) (state : σ) (key : Key) :
    ∃ id registry, (Registry.new generator state).assign? key = some (id, registry) := by
  have hattempts : maxAttempts = (maxAttempts - 1) + 1 := rfl
  rw [assign?, new, List.lookup_nil]
  dsimp only
  rw [hattempts, firstFree]
  simp only [List.not_mem_nil, if_false, Option.map_some]
  exact ⟨_, _, rfl⟩

theorem Layout.gives_walk {σ : Type} {location : Location}
    (hfind : disk.find output = .ok (location, .directory)) (generator : Generator σ) (state : σ) :
    ∃ scopes, Gives (Layout.walk declaration.single output (Registry.new generator state)) disk
      (singleLayout declaration output scopes) disk := by
  obtain ⟨id, registry, hassign⟩ := Registry.exists_assign?_new generator state declaration.key
  have hassignAll : Layout.assignAll (Registry.new generator state)
      (scopeOrder (PageTree.ofMount output declaration.single).pages []) = .ok registry := by
    have horder : scopeOrder (PageTree.ofMount output declaration.single).pages []
        = [declaration.key] := by
      rfl
    rw [horder, Layout.assignAll, hassign]
    rfl
  refine ⟨registry.assigned, ?_⟩
  rw [Layout.walk]
  have hvisit : Gives (Layout.visit output declaration.single []) disk [declaration.key] disk :=
    fun console =>
      ⟨console, Layout.run_visit_leaf List.not_mem_nil (Disk.makeDirectories_of_find hfind)⟩
  exact hvisit.bind ((Job.gives_ofExcept hassignAll disk).bind (Job.gives_pure _ _))

theorem Build.gives_layOut {location : Location} (declaration : Declaration) (ids : Config.ScopeIds)
    (hfind : disk.find output = .ok (location, .directory)) :
    ∃ scopes, Gives (layOut ids declaration.single output) disk
      (singleLayout declaration output scopes) disk := by
  cases ids with
  | hashed => exact Layout.gives_walk hfind hashedIds ()
  | sequential => exact Layout.gives_walk hfind sequentialIds 0

/-! ### Compiling -/

namespace Build

variable {config : Config}

theorem gives_compilePages {text : String} (hengine : config.build.templating = .verbatim)
    (hstyles : declaration.externalStyles = [])
    (hread : Files.read disk declaration.template = .ok text) :
    Gives (compilePages config (singleLayout declaration output scopes)) disk ⟨[text]⟩ disk := by
  have hrun : ∃ later, (Compiler.mk (singleLayout declaration output scopes)
      (engine config.build.templating) disk).compilePages.run.run [] = (.ok ⟨[text]⟩, later) := by
    have hcompile : ((Compiler.mk (singleLayout declaration output scopes)
        (engine config.build.templating) disk).compile declaration.single).run.run []
        = (.ok text, [(Compiler.cacheKey declaration.single, text)]) :=
      Compiler.run_compile_plain (by rw [hengine]; rfl) hread hstyles rfl
    have hpages : (singleLayout declaration output scopes).pages
        = [⟨declaration.single, output⟩] := rfl
    rw [Compiler.compilePages, hpages]
    simp only [List.mapM_cons, List.mapM_nil, run_bind, run_adapt, hcompile, Except.mapError]
    exact ⟨_, rfl⟩
  obtain ⟨later, hrun⟩ := hrun
  rw [compilePages]
  refine Job.gives_disk_bind ?_
  dsimp only
  rw [hrun]
  exact Job.gives_ofExcept rfl disk

theorem fails_compilePages {failure : Failure}
    (hread : Files.read disk declaration.template = .error failure) :
    Fails (compilePages config (singleLayout declaration output scopes)) disk := by
  have hpages : (singleLayout declaration output scopes).pages = [⟨declaration.single, output⟩] := rfl
  have hcompile : ((Compiler.mk (singleLayout declaration output scopes)
      (engine config.build.templating) disk).compile declaration.single).run.run []
      = (.error failure, []) := by
    rw [Declaration.single, Compiler.run_compile]
    dsimp only [List.lookup_nil]
    rw [Compiler.withScopeClass, Compiler.rendered]
    simp only [Mount.declaration, hread]
    rfl
  have hrun : ∃ failure later, (Compiler.mk (singleLayout declaration output scopes)
      (engine config.build.templating) disk).compilePages.run.run [] = (.error failure, later) := by
    rw [Compiler.compilePages, hpages]
    simp only [List.mapM_cons, List.mapM_nil, run_bind, run_adapt, hcompile, Except.mapError]
    exact ⟨_, _, rfl⟩
  obtain ⟨failure, later, hrun⟩ := hrun
  rw [compilePages]
  refine Job.fails_disk_bind ?_
  dsimp only
  rw [hrun]
  exact Job.fails_ofExcept rfl disk

end Build

/-! ### Bundles -/

namespace BundleKind

variable {kind : BundleKind}

/-- The bundle of the page consists of the files that it shares, and of what it brings along. -/
theorem gives_contents {shared own : String}
    (hshared : Files.readAll disk (kind.globals ⟨declaration.single, output⟩) = .ok shared)
    (hown : Gives (kind.own declaration.single) disk own disk) :
    Gives (kind.contents ⟨declaration.single, output⟩ (kind.globals ⟨declaration.single, output⟩)) disk
      (shared ++ own) disk := by
  have hvisited : declaration.single.visited kind.follows = [declaration.single] :=
    Mount.visited_eq_singleton kind.follows rfl
  have htexts : Gives ([declaration.single].mapM kind.own) disk [own] disk := by
    rw [List.mapM_cons, List.mapM_nil]
    exact hown.bind (Job.gives_pure _ _)
  have hjoin : String.join [own] = own := by rw [String.join_cons, String.join_nil, String.append_empty]
  have hreading : Gives (Job.reading fun disk =>
      Files.readAll disk (kind.globals ⟨declaration.single, output⟩)) disk shared disk :=
    Job.gives_disk_bind (Job.gives_ofExcept hshared disk)
  rw [contents_eq, hvisited]
  refine hreading.bind (htexts.bind ?_)
  rw [hjoin]
  exact Job.gives_pure _ _

theorem gives_emit_blank {page : Page} {text : String} (hblank : Text.allBlank text.toList = true)
    (html : String) : Gives (kind.emit page text html) disk html disk := by
  rw [emit, if_pos hblank]
  exact Job.gives_pure html disk

theorem gives_emit {page : Page} {text html linked : String}
    (hblank : ¬ Text.allBlank text.toList = true)
    (hwrite : disk.writeBytes (kind.file page) (Text.encodeUtf8 text) = .ok after)
    (hlinked : kind.linked page text html = linked) :
    Gives (kind.emit page text html) disk linked after := by
  have hwritten : Gives (Files.write (kind.file page) text) disk () after :=
    Job.gives_change _ hwrite
  rw [emit, if_neg hblank, ← hlinked, BundleKind.linked, if_neg hblank]
  refine hwritten.bind ?_
  cases Markup.spliceBefore? html kind.anchor (kind.tag page.name) with
  | some linked => exact Job.gives_pure _ _
  | none => exact (Job.gives_log _ _ _).bind (Job.gives_pure _ _)

theorem gives_bundlePages {shared own text html linked : String}
    (hshared : Files.readAll disk (kind.globals ⟨declaration.single, output⟩) = .ok shared)
    (hown : Gives (kind.own declaration.single) disk own disk)
    (htransform : kind.transform output (shared ++ own) = .ok text)
    (hemit : Gives (kind.emit ⟨declaration.single, output⟩ text html) disk linked after) :
    Gives (kind.bundlePages (singleLayout declaration output scopes) [html]) disk [linked] after := by
  have hpages : ((singleLayout declaration output scopes).tree.gathered kind.globals []).zip [html]
      = [((⟨declaration.single, output⟩, kind.globals ⟨declaration.single, output⟩), html)] := rfl
  have hpage : Gives (kind.bundlePage ⟨declaration.single, output⟩
      (kind.globals ⟨declaration.single, output⟩) html) disk linked after := by
    rw [bundlePage]
    refine (gives_contents hshared hown).bind (Gives.bind ?_ hemit)
    exact (Job.gives_ofExcept htransform disk).within _
  have hcount : ¬ [html].length ≠ (singleLayout declaration output scopes).pages.length :=
    not_not_intro rfl
  rw [bundlePages, if_neg hcount, hpages, List.mapM_cons, List.mapM_nil]
  exact hpage.bind (Job.gives_pure _ _)

end BundleKind

/-- A component without styles of its own has nothing to scope. -/
theorem StyleOptions.gives_scopedStyles (options : StyleOptions) (layout : Layout)
    (hstyles : declaration.externalStyles = []) :
    Gives (options.scopedStyles layout declaration.single) disk "" disk := by
  have hempty : declaration.single.declaration.externalStyles.isEmpty = true := by
    rw [Declaration.single, Mount.declaration, hstyles]
    rfl
  rw [scopedStyles, if_pos hempty]
  exact Job.gives_pure "" disk

/-! ### A whole site -/

namespace Build

variable {host : Host} {config : Config}

/-- A page without styles, scripts and imports of its own. -/
structure IsPlain (declaration : Declaration) : Prop where
  externalStyles : declaration.externalStyles = []
  externalScripts : declaration.externalScripts = []
  globalScripts : declaration.globalScripts = []

/-- Nothing but the page itself is made of what the settings say. -/
structure IsSimple (config : Config) : Prop where
  templating : config.build.templating = .verbatim
  styles : config.build.styles.transform = .nothing
  scripts : config.build.scripts.transform = .nothing
  minify : config.build.minify = false
  assets : config.build.assets = none
  copy : config.build.copy = []

theorem gives_writePages {html : String}
    (hwrite : disk.writeBytes (output.join ⟨"index.html"⟩) (Text.encodeUtf8 html) = .ok after) :
    Gives (writePages (singleLayout declaration output scopes) ⟨[html]⟩ false) disk 1 after := by
  have hwritten : Gives (writePage false ⟨declaration.single, output⟩ html) disk () after :=
    (Job.gives_change _ hwrite).within _
  have hpages : (singleLayout declaration output scopes).pages.zip [html]
      = [(⟨declaration.single, output⟩, html)] := rfl
  have hcount : ¬ [html].length ≠ (singleLayout declaration output scopes).pages.length :=
    not_not_intro rfl
  rw [writePages, if_neg hcount, hpages, List.forIn_cons]
  have hloop : Gives (do writePage false ⟨declaration.single, output⟩ html; pure (.yield PUnit.unit))
      disk (ForInStep.yield PUnit.unit) after := hwritten.bind (Job.gives_pure _ _)
  exact (hloop.bind (Job.gives_pure PUnit.unit after)).bind (Job.gives_pure 1 after)

theorem gives_bundleStyles {template shared linked : String} (hplain : IsPlain declaration)
    (hsimple : IsSimple config)
    (hshared : Files.readAll disk declaration.globalStyles = .ok shared)
    (hstyled : Gives (((styleOptions host config).bundleKind
      (singleLayout declaration output scopes)).emit ⟨declaration.single, output⟩ shared template) disk
      linked after) :
    Gives (bundleStyles (styleOptions host config) (singleLayout declaration output scopes)
      ⟨[template]⟩) disk ⟨[linked]⟩ after := by
  refine Gives.bind ?_ (Job.gives_pure _ _)
  refine BundleKind.gives_bundlePages hshared
    (StyleOptions.gives_scopedStyles _ _ hplain.externalStyles) ?_ hstyled
  change styleTransform config.build.styles.transform _ (shared ++ "") = _
  rw [hsimple.styles, String.append_empty, styleTransform]

/-- There are no scripts to write. -/
theorem gives_bundleScripts (hplain : IsPlain declaration) (hsimple : IsSimple config) (disk : Disk)
    (html : String) :
    Gives (bundleScripts (scriptOptions config) (singleLayout declaration output scopes) ⟨[html]⟩) disk
      ⟨[html]⟩ disk := by
  have hglobals : Files.readAll disk declaration.globalScripts = .ok "" := by
    rw [hplain.globalScripts]
    rfl
  have hown : Gives ((scriptOptions config).bundleKind.own declaration.single) disk "" disk := by
    refine Job.gives_disk_bind (Job.gives_ofExcept ?_ disk)
    rw [Declaration.single, Mount.declaration, hplain.externalScripts]
    rfl
  have hblank : Text.allBlank ("" : String).toList = true := rfl
  refine Gives.bind (BundleKind.gives_bundlePages hglobals hown ?_
    (BundleKind.gives_emit_blank hblank html)) (Job.gives_pure _ _)
  change scriptTransform config.build.scripts.transform _ ("" ++ "") = _
  rw [hsimple.scripts, String.append_empty, scriptTransform]

theorem gives_fillOutput {location : Location} {template shared linked : String}
    (hplain : IsPlain declaration) (hsimple : IsSimple config)
    (hfind : disk.find config.build.output = .ok (location, .directory))
    (htemplate : Files.read disk declaration.template = .ok template)
    (hshared : Files.readAll disk declaration.globalStyles = .ok shared)
    (hstyled : ∀ scopes, Gives (((styleOptions host config).bundleKind
      (singleLayout declaration config.build.output scopes)).emit
        ⟨declaration.single, config.build.output⟩ shared template) disk linked middle)
    (hwrite : middle.writeBytes (config.build.output.join ⟨"index.html"⟩) (Text.encodeUtf8 linked)
      = .ok after) :
    Gives (fillOutput host config declaration.single) disk () after := by
  obtain ⟨scopes, hlayout⟩ := gives_layOut declaration config.build.scopeIds hfind
  have hcompiled : Gives (compilePages config (singleLayout declaration config.build.output scopes))
      disk ⟨[template]⟩ disk := gives_compilePages hsimple.templating hplain.externalStyles htemplate
  have hstyles := gives_bundleStyles hplain hsimple hshared (hstyled scopes)
  have hpages : Gives (writePages (singleLayout declaration config.build.output scopes) ⟨[linked]⟩
      config.build.minify) middle 1 after := by
    rw [hsimple.minify]
    exact gives_writePages hwrite
  have hassets : Gives (copyAssets config) after () after := by
    rw [copyAssets, hsimple.assets]
    exact Job.gives_pure () after
  have hcopied : Gives (copyTargets host config) after () after := by
    rw [copyTargets]
    refine Job.gives_disk_bind ?_
    rw [Config.copyTargets, hsimple.copy]
    exact Job.gives_pure () after
  rw [fillOutput]
  refine (gives_step hlayout _ _).bind ((Job.gives_log _ _ _).bind ?_)
  refine (gives_step hcompiled _ _).bind ((gives_step hstyles _ _).bind ?_)
  refine (gives_step (gives_bundleScripts hplain hsimple middle linked) _ _).bind ?_
  refine (gives_step hpages _ _).bind ?_
  exact (gives_step hassets _ _).bind ((gives_step hcopied _ _).bind (Job.gives_log _ _ _))

theorem fails_fillOutput {location : Location} {failure : Failure}
    (hfind : disk.find config.build.output = .ok (location, .directory))
    (htemplate : Files.read disk declaration.template = .error failure) :
    Fails (fillOutput host config declaration.single) disk := by
  obtain ⟨scopes, hlayout⟩ := gives_layOut declaration config.build.scopeIds hfind
  have hcompiled : Fails (compilePages config
      (singleLayout declaration config.build.output scopes)) disk := fails_compilePages htemplate
  rw [fillOutput]
  refine (gives_step hlayout _ _).bind_fails ((Job.gives_log _ _ _).bind_fails ?_)
  exact (fails_step hcompiled _ _).bind _

section Whole

variable {root : Mount} (hroot : config.rootMount host disk = .ok root)
  (hready : Gives (prepareOutput config) disk () middle)

include hroot hready

theorem gives_buildSite (hfill : Gives (fillOutput host config root) middle () after) :
    Gives (buildSite host config) disk () after := by
  have hread : Gives (Job.reading (readRoot host config)) disk root disk :=
    Job.gives_disk_bind (Job.gives_ofExcept (readRoot_eq_ok_iff.mpr hroot) disk)
  rw [buildSite_eq]
  exact (Job.gives_log _ _ _).bind (hread.bind ((gives_step hready _ _).bind hfill))

theorem fails_buildSite (hfill : Fails (fillOutput host config root) middle) :
    Fails (buildSite host config) disk := by
  have hread : Gives (Job.reading (readRoot host config)) disk root disk :=
    Job.gives_disk_bind (Job.gives_ofExcept (readRoot_eq_ok_iff.mpr hroot) disk)
  rw [buildSite_eq]
  exact (Job.gives_log _ _ _).bind_fails (hread.bind_fails ((gives_step hready _ _).bind_fails hfill))

end Whole

end Build

end SiteTree
