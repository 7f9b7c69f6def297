import SiteTree.Build
import SiteTree.Proofs.Page.BundleContents
import SiteTree.Proofs.Page.CompileCache
import SiteTree.Proofs.Page.Output

/-!
# Every component of a page has a scope

Identifiers are given out page by page, and what was imported by one page is not looked at again
for the next. Nothing is left out all the same: whenever the imports of a page have been looked at,
the keys met so far are closed under imports.

* `Layout.scope_of_walk` — all that a page of a site imports has an identifier.
* `Layout.scopes_known` — no later stage fails for want of an identifier.
-/

namespace SiteTree

open Relation (ReflTransGen)

/-! ### Pages of a site -/

namespace Mount

theorem Reaches.trans {root mount inner : Mount} (h : root.Reaches mount)
    (hinner : mount.Reaches inner) : root.Reaches inner := by
  induction hinner with
  | refl => exact h
  | imported _ hmem ih => exact ih.imported hmem
  | child _ hmem ih => exact ih.child hmem

end Mount

namespace PageTree

variable {page : Page}

mutual

/-- Pages are mounts of the tree that they are made from. -/
theorem reaches_of_mem_pages : ∀ (mount : Mount) (directory : Path),
    page ∈ (ofMount directory mount).pages → mount.Reaches page.mount
  | .mk declaration overrides imports children, directory, h => by
    rw [ofMount, pages] at h
    rcases List.mem_cons.mp h with rfl | h
    · exact .refl
    · obtain ⟨child, hchild, hreaches⟩ := reaches_of_mem_forest children directory h
      exact (Mount.Reaches.refl.child hchild).trans hreaches

theorem reaches_of_mem_forest : ∀ (mounts : List Mount) (directory : Path),
    page ∈ forestPages (forestOf directory mounts) → ∃ mount ∈ mounts, mount.Reaches page.mount
  | [], directory, h => by
    rw [forestOf, forestPages] at h
    cases h
  | mount :: mounts, directory, h => by
    rw [forestOf, forestPages] at h
    rcases List.mem_append.mp h with h | h
    · exact ⟨mount, List.mem_cons_self, reaches_of_mem_pages mount _ h⟩
    · obtain ⟨other, hother, hreaches⟩ := reaches_of_mem_forest mounts directory h
      exact ⟨other, List.mem_cons_of_mem _ hother, hreaches⟩

end

end PageTree

/-! ### The order of identifiers -/

namespace Mount

/-- All imports are followed, those under a tag and those without one. -/
abbrev followAll : Mount → Bool := fun _ => true

theorem filter_followAll (mounts : List Mount) : mounts.filter followAll = mounts :=
  List.filter_true mounts

theorem mem_unfolded_followAll {follows : Mount → Bool} {mount inner : Mount}
    (h : inner ∈ mount.unfolded follows) : inner ∈ mount.unfolded followAll := by
  rw [mem_unfolded_iff] at h
  refine mem_unfolded_iff.mpr (ReflTransGen.mono (fun outer other hembeds => ?_) _ _ h)
  rw [Embeds, filter_followAll]
  exact List.mem_of_mem_filter hembeds

mutual

theorem addImportKeys_eq : ∀ (mount : Mount) (met : List Key),
    mount.addImportKeys met = keysAfter followAll mount.imports met
  | .mk declaration overrides imports children, met => by
    rw [addImportKeys, addKeys_eq imports met, Mount.imports]

/-- Keys are added in the order in which their components are visited. -/
theorem addKeys_eq : ∀ (mounts : List Mount) (met : List Key),
    addKeys mounts met = keysAfter followAll mounts met
  | [], met => by rw [addKeys, keysAfter_nil]
  | mount :: mounts, met => by
    rw [addKeys]
    by_cases h : mount.key ∈ met
    · rw [if_pos h, keysAfter_cons_of_mem h, addKeys_eq mounts met]
    · rw [if_neg h, keysAfter_cons_of_notMem h, filter_followAll, keysAfter_append,
        addImportKeys_eq mount, addKeys_eq mounts]

end

end Mount

/-- The keys of a page and of the imports that no page before it has come first, in the order in
which they are met. -/
theorem scopeOrder_cons (page : Page) (pages : List Page) (imported : List Key) :
    scopeOrder (page :: pages) imported
      = page.key :: (Mount.firstMet Mount.followAll page.mount.imports imported).map Mount.key
        ++ scopeOrder pages (Mount.keysAfter Mount.followAll page.mount.imports imported) := by
  rw [scopeOrder, Mount.addImportKeys_eq]
  simp [Mount.keysAfter]

/-- Whatever a page imports gets an identifier, unless it was imported before. -/
theorem mem_scopeOrder {root : Mount} (hkeys : root.KeysIdentify) {pages : List Page} {page : Page}
    {inner : Mount} {imported : List Key} (hpages : ∀ other ∈ pages, root.Reaches other.mount)
    (hclosed : root.ClosedUnderImports Mount.followAll imported) (hpage : page ∈ pages)
    (hembeds : ReflTransGen (Mount.Embeds Mount.followAll) page.mount inner) :
    inner.key ∈ scopeOrder pages imported ∨ inner.key ∈ imported := by
  induction pages generalizing imported with
  | nil => cases hpage
  | cons first pages ih =>
    have hfirst : root.Reaches first.mount := hpages first List.mem_cons_self
    have himports : ∀ other ∈ first.mount.imports, root.Reaches other :=
      fun other hother => hfirst.imported hother
    -- A key that is met at the first page gets its identifier there.
    have hmet : inner.key ∈ Mount.keysAfter Mount.followAll first.mount.imports imported →
        inner.key ∈ scopeOrder (first :: pages) imported ∨ inner.key ∈ imported := by
      intro hmem
      rw [Mount.keysAfter, List.mem_append, List.mem_reverse] at hmem
      rw [scopeOrder_cons]
      exact hmem.imp_left fun hnew => List.mem_append_left _ (List.mem_cons_of_mem _ hnew)
    rcases List.mem_cons.mp hpage with rfl | hpage
    · rcases ReflTransGen.cases_head hembeds with heq | ⟨other, hother, hbelow⟩
      · refine .inl ?_
        rw [scopeOrder_cons, ← heq]
        exact List.mem_append_left _ List.mem_cons_self
      · exact hmet (Mount.mem_keysAfter_of_embeds hkeys himports hclosed
          (List.mem_of_mem_filter hother) hbelow)
    · have hlater : root.ClosedUnderImports Mount.followAll
          (Mount.keysAfter Mount.followAll first.mount.imports imported) :=
        Mount.closed_keysAfter hkeys himports fun mount other hreaches hstep hmount =>
          .inl (hclosed mount other hreaches hstep hmount)
      rcases ih (fun other hother => hpages other (List.mem_cons_of_mem _ hother)) hlater hpage with
        horder | hmem
      · rw [scopeOrder_cons]
        exact .inl (List.mem_append_right _ horder)
      · exact hmet hmem

/-! ### Identifiers given out -/

namespace Layout

section Assign

variable {σ : Type} {registry later : Registry σ} {key : Key}

/-- Giving out an identifier takes none away. -/
theorem isSome_lookup_of_assign? {id : ScopeId} {first : Key} (key : Key)
    (h : registry.assign? first = some (id, later)) :
    (later.assigned.lookup first).isSome ∧
      ((registry.assigned.lookup key).isSome → (later.assigned.lookup key).isSome) := by
  rw [Registry.assign?] at h
  split at h
  · next found hfound =>
    cases h
    exact ⟨by rw [hfound]; rfl, fun hheld => hheld⟩
  · obtain ⟨⟨fresh, state⟩, -, heq⟩ := Option.map_eq_some_iff.mp h
    cases heq
    simp only [List.lookup_append, Option.isSome_or, List.lookup_cons_self, Option.isSome_some,
      Bool.or_true, Bool.or_eq_true, true_and]
    exact .inl

theorem isSome_lookup_of_assignAll {keys : List Key}
    (h : assignAll registry keys = .ok later) :
    (key ∈ keys → (later.assigned.lookup key).isSome) ∧
      ((registry.assigned.lookup key).isSome → (later.assigned.lookup key).isSome) := by
  induction keys generalizing registry with
  | nil =>
    cases h
    exact ⟨nofun, fun hheld => hheld⟩
  | cons first keys ih =>
    rw [assignAll] at h
    split at h
    · next id middle hassign =>
      obtain ⟨hfirst, hstay⟩ := isSome_lookup_of_assign? key hassign
      obtain ⟨hothers, hheld⟩ := ih h
      refine ⟨fun hmem => ?_, fun hkey => hheld (hstay hkey)⟩
      rcases List.mem_cons.mp hmem with rfl | hmem
      · exact hheld hfirst
      · exact hothers hmem
    · cases h

end Assign

/-- After a successful walk, all that a page imports has an identifier. -/
theorem scope_of_walk {σ : Type} {root : Mount} {output : Path} {registry : Registry σ}
    {session later : Session} {layout : Layout}
    (h : (walk root output registry).run.run session = (.ok layout, later))
    (hkeys : root.KeysIdentify) {page : Page} (hpage : page ∈ layout.pages) {inner : Mount}
    (hembeds : ReflTransGen (Mount.Embeds Mount.followAll) page.mount inner) :
    ∃ id, layout.scope inner.key = .ok id := by
  rw [walk] at h
  obtain ⟨_, _, -, h⟩ := run_bind_eq_ok h
  obtain ⟨assigned, _, hassign, h⟩ := run_bind_eq_ok h
  cases h
  rw [Job.run_ofExcept] at hassign
  have hreaches : ∀ other ∈ (PageTree.ofMount output root).pages, root.Reaches other.mount :=
    fun other hother => PageTree.reaches_of_mem_pages root output hother
  have hmem : inner.key ∈ scopeOrder (PageTree.ofMount output root).pages [] := by
    rcases mem_scopeOrder hkeys hreaches Mount.closedUnderImports_nil hpage hembeds with hmem | hmem
    · exact hmem
    · cases hmem
  have hsome := (isSome_lookup_of_assignAll (congrArg Prod.fst hassign)).1 hmem
  obtain ⟨id, hid⟩ := Option.isSome_iff_exists.mp hsome
  exact ⟨id, by rw [scope, hid]⟩

end Layout

/-! ### Failures about something else -/

/-- The failure is not that a component has no identifier. -/
def Failure.NotUnknownScope (failure : Failure) : Prop :=
  ∀ key, failure.cause ≠ .layout (.unknownScope key)

theorem Failure.NotUnknownScope.within {failure : Failure} (h : failure.NotUnknownScope)
    (context : String) : (failure.within context).NotUnknownScope :=
  h

open Failure (NotUnknownScope)

theorem failsOnly_read (disk : Disk) (path : Path) :
    FailsOnly NotUnknownScope (Files.read disk path) := by
  rw [Files.read]
  split
  · exact failsOnly_ok _
  · exact failsOnly_error fun _ heq => Cause.noConfusion heq

theorem failsOnly_readAll (disk : Disk) (paths : List Path) :
    FailsOnly NotUnknownScope (Files.readAll disk paths) :=
  (failsOnly_mapM fun path _ => failsOnly_read disk path).bind fun _ => failsOnly_ok _

theorem Job.stepFailsOnly_within {α : Type} {job : Job α} (h : StepFailsOnly NotUnknownScope job)
    (context : String) : StepFailsOnly NotUnknownScope (Job.within context job) :=
  h.adapt fun _ hfailure => hfailure.within context

/-! ### Compiling -/

namespace Compiler

variable {compiler : Compiler}

theorem failsOnly_rendered (mount : Mount) :
    FailsOnly NotUnknownScope (compiler.rendered mount) := by
  refine (failsOnly_read compiler.disk mount.declaration.template).bind fun template => ?_
  split
  · exact failsOnly_ok _
  · split
    · exact failsOnly_ok _
    · exact failsOnly_error fun _ => nofun

theorem failsOnly_withScopeClass {mount : Mount}
    (h : ∃ id, compiler.layout.scope mount.key = .ok id) :
    FailsOnly NotUnknownScope (compiler.withScopeClass mount) := by
  obtain ⟨id, hid⟩ := h
  refine (failsOnly_rendered mount).bind fun html => ?_
  rw [hid]
  split
  · exact failsOnly_ok _
  · exact failsOnly_ok _

theorem stepFailsOnly_lift {allowed : Failure → Prop} {α : Type} {result : Except Failure α}
    (h : FailsOnly allowed result) : StepFailsOnly allowed (lift result) := by
  intro cache
  rw [run_lift]
  exact h

mutual

/-- Compiling does not miss an identifier if all that is embedded has one. -/
theorem stepFailsOnly_compile : ∀ mount : Mount,
    (∀ inner ∈ mount.unfolded Mount.followAll, ∃ id, compiler.layout.scope inner.key = .ok id) →
    StepFailsOnly NotUnknownScope (compiler.compile mount)
  | .mk declaration overrides imports children, h => by
    rw [Mount.unfolded] at h
    have hstep : StepFailsOnly NotUnknownScope
        (lift (compiler.withScopeClass (.mk declaration overrides imports children))
          >>= compiler.embed imports) :=
      (stepFailsOnly_lift (failsOnly_withScopeClass (h _ List.mem_cons_self))).bind
        (stepFailsOnly_embed imports fun inner hinner => h inner (List.mem_cons_of_mem _ hinner))
    intro cache
    have hrun := hstep cache
    rw [run_compile]
    split
    · exact failsOnly_ok _
    · split
      · exact failsOnly_ok _
      · next heq =>
        rw [heq] at hrun
        exact hrun

theorem stepFailsOnly_embed : ∀ mounts : List Mount,
    (∀ inner ∈ Mount.unfoldedImports Mount.followAll mounts,
      ∃ id, compiler.layout.scope inner.key = .ok id) →
    ∀ html, StepFailsOnly NotUnknownScope (compiler.embed mounts html)
  | [], _, html => by
    rw [embed]
    exact stepFailsOnly_pure html
  | mount :: mounts, h, html => by
    rw [Mount.unfoldedImports, if_pos rfl] at h
    have hothers := stepFailsOnly_embed mounts
      fun inner hinner => h inner (List.mem_append_right _ hinner)
    rw [embed]
    split
    · exact hothers html
    · refine StepFailsOnly.bind ?_ fun fragment => hothers _
      have hmount := stepFailsOnly_compile mount
        fun inner hinner => h inner (List.mem_append_left _ hinner)
      exact hmount.adapt fun failure hfailure => hfailure.within _

end

/-- Compiling all pages does not miss an identifier if all that the pages embed has one. -/
theorem stepFailsOnly_compilePages
    (h : ∀ page ∈ compiler.layout.pages, ∀ inner ∈ page.mount.unfolded Mount.followAll,
      ∃ id, compiler.layout.scope inner.key = .ok id) :
    StepFailsOnly NotUnknownScope compiler.compilePages := by
  refine StepFailsOnly.bind (stepFailsOnly_mapM fun page hpage => ?_) fun html =>
    stepFailsOnly_pure _
  exact (stepFailsOnly_compile page.mount (h page hpage)).adapt fun _ hfailure => hfailure.within _

end Compiler

/-! ### Bundling styles -/

/-- Neither preprocessing nor transforming of styles fails for want of an identifier. -/
structure StyleOptions.NotUnknownScope (options : StyleOptions) : Prop where
  preprocess : ∀ run, options.preprocess = some run →
    ∀ css, StepFailsOnly Failure.NotUnknownScope (run css)
  transform : ∀ directory text,
    FailsOnly Failure.NotUnknownScope (options.transform directory text)

section Styles

variable {options : StyleOptions} {layout : Layout}

theorem stepFailsOnly_preprocessed (hoptions : options.NotUnknownScope) (mount : Mount) :
    StepFailsOnly NotUnknownScope (options.preprocessed mount) := by
  refine Job.stepFailsOnly_disk.bind fun disk => ?_
  refine (Job.stepFailsOnly_ofExcept (failsOnly_readAll disk _)).bind fun css => ?_
  split
  · exact stepFailsOnly_pure css
  · next run hrun => exact Job.stepFailsOnly_within (hoptions.preprocess run hrun css) _

theorem stepFailsOnly_scopedStyles (hoptions : options.NotUnknownScope) {mount : Mount}
    (h : ∃ id, layout.scope mount.key = .ok id) :
    StepFailsOnly NotUnknownScope (options.scopedStyles layout mount) := by
  obtain ⟨id, hid⟩ := h
  unfold StyleOptions.scopedStyles
  split
  · exact stepFailsOnly_pure ""
  · refine (stepFailsOnly_preprocessed hoptions mount).bind fun css => ?_
    rw [hid]
    exact (Job.stepFailsOnly_ofExcept (failsOnly_ok id)).bind fun _ => stepFailsOnly_pure _

theorem stepFailsOnly_emit (kind : BundleKind) (page : Page) (text html : String) :
    StepFailsOnly NotUnknownScope (kind.emit page text html) := by
  unfold BundleKind.emit
  split
  · exact stepFailsOnly_pure html
  · refine (Job.stepFailsOnly_change _ fun error => ?_).bind fun _ => ?_
    · exact fun _ => nofun
    · split
      · exact stepFailsOnly_pure _
      · exact (Job.stepFailsOnly_log _ _).bind fun _ => stepFailsOnly_pure html

theorem stepFailsOnly_bundlePage (hoptions : options.NotUnknownScope) {page : Page}
    (h : ∀ inner ∈ page.mount.unfolded Mount.followAll, ∃ id, layout.scope inner.key = .ok id)
    (globals : List Path) (html : String) :
    StepFailsOnly NotUnknownScope ((options.bundleKind layout).bundlePage page globals html) := by
  have hown : ∀ mount ∈ page.mount.visited (options.bundleKind layout).follows,
      StepFailsOnly NotUnknownScope (options.scopedStyles layout mount) := by
    intro mount hmount
    exact stepFailsOnly_scopedStyles hoptions
      (h mount (Mount.mem_unfolded_followAll (Mount.mem_unfolded_of_mem_visited hmount)))
  rw [BundleKind.bundlePage, BundleKind.contents_eq]
  refine StepFailsOnly.bind ?_ fun text => ?_
  · refine (Job.stepFailsOnly_reading fun disk => failsOnly_readAll disk globals).bind
      fun shared => ?_
    exact (stepFailsOnly_mapM hown).bind fun texts => stepFailsOnly_pure _
  · refine StepFailsOnly.bind ?_ fun text => stepFailsOnly_emit _ page text html
    exact Job.stepFailsOnly_within
      (Job.stepFailsOnly_ofExcept (hoptions.transform page.directory text)) _

/-- Bundling styles does not miss an identifier if all that the pages embed has one. -/
theorem stepFailsOnly_bundleStyles (hoptions : options.NotUnknownScope)
    (h : ∀ page ∈ layout.pages, ∀ inner ∈ page.mount.unfolded Mount.followAll,
      ∃ id, layout.scope inner.key = .ok id) (pages : Pages .compiled) :
    StepFailsOnly NotUnknownScope (bundleStyles options layout pages) := by
  refine StepFailsOnly.bind ?_ fun html => stepFailsOnly_pure _
  unfold BundleKind.bundlePages
  split
  · exact stepFailsOnly_throw fun _ => nofun
  · refine stepFailsOnly_mapM fun item hitem => ?_
    have hpage : item.1.1 ∈ layout.pages := by
      have hgathered := (List.of_mem_zip hitem).1
      rw [PageTree.gathered_eq] at hgathered
      obtain ⟨trail, htrail, heq⟩ := List.mem_map.mp hgathered
      rw [Layout.pages, ← PageTree.map_page_trails, ← heq]
      exact List.mem_map_of_mem htrail
    exact stepFailsOnly_bundlePage hoptions (h _ hpage) item.1.2 item.2

end Styles

theorem failsOnly_minifyStyles (text : String) :
    FailsOnly NotUnknownScope (minifyStyles text) := by
  unfold minifyStyles
  split
  · exact failsOnly_ok ""
  · split
    · exact failsOnly_ok _
    · exact failsOnly_error fun _ => nofun

/-- No way of handling styles that settings choose fails for want of an identifier. -/
theorem Build.notUnknownScope_styleOptions (host : Host) (config : Config) :
    (styleOptions host config).NotUnknownScope where
  preprocess run hrun css := by
    rw [styleOptions] at hrun
    dsimp only at hrun
    split at hrun
    · cases hrun
    · cases hrun
      exact stepFailsOnly_tryCatch fun failure => stepFailsOnly_throw fun _ => nofun
  transform directory text := by
    change FailsOnly NotUnknownScope (styleTransform config.build.styles.transform directory text)
    cases config.build.styles.transform with
    | nothing => exact failsOnly_ok text
    | minify => exact failsOnly_minifyStyles text

/-! ### All stages -/

namespace Layout

/-- When a site whose keys identify its components is laid out, every component that a page embeds
over any imports has an identifier, and neither compiling the pages nor bundling their styles ever
fails for want of one. -/
theorem scopes_known {σ : Type} {root : Mount} {output : Path} {registry : Registry σ}
    {session later : Session} {layout : Layout}
    (hwalk : (walk root output registry).run.run session = (.ok layout, later))
    (hkeys : root.KeysIdentify) :
    (∀ page ∈ layout.pages, ∀ inner,
      ReflTransGen (Mount.Embeds Mount.followAll) page.mount inner →
        ∃ id, layout.scope inner.key = .ok id) ∧
    (∀ compiler : Compiler, compiler.layout = layout →
      StepFailsOnly NotUnknownScope compiler.compilePages) ∧
    (∀ options : StyleOptions, options.NotUnknownScope →
      ∀ pages, StepFailsOnly NotUnknownScope (bundleStyles options layout pages)) ∧
    ∀ host config pages, StepFailsOnly NotUnknownScope
      (bundleStyles (Build.styleOptions host config) layout pages) := by
  have hscope : ∀ page ∈ layout.pages, ∀ inner ∈ page.mount.unfolded Mount.followAll,
      ∃ id, layout.scope inner.key = .ok id :=
    fun page hpage inner hinner =>
      scope_of_walk hwalk hkeys hpage (Mount.mem_unfolded_iff.mp hinner)
  refine ⟨fun page hpage inner hembeds => scope_of_walk hwalk hkeys hpage hembeds, ?_, ?_, ?_⟩
  · rintro compiler rfl
    exact Compiler.stepFailsOnly_compilePages hscope
  · exact fun options hoptions pages => stepFailsOnly_bundleStyles hoptions hscope pages
  · exact fun host config pages =>
      stepFailsOnly_bundleStyles (Build.notUnknownScope_styleOptions host config) hscope pages

/-! ### A page that embeds a badge twice -/

section Gallery

/-- A styled fragment. -/
def badge : Mount :=
  .mk ⟨"badge", ⟨"badge.html"⟩, some "x-badge", [⟨"/badge.css"⟩], [], [], [], none⟩ none [] []

/-- A styled fragment with a badge. -/
def card : Mount :=
  .mk ⟨"card", ⟨"card.html"⟩, some "x-card", [⟨"/card.css"⟩], [], [], [], none⟩ none [badge] []

/-- A page that embeds a card and a badge of its own. -/
def gallery : Mount :=
  .mk ⟨"index", ⟨"home.html"⟩, none, [], [], [⟨"/reset.css"⟩], [], none⟩ none [card, badge] []

def galleryLayout : Layout :=
  ⟨PageTree.ofMount ⟨"out"⟩ gallery,
    [(Key.of "index" ⟨"home.html"⟩, ⟨"0"⟩), (Key.of "card" ⟨"card.html"⟩, ⟨"1"⟩),
      (Key.of "badge" ⟨"badge.html"⟩, ⟨"2"⟩)]⟩

/-- The files of the gallery. -/
def galleryFiles : Disk where
  entries :=
    [(["home.html"], .file (Text.encodeUtf8 "<head></head><x-card/><x-badge/>")),
      (["card.html"], .file (Text.encodeUtf8 "<p><x-badge/></p>")),
      (["badge.html"], .file (Text.encodeUtf8 "<b></b>")),
      (["reset.css"], .file (Text.encodeUtf8 "i {}")),
      (["card.css"], .file (Text.encodeUtf8 "p {}")),
      (["badge.css"], .file (Text.encodeUtf8 "b {}"))]
  workDir := []

/-- The files of the gallery, and the directory of its page. -/
def galleryDisk : Disk :=
  galleryFiles.set ["out"] .directory

theorem run_walk_gallery :
    (walk gallery ⟨"out"⟩ (Registry.new sequentialIds 0)).run.run ⟨galleryFiles, []⟩
      = (.ok galleryLayout, ⟨galleryDisk, []⟩) := by
  have hplace : galleryFiles.Names ⟨"out"⟩ ⟨[], ["out"], false⟩ [] "out" :=
    ⟨rfl, Disk.walk.eq_1 .., rfl, by decide, by decide, by decide⟩
  have hvisit : (visit ⟨"out"⟩ gallery []).run.run ⟨galleryFiles, []⟩
      = (.ok [Key.of "index" ⟨"home.html"⟩], ⟨galleryDisk, []⟩) :=
    run_visit_leaf List.not_mem_nil (Disk.makeDirectories_of_free hplace rfl)
  have hassign : assignAll (Registry.new sequentialIds 0)
      (scopeOrder (PageTree.ofMount ⟨"out"⟩ gallery).pages [])
        = .ok ⟨sequentialIds, 3, galleryLayout.scopes, [⟨"2"⟩, ⟨"1"⟩, ⟨"0"⟩]⟩ := rfl
  rw [walk, run_bind, hvisit]
  dsimp only
  rw [hassign]
  rfl

theorem mem_of_reaches_gallery {mount : Mount} (h : gallery.Reaches mount) :
    mount ∈ [gallery, card, badge] := by
  have hclosed : ∀ outer ∈ [gallery, card, badge], ∀ inner ∈ outer.imports ++ outer.children,
      inner ∈ [gallery, card, badge] := by
    simp [gallery, card, badge, Mount.imports, Mount.children]
  induction h with
  | refl => exact List.mem_cons_self
  | imported _ hmem ih => exact hclosed _ ih _ (List.mem_append_left _ hmem)
  | child _ hmem ih => exact hclosed _ ih _ (List.mem_append_right _ hmem)

theorem keysIdentify_gallery : gallery.KeysIdentify := by
  have hapart : ([gallery, card, badge].map Mount.key).Nodup := by decide
  intro first second hfirst hsecond hkey
  rw [List.inj_on_of_nodup_map hapart (mem_of_reaches_gallery hfirst)
    (mem_of_reaches_gallery hsecond) hkey]
  exact .refl second

/-- The gallery is laid out, and the badge in the card has an identifier. -/
theorem gallery_scopes_known :
    (∃ id, galleryLayout.scope badge.key = .ok id) ∧
      StepFailsOnly NotUnknownScope (Compiler.compilePages ⟨galleryLayout, none, galleryDisk⟩) ∧
      ∀ pages, StepFailsOnly NotUnknownScope (bundleStyles {} galleryLayout pages) := by
  obtain ⟨hscope, hcompile, hstyles, -⟩ := scopes_known run_walk_gallery keysIdentify_gallery
  have hembeds : ReflTransGen (Mount.Embeds Mount.followAll) gallery badge :=
    .head (show gallery.Embeds Mount.followAll card from List.mem_cons_self)
      (.single (show card.Embeds Mount.followAll badge from List.mem_cons_self))
  exact ⟨hscope ⟨gallery, ⟨"out"⟩⟩ List.mem_cons_self badge hembeds,
    hcompile ⟨galleryLayout, none, galleryDisk⟩ rfl,
    hstyles {} ⟨nofun, fun _ text => failsOnly_ok text⟩⟩

end Gallery

end Layout

end SiteTree
