import SiteTree.Proofs.Files
import SiteTree.Proofs.Page.ScopeCover

/-!
# The two halves of scoping

Scoping marks the elements of a component with its class in the markup of a page, and narrows the
selectors of the component to that class in the styles of the page. The one happens wherever the
component is embedded, the other once for each page.

* `Layout.halves_agree` — on every page the same components are scoped in the markup and in the
  styles, to the same classes.
-/

namespace SiteTree

open Relation (ReflTransGen)

/-- A mount that is scoped, and its class. -/
structure Scoped where
  mount : Mount
  className : String

/-- The component of the mount, and its class. -/
def Scoped.mark (item : Scoped) : Declaration × String :=
  (item.mount.declaration, item.className)

/-! ### Marks in the markup -/

namespace Compiler

/-- The rendered template with the scope class, and what was given a class. -/
def withMarks (compiler : Compiler) (mount : Mount) : Except Failure (String × List Scoped) := do
  let html ← compiler.rendered mount
  if mount.declaration.externalStyles.isEmpty then return (html, [])
  else
    let className := (← compiler.layout.scope mount.key).className
    return (Markup.injectClass html className, [⟨mount, className⟩])

mutual

/-- Compiles from scratch, and keeps track of all mounts whose templates are given a class. -/
def compileMarking (compiler : Compiler) : Mount → Except Failure (String × List Scoped)
  | .mk declaration overrides imports children => do
    let (html, own) ← compiler.withMarks (.mk declaration overrides imports children)
    let (html, inner) ← compiler.embedMarking imports html
    return (html, own ++ inner)

def embedMarking (compiler : Compiler) :
    List Mount → String → Except Failure (String × List Scoped)
  | [], html => return (html, [])
  | mount :: mounts, html =>
    match mount.declaration.selector with
    | none => compiler.embedMarking mounts html
    | some selector => do
      let (fragment, inner) ← (compiler.compileMarking mount).mapError
        (Failure.within ("failed to compile import " ++ ticked mount.name))
      let (html, others) ← compiler.embedMarking mounts
        (Markup.substitute html selector fragment)
      return (html, inner ++ others)

end

variable {compiler : Compiler}

theorem map_fst_withMarks (mount : Mount) :
    (compiler.withMarks mount).map Prod.fst = compiler.withScopeClass mount := by
  unfold withMarks withScopeClass
  cases compiler.rendered mount with
  | error failure => rfl
  | ok html =>
    cases mount.declaration.externalStyles.isEmpty with
    | true => rfl
    | false =>
      cases compiler.layout.scope mount.key with
      | error failure => rfl
      | ok id => rfl

mutual

/-- Keeping track changes nothing about the markup. -/
theorem map_fst_compileMarking : ∀ mount : Mount,
    (compiler.compileMarking mount).map Prod.fst = compiler.compileAfresh mount
  | .mk declaration overrides imports children => by
    rw [compileMarking, compileAfresh, ← map_fst_withMarks]
    rcases compiler.withMarks (.mk declaration overrides imports children) with
      failure | ⟨html, own⟩
    · rfl
    · have himports := map_fst_embedMarking imports html
      change _ = compiler.embedAfresh imports html
      rw [← himports]
      change (compiler.embedMarking imports html >>= _).map Prod.fst = _
      cases compiler.embedMarking imports html with
      | error failure => rfl
      | ok inner => rfl

theorem map_fst_embedMarking : ∀ (mounts : List Mount) (html : String),
    (compiler.embedMarking mounts html).map Prod.fst = compiler.embedAfresh mounts html
  | [], html => by
    rw [embedMarking, embedAfresh]
    rfl
  | mount :: mounts, html => by
    rw [embedMarking, embedAfresh]
    cases mount.declaration.selector with
    | none => exact map_fst_embedMarking mounts html
    | some selector =>
      dsimp only
      rw [← map_fst_compileMarking mount]
      rcases compiler.compileMarking mount with failure | ⟨fragment, inner⟩
      · rfl
      · have hothers := map_fst_embedMarking mounts (Markup.substitute html selector fragment)
        change _ = compiler.embedAfresh mounts (Markup.substitute html selector fragment)
        rw [← hothers]
        change (compiler.embedMarking mounts _ >>= _).map Prod.fst = _
        cases compiler.embedMarking mounts (Markup.substitute html selector fragment) with
        | error failure => rfl
        | ok others => rfl

end

end Compiler

/-! ### What is scoped -/

namespace Layout

variable {layout : Layout}

/-- A mount with the class of its component, if that has styles of its own. -/
def scopedAs? (layout : Layout) (mount : Mount) : Option Scoped :=
  if mount.declaration.externalStyles.isEmpty then none
  else (layout.scopes.lookup mount.key).map fun id => ⟨mount, id.className⟩

theorem scopedAs?_of_scope {mount : Mount} {id : ScopeId} (h : layout.scope mount.key = .ok id) :
    layout.scopedAs? mount
      = if mount.declaration.externalStyles.isEmpty then none
        else some ⟨mount, id.className⟩ := by
  rw [scope] at h
  split at h
  · next found hfound =>
    cases h
    rw [scopedAs?, hfound]
    rfl
  · cases h

/-- The same component is scoped the same way wherever it is mounted. -/
theorem mark_scopedAs?_congr {first second : Mount} (h : first.SameComponent second) :
    (layout.scopedAs? first).map Scoped.mark = (layout.scopedAs? second).map Scoped.mark := by
  simp only [scopedAs?, Mount.key, h.declaration]
  split
  · rfl
  · cases layout.scopes.lookup second.declaration.key with
    | none => rfl
    | some id => simp [Scoped.mark, h.declaration]

/-- A mount that is embedded under a tag. -/
abbrev followTags (mount : Mount) : Bool :=
  mount.declaration.selector.isSome

/-- What the style bundle of a mount's page is made of: the components that it embeds under tags,
each once, that have styles of their own. -/
def sheets (layout : Layout) (mount : Mount) : List Scoped :=
  (mount.visited followTags).filterMap layout.scopedAs?

end Layout

namespace Compiler

variable {compiler : Compiler}

theorem own_of_withMarks {mount : Mount} {html : String} {own : List Scoped}
    (h : compiler.withMarks mount = .ok (html, own)) :
    own = (compiler.layout.scopedAs? mount).toList := by
  obtain ⟨rendered, -, h⟩ := exists_of_bind_eq_ok h
  split at h
  · next hempty =>
    cases h
    rw [Layout.scopedAs?, if_pos hempty]
    rfl
  · next hstyles =>
    obtain ⟨id, hid, h⟩ := exists_of_bind_eq_ok h
    cases h
    rw [Layout.scopedAs?_of_scope hid, if_neg hstyles]
    rfl

mutual

/-- The markup of a mount is marked once for every time that a component is embedded. -/
theorem marks_of_compileMarking : ∀ (mount : Mount) {html : String} {marks : List Scoped},
    compiler.compileMarking mount = .ok (html, marks) →
    marks = (mount.unfolded Layout.followTags).filterMap compiler.layout.scopedAs?
  | .mk declaration overrides imports children, html, marks, h => by
    rw [compileMarking] at h
    obtain ⟨⟨first, own⟩, hown, h⟩ := exists_of_bind_eq_ok h
    obtain ⟨⟨last, inner⟩, hinner, h⟩ := exists_of_bind_eq_ok h
    cases h
    rw [Mount.unfolded, List.filterMap_cons, own_of_withMarks hown,
      marks_of_embedMarking imports hinner]
    cases compiler.layout.scopedAs? (.mk declaration overrides imports children) with
    | none => rfl
    | some item => rfl

theorem marks_of_embedMarking : ∀ (mounts : List Mount) {before html : String}
    {marks : List Scoped}, compiler.embedMarking mounts before = .ok (html, marks) →
    marks = (Mount.unfoldedImports Layout.followTags mounts).filterMap compiler.layout.scopedAs?
  | [], before, html, marks, h => by
    rw [embedMarking] at h
    cases h
    rfl
  | mount :: mounts, before, html, marks, h => by
    rw [embedMarking] at h
    rw [Mount.unfoldedImports, Layout.followTags]
    cases hselector : mount.declaration.selector with
    | none =>
      rw [hselector] at h
      exact marks_of_embedMarking mounts h
    | some selector =>
      rw [hselector] at h
      obtain ⟨⟨fragment, inner⟩, hinner, h⟩ := exists_of_bind_eq_ok h
      obtain ⟨⟨last, others⟩, hothers, h⟩ := exists_of_bind_eq_ok h
      cases h
      rw [if_pos Option.isSome_some, List.filterMap_append, ← marks_of_embedMarking mounts hothers]
      congr 1
      rcases hmount : compiler.compileMarking mount with failure | ⟨found, marks⟩
      · rw [hmount] at hinner
        cases hinner
      · rw [hmount] at hinner
        cases hinner
        exact marks_of_compileMarking mount hmount

end

theorem exists_withMarks {mount : Mount} (hrendered : ∃ html, compiler.rendered mount = .ok html)
    (hscope : ∃ id, compiler.layout.scope mount.key = .ok id) :
    ∃ html own, compiler.withMarks mount = .ok (html, own) := by
  obtain ⟨html, hhtml⟩ := hrendered
  obtain ⟨id, hid⟩ := hscope
  rw [withMarks, hhtml]
  cases hempty : mount.declaration.externalStyles.isEmpty with
  | true => exact ⟨_, _, rfl⟩
  | false =>
    rw [hid]
    exact ⟨_, _, rfl⟩

mutual

/-- Compiling succeeds if every template that is embedded can be rendered. -/
theorem exists_compileMarking : ∀ mount : Mount,
    (∀ inner ∈ mount.unfolded Layout.followTags, (∃ html, compiler.rendered inner = .ok html) ∧
      ∃ id, compiler.layout.scope inner.key = .ok id) →
    ∃ html marks, compiler.compileMarking mount = .ok (html, marks)
  | .mk declaration overrides imports children, h => by
    rw [Mount.unfolded] at h
    obtain ⟨hrendered, hscope⟩ := h _ List.mem_cons_self
    obtain ⟨first, own, hown⟩ := exists_withMarks hrendered hscope
    obtain ⟨last, inner, hinner⟩ := exists_embedMarking imports
      (fun other hother => h other (List.mem_cons_of_mem _ hother)) first
    rw [compileMarking, hown]
    change ∃ html marks, (compiler.embedMarking imports first >>= _) = .ok (html, marks)
    rw [hinner]
    exact ⟨last, own ++ inner, rfl⟩

theorem exists_embedMarking : ∀ mounts : List Mount,
    (∀ inner ∈ Mount.unfoldedImports Layout.followTags mounts,
      (∃ html, compiler.rendered inner = .ok html) ∧
        ∃ id, compiler.layout.scope inner.key = .ok id) →
    ∀ before, ∃ html marks, compiler.embedMarking mounts before = .ok (html, marks)
  | [], _, before => by
    rw [embedMarking]
    exact ⟨before, [], rfl⟩
  | mount :: mounts, h, before => by
    rw [Mount.unfoldedImports, Layout.followTags] at h
    rw [embedMarking]
    cases hselector : mount.declaration.selector with
    | none =>
      rw [hselector] at h
      exact exists_embedMarking mounts h before
    | some selector =>
      rw [hselector, if_pos Option.isSome_some] at h
      obtain ⟨fragment, inner, hinner⟩ := exists_compileMarking mount
        fun other hother => h other (List.mem_append_left _ hother)
      obtain ⟨last, others, hothers⟩ := exists_embedMarking mounts
        (fun other hother => h other (List.mem_append_right _ hother))
        (Markup.substitute before selector fragment)
      dsimp only
      rw [hinner]
      change ∃ html marks, (compiler.embedMarking mounts _ >>= _) = .ok (html, marks)
      rw [hothers]
      exact ⟨last, inner ++ others, rfl⟩

end

end Compiler

/-! ### Stylesheets in a bundle -/

section Styles

variable {options : StyleOptions} {layout : Layout}

/-- The styles of a component, scoped to its class. -/
def StyleOptions.sheetText (options : StyleOptions) (item : Scoped) : Job String := do
  return Stylesheet.scope (← options.preprocessed item.mount) item.className

theorem scopedStyles_eq {mount : Mount} {id : ScopeId} (h : layout.scope mount.key = .ok id) :
    options.scopedStyles layout mount
      = if mount.declaration.externalStyles.isEmpty then pure ""
        else options.sheetText ⟨mount, id.className⟩ := by
  unfold StyleOptions.scopedStyles StyleOptions.sheetText
  rw [h]
  rfl

/-- Components without styles add nothing to a bundle. -/
theorem mapM_scopedStyles {α : Type} {mounts : List Mount}
    (h : ∀ mount ∈ mounts, ∃ id, layout.scope mount.key = .ok id) (next : String → Job α) :
    (do
      let texts ← mounts.mapM (options.scopedStyles layout)
      next (String.join texts))
    = (do
      let texts ← (mounts.filterMap layout.scopedAs?).mapM options.sheetText
      next (String.join texts)) := by
  induction mounts generalizing next with
  | nil => rfl
  | cons mount mounts ih =>
    have hothers := ih fun other hother => h other (List.mem_cons_of_mem _ hother)
    obtain ⟨id, hid⟩ := h mount List.mem_cons_self
    rw [List.mapM_cons, scopedStyles_eq hid, List.filterMap_cons, Layout.scopedAs?_of_scope hid]
    split
    · simp only [pure_bind, bind_assoc, String.join_cons, String.empty_append]
      exact hothers next
    · simp only [List.mapM_cons, bind_assoc, pure_bind, String.join_cons]
      exact bind_congr fun own => hothers fun text => next (own ++ text)

end Styles

/-! ### Both halves -/

namespace Layout

section Halves

variable {layout : Layout} {root mount : Mount}

/-- A component that is embedded many times is scoped in the styles as it is in the markup. -/
theorem mem_map_mark_iff (hkeys : root.KeysIdentify) (hreaches : root.Reaches mount)
    {mark : Declaration × String} :
    mark ∈ ((mount.unfolded followTags).filterMap layout.scopedAs?).map Scoped.mark
      ↔ mark ∈ (layout.sheets mount).map Scoped.mark := by
  simp only [sheets, List.map_filterMap, List.mem_filterMap]
  constructor
  · rintro ⟨inner, hinner, hmark⟩
    -- What is met again was visited before, as a mount of the same component.
    have hembeds := Mount.mem_unfolded_iff.mp hinner
    have hmet : inner.key ∈ Mount.keysAfter followTags [mount] [] :=
      Mount.mem_keysAfter_of_embeds hkeys (by simpa using hreaches) Mount.closedUnderImports_nil
        List.mem_cons_self hembeds
    rw [Mount.keysAfter, List.append_nil, List.mem_reverse] at hmet
    obtain ⟨first, hfirst, hkey⟩ := List.mem_map.mp hmet
    have hbelow := Mount.mem_unfolded_iff.mp (Mount.mem_unfolded_of_mem_visited hfirst)
    have hsame := hkeys first inner (hreaches.embeds hbelow) (hreaches.embeds hembeds) hkey
    exact ⟨first, hfirst, (mark_scopedAs?_congr hsame).trans hmark⟩
  · rintro ⟨first, hfirst, hmark⟩
    exact ⟨first, Mount.mem_unfolded_of_mem_visited hfirst, hmark⟩

theorem map_key_filterMap_sublist (layout : Layout) (mounts : List Mount) :
    ((mounts.filterMap layout.scopedAs?).map fun item => item.mount.key).Sublist
      (mounts.map Mount.key) := by
  induction mounts with
  | nil => exact List.nil_sublist []
  | cons mount mounts ih =>
    rw [List.filterMap_cons, List.map_cons]
    cases hitem : layout.scopedAs? mount with
    | none => exact ih.cons _
    | some item =>
      have hmount : item.mount = mount := by
        rw [scopedAs?] at hitem
        split at hitem
        · cases hitem
        · obtain ⟨id, -, rfl⟩ := Option.map_eq_some_iff.mp hitem
          rfl
      rw [List.map_cons, hmount]
      exact ih.cons_cons _

end Halves

/-- On every page of a site whose keys identify its components, the components whose templates are
given a scope class are those whose stylesheets are scoped in the style bundle, and the classes are
the same. However often a component is embedded in the page, its stylesheets stand in the bundle
once. -/
theorem halves_agree {σ : Type} {root : Mount} {output : Path} {registry : Registry σ}
    {session later : Session} {layout : Layout}
    (hwalk : (walk root output registry).run.run session = (.ok layout, later))
    (hkeys : root.KeysIdentify) {page : Page} (hpage : page ∈ layout.pages) :
    (∀ compiler : Compiler, compiler.layout = layout →
      (compiler.compileMarking page.mount).map Prod.fst = compiler.compileAfresh page.mount ∧
      ((∀ inner, ReflTransGen (Mount.Embeds followTags) page.mount inner →
          ∃ html, compiler.rendered inner = .ok html) →
        ∃ html marks, compiler.compileMarking page.mount = .ok (html, marks)) ∧
      ∀ html marks, compiler.compileMarking page.mount = .ok (html, marks) →
        ∀ mark, mark ∈ marks.map Scoped.mark ↔ mark ∈ (layout.sheets page.mount).map Scoped.mark) ∧
    (∀ (options : StyleOptions) (globals : List Path),
      (options.bundleKind layout).contents page globals = do
        let shared ← Job.reading fun disk => Files.readAll disk globals
        let texts ← (layout.sheets page.mount).mapM options.sheetText
        return shared ++ String.join texts) ∧
    ((layout.sheets page.mount).map fun item => item.mount.key).Nodup := by
  have hreaches : root.Reaches page.mount := by
    rw [pages, (pageNames_of_walk hwalk).1] at hpage
    exact PageTree.reaches_of_mem_pages root output hpage
  refine ⟨?_, ?_, ?_⟩
  · rintro compiler rfl
    refine ⟨Compiler.map_fst_compileMarking page.mount, fun hrendered => ?_, ?_⟩
    · refine Compiler.exists_compileMarking page.mount fun inner hinner => ⟨?_, ?_⟩
      · exact hrendered inner (Mount.mem_unfolded_iff.mp hinner)
      · exact scope_of_walk hwalk hkeys hpage
          (Mount.mem_unfolded_iff.mp (Mount.mem_unfolded_followAll hinner))
    · intro html marks hcompile mark
      rw [Compiler.marks_of_compileMarking page.mount hcompile]
      exact mem_map_mark_iff hkeys hreaches
  · intro options globals
    have hscope : ∀ mount ∈ page.mount.visited followTags, ∃ id, layout.scope mount.key = .ok id :=
      fun mount hmount => scope_of_walk hwalk hkeys hpage
        (Mount.mem_unfolded_iff.mp
          (Mount.mem_unfolded_followAll (Mount.mem_unfolded_of_mem_visited hmount)))
    rw [BundleKind.contents_eq]
    exact bind_congr fun shared => mapM_scopedStyles hscope fun text => pure (shared ++ text)
  · exact (Mount.nodup_firstMet followTags [page.mount]).sublist
      (map_key_filterMap_sublist layout _)

section Gallery

open Mount (firstMet firstMet_nil firstMet_cons_of_mem firstMet_cons_of_notMem)

/-- The badge of the card is met before that of the page. -/
theorem visited_gallery : gallery.visited followTags = [gallery, card, badge] := by
  have hpage : gallery.imports.filter followTags ++ [] = [card, badge] := rfl
  have hcard : card.imports.filter followTags ++ [badge] = [badge, badge] := rfl
  have hbadge : badge.imports.filter followTags ++ [badge] = [badge] := rfl
  rw [Mount.visited, firstMet_cons_of_notMem (by decide), hpage,
    firstMet_cons_of_notMem (by decide), hcard, firstMet_cons_of_notMem (by decide), hbadge,
    firstMet_cons_of_mem (by decide), firstMet_nil]

theorem read_galleryDisk {path : Path} {name text : String}
    (hroute : galleryDisk.route path = .ok ⟨[], [name], false⟩)
    (hhere : name ≠ ".") (hup : name ≠ "..") (hshort : ¬ Disk.maxName < name.utf8ByteSize)
    (hfile : galleryDisk.get? [name] = some (.file (Text.encodeUtf8 text))) :
    Files.read galleryDisk path = .ok text :=
  Files.read_eq_ok_iff.mpr
    (Disk.readText_of_walk hroute (Disk.walk_reach_file hhere hup hshort hfile))

theorem rendered_gallery {mount : Mount} (h : mount ∈ [gallery, card, badge]) :
    ∃ html, Compiler.rendered ⟨galleryLayout, none, galleryDisk⟩ mount = .ok html := by
  have hread : ∃ html, Files.read galleryDisk mount.declaration.template = .ok html := by
    simp only [List.mem_cons, List.not_mem_nil, or_false] at h
    rcases h with rfl | rfl | rfl
    · exact ⟨_, read_galleryDisk rfl (by decide) (by decide) (by decide) rfl⟩
    · exact ⟨_, read_galleryDisk rfl (by decide) (by decide) (by decide) rfl⟩
    · exact ⟨_, read_galleryDisk rfl (by decide) (by decide) (by decide) rfl⟩
  obtain ⟨html, hread⟩ := hread
  exact ⟨html, by rw [Compiler.rendered, hread]; rfl⟩

/-- The badge is marked in the card and in the page, and its styles are bundled once. -/
theorem gallery_halves_agree :
    (∃ html marks, Compiler.compileMarking ⟨galleryLayout, none, galleryDisk⟩ gallery
        = .ok (html, marks) ∧
      marks.map Scoped.mark
        = [(card.declaration, "-q1"), (badge.declaration, "-q2"), (badge.declaration, "-q2")] ∧
      ∀ mark, mark ∈ marks.map Scoped.mark
        ↔ mark ∈ [(card.declaration, "-q1"), (badge.declaration, "-q2")]) ∧
    ((galleryLayout.sheets gallery).map fun item => item.mount.key).Nodup := by
  obtain ⟨hmarkup, -, hnodup⟩ := halves_agree run_walk_gallery keysIdentify_gallery
    (show ⟨gallery, ⟨"out"⟩⟩ ∈ galleryLayout.pages from List.mem_cons_self)
  have hsheets : (galleryLayout.sheets gallery).map Scoped.mark
      = [(card.declaration, "-q1"), (badge.declaration, "-q2")] := by
    rw [sheets, visited_gallery]
    rfl
  obtain ⟨-, hsuccess, hmarks⟩ := hmarkup ⟨galleryLayout, none, galleryDisk⟩ rfl
  obtain ⟨html, marks, hcompile⟩ := hsuccess fun inner hembeds =>
    rendered_gallery (mem_of_reaches_gallery (Mount.Reaches.refl.embeds hembeds))
  refine ⟨⟨html, marks, hcompile, ?_, ?_⟩, hnodup⟩
  · rw [Compiler.marks_of_compileMarking gallery hcompile]
    rfl
  · rw [← hsheets]
    exact hmarks html marks hcompile

end Gallery

end Layout

end SiteTree
