import SiteTree.Proofs.Build.Step
import SiteTree.Proofs.Disk.Enclosure
import SiteTree.Proofs.Page.BundleWrites
import SiteTree.Proofs.Page.Directories

/-!
# What the steps of a build change

Once there is an output directory, each step of a build changes only what is inside: directories of
pages, bundles, pages and copies all have places below the output. Of the names that users choose,
those of children are checked; the name of the root page is not, and two files are named after it.

* `Layout.keeps_walk`, `BundleKind.keeps_bundlePages`, `keeps_writePages` — pages and their files.
* `Build.keeps_copyAssets`, `Build.keeps_copyTargets` — copies.
* `Build.keeps_fillOutput` — all steps that fill the output.
-/

namespace SiteTree

variable {enclosure : Enclosure} {path : Path}

/-! ### Files -/

namespace Files

theorem keeps_makeDirectory (h : enclosure.IsUnder path) :
    Job.Keeps enclosure.Holds (makeDirectory path) :=
  Job.keeps_changeAnyway _ fun _ hdisk => hdisk.makeDirectories h h.isAbsolute List.prefix_rfl

theorem keeps_write (habs : path.isAbsolute = true) (hinside : enclosure.inside path.place = true)
    (text : String) : Job.Keeps enclosure.Holds (write path text) :=
  Job.keeps_change _ fun _ _ hdisk hwrite => hdisk.writeBytes habs hinside hwrite

theorem keeps_copyFile (h : enclosure.IsUnder path) (source : Path) :
    Job.Keeps enclosure.Holds (copyFile source path) := by
  have hcopy : Job.Keeps enclosure.Holds
      (Job.change (fun disk => disk.copyFile source path) fun error =>
        (Failure.plain error.message).within
          ("could not copy " ++ ticked source.text ++ " to " ++ ticked path.text)) :=
    Job.keeps_change _ fun _ _ hdisk hcopy => hdisk.copyFile h.isAbsolute h.inside hcopy
  rw [copyFile]
  cases hparent : path.parent? with
  | none => exact (Job.keeps_pure ()).andThen fun _ => hcopy
  | some parent =>
    obtain ⟨habs, dots, last, more, hnames, -⟩ := Path.names_of_parent? h.isAbsolute hparent
    have hwithin : parent.names <+: path.names :=
      ⟨dots ++ last :: more, by rw [hnames, List.append_assoc]⟩
    refine Job.Keeps.andThen ?_ fun _ => hcopy
    exact Job.keeps_changeAnyway _ fun _ hdisk => hdisk.makeDirectories h habs hwithin

/-- What is copied from a directory are entries of the disk, under names that lead down. -/
theorem exists_of_mem_contents {disk : Disk} {directory : Path} {entries : List (Location × Entry)}
    (h : contents disk directory = .ok entries) {item : Location × Entry} (hitem : item ∈ entries) :
    ∃ other ∈ disk.entries, (∀ name ∈ item.1, name ∈ other.1) ∧ item.2 = other.2 := by
  rw [contents] at h
  cases hfind : disk.find directory with
  | error error =>
    rw [hfind] at h
    cases h
  | ok found =>
    obtain ⟨location, _⟩ := found
    rw [hfind] at h
    cases h
    obtain ⟨⟨below, entry⟩, hbelow, rfl⟩ := List.mem_map.mp hitem
    have hmem := ((Disk.perm_below disk location).mem_iff.mp hbelow)
    exact ⟨(below, entry), (List.mem_filter.mp hmem).1, fun _ hname => List.mem_of_mem_drop hname, rfl⟩

theorem keeps_copyEntry (h : enclosure.IsUnder path) {relative : Location} {entry : Entry}
    (hnames : ∀ name ∈ relative, IsEntryName name) (hlink : ∀ target, entry ≠ .link target)
    (source : Path) : Job.Keeps enclosure.Holds (copyEntry source path relative entry) := by
  obtain ⟨habs, hsame⟩ := Path.names_ofSegments_false hnames
  have hunder : enclosure.IsUnder (path.join (Path.ofSegments false relative)) := by
    refine h.join habs fun hup => ?_
    rw [hsame] at hup
    exact (hnames _ hup).ne_up rfl
  cases entry with
  | directory => exact keeps_makeDirectory hunder
  | file content => exact keeps_copyFile hunder _
  | link target => exact absurd rfl (hlink target)

theorem keeps_copyContents (h : enclosure.IsUnder path) (source : Path) :
    Job.Keeps enclosure.Holds (copyContents source path) := by
  rw [copyContents]
  refine (keeps_makeDirectory h).andThen fun _ => Job.keeps_disk_bind fun disk hdisk => ?_
  refine (Job.keeps_ofExcept _).bind fun session entries later _ hrun => ?_
  rw [Job.run_ofExcept] at hrun
  have hcontents : contents disk source = .ok entries := (Prod.mk.inj hrun).1
  refine Job.Keeps.andThen (Job.keeps_forIn fun item hitem => ?_) fun _ => Job.keeps_pure _
  obtain ⟨other, hother, hnames, hentry⟩ := exists_of_mem_contents hcontents hitem
  refine (keeps_copyEntry h (fun name hname => ?_) (fun target => ?_) source).andThen
    fun _ => Job.keeps_pure _
  · exact hdisk.isTree.isEntryName other hother name (hnames name hname)
  · rw [hentry]
    exact hdisk.linkFree other hother target

theorem keeps_copyDirectory (h : enclosure.IsUnder path) (source : Path) :
    Job.Keeps enclosure.Holds (copyDirectory source path) := by
  rw [copyDirectory]
  cases hname : source.fileName? with
  | none => exact Job.keeps_throw _
  | some name =>
    refine (keeps_copyContents ?_ source).andThen fun _ => Job.keeps_pure _
    exact h.join_name (Path.isEntryName_of_fileName? hname)

end Files

/-! ### Pages -/

/-- A page below another one gets a directory below that of the other one. -/
theorem Enclosure.IsUnder.join_of_isPageName {name : String} (h : enclosure.IsUnder path)
    (hname : Layout.isPageName name = true) : enclosure.IsUnder (path.join ⟨name⟩) := by
  obtain ⟨component, hcomponent⟩ := isName_of_isPageName hname
  exact h.join hcomponent.isAbsolute hcomponent.notMem_names

namespace Layout

theorem keeps_enter (h : enclosure.IsUnder path) (name : String) (key : Key) (entered : List Key) :
    Job.Keeps enclosure.Holds (enter path name key entered) := by
  rw [enter]
  split
  · exact Job.keeps_throw _
  · exact ((Files.keeps_makeDirectory h).within _).andThen fun _ => Job.keeps_pure _

theorem keeps_inspect (parent : String) (siblings : List String) (name : String) :
    Job.Keeps enclosure.Holds (inspect parent siblings name) := by
  rw [inspect]
  split
  · exact Job.keeps_throw _
  · split
    · exact Job.keeps_throw _
    · exact Job.keeps_pure _

mutual

theorem keeps_visit : ∀ (mount : Mount) (directory : Path) (entered : List Key),
    enclosure.IsUnder directory → Job.Keeps enclosure.Holds (visit directory mount entered)
  | .mk declaration overrides imports children, directory, entered, h => by
    rw [visit]
    refine (keeps_enter h _ _ _).andThen fun keys => ?_
    exact keeps_visitChildren children directory _ _ keys h

theorem keeps_visitChildren : ∀ (children : List Mount) (directory : Path) (parent : String)
    (siblings : List String) (entered : List Key), enclosure.IsUnder directory →
    Job.Keeps enclosure.Holds (visitChildren directory parent siblings children entered)
  | [], _, _, _, entered, _ => by
    rw [visitChildren]
    exact Job.keeps_pure entered
  | child :: children, directory, parent, siblings, entered, h => by
    rw [visitChildren]
    refine (keeps_inspect _ _ _).bind fun session value later _ hinspect => ?_
    have hchild := h.join_of_isPageName (isPageName_of_inspect hinspect)
    refine (keeps_visit child _ entered hchild).andThen fun keys => ?_
    exact keeps_visitChildren children directory parent _ keys h

end

theorem keeps_walk {σ : Type} (h : enclosure.IsUnder path) (root : Mount) (registry : Registry σ) :
    Job.Keeps enclosure.Holds (walk root path registry) := by
  rw [walk]
  refine (keeps_visit root path [] h).andThen fun _ => ?_
  exact (Job.keeps_ofExcept _).andThen fun _ => Job.keeps_pure _

end Layout

namespace PageTree

variable {page : Page}

mutual

theorem isUnder_of_mem_pages : ∀ (mount : Mount) (directory : Path), mount.PageNames →
    enclosure.IsUnder directory → page ∈ (ofMount directory mount).pages →
    enclosure.IsUnder page.directory ∧
      (page = ⟨mount, directory⟩ ∨ Layout.isPageName page.name = true)
  | .mk declaration overrides imports children, directory, hnames, h, hpage => by
    rw [ofMount, pages] at hpage
    rcases List.mem_cons.mp hpage with rfl | hpage
    · exact ⟨h, .inl rfl⟩
    · exact (isUnder_of_mem_forest children directory hnames.1 hnames.2 h hpage).imp_right .inr

theorem isUnder_of_mem_forest : ∀ (children : List Mount) (directory : Path),
    Mount.NamesOfPages children → Mount.AllPages Mount.NamesOfPages children →
    enclosure.IsUnder directory → page ∈ forestPages (forestOf directory children) →
    enclosure.IsUnder page.directory ∧ Layout.isPageName page.name = true
  | [], _, _, _, _, hpage => by simp [forestOf, forestPages] at hpage
  | child :: children, directory, hchildren, hall, h, hpage => by
    have hchild := hchildren child List.mem_cons_self
    rw [forestOf, forestPages] at hpage
    rcases List.mem_append.mp hpage with hpage | hpage
    · obtain ⟨hunder, hpage⟩ :=
        isUnder_of_mem_pages child _ hall.1 (h.join_of_isPageName hchild) hpage
      refine ⟨hunder, hpage.elim ?_ id⟩
      rintro rfl
      exact hchild
    · exact isUnder_of_mem_forest children directory
        (fun other hother => hchildren other (List.mem_cons_of_mem _ hother)) hall.2 h hpage

end

end PageTree

/-- What the names of bundles end in. -/
def bundleEndings : List String :=
  [".css", ".js"]

theorem Path.IsInward.bundle {name ending : String} (h : Path.IsInward ⟨name⟩)
    (hending : ending ∈ bundleEndings) : Path.IsInward ⟨name ++ ending⟩ := by
  rcases List.mem_pair.mp hending with rfl | rfl
  · exact h.append (by decide) (by decide)
  · exact h.append (by decide) (by decide)

/-- The files of all pages have places inside. -/
structure Layout.IsInside (layout : Layout) (enclosure : Enclosure) : Prop where
  isUnder : ∀ page ∈ layout.pages, enclosure.IsUnder page.directory
  bundle : ∀ page ∈ layout.pages, ∀ ending ∈ bundleEndings,
    enclosure.inside (page.directory.join ⟨page.name ++ ending⟩).place = true

/-- Only for the root page, whose name is not checked, there is something to know. -/
theorem Layout.isInside_of_tree {layout : Layout} {root : Mount}
    (htree : layout.tree = PageTree.ofMount enclosure.output root) (hnames : root.PageNames)
    (hroot : ∀ ending ∈ bundleEndings,
      enclosure.inside (enclosure.output.join ⟨root.name ++ ending⟩).place = true) :
    layout.IsInside enclosure := by
  have hpages : ∀ page ∈ layout.pages, enclosure.IsUnder page.directory ∧
      (page = ⟨root, enclosure.output⟩ ∨ isPageName page.name = true) := by
    rw [Layout.pages, htree]
    exact fun page => PageTree.isUnder_of_mem_pages root _ hnames enclosure.isUnder_output
  refine ⟨fun page hpage => (hpages page hpage).1, fun page hpage ending hending => ?_⟩
  obtain ⟨hunder, rfl | hname⟩ := hpages page hpage
  · exact hroot ending hending
  · obtain ⟨component, hcomponent⟩ := isName_of_isPageName hname
    have hfile := Path.IsInward.bundle ⟨hcomponent.isAbsolute, hcomponent.notMem_names⟩ hending
    exact (hunder.join hfile.isAbsolute hfile.noUp).inside

/-! ### Bundles -/

namespace BundleKind

variable {kind : BundleKind}

theorem keeps_contents (hown : ∀ mount, Job.Keeps enclosure.Holds (kind.own mount)) (page : Page)
    (globals : List Path) : Job.Keeps enclosure.Holds (kind.contents page globals) := by
  rw [contents_eq]
  refine (Job.keeps_reading _).andThen fun _ => ?_
  exact (Job.keeps_mapM fun mount _ => hown mount).andThen fun _ => Job.keeps_pure _

theorem keeps_emit {page : Page} (habs : page.directory.isAbsolute = true)
    (hinside : enclosure.inside (kind.file page).place = true) (text html : String) :
    Job.Keeps enclosure.Holds (kind.emit page text html) := by
  rw [emit]
  split
  · exact Job.keeps_pure html
  refine (Files.keeps_write (Path.isAbsolute_join habs) hinside text).andThen fun _ => ?_
  split
  · exact Job.keeps_pure _
  · exact (Job.keeps_log _ _).andThen fun _ => Job.keeps_pure _

theorem keeps_bundlePages {layout : Layout} {ending : String} (hlayout : layout.IsInside enclosure)
    (hown : ∀ mount, Job.Keeps enclosure.Holds (kind.own mount)) (hending : ending ∈ bundleEndings)
    (hname : ∀ page, kind.fileName page = page ++ ending) (html : List String) :
    Job.Keeps enclosure.Holds (kind.bundlePages layout html) := by
  rw [bundlePages]
  split
  · exact Job.keeps_throw _
  refine Job.keeps_mapM fun item hitem => ?_
  obtain ⟨⟨page, globals⟩, html⟩ := item
  have hpage : page ∈ layout.pages := by
    have hgathered := (List.of_mem_zip hitem).1
    rw [PageTree.gathered_eq] at hgathered
    obtain ⟨trail, htrail, heq⟩ := List.mem_map.mp hgathered
    obtain ⟨rfl, -⟩ := Prod.mk.inj heq
    rw [Layout.pages, ← PageTree.map_page_trails]
    exact List.mem_map_of_mem htrail
  have hfile : enclosure.inside (kind.file page).place = true := by
    rw [file, hname]
    exact hlayout.bundle page hpage ending hending
  refine (keeps_contents hown page globals).andThen fun _ => ?_
  refine ((Job.keeps_ofExcept _).within _).andThen fun _ => ?_
  exact keeps_emit (hlayout.isUnder page hpage).isAbsolute hfile _ html

end BundleKind

/-- The preprocessor does not change any files. -/
def StyleOptions.LeavesFiles (options : StyleOptions) : Prop :=
  ∀ preprocess, options.preprocess = some preprocess → ∀ css session,
    ((preprocess css).run.run session).2.disk = session.disk

theorem StyleOptions.keeps_scopedStyles {options : StyleOptions} (h : options.LeavesFiles)
    (layout : Layout) (mount : Mount) :
    Job.Keeps enclosure.Holds (options.scopedStyles layout mount) := by
  have hpreprocessed : Job.Keeps enclosure.Holds (options.preprocessed mount) := by
    rw [preprocessed]
    refine Job.keeps_disk_bind fun disk _ => (Job.keeps_ofExcept _).andThen fun css => ?_
    cases hpreprocess : options.preprocess with
    | none => exact Job.keeps_pure css
    | some preprocess =>
      refine Job.Keeps.within (fun session hsession => ?_) _
      rwa [h preprocess hpreprocess]
  rw [scopedStyles]
  split
  · exact Job.keeps_pure ""
  · refine hpreprocessed.andThen fun _ => ?_
    exact (Job.keeps_ofExcept _).andThen fun _ => Job.keeps_pure _

section Pages

variable {layout : Layout} (hlayout : layout.IsInside enclosure)

include hlayout

theorem keeps_bundleStyles {options : StyleOptions} (h : options.LeavesFiles)
    (pages : Pages .compiled) :
    Job.Keeps enclosure.Holds (bundleStyles options layout pages) :=
  Job.Keeps.andThen (BundleKind.keeps_bundlePages hlayout (options.keeps_scopedStyles h layout)
    (List.mem_cons_self) (fun _ => rfl) _) fun _ => Job.keeps_pure _

theorem keeps_bundleScripts (options : ScriptOptions) (pages : Pages .styled) :
    Job.Keeps enclosure.Holds (bundleScripts options layout pages) :=
  Job.Keeps.andThen (BundleKind.keeps_bundlePages hlayout (fun _ => Job.keeps_reading _)
    (List.mem_cons_of_mem _ List.mem_cons_self) (fun _ => rfl) _) fun _ => Job.keeps_pure _

theorem keeps_writePages (pages : Pages .scripted) (minify : Bool) :
    Job.Keeps enclosure.Holds (writePages layout pages minify) := by
  rw [writePages]
  split
  · exact Job.keeps_throw _
  refine Job.Keeps.andThen (Job.keeps_forIn fun item hitem => ?_) fun _ => Job.keeps_pure _
  have hunder := hlayout.isUnder item.1 (List.of_mem_zip hitem).1
  have hindex := hunder.join_name (show IsEntryName "index.html" by decide)
  refine Job.Keeps.andThen ?_ fun _ => Job.keeps_pure _
  exact (Files.keeps_write hindex.isAbsolute hindex.inside _).within _

end Pages

/-! ### The whole build -/

namespace Build

variable {config : Config}

theorem keeps_copyAssets (h : enclosure.IsUnder config.build.output) :
    Job.Keeps enclosure.Holds (copyAssets config) := by
  rw [copyAssets]
  cases config.build.assets with
  | none => exact Job.keeps_pure ()
  | some assets => exact (Files.keeps_copyContents h assets).andThen fun _ => Job.keeps_pure ()

theorem keeps_copyTarget (h : enclosure.IsUnder path) (target : Config.CopyTarget) :
    Job.Keeps enclosure.Holds (copyTarget path target) := by
  rw [copyTarget]
  refine Job.keeps_disk_bind fun disk _ => ?_
  rcases disk.entryAt target.path with error | ⟨location, entry⟩
  · exact Job.keeps_throw _
  dsimp only
  split
  · split
    · exact (Files.keeps_copyContents h target.path).andThen fun _ => Job.keeps_pure ()
    · exact (Files.keeps_copyDirectory h target.path).andThen fun _ => Job.keeps_pure ()
  · cases hname : target.path.fileName? with
    | none => exact Job.keeps_pure ()
    | some name =>
      exact Files.keeps_copyFile (h.join_name (Path.isEntryName_of_fileName? hname)) target.path

theorem keeps_copyTargets (host : Host) (h : enclosure.IsUnder config.build.output) :
    Job.Keeps enclosure.Holds (copyTargets host config) := by
  rw [copyTargets]
  refine Job.keeps_disk_bind fun disk _ => ?_
  refine Job.Keeps.andThen (Job.keeps_forIn fun target _ => ?_) fun _ => Job.keeps_pure _
  exact (keeps_copyTarget h target).andThen fun _ => Job.keeps_pure _

theorem keeps_compilePages (layout : Layout) :
    Job.Keeps enclosure.Holds (compilePages config layout) :=
  Job.keeps_disk_bind fun _ _ => Job.keeps_ofExcept _

/-- What is done once there is an output directory. -/
def fillOutput (host : Host) (config : Config) (root : Mount) : Job Unit := do
  let output := config.build.output
  let layout ←
    step "layout" "assign page directories" (layOut config.build.scopeIds root output)
  Job.log "layout" (toString layout.pages.length ++ " pages")
  let compiled ← step "html" "compile html" (compilePages config layout)
  let styled ←
    step "styles" "build styles" (bundleStyles (styleOptions host config) layout compiled)
  let scripted ←
    step "scripts" "build scripts" (bundleScripts (scriptOptions config) layout styled)
  let written ← step "write" "write html" (writePages layout scripted config.build.minify)
  step "assets" "copy static assets" (copyAssets config)
  step "copy" "copy root files" (copyTargets host config)
  Job.log "done" (toString written ++ " pages written to " ++ ticked output.text)

/-- The root page, or what is wrong with the references that lead on from it. -/
def readRoot (host : Host) (config : Config) (disk : Disk) : Except Failure Mount :=
  (config.rootMount host disk).mapError fun error => .of (.manifest error)

theorem readRoot_eq_ok_iff {host : Host} {root : Mount} {disk : Disk} :
    readRoot host config disk = .ok root ↔ config.rootMount host disk = .ok root := by
  rw [readRoot]
  cases config.rootMount host disk with
  | error error => simp [Except.mapError]
  | ok found => simp [Except.mapError]

theorem buildSite_eq (host : Host) (config : Config) :
    buildSite host config = (do
      Job.log "build" ("building " ++ ticked config.path.text)
      let root ← Job.reading (readRoot host config)
      step "clean" "clean output directory" (prepareOutput config)
      fillOutput host config root) := by
  rw [buildSite]
  refine bind_congr fun _ => ?_
  rw [Job.reading, bind_assoc]
  refine bind_congr fun disk => ?_
  rw [readRoot]
  cases config.rootMount host disk with
  | error error => rfl
  | ok root => rfl

/-- What is said before anything is done. -/
def started (config : Config) (session : Session) : Session :=
  { session with
    console := session.console ++
      [Console.line false "build" ("building " ++ ticked config.path.text)] }

theorem run_buildSite (host : Host) (config : Config) (session : Session) :
    (buildSite host config).run.run session
      = match readRoot host config session.disk with
        | .error failure => (.error failure, started config session)
        | .ok root => (step "clean" "clean output directory" (prepareOutput config) >>=
            fun _ => fillOutput host config root).run.run (started config session) := by
  rw [buildSite_eq, run_bind, Job.run_log]
  dsimp only
  have hdisk : (started config session).disk = session.disk := rfl
  rw [run_bind, Job.run_reading, ← started, hdisk]
  cases readRoot host config session.disk with
  | error failure => rfl
  | ok root => rfl

theorem keeps_fillOutput {host : Host} {root : Mount} (houtput : config.build.output = enclosure.output)
    (hroot : ∀ ending ∈ bundleEndings,
      enclosure.inside (enclosure.output.join ⟨root.name ++ ending⟩).place = true)
    (hstyles : (styleOptions host config).LeavesFiles) :
    Job.Keeps enclosure.Holds (fillOutput host config root) := by
  have hunder : enclosure.IsUnder config.build.output := houtput ▸ enclosure.isUnder_output
  have hlayOut : Job.Keeps enclosure.Holds
      (layOut config.build.scopeIds root config.build.output) := by
    cases config.build.scopeIds with
    | hashed => exact Layout.keeps_walk hunder root _
    | sequential => exact Layout.keeps_walk hunder root _
  rw [fillOutput]
  refine (keeps_step hlayOut _ _).bind fun session layout later _ hlayout => ?_
  obtain ⟨ended, hlayout, -⟩ := run_of_step hlayout
  have hinside : layout.IsInside enclosure := by
    obtain ⟨htree, hnames⟩ : layout.tree = PageTree.ofMount config.build.output root ∧
        root.PageNames := by
      cases hids : config.build.scopeIds with
      | hashed =>
        rw [hids] at hlayout
        exact Layout.pageNames_of_walk hlayout
      | sequential =>
        rw [hids] at hlayout
        exact Layout.pageNames_of_walk hlayout
    exact Layout.isInside_of_tree (houtput ▸ htree) hnames hroot
  refine (Job.keeps_log _ _).andThen fun _ => ?_
  refine (keeps_step (keeps_compilePages layout) _ _).andThen fun compiled => ?_
  refine (keeps_step (keeps_bundleStyles hinside hstyles compiled) _ _).andThen fun styled => ?_
  refine (keeps_step (keeps_bundleScripts hinside _ styled) _ _).andThen fun scripted => ?_
  refine (keeps_step (keeps_writePages hinside scripted _) _ _).andThen fun written => ?_
  refine (keeps_step (keeps_copyAssets hunder) _ _).andThen fun _ => ?_
  refine (keeps_step (keeps_copyTargets host hunder) _ _).andThen fun _ => ?_
  exact Job.keeps_log _ _

end Build

end SiteTree
