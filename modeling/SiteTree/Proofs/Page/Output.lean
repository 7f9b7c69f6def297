import SiteTree.Page.Output
import SiteTree.Proofs.Disk.Below
import SiteTree.Proofs.Disk.Directories
import SiteTree.Proofs.Job
import SiteTree.Proofs.Page.Directories

/-!
# Writing all pages

* `Layout.directories_apart_iff` — the pages of a site have directories of their own exactly when
  no two children of a page have names that denote the same path. Then no two pages are written to
  the same file, and the order in which they are written makes no difference.
-/

namespace SiteTree

/-! ### Where pages are written -/

/-- The file that a page is written to. -/
def Page.file (page : Page) : Path :=
  page.directory.join ⟨"index.html"⟩

/-- What is written for a page. -/
def Page.write (minify : Bool) (page : Page) (html : String) : Path × List UInt8 :=
  (page.file, Text.encodeUtf8 (if minify then Markup.minify html else html))

theorem isName_index : Path.IsName ⟨"index.html"⟩ "index.html" :=
  Path.isName_of_components (Path.components_of_name (by decide) (by decide) (by decide)
    (by decide))

namespace PageTree

variable {disk : Disk} {output : Path} {base : Location} {page : Page}

/-- The directory of the page is some names below another one, and a write goes down by these
names from the location of that one. -/
def LiesBelow (disk : Disk) (directory : Path) (location : Location) (page : Page) : Prop :=
  ∃ steps : List String, page.directory.components = directory.components ++ steps.map .name ∧
    disk.Enters page.directory (location ++ steps)

mutual

/-- A write to the directory of a page goes down by the names that lead to the page. -/
theorem enters_of_mem_pages (hplain : disk.Plain output base) :
    ∀ (mount : Mount) (directory : Path) (location : Location), mount.PageNames →
    disk.Enters directory location → base <+: location →
    page ∈ (ofMount directory mount).pages → LiesBelow disk directory location page
  | .mk declaration overrides imports children, directory, location, hnames, henters, hbelow,
      hpage => by
    rw [ofMount, pages] at hpage
    rcases List.mem_cons.mp hpage with rfl | hpage
    · exact ⟨[], by simp, by simpa using henters⟩
    · exact enters_of_mem_forest hplain children directory location hnames.1 hnames.2 henters
        hbelow hpage

theorem enters_of_mem_forest (hplain : disk.Plain output base) :
    ∀ (children : List Mount) (directory : Path) (location : Location),
    Mount.NamesOfPages children → Mount.AllPages Mount.NamesOfPages children →
    disk.Enters directory location → base <+: location →
    page ∈ forestPages (forestOf directory children) →
    LiesBelow disk directory location page
  | [], _, _, _, _, _, _, hpage => by simp [forestOf, forestPages] at hpage
  | child :: children, directory, location, hchildren, hall, henters, hbelow, hpage => by
    rw [forestOf, forestPages] at hpage
    rcases List.mem_append.mp hpage with hpage | hpage
    · obtain ⟨name, hname⟩ := isName_of_isPageName (hchildren child List.mem_cons_self)
      obtain ⟨steps, hcomponents, henters⟩ := enters_of_mem_pages hplain child _ _ hall.1
        (henters.join hname fun target => hplain.leadsOn_ne_link hbelow)
        (hbelow.trans (List.prefix_append _ _)) hpage
      refine ⟨name :: steps, ?_, by simpa using henters⟩
      rw [hcomponents, Path.components_join hname]
      simp
    · exact enters_of_mem_forest hplain children directory location
        (fun c hc => hchildren c (List.mem_cons_of_mem _ hc)) hall.2 henters hbelow hpage

end

/-- Where a page is written to, if it can be written, shows the path of its directory. -/
theorem target?_of_mem_pages (hplain : disk.Plain output base) {mount : Mount}
    (hnames : mount.PageNames) (hpage : page ∈ (ofMount output mount).pages) :
    ∃ steps : List String, page.directory.components = output.components ++ steps.map .name ∧
      ∀ found, disk.target? page.file = some found → found = base ++ steps ++ ["index.html"] := by
  obtain ⟨steps, hcomponents, henters⟩ := enters_of_mem_pages hplain mount output base hnames
    hplain.enters (List.prefix_refl _) hpage
  refine ⟨steps, hcomponents, fun found hfound => ?_⟩
  exact Disk.target?_of_enters henters isName_index
    (fun target => hplain.leadsOn_ne_link (List.prefix_append _ _)) hfound

/-- Pages in directories of their own are not written to the same file. -/
theorem nodup_targets (hplain : disk.Plain output base) {mount : Mount} (hnames : mount.PageNames)
    (hapart : ((ofMount output mount).pages.map fun page => page.directory.components).Nodup) :
    ((ofMount output mount).pages.filterMap fun page => disk.target? page.file).Nodup := by
  rw [List.Nodup, List.pairwise_filterMap]
  refine (List.pairwise_map.mp hapart).imp_of_mem ?_
  intro first second hfirst hsecond hne found htarget found' htarget' heq
  obtain ⟨steps, hcomponents, hsteps⟩ := target?_of_mem_pages hplain hnames hfirst
  obtain ⟨steps', hcomponents', hsteps'⟩ := target?_of_mem_pages hplain hnames hsecond
  rw [hsteps found htarget, hsteps' found' htarget'] at heq
  have hsame : steps = steps' := List.append_cancel_left (List.append_cancel_right heq)
  exact hne (by rw [hcomponents, hcomponents', hsame])

end PageTree

/-! ### Writing pages in some order -/

/-- The session after some pages are written one after another, those that cannot be written
being left out. -/
def writeEach (minify : Bool) (writes : List (Page × String)) (session : Session) : Session :=
  writes.foldl (fun session write => ((writePage minify write.1 write.2).run.run session).2) session

theorem run_writePage (minify : Bool) (page : Page) (html : String) (session : Session) :
    ((writePage minify page html).run.run session).2
      = { session with disk := session.disk.put (page.write minify html) } := by
  rw [writePage, Job.within, run_adapt, Files.write, Job.run_change, Disk.put]
  unfold Page.write Page.file
  dsimp only
  cases session.disk.writeBytes (page.directory.join ⟨"index.html"⟩)
      (Text.encodeUtf8 (if minify then Markup.minify html else html)) with
  | ok disk => rfl
  | error error => rfl

/-- A page that has a place to be written to is written. -/
theorem run_writePage_of_target? {page : Page} {session : Session}
    (h : (session.disk.target? page.file).isSome) (minify : Bool) (html : String) :
    (writePage minify page html).run.run session
      = (.ok (), { session with disk := session.disk.put (page.write minify html) }) := by
  obtain ⟨location, htarget⟩ := Option.isSome_iff_exists.mp h
  have hwrite := Disk.writeBytes_of_target? htarget
  rw [Page.file] at hwrite
  rw [writePage, Job.within, run_adapt, Files.write, Job.run_change, hwrite]
  simp only [Disk.put, Page.write, Page.file, hwrite]
  rfl

theorem disk_writeEach (minify : Bool) (writes : List (Page × String)) (session : Session) :
    (writeEach minify writes session).disk
      = session.disk.putAll (writes.map fun write => write.1.write minify write.2) := by
  induction writes generalizing session with
  | nil => rfl
  | cons write writes ih =>
    refine (ih _).trans ?_
    dsimp only
    rw [run_writePage]
    rfl

/-- Writing all pages writes each of them in turn. -/
theorem writeEach_of_writePages {layout : Layout} {pages : Pages .scripted} {minify : Bool}
    {session later : Session} {count : Nat}
    (h : (writePages layout pages minify).run.run session = (.ok count, later)) :
    later = writeEach minify (layout.pages.zip pages.html) session := by
  unfold writePages at h
  split at h
  · cases h
  · obtain ⟨_, last, hloop, hlast⟩ := run_bind_eq_ok h
    cases hlast
    clear h
    generalize layout.pages.zip pages.html = writes at hloop ⊢
    induction writes generalizing session with
    | nil =>
      cases hloop
      rfl
    | cons write writes ih =>
      rw [List.forIn_cons] at hloop
      obtain ⟨_, middle, hfirst, hothers⟩ := run_bind_eq_ok hloop
      obtain ⟨_, _, hwrite, hyield⟩ := run_bind_eq_ok hfirst
      cases hyield
      rw [ih hothers, writeEach, writeEach, List.foldl_cons, hwrite]

/-- Pages that go to different files can be written in any order. -/
theorem get?_writeEach_of_perm {minify : Bool} {writes order : List (Page × String)}
    {session : Session}
    (hapart : (session.disk.targets (writes.map fun write => write.1.write minify write.2)).Nodup)
    (hperm : order.Perm writes) (location : Location) :
    (writeEach minify order session).disk.get? location
      = (writeEach minify writes session).disk.get? location := by
  rw [disk_writeEach, disk_writeEach]
  exact Disk.get?_putAll_of_perm hapart (hperm.map _) location

/-- Only the pages matter for where the writes of a site go. -/
theorem targets_zip_sublist (disk : Disk) (minify : Bool) (pages : List Page)
    (html : List String) :
    (disk.targets ((pages.zip html).map fun write => write.1.write minify write.2)).Sublist
      (pages.filterMap fun page => disk.target? page.file) := by
  induction pages generalizing html with
  | nil => exact List.nil_sublist _
  | cons page pages ih =>
    cases html with
    | nil => exact List.nil_sublist _
    | cons text html =>
      have hfile : disk.target? (page.write minify text).1 = disk.target? page.file := rfl
      simp only [List.zip_cons_cons, List.map_cons, Disk.targets, List.filterMap_cons, hfile]
      cases disk.target? page.file with
      | none => exact ih html
      | some location => exact (ih html).cons_cons location

theorem run_forIn_writePage (minify : Bool) {writes : List (Page × String)} {session : Session}
    (h : ∀ write ∈ writes, (session.disk.target? write.1.file).isSome) :
    (forIn writes PUnit.unit fun write _ =>
        match write with
        | (page, html) => (do
          writePage minify page html
          pure (.yield PUnit.unit) : Job (ForInStep PUnit))).run.run session
      = (.ok PUnit.unit, writeEach minify writes session) := by
  induction writes generalizing session with
  | nil => rfl
  | cons write writes ih =>
    have hwrite := run_writePage_of_target? (h write List.mem_cons_self) minify write.2
    rw [List.forIn_cons, run_bind, run_bind, hwrite, writeEach, List.foldl_cons, hwrite]
    refine ih fun other hother => ?_
    rw [← Disk.target?_congr (Disk.sameFrame_put session.disk _)]
    exact h other (List.mem_cons_of_mem _ hother)

/-- Where every page has a place to be written to, all pages are written. -/
theorem run_writePages {layout : Layout} {pages : Pages .scripted} {session : Session}
    (minify : Bool) (hlength : pages.html.length = layout.pages.length)
    (hplaces : ∀ page ∈ layout.pages, (session.disk.target? page.file).isSome) :
    (writePages layout pages minify).run.run session
      = (.ok pages.html.length, writeEach minify (layout.pages.zip pages.html) session) := by
  have hwrites : ∀ write ∈ layout.pages.zip pages.html,
      (session.disk.target? write.1.file).isSome :=
    fun write hwrite => hplaces write.1 (List.of_mem_zip hwrite).1
  unfold writePages
  rw [if_neg (by simp [hlength]), run_bind]
  rw [run_forIn_writePage minify hwrites]
  rfl

namespace Layout

/-- The directories of the pages of a site denote different paths exactly when the names of the
children of every page do. Then no two pages are written to the same file below an output
directory without links, and writing them in another order leaves the same files. -/
theorem directories_apart_iff {σ : Type} {root : Mount} {output : Path} {registry : Registry σ}
    {start later : Session} {layout : Layout}
    (h : (walk root output registry).run.run start = (.ok layout, later)) :
    ((layout.pages.map fun page => page.directory.components).Nodup ↔ root.ChildrenApart) ∧
      (root.ChildrenApart → ∀ (session : Session) (base : Location),
        session.disk.Plain output base →
        (layout.pages.filterMap fun page => session.disk.target? page.file).Nodup ∧
          ∀ (minify : Bool) (pages : Pages .scripted) (count : Nat) (last : Session),
            (writePages layout pages minify).run.run session = (.ok count, last) →
            ∀ order, order.Perm (layout.pages.zip pages.html) → ∀ location,
              (writeEach minify order session).disk.get? location
                = last.disk.get? location) := by
  obtain ⟨htree, hnames⟩ := pageNames_of_walk h
  have hiff := PageTree.nodup_pages_iff root output hnames
  rw [← htree] at hiff
  refine ⟨hiff, fun hchildren session base hplain => ?_⟩
  have htargets : (layout.pages.filterMap fun page => session.disk.target? page.file).Nodup := by
    have hnodup := PageTree.nodup_targets hplain hnames (htree ▸ hiff.mpr hchildren)
    rwa [← htree] at hnodup
  refine ⟨htargets, fun minify pages count last hwrite order hperm location => ?_⟩
  rw [writeEach_of_writePages hwrite]
  refine get?_writeEach_of_perm ?_ hperm location
  exact htargets.sublist (targets_zip_sublist session.disk minify layout.pages pages.html)

/-! ### A page with two pages below it -/

section Shelf

/-- A page of the shelf. -/
def book (name template : String) : Mount :=
  .mk ⟨name, ⟨template⟩, none, [], [], [], [], none⟩ none [] []

/-- A page with two pages below it, the first of which is `docs`. -/
def shelf (second : String) : Mount :=
  .mk ⟨"index", ⟨"home.html"⟩, none, [], [], [], [], none⟩ none []
    [book "docs" "a.html", book second "b.html"]

/-- A disk with directories only. -/
def folders (locations : List Location) : Disk :=
  ⟨locations.map fun location => (location, .directory), []⟩

theorem names_out : (folders []).Names ⟨"out"⟩ ⟨[], ["out"], false⟩ [] "out" where
  routed := rfl
  reached := Disk.walk.eq_1 ..
  last := rfl
  ne_here := by decide
  ne_up := by decide
  short := by decide

theorem names_below_out {locations : List Location} {path : Path} {name : String} {slash : Bool}
    (hroute : (folders (["out"] :: locations)).route path = .ok ⟨[], ["out", name], slash⟩)
    (hhere : name ≠ ".") (hup : name ≠ "..") (hshort : ¬ Disk.maxName < name.utf8ByteSize) :
    (folders (["out"] :: locations)).Names path ⟨[], ["out", name], slash⟩ ["out"] name where
  routed := hroute
  reached :=
    (Disk.walk_reach_directory (by decide) (by decide) (by decide) rfl).trans
      (Disk.walk.eq_1 ..)
  last := rfl
  ne_here := hhere
  ne_up := hup
  short := hshort

theorem makeDirectories_out :
    (folders []).makeDirectories ⟨"out"⟩ = (none, folders [["out"]]) :=
  Disk.makeDirectories_of_free names_out rfl

theorem makeDirectories_docs :
    (folders [["out"]]).makeDirectories ((Path.mk "out").join ⟨"docs"⟩)
      = (none, folders [["out"], ["out", "docs"]]) := by
  have hplace : (folders [["out"]]).Names ((Path.mk "out").join ⟨"docs"⟩)
      ⟨[], ["out", "docs"], false⟩ ["out"] "docs" :=
    names_below_out rfl (by decide) (by decide) (by decide)
  exact Disk.makeDirectories_of_free hplace rfl

theorem exists_walk_shelf {second : String} {disk : Disk} {registry : Registry Nat}
    (hname : isPageName second = true) (hnew : second ∉ ["docs"])
    (hkey : Key.of second ⟨"b.html"⟩ ∉ [Key.of "docs" ⟨"a.html"⟩, Key.of "index" ⟨"home.html"⟩])
    (hmake : (folders [["out"], ["out", "docs"]]).makeDirectories
      ((Path.mk "out").join ⟨second⟩) = (none, disk))
    (hassign : assignAll (Registry.new sequentialIds 0)
      (scopeOrder (PageTree.ofMount ⟨"out"⟩ (shelf second)).pages []) = .ok registry) :
    ∃ layout, (walk (shelf second) ⟨"out"⟩ (Registry.new sequentialIds 0)).run.run ⟨folders [], []⟩
      = (.ok layout, ⟨disk, []⟩) := by
  have hfirst : (visit ((Path.mk "out").join ⟨(book "docs" "a.html").name⟩)
        (book "docs" "a.html") [Key.of "index" ⟨"home.html"⟩]).run.run ⟨folders [["out"]], []⟩
      = (.ok [Key.of "docs" ⟨"a.html"⟩, Key.of "index" ⟨"home.html"⟩],
        ⟨folders [["out"], ["out", "docs"]], []⟩) :=
    run_visit_leaf (by decide) makeDirectories_docs
  have hsecond : (visit ((Path.mk "out").join ⟨(book second "b.html").name⟩)
        (book second "b.html") [Key.of "docs" ⟨"a.html"⟩, Key.of "index" ⟨"home.html"⟩]).run.run
          ⟨folders [["out"], ["out", "docs"]], []⟩
      = (.ok (Key.of second ⟨"b.html"⟩ :: [Key.of "docs" ⟨"a.html"⟩, Key.of "index" ⟨"home.html"⟩]),
        ⟨disk, []⟩) :=
    run_visit_leaf hkey hmake
  have hvisit : (visit ⟨"out"⟩ (shelf second) []).run.run ⟨folders [], []⟩
      = (.ok [Key.of second ⟨"b.html"⟩, Key.of "docs" ⟨"a.html"⟩, Key.of "index" ⟨"home.html"⟩],
        ⟨disk, []⟩) := by
    rw [shelf, run_visit List.not_mem_nil makeDirectories_out]
    refine (run_visitChildren (by decide) List.not_mem_nil hfirst).trans ?_
    exact run_visitChildren hname hnew hsecond
  rw [walk, run_bind, hvisit]
  dsimp only
  rw [hassign]
  exact ⟨_, rfl⟩

/-- The directories of the shelf `news`. -/
def newsFolders : Disk :=
  folders [["out"], ["out", "docs"], ["out", "news"]]

theorem plain_newsFolders : newsFolders.Plain ⟨"out"⟩ ["out"] where
  leads := (Disk.walk_reach_directory (by decide) (by decide) (by decide) rfl).trans
    (Disk.walk.eq_1 ..)
  unlinked := by
    intro location target _ hne hlink
    cases location with
    | nil => cases hlink
    | cons name rest =>
      obtain ⟨_, _, hentries, -⟩ := List.lookup_eq_some_iff.mp hlink
      have hmem : ((name :: rest : Location), Entry.link target) ∈ newsFolders.entries := by
        simp [hentries]
      simp [newsFolders, folders] at hmem

theorem isSome_target?_newsFolders :
    ∀ page ∈ (PageTree.ofMount ⟨"out"⟩ (shelf "news")).pages,
      (newsFolders.target? page.file).isSome := by
  have hroot : ∀ {path : Path}, newsFolders.route path = .ok ⟨[], ["out", "index.html"], false⟩ →
      (newsFolders.target? path).isSome := by
    intro path hroute
    rw [Disk.target?, Disk.locate, hroute]
    change (Disk.Spot.vacant? (newsFolders.walk .write _ _ _ _)).isSome
    rw [Disk.walk_directory (by decide) (by decide) (by decide) rfl,
      Disk.vacant?_walk_nothing (by decide) (by decide) (by decide) rfl]
    rfl
  have hbook : ∀ {path : Path}, ∀ name ∈ ["docs", "news"],
      newsFolders.route path = .ok ⟨[], ["out", name, "index.html"], false⟩ →
      (newsFolders.target? path).isSome := by
    intro path name hname hroute
    rw [Disk.target?, Disk.locate, hroute]
    change (Disk.Spot.vacant? (newsFolders.walk .write _ _ _ _)).isSome
    simp only [List.mem_cons, List.not_mem_nil, or_false] at hname
    rcases hname with rfl | rfl
    all_goals
      rw [Disk.walk_directory (by decide) (by decide) (by decide) rfl,
        Disk.walk_directory (by decide) (by decide) (by decide) rfl,
        Disk.vacant?_walk_nothing (by decide) (by decide) (by decide) rfl]
      rfl
  intro page hpage
  have hpages : (PageTree.ofMount ⟨"out"⟩ (shelf "news")).pages
      = [⟨shelf "news", ⟨"out"⟩⟩,
        ⟨book "docs" "a.html", (Path.mk "out").join ⟨"docs"⟩⟩,
        ⟨book "news" "b.html", (Path.mk "out").join ⟨"news"⟩⟩] := rfl
  rw [hpages] at hpage
  simp only [List.mem_cons, List.not_mem_nil, or_false] at hpage
  rcases hpage with rfl | rfl | rfl
  · exact hroot rfl
  · exact hbook "docs" (by decide) rfl
  · exact hbook "news" (by decide) rfl

theorem makeDirectories_news :
    (folders [["out"], ["out", "docs"]]).makeDirectories ((Path.mk "out").join ⟨"news"⟩)
      = (none, newsFolders) := by
  have hplace : (folders [["out"], ["out", "docs"]]).Names ((Path.mk "out").join ⟨"news"⟩)
      ⟨[], ["out", "news"], false⟩ ["out"] "news" :=
    names_below_out rfl (by decide) (by decide) (by decide)
  exact Disk.makeDirectories_of_free hplace rfl

theorem exists_walk_news :
    ∃ layout, (walk (shelf "news") ⟨"out"⟩ (Registry.new sequentialIds 0)).run.run
      ⟨folders [], []⟩ = (.ok layout, ⟨newsFolders, []⟩) :=
  exists_walk_shelf (by decide) (by decide) (by decide) makeDirectories_news rfl

theorem childrenApart_news : (shelf "news").ChildrenApart := by
  refine ⟨by decide, ?_, ?_, trivial⟩
  · exact ⟨List.nodup_nil, trivial⟩
  · exact ⟨List.nodup_nil, trivial⟩

/-- The pages of the shelf `news` are written to three files, in any order. -/
theorem news_directories_apart :
    ∃ layout, (walk (shelf "news") ⟨"out"⟩ (Registry.new sequentialIds 0)).run.run
        ⟨folders [], []⟩ = (.ok layout, ⟨newsFolders, []⟩) ∧
      (layout.pages.map fun page => page.directory.components).Nodup ∧
      (layout.pages.filterMap fun page => newsFolders.target? page.file).Nodup ∧
      ∃ last, (writePages layout ⟨["a", "b", "c"]⟩ false).run.run ⟨newsFolders, []⟩
          = (.ok 3, last) ∧
        ∀ location, (writeEach false (layout.pages.zip ["a", "b", "c"]).reverse
            ⟨newsFolders, []⟩).disk.get? location = last.disk.get? location := by
  obtain ⟨layout, hwalk⟩ := exists_walk_news
  have htree := (pageNames_of_walk hwalk).1
  obtain ⟨hiff, horder⟩ := directories_apart_iff hwalk
  obtain ⟨htargets, hwrites⟩ := horder childrenApart_news ⟨newsFolders, []⟩ _ plain_newsFolders
  have hpages : layout.pages = (PageTree.ofMount ⟨"out"⟩ (shelf "news")).pages := by
    rw [Layout.pages, htree]
  have hwrite : (writePages layout ⟨["a", "b", "c"]⟩ false).run.run ⟨newsFolders, []⟩
      = (.ok 3, writeEach false (layout.pages.zip ["a", "b", "c"]) ⟨newsFolders, []⟩) :=
    run_writePages false (by rw [hpages]; rfl) (by rw [hpages]; exact isSome_target?_newsFolders)
  exact ⟨layout, hwalk, hiff.mpr childrenApart_news, htargets, _, hwrite,
    fun location => hwrites false _ _ _ hwrite _ (List.reverse_perm _) location⟩

/-- Two names that denote the same path are let through, and their pages share a directory. -/
theorem docs_directories_shared :
    ∃ layout, (walk (shelf "docs/") ⟨"out"⟩ (Registry.new sequentialIds 0)).run.run
        ⟨folders [], []⟩ = (.ok layout, ⟨folders [["out"], ["out", "docs"]], []⟩) ∧
      ¬ (layout.pages.map fun page => page.directory.components).Nodup := by
  have hdocs : (folders [["out"], ["out", "docs"]]).makeDirectories
      ((Path.mk "out").join ⟨"docs/"⟩) = (none, folders [["out"], ["out", "docs"]]) := by
    have hplace : (folders [["out"], ["out", "docs"]]).Names ((Path.mk "out").join ⟨"docs/"⟩)
        ⟨[], ["out", "docs"], true⟩ ["out"] "docs" :=
      names_below_out rfl (by decide) (by decide) (by decide)
    refine Disk.makeDirectories_of_directory hplace ?_ rfl
    exact (Disk.walk_reach_directory (by decide) (by decide) (by decide) rfl).trans
      ((Disk.walk_reach_directory (by decide) (by decide) (by decide) rfl).trans
        (Disk.walk.eq_1 ..))
  obtain ⟨layout, hwalk⟩ := exists_walk_shelf (by decide) (by decide) (by decide) hdocs rfl
  refine ⟨layout, hwalk, ?_⟩
  obtain ⟨htree, hnames⟩ := pageNames_of_walk hwalk
  rw [Layout.pages, htree, PageTree.nodup_pages_iff _ _ hnames]
  intro hapart
  exact absurd hapart.1 (by decide)

end Shelf

end Layout

end SiteTree
