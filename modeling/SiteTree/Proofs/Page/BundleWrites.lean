import SiteTree.Proofs.Files
import SiteTree.Proofs.Page.ScopeHalves

/-!
# Making all bundles

Bundles are made page by page, and each one is written before the next one is read. As long as no
bundle is written over a file that bundles are made of, this makes no difference to their texts.

* `Layout.bundles_eq` — what the style bundles and the script bundles of a site say, and that all of
  them are made when all their files can be read.
-/

namespace SiteTree

open PageTree (Trail)

namespace BundleKind

variable {kind : BundleKind}

/-! ### One bundle -/

/-- The file that the bundle of a page is written to. -/
def file (kind : BundleKind) (page : Page) : Path :=
  page.directory.join ⟨kind.fileName page.name⟩

/-- What is written for a bundle: nothing if it is blank. -/
def write? (kind : BundleKind) (page : Page) (text : String) : Option (Path × List UInt8) :=
  if Text.allBlank text.toList then none else some (kind.file page, Text.encodeUtf8 text)

/-- A page with the link to its bundle, if there is one and the page has a place for the link. -/
def linked (kind : BundleKind) (page : Page) (text html : String) : String :=
  if Text.allBlank text.toList then html
  else (Markup.spliceBefore? html kind.anchor (kind.tag page.name)).getD html

/-- A bundle that has a place to be written to is written, and linked if the page can take it. -/
theorem run_emit {page : Page} {session : Session}
    (h : (session.disk.target? (kind.file page)).isSome) (text html : String) :
    ∃ console, (kind.emit page text html).run.run session
      = (.ok (kind.linked page text html),
        ⟨session.disk.putAll (kind.write? page text).toList, console⟩) := by
  unfold emit linked write?
  split
  · exact ⟨session.console, rfl⟩
  · obtain ⟨location, htarget⟩ := Option.isSome_iff_exists.mp h
    have hwrite := Disk.writeBytes_of_target? htarget (Text.encodeUtf8 text)
    have hput : session.disk.putAll [(kind.file page, Text.encodeUtf8 text)]
        = session.disk.set location (.file (Text.encodeUtf8 text)) := by
      simp [Disk.putAll, Disk.put, hwrite, Except.toOption]
    have hrun : (Files.write (kind.file page) text).run.run session
        = (.ok (), { session with
            disk := session.disk.putAll [(kind.file page, Text.encodeUtf8 text)] }) := by
      rw [Files.write, Job.run_change, hwrite, hput]
    dsimp only
    rw [← file, run_bind, hrun]
    cases hlink : Markup.spliceBefore? html kind.anchor (kind.tag page.name) with
    | some linked => exact ⟨session.console, rfl⟩
    | none => exact ⟨_, rfl⟩

/-! ### Bundles one after the other -/

/-- The files that the bundle at the end of a trail is made of. -/
def sources (kind : BundleKind) (files : Mount → List Path) (trail : Trail) : List Path :=
  trail.pages.flatMap kind.globals ++ (trail.page.mount.visited kind.follows).flatMap files

/-- All bundles can be written, and none is written over a file that bundles are made of. -/
structure Writable (kind : BundleKind) (files : Mount → List Path) (trails : List Trail)
    (disk : Disk) : Prop where
  target : ∀ trail ∈ trails, (disk.target? (kind.file trail.page)).isSome
  apart : ∀ trail ∈ trails, ∀ other ∈ trails, ∀ source ∈ kind.sources files other,
    disk.target? source ≠ disk.target? (kind.file trail.page)

/-- Bundles that are not there yet are not what bundles are made of. -/
theorem writable_of_new {files : Mount → List Path} {trails : List Trail} {disk : Disk}
    (hnew : ∀ trail ∈ trails, ∃ location,
      disk.target? (kind.file trail.page) = some location ∧ disk.get? location = none)
    (hread : ∀ trail ∈ trails, ∀ source ∈ kind.sources files trail,
      ∃ text, Files.read disk source = .ok text) :
    kind.Writable files trails disk := by
  constructor
  · intro trail htrail
    obtain ⟨location, htarget, -⟩ := hnew trail htrail
    rw [htarget]
    rfl
  · intro trail htrail other hother source hsource heq
    obtain ⟨location, htarget, hfree⟩ := hnew trail htrail
    obtain ⟨text, htext⟩ := hread other hother source hsource
    obtain ⟨content, hcontent, -⟩ := Disk.readText_eq_ok_iff.mp (Files.read_eq_ok_iff.mp htext)
    obtain ⟨found, hfound, hfile⟩ := Disk.readBytes_eq_ok_iff.mp hcontent
    rw [hfound, htarget] at heq
    cases heq
    rw [hfree] at hfile
    cases hfile

theorem Writable.putAll {files : Mount → List Path} {trails : List Trail} {disk : Disk}
    (h : kind.Writable files trails disk) (writes : List (Path × List UInt8)) :
    kind.Writable files trails (disk.putAll writes) := by
  constructor
  · intro trail htrail
    rw [Disk.target?_putAll]
    exact h.target trail htrail
  · intro trail htrail other hother source hsource
    rw [Disk.target?_putAll, Disk.target?_putAll]
    exact h.apart trail htrail other hother source hsource

theorem Writable.tail {files : Mount → List Path} {trail : Trail} {trails : List Trail}
    {disk : Disk} (h : kind.Writable files (trail :: trails) disk) :
    kind.Writable files trails disk where
  target other hother := h.target other (List.mem_cons_of_mem _ hother)
  apart other hother third hthird :=
    h.apart other (List.mem_cons_of_mem _ hother) third (List.mem_cons_of_mem _ hthird)

section Reads

variable {files : Mount → List Path} {own : Disk → Mount → Except Failure String}

theorem Reads.toOption_text (h : kind.Reads files own) {first second : Disk} {trail : Trail}
    (hsame : ∀ source ∈ kind.sources files trail,
      (Files.read first source).toOption = (Files.read second source).toOption) :
    (kind.text own first trail).toOption = (kind.text own second trail).toOption := by
  have hshared : (Files.readAll first (trail.pages.flatMap kind.globals)).toOption
      = (Files.readAll second (trail.pages.flatMap kind.globals)).toOption :=
    Files.toOption_readAll fun source hsource => hsame source (List.mem_append_left _ hsource)
  have htexts : ((trail.page.mount.visited kind.follows).mapM (own first)).toOption
      = ((trail.page.mount.visited kind.follows).mapM (own second)).toOption := by
    refine toOption_mapM_congr fun mount hmount => h.only fun source hsource => ?_
    exact hsame source (List.mem_append_right _ (List.mem_flatMap.mpr ⟨mount, hmount, hsource⟩))
  simp only [text, toOption_bind, hshared, htexts]

/-- A bundle that is written leaves the texts of the others as they are. -/
theorem Reads.toOption_text_putAll (h : kind.Reads files own) {disk : Disk} {trail other : Trail}
    {trails : List Trail} (hwritable : kind.Writable files trails disk) (htrail : trail ∈ trails)
    (hother : other ∈ trails) (text : String) :
    (kind.text own (disk.putAll (kind.write? trail.page text).toList) other).toOption
      = (kind.text own disk other).toOption := by
  refine h.toOption_text fun source hsource => Files.toOption_read_putAll fun write hwrite => ?_
  rw [Option.mem_toList, write?] at hwrite
  split at hwrite
  · cases hwrite
  · cases hwrite
    exact hwritable.apart trail htrail other hother source hsource

theorem run_make (trail : Trail) (html : String) (session : Session) :
    (kind.make (kind.text own) trail html).run.run session
      = match kind.text own session.disk trail with
        | .ok text => (kind.emit trail.page text html).run.run session
        | .error failure => (.error failure, session) := by
  rw [make, run_bind, Job.run_reading]
  cases kind.text own session.disk trail with
  | error failure => rfl
  | ok text => rfl

variable {items : List (Trail × String)}

theorem Reads.toOption_texts_putAll (h : kind.Reads files own) {disk : Disk} {item : Trail × String}
    (hwritable : kind.Writable files ((item :: items).map Prod.fst) disk) (text : String) :
    (items.mapM fun other => kind.text own
        (disk.putAll (kind.write? item.1.page text).toList) other.1).toOption
      = (items.mapM fun other => kind.text own disk other.1).toOption :=
  toOption_mapM_congr fun _ hother => h.toOption_text_putAll hwritable
    (List.mem_map_of_mem List.mem_cons_self)
    (List.mem_map_of_mem (List.mem_cons_of_mem _ hother)) text

/-- Where the texts of all bundles can be read, all of them are made. -/
theorem Reads.run_make_ok (h : kind.Reads files own) (session : Session) {texts : List String}
    (hwritable : kind.Writable files (items.map Prod.fst) session.disk)
    (htexts : (items.mapM fun item => kind.text own session.disk item.1) = .ok texts) :
    ∃ console, (items.mapM fun item => kind.make (kind.text own) item.1 item.2).run.run session
      = (.ok ((items.zip texts).map fun made => kind.linked made.1.1.page made.2 made.1.2),
        ⟨session.disk.putAll ((items.zip texts).filterMap
          fun made => kind.write? made.1.1.page made.2), console⟩) := by
  induction items generalizing session texts with
  | nil =>
    cases htexts
    exact ⟨session.console, rfl⟩
  | cons item items ih =>
    rw [List.mapM_cons] at htexts
    obtain ⟨text, htext, hrest⟩ := exists_of_bind_eq_ok htexts
    obtain ⟨others, hothers, hlast⟩ := exists_of_bind_eq_ok hrest
    cases hlast
    obtain ⟨middle, hemit⟩ := run_emit (hwritable.target item.1 List.mem_cons_self) text item.2
    -- The other texts are read from the disk on which the first bundle stands already.
    have hlater := h.toOption_texts_putAll hwritable text
    rw [hothers] at hlater
    obtain ⟨console, hrun⟩ := ih ⟨session.disk.putAll (kind.write? item.1.page text).toList, middle⟩
      (hwritable.tail.putAll _) (toOption_eq_some_iff.mp hlater)
    refine ⟨console, ?_⟩
    rw [List.mapM_cons, run_bind, run_make, htext]
    dsimp only
    rw [hemit]
    dsimp only
    rw [run_bind, hrun, List.zip_cons_cons, List.map_cons, List.filterMap_cons]
    cases kind.write? item.1.page text with
    | none => rfl
    | some write => rfl

/-- Where the text of one bundle cannot be read, bundling fails. -/
theorem Reads.run_make_error (h : kind.Reads files own) (session : Session) {failure : Failure}
    (hwritable : kind.Writable files (items.map Prod.fst) session.disk)
    (htexts : (items.mapM fun item => kind.text own session.disk item.1) = .error failure) :
    ∃ failure later, (items.mapM fun item =>
      kind.make (kind.text own) item.1 item.2).run.run session = (.error failure, later) := by
  induction items generalizing session failure with
  | nil => cases htexts
  | cons item items ih =>
    rw [List.mapM_cons] at htexts
    rw [List.mapM_cons, run_bind, run_make]
    cases htext : kind.text own session.disk item.1 with
    | error failure => exact ⟨failure, session, rfl⟩
    | ok text =>
      obtain ⟨middle, hemit⟩ := run_emit (hwritable.target item.1 List.mem_cons_self) text item.2
      have hlater := h.toOption_texts_putAll hwritable text
      rw [htext] at htexts
      dsimp only
      rw [hemit]
      dsimp only
      rw [run_bind]
      cases hothers : items.mapM fun other => kind.text own session.disk other.1 with
      | ok others =>
        rw [hothers] at htexts
        cases htexts
      | error failure =>
        rw [hothers] at hlater
        obtain ⟨failure, hmiddle⟩ := exists_error_of_toOption hlater
        obtain ⟨failure, later, hrun⟩ :=
          ih ⟨session.disk.putAll (kind.write? item.1.page text).toList, middle⟩
            (hwritable.tail.putAll _) hmiddle
        rw [hrun]
        exact ⟨failure, later, rfl⟩

end Reads

end BundleKind

/-! ### The bundles of a site -/

namespace Layout

/-- What a component brings along to a style bundle. -/
def ownStyles (layout : Layout) (disk : Disk) (mount : Mount) : Except Failure String := do
  if mount.declaration.externalStyles.isEmpty then return ""
  else
    let css ← Files.readAll disk mount.declaration.externalStyles
    return Stylesheet.scope css (← layout.scope mount.key).className

/-- The style bundle at the end of a trail: the global styles of the pages on the way, and behind
them the styles of the component and of what it embeds by imports with a tag, each once and scoped
to the component. -/
def styleText (layout : Layout) (disk : Disk) (trail : Trail) : Except Failure String := do
  let shared ← Files.readAll disk (trail.pages.flatMap fun page => page.declaration.globalStyles)
  let texts ← (trail.page.mount.visited followTags).mapM (layout.ownStyles disk)
  return shared ++ String.join texts

/-- The script bundle at the end of a trail: the global scripts of the pages on the way, and behind
them the scripts of the component and of all that it imports, each once and as they are. -/
def scriptText (disk : Disk) (trail : Trail) : Except Failure String := do
  let shared ← Files.readAll disk (trail.pages.flatMap fun page => page.declaration.globalScripts)
  let texts ← (trail.page.mount.visited Mount.followAll).mapM fun mount =>
    Files.readAll disk mount.declaration.externalScripts
  return shared ++ String.join texts

theorem reads_styles (layout : Layout) :
    (StyleOptions.bundleKind {} layout).Reads (fun mount => mount.declaration.externalStyles)
      layout.ownStyles where
  own_eq mount := by
    change StyleOptions.scopedStyles {} layout mount = _
    unfold StyleOptions.scopedStyles ownStyles
    split
    · exact Job.pure_eq_reading ""
    · have hcss : StyleOptions.preprocessed {} mount
          = Job.reading fun disk => Files.readAll disk mount.declaration.externalStyles := by
        rw [StyleOptions.preprocessed, Job.reading]
        simp only [bind_pure]
      have hscope : Job.ofExcept (layout.scope mount.key)
          = Job.reading fun _ => layout.scope mount.key :=
        Job.ext fun session => by rw [Job.run_ofExcept, Job.run_reading]
      simp only [hcss, hscope, Job.pure_eq_reading, Job.reading_bind]
      rfl
  only hsame := by
    unfold ownStyles
    split
    · rfl
    · rw [toOption_bind, toOption_bind, Files.toOption_readAll hsame]
  transform _ _ := rfl

theorem reads_scripts (position : Config.ScriptPosition) :
    (ScriptOptions.bundleKind { position }).Reads (fun mount => mount.declaration.externalScripts)
      fun disk mount => Files.readAll disk mount.declaration.externalScripts where
  own_eq _ := rfl
  only hsame := Files.toOption_readAll hsame
  transform _ _ := rfl

/-- The bundles of a kind have the texts given. -/
structure Bundles (layout : Layout) (kind : BundleKind) (files : Mount → List Path)
    (text : Disk → Trail → Except Failure String) (job : List String → Job (List String)) :
    Prop where
  /-- Each bundle is made of the text that it has when it is its turn. -/
  each : ∀ html, html.length = layout.pages.length →
    job html = (layout.tree.trails.zip html).mapM fun item => kind.make text item.1 item.2
  /-- All bundles are made of the texts that they have at the beginning, if all can be read. -/
  all : ∀ html session texts, html.length = layout.pages.length →
    kind.Writable files layout.tree.trails session.disk →
    layout.tree.trails.mapM (text session.disk) = .ok texts →
    ∃ console, (job html).run.run session
      = (.ok (((layout.tree.trails.zip html).zip texts).map
            fun made => kind.linked made.1.1.page made.2 made.1.2),
        ⟨session.disk.putAll (((layout.tree.trails.zip html).zip texts).filterMap
            fun made => kind.write? made.1.1.page made.2), console⟩)
  /-- It fails if one of them cannot be read. -/
  unread : ∀ html session failure, html.length = layout.pages.length →
    kind.Writable files layout.tree.trails session.disk →
    layout.tree.trails.mapM (text session.disk) = .error failure →
    ∃ failure later, (job html).run.run session = (.error failure, later)

theorem map_fst_zip_trails {layout : Layout} {html : List String}
    (hcount : html.length = layout.pages.length) :
    (layout.tree.trails.zip html).map Prod.fst = layout.tree.trails := by
  refine List.map_fst_zip (Nat.le_of_eq ?_)
  rw [hcount, pages, ← PageTree.map_page_trails, List.length_map]

theorem bundles_of_reads {kind : BundleKind} {files : Mount → List Path}
    {own : Disk → Mount → Except Failure String} (h : kind.Reads files own) (layout : Layout) :
    layout.Bundles kind files (kind.text own) (kind.bundlePages layout) := by
  refine ⟨fun html hcount => h.bundlePages_eq hcount, ?_, ?_⟩
  · intro html session texts hcount hwritable htexts
    rw [← map_fst_zip_trails hcount] at hwritable htexts
    rw [List.mapM_map] at htexts
    rw [h.bundlePages_eq hcount]
    exact h.run_make_ok session hwritable htexts
  · intro html session failure hcount hwritable htexts
    rw [← map_fst_zip_trails hcount] at hwritable htexts
    rw [List.mapM_map] at htexts
    rw [h.bundlePages_eq hcount]
    exact h.run_make_error session hwritable htexts

/-- What the bundles of a site say. A style bundle is made of the global styles of the pages from
the root down to its page, and the scoped styles of what the page embeds; a script bundle is made of
the global scripts on that way, and the scripts of all that the page imports. Components are taken
in the order in which they are met, each the first time only. All bundles are made if they can be
written beside the files they are made of and these can be read. -/
theorem bundles_eq (layout : Layout) (position : Config.ScriptPosition) :
    layout.Bundles (StyleOptions.bundleKind {} layout)
      (fun mount => mount.declaration.externalStyles) layout.styleText
      (fun html => Pages.html <$> bundleStyles {} layout ⟨html⟩) ∧
    layout.Bundles (ScriptOptions.bundleKind { position })
      (fun mount => mount.declaration.externalScripts) scriptText
      (fun html => Pages.html <$> bundleScripts { position } layout ⟨html⟩) ∧
    layout.tree.trails.map Trail.page = layout.pages ∧
    (∀ pages, (∃ trail ∈ layout.tree.trails, trail.pages = pages) ↔ layout.tree.Leads pages) ∧
    ∀ (follows : Mount → Bool) (root mount : Mount), root.KeysIdentify → root.Reaches mount →
      mount.visited follows = Mount.firsts (mount.unfolded follows) [] := by
  have hstyles : (fun html => Pages.html <$> bundleStyles {} layout ⟨html⟩)
      = (StyleOptions.bundleKind {} layout).bundlePages layout := by
    funext html
    simp [bundleStyles]
  have hscripts : (fun html => Pages.html <$> bundleScripts { position } layout ⟨html⟩)
      = (ScriptOptions.bundleKind { position }).bundlePages layout := by
    funext html
    simp [bundleScripts]
  rw [hstyles, hscripts]
  exact ⟨bundles_of_reads (reads_styles layout) layout,
    bundles_of_reads (reads_scripts position) layout, PageTree.map_page_trails layout.tree,
    fun pages => PageTree.mem_trails_iff,
    fun follows root mount hkeys hreaches => Mount.firstMet_eq_firsts hkeys hreaches⟩

section Gallery

theorem target?_gallery : galleryDisk.target? ⟨"out/index.css"⟩ = some ["out", "index.css"] := by
  have hroute : galleryDisk.route ⟨"out/index.css"⟩ = .ok ⟨[], ["out", "index.css"], false⟩ := rfl
  rw [Disk.target?, Disk.locate, hroute]
  change Disk.Spot.vacant? (galleryDisk.walk .write _ _ _ _) = _
  rw [Disk.walk_directory (by decide) (by decide) (by decide) rfl,
    Disk.vacant?_walk_nothing (by decide) (by decide) (by decide) rfl]
  rfl

theorem readAll_gallery {path : Path} {text : String}
    (h : Files.read galleryDisk path = .ok text) :
    Files.readAll galleryDisk [path] = .ok text := by
  rw [Files.readAll, List.mapM_cons, h]
  change Except.ok (String.join [text]) = _
  rw [String.join_cons, String.join_nil, String.append_empty]

theorem read_reset : Files.read galleryDisk ⟨"/reset.css"⟩ = .ok "i {}" :=
  read_galleryDisk rfl (by decide) (by decide) (by decide) rfl

theorem read_cardStyles : Files.read galleryDisk ⟨"/card.css"⟩ = .ok "p {}" :=
  read_galleryDisk rfl (by decide) (by decide) (by decide) rfl

theorem read_badgeStyles : Files.read galleryDisk ⟨"/badge.css"⟩ = .ok "b {}" :=
  read_galleryDisk rfl (by decide) (by decide) (by decide) rfl

theorem styleText_gallery :
    galleryLayout.styleText galleryDisk ⟨[], ⟨gallery, ⟨"out"⟩⟩⟩
      = .ok "i {}p.-q1 {}b.-q2 {}" := by
  have hshared : Files.readAll galleryDisk
      ((Trail.pages ⟨[], ⟨gallery, ⟨"out"⟩⟩⟩).flatMap fun page => page.declaration.globalStyles)
        = .ok "i {}" :=
    readAll_gallery read_reset
  have hcard : galleryLayout.ownStyles galleryDisk card = .ok "p.-q1 {}" := by
    change (Files.readAll galleryDisk [⟨"/card.css"⟩] >>= _) = _
    rw [readAll_gallery read_cardStyles]
    rfl
  have hbadge : galleryLayout.ownStyles galleryDisk badge = .ok "b.-q2 {}" := by
    change (Files.readAll galleryDisk [⟨"/badge.css"⟩] >>= _) = _
    rw [readAll_gallery read_badgeStyles]
    rfl
  have hown : (gallery.visited followTags).mapM (galleryLayout.ownStyles galleryDisk)
      = .ok ["", "p.-q1 {}", "b.-q2 {}"] := by
    rw [visited_gallery, List.mapM_cons, List.mapM_cons, List.mapM_cons, hcard, hbadge]
    rfl
  rw [styleText, hshared]
  change ((gallery.visited followTags).mapM (galleryLayout.ownStyles galleryDisk) >>= _) = _
  rw [hown]
  rfl

/-- The style bundle of the gallery has the styles of the badge once, behind those of the card. -/
theorem gallery_bundled :
    ∃ console, (Pages.html <$> bundleStyles {} galleryLayout ⟨["<head></head>"]⟩).run.run
        ⟨galleryDisk, []⟩
      = (.ok ["<head><link rel=\"stylesheet\" href=\"index.css\"></head>"],
        ⟨galleryDisk.putAll [(⟨"out/index.css"⟩, Text.encodeUtf8 "i {}p.-q1 {}b.-q2 {}")],
          console⟩) := by
  have htrails : galleryLayout.tree.trails = [⟨[], ⟨gallery, ⟨"out"⟩⟩⟩] := rfl
  have hwritable : (StyleOptions.bundleKind {} galleryLayout).Writable
      (fun mount => mount.declaration.externalStyles) galleryLayout.tree.trails galleryDisk := by
    refine BundleKind.writable_of_new ?_ ?_
    · intro trail htrail
      rw [htrails] at htrail
      rw [List.mem_singleton.mp htrail]
      exact ⟨["out", "index.css"], target?_gallery, rfl⟩
    · intro trail htrail source hsource
      rw [htrails] at htrail
      rw [List.mem_singleton.mp htrail] at hsource
      have hsources : BundleKind.sources (StyleOptions.bundleKind {} galleryLayout)
          (fun mount => mount.declaration.externalStyles) ⟨[], ⟨gallery, ⟨"out"⟩⟩⟩
            = ⟨"/reset.css"⟩ :: (gallery.visited followTags).flatMap
                fun mount => mount.declaration.externalStyles := rfl
      rw [hsources, visited_gallery] at hsource
      have hmem : source ∈ [⟨"/reset.css"⟩, ⟨"/card.css"⟩, ⟨"/badge.css"⟩] := hsource
      simp only [List.mem_cons, List.not_mem_nil, or_false] at hmem
      rcases hmem with rfl | rfl | rfl
      · exact ⟨_, read_reset⟩
      · exact ⟨_, read_cardStyles⟩
      · exact ⟨_, read_badgeStyles⟩
  have htexts : galleryLayout.tree.trails.mapM (galleryLayout.styleText galleryDisk)
      = .ok ["i {}p.-q1 {}b.-q2 {}"] := by
    rw [htrails, List.mapM_cons, styleText_gallery]
    rfl
  exact (bundles_eq galleryLayout .body).1.all ["<head></head>"] ⟨galleryDisk, []⟩ _ rfl hwritable
    htexts

end Gallery

end Layout

end SiteTree
