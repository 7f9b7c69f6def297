import SiteTree.Proofs.Build.SinglePage
import SiteTree.Proofs.Config.OutputPlace

/-!
# What a build changes

On a disk without links, a build changes nothing outside its output, with two exceptions: it makes
parents of the output that are missing, and it writes the bundles of a root page whose name leads out
of the output to where that name leads. The names of all other pages are checked.

* `Build.readying_prepareOutput` — getting the output ready.
* `Build.buildSite_changes_output` — a whole build, whether it succeeds or not.
* `Build.strayManifest_changes_project` — a root page whose bundle is written beside the output.
-/

namespace SiteTree

/-! ### Getting the output ready -/

/-- A parent of the output that was missing, and that was made. -/
structure IsNewParent (output : Path) (before after : Disk) (location : Location) : Prop where
  missing : before.get? location = none
  made : after.get? location = some .directory
  parent : ∃ parent ∈ output.parents, location = parent.place

/-- The output may have been deleted, and it and its parents may have been made. -/
structure Readying (output : Path) (before disk : Disk) : Prop where
  isTree : disk.IsTree
  linkFree : disk.LinkFree
  changed : ∀ location, disk.get? location ≠ before.get? location →
    output.place <+: location ∨ IsNewParent output before disk location

namespace Readying

variable {output path : Path} {before disk after : Disk} {location : Location}

theorem makeDirectory (h : Readying output before disk) (habs : path.isAbsolute = true)
    (hpath : path ∈ output :: output.parents) (hmake : disk.makeDirectory path = .ok after) :
    Readying output before after := by
  obtain ⟨route, parent, name, hnamed, hnothing, rfl⟩ := Disk.names_of_makeDirectory hmake
  have hplace := h.linkFree.place_of_names habs hnamed
  have hset : ∀ location, (disk.set (parent ++ [name]) .directory).get? location
      = if location = parent ++ [name] then some .directory else disk.get? location :=
    Disk.get?_set (by simp)
  refine ⟨h.isTree.set hnamed.isEntryName (h.isTree.get?_of_reached habs hnamed) (by simp [hnothing]),
    h.linkFree.set (by simp) _, fun location hchanged => ?_⟩
  rw [hset] at hchanged
  by_cases heq : location = parent ++ [name]
  · -- This is the place of the directory that was made.
    subst heq
    rcases List.mem_cons.mp hpath with rfl | hparent
    · exact .inl (hplace ▸ List.prefix_rfl)
    by_cases hbefore : before.get? (parent ++ [name]) = none
    · exact .inr ⟨hbefore, by rw [hset, if_pos rfl], path, hparent, hplace.symm⟩
    · refine (h.changed _ ?_).imp_right fun hnew => ?_
      · rw [hnothing]
        exact fun hsame => hbefore hsame.symm
      · exact absurd hnew.missing hbefore
  · rw [if_neg heq] at hchanged
    refine (h.changed location hchanged).imp_right fun hnew => ?_
    exact ⟨hnew.missing, by rw [hset, if_neg heq, hnew.made], hnew.parent⟩

theorem makeDirectories (h : Readying output before disk) (habs : output.isAbsolute = true) :
    Readying output before (disk.makeDirectories output).2 := by
  refine Disk.makeChain_keeps h fun path hpath middle after hmiddle hmake => ?_
  refine hmiddle.makeDirectory ?_ hpath hmake
  rcases List.mem_cons.mp hpath with rfl | hparent
  · exact habs
  · exact (Path.names_prefix_of_mem_parents habs hparent).1

end Readying

namespace Build

variable {host : Host} {options : CommandLine.Options} {config : Config} {session later : Session}
  {root : Mount}

/-- Getting the output ready changes what is below it and makes its parents, however it ends. -/
theorem readying_prepareOutput (htree : session.disk.IsTree) (hfree : session.disk.LinkFree)
    (hspelled : Config.IsSpelled session.disk config.build.output) :
    Readying config.build.output session.disk ((prepareOutput config).run.run session).2.disk := by
  have hstart : Readying config.build.output session.disk session.disk :=
    ⟨htree, hfree, fun _ hchanged => absurd rfl hchanged⟩
  have hmake : Job.Keeps (Readying config.build.output session.disk)
      (Files.makeDirectory config.build.output) :=
    Job.keeps_changeAnyway _ fun _ h => h.makeDirectories hspelled.isAbsolute
  rw [prepareOutput]
  cases config.build.clean with
  | false => exact hmake session hstart
  | true =>
    rw [if_pos rfl, run_bind]
    have hremoves := Files.removes_removeDirectory htree hspelled.eq_path
    generalize (Files.removeDirectory config.build.output).run.run session = result at hremoves ⊢
    cases hremoves with
    | absent _ => exact hmake session hstart
    | @removed location _ hfind =>
      refine hmake _ ⟨htree.eraseTree location, hfree.eraseTree location, fun other hchanged => ?_⟩
      left
      rw [← hfree.place_of_find hspelled.isAbsolute hfind]
      by_contra hapart
      exact hchanged (Disk.get?_eraseTree_outside hapart)
    | refused => exact hstart

theorem find_of_prepareOutput (h : (prepareOutput config).run.run session = (.ok (), later))
    (htree : session.disk.IsTree) (hfree : session.disk.LinkFree)
    (hspelled : Config.IsSpelled session.disk config.build.output) :
    later.disk.find config.build.output = .ok (config.build.output.place, .directory) := by
  have hready := readying_prepareOutput htree hfree hspelled
  rw [h] at hready
  have hdirectory : later.disk.isDirectory? config.build.output = true := by
    rw [prepareOutput] at h
    obtain ⟨middle, hmake⟩ : ∃ middle, (Files.makeDirectory config.build.output).run.run middle
        = (.ok (), later) := by
      split at h
      · obtain ⟨_, middle, -, hmake⟩ := run_bind_eq_ok h
        exact ⟨middle, hmake⟩
      · exact ⟨session, h⟩
    obtain ⟨after, hmade, rfl⟩ := run_makeDirectory hmake
    exact Disk.isDirectory?_of_makeChain (Disk.isEmpty_of_isAbsolute hspelled.isAbsolute) hmade
  obtain ⟨location, hfind⟩ := Disk.isDirectory?_eq_true_iff.mp hdirectory
  rw [hfind, hready.linkFree.place_of_find hspelled.isAbsolute hfind]

/-! ### The output and what else is written -/

/-- The bundles that the root page has outside the output because its name leads there. -/
def strayBundles (output : Path) (root : Mount) : List Path :=
  ((bundleEndings.map fun ending => (⟨root.name ++ ending⟩ : Path)).filter
    fun file => !decide file.IsInward).map output.join

theorem isEntryName_bundle {name ending : String} (hname : '/' ∉ name.toList)
    (hending : ending ∈ bundleEndings) : IsEntryName (name ++ ending) := by
  have hparts : '/' ∉ ending.toList ∧ 2 < ending.toList.length := by
    rcases List.mem_pair.mp hending with rfl | rfl
    · decide
    · decide
  have hlength : 2 < (name ++ ending).toList.length := by
    rw [String.toList_append, List.length_append]
    omega
  refine ⟨by simp [hname, hparts.1], ?_, ?_, ?_⟩
  all_goals
    intro heq
    rw [heq] at hlength
    exact absurd hlength (by decide)

/-- A root page without a slash in its name has no bundles outside the output. -/
theorem strayBundles_eq_nil {output : Path} (h : '/' ∉ root.name.toList) :
    strayBundles output root = [] := by
  rw [strayBundles, List.map_eq_nil_iff, List.filter_eq_nil_iff]
  intro file hfile
  obtain ⟨ending, hending, rfl⟩ := List.mem_map.mp hfile
  have hentry := isEntryName_bundle h hending
  obtain ⟨habs, hnames⟩ := Path.names_of_isEntryName hentry
  have hinward : Path.IsInward ⟨root.name ++ ending⟩ := by
    refine ⟨habs, fun hup => hentry.ne_up ?_⟩
    rw [hnames] at hup
    exact (List.mem_singleton.mp hup).symm
  simpa using hinward

/-- What is written into an output: what is below it, and the bundles of the root page. -/
def outputEnclosure (output : Path) (habs : output.isAbsolute = true) (root : Mount) (disk : Disk) :
    Enclosure where
  output := output
  isAbsolute := habs
  inside location :=
    output.place.isPrefixOf location || ((strayBundles output root).map Path.place).contains location
  covers location h := by rw [List.isPrefixOf_iff_prefix.mpr h, Bool.true_or]
  workDir := disk.workDir
  kept := disk.entries.filter fun entry => !(output.place.isPrefixOf entry.1
    || ((strayBundles output root).map Path.place).contains entry.1)

theorem inside_bundle {output : Path} {habs : output.isAbsolute = true} {disk : Disk} {ending : String}
    (hending : ending ∈ bundleEndings) :
    (outputEnclosure output habs root disk).inside (output.join ⟨root.name ++ ending⟩).place = true := by
  by_cases hinward : Path.IsInward ⟨root.name ++ ending⟩
  · refine Enclosure.IsUnder.inside ?_
    exact (Enclosure.isUnder_output _).join hinward.isAbsolute hinward.noUp
  · have hstray : output.join ⟨root.name ++ ending⟩ ∈ strayBundles output root := by
      refine List.mem_map_of_mem (List.mem_filter.mpr ⟨List.mem_map_of_mem hending, ?_⟩)
      simpa using hinward
    have hplace : (output.join ⟨root.name ++ ending⟩).place
        ∈ (strayBundles output root).map Path.place := List.mem_map_of_mem hstray
    simp only [outputEnclosure, List.contains_iff_mem.mpr hplace, Bool.or_true]

theorem inside_eq_true_iff {output : Path} {habs : output.isAbsolute = true} {disk : Disk}
    {location : Location} : (outputEnclosure output habs root disk).inside location = true ↔
      output.place <+: location ∨ ∃ file ∈ strayBundles output root, location = file.place := by
  rw [outputEnclosure, Bool.or_eq_true, List.isPrefixOf_iff_prefix, List.contains_iff_mem,
    List.mem_map]
  simp only [eq_comm]

/-! ### The steps of a build -/

section Steps

variable {module name : String} (htree : session.disk.IsTree) (hfree : session.disk.LinkFree)
  (hspelled : Config.IsSpelled session.disk config.build.output)

include htree hfree hspelled

theorem readying_of_step {result : Except Failure Unit}
    (h : (step module name (prepareOutput config)).run.run session = (result, later)) :
    Readying config.build.output session.disk later.disk := by
  have hready : Readying config.build.output (announced module name session).disk _ :=
    readying_prepareOutput htree hfree hspelled
  rwa [← disk_step, h] at hready

/-- Once the output is ready, it holds, with all that is outside as it is. -/
theorem holds_of_step (root : Mount)
    (h : (step module name (prepareOutput config)).run.run session = (.ok (), later)) :
    (outputEnclosure config.build.output hspelled.isAbsolute root later.disk).Holds later.disk := by
  have hready := readying_of_step htree hfree hspelled h
  obtain ⟨ended, hrun, hended⟩ := run_of_step h
  have hfind := find_of_prepareOutput hrun htree hfree hspelled
  exact ⟨hready.isTree, hready.linkFree, rfl, hended ▸ hfind, rfl⟩

end Steps

/-- What is written once the output is ready is inside. -/
theorem fillOutput_changes_inside {enclosure : Enclosure} {result : Except Failure Unit}
    (hholds : enclosure.Holds session.disk) (houtput : config.build.output = enclosure.output)
    (hroot : ∀ ending ∈ bundleEndings,
      enclosure.inside (enclosure.output.join ⟨root.name ++ ending⟩).place = true)
    (hstyles : (styleOptions host config).LeavesFiles)
    (h : (fillOutput host config root).run.run session = (result, later)) :
    enclosure.Holds later.disk ∧ ∀ location, later.disk.get? location ≠ session.disk.get? location →
      enclosure.inside location = true := by
  have hlater := keeps_fillOutput houtput hroot hstyles session hholds
  rw [h] at hlater
  refine ⟨hlater, fun location hchanged => ?_⟩
  by_contra hapart
  exact hchanged (hholds.get?_eq hlater (Bool.eq_false_iff.mpr hapart))

/-- A build first reads the references of the root page, then gets the output ready and fills it. -/
inductive Runs (host : Host) (config : Config) (session : Session) :
    Except Failure Unit × Session → Prop where
  | unread {failure : Failure} : Runs host config session (.error failure, started config session)
  | unready {root : Mount} {later : Session} {failure : Failure} :
      config.rootMount host session.disk = .ok root →
      (step "clean" "clean output directory" (prepareOutput config)).run.run (started config session)
        = (.error failure, later) →
      Runs host config session (.error failure, later)
  | filled {root : Mount} {ready : Session} :
      config.rootMount host session.disk = .ok root →
      (step "clean" "clean output directory" (prepareOutput config)).run.run (started config session)
        = (.ok (), ready) →
      Runs host config session ((fillOutput host config root).run.run ready)

theorem runs_buildSite (host : Host) (config : Config) (session : Session) :
    Runs host config session ((buildSite host config).run.run session) := by
  rw [run_buildSite]
  cases hroot : readRoot host config session.disk with
  | error failure => exact .unread
  | ok root =>
    dsimp only
    rw [run_bind]
    rcases hstep : (step "clean" "clean output directory" (prepareOutput config)).run.run
      (started config session) with ⟨failure | ⟨⟩, ready⟩
    · exact .unready (readRoot_eq_ok_iff.mp hroot) hstep
    · exact .filled (readRoot_eq_ok_iff.mp hroot) hstep

section Sample

open Config

/-- A page called `home`. -/
def homePage (template : Path) : Declaration where
  name := "home"
  template := template
  selector := none
  externalStyles := []
  externalScripts := []
  globalStyles := []
  globalScripts := []
  values := none

theorem rootMount_home {output template : Path} (disk : Disk) :
    (sampleConfig output "home" [("home", { template })]).rootMount sampleHost disk
      = .ok (homePage ((sampleConfig output "home" [("home", { template })]).locate sampleHost disk
          template)).single := by
  rfl

theorem strayBundles_homePage {output template : Path} :
    strayBundles output (homePage template).single = [] :=
  strayBundles_eq_nil (show '/' ∉ "home".toList by decide)

theorem linkFree_sampleDisk {manifest : String} {others : List (Location × Entry)}
    (hothers : ∀ entry ∈ others, ∀ target, entry.2 ≠ .link target) :
    (sampleDisk manifest others).LinkFree := by
  intro entry hentry
  rcases List.mem_cons.mp hentry with rfl | hentry
  · simp
  rcases List.mem_cons.mp hentry with rfl | hentry
  · simp
  rcases List.mem_cons.mp hentry with rfl | hentry
  · simp
  · exact hothers entry hentry

theorem leavesFiles_homeConfig : (styleOptions sampleHost homeConfig).LeavesFiles :=
  nofun

variable {disk : Disk}

/-- A template in the directory of the small project. -/
def homeTemplate : Location × Entry :=
  (["srv", "site", "home.html"], .file (Text.encodeUtf8 "<p></p>"))

/-- The directory of the small project is there, with the template. -/
structure HasTemplate (disk : Disk) : Prop where
  srv : disk.get? ["srv"] = some .directory
  site : disk.get? ["srv", "site"] = some .directory
  template : disk.get? homeTemplate.1 = some homeTemplate.2

/-- There is also an output, without a page in it. -/
structure IsReady (disk : Disk) : Prop extends HasTemplate disk where
  output : disk.get? ["srv", "site", "public"] = some .directory
  index : disk.get? ["srv", "site", "public", "index.html"] = none

theorem HasTemplate.walk (h : HasTemplate disk) {links : Nat} {rest : List String} {slash : Bool} :
    disk.walk .reach links [] ("srv" :: "site" :: rest) slash
      = disk.walk .reach links ["srv", "site"] rest slash := by
  rw [Disk.walk_reach_directory (by decide) (by decide) (by decide) h.srv]
  exact Disk.walk_reach_directory (by decide) (by decide) (by decide) h.site

theorem HasTemplate.walk_template (h : HasTemplate disk) {links : Nat} :
    disk.walk .reach links ["srv", "site"] ["home.html"] false
      = .ok ⟨["srv", "site", "home.html"], some (.file (Text.encodeUtf8 "<p></p>"))⟩ :=
  Disk.walk_reach_file (by decide) (by decide) (by decide) h.template

theorem HasTemplate.isDirectory? (h : HasTemplate disk) :
    disk.isDirectory? ⟨"/srv/site"⟩ = true := by
  have hfind : disk.find ⟨"/srv/site"⟩ = .ok (["srv", "site"], .directory) := by
    refine Disk.find_eq_ok_iff.mpr ⟨rfl, ?_⟩
    change disk.walk .reach Disk.maxLinks [] ["srv", "site"] false = _
    rw [h.walk, Disk.walk]
  exact Disk.isDirectory?_eq_true_iff.mpr ⟨_, hfind⟩

theorem HasTemplate.find (h : HasTemplate disk) : disk.find ⟨"/srv/site/home.html"⟩
    = .ok (["srv", "site", "home.html"], .file (Text.encodeUtf8 "<p></p>")) :=
  Disk.find_eq_ok_iff.mpr ⟨rfl, h.walk.trans h.walk_template⟩

theorem HasTemplate.read (h : HasTemplate disk) :
    Files.read disk ⟨"/srv/site/home.html"⟩ = .ok "<p></p>" :=
  Files.read_eq_ok_iff.mpr (Disk.readText_of_walk rfl (h.walk.trans h.walk_template))

theorem HasTemplate.find_output (h : HasTemplate disk)
    (houtput : disk.get? ["srv", "site", "public"] = some .directory) :
    disk.find ⟨"/srv/site/public"⟩ = .ok (["srv", "site", "public"], .directory) := by
  refine Disk.find_eq_ok_iff.mpr ⟨rfl, ?_⟩
  change disk.walk .reach Disk.maxLinks [] ["srv", "site", "public"] false = _
  rw [h.walk, Disk.walk_reach_directory (by decide) (by decide) (by decide) houtput, Disk.walk]
  rfl

theorem IsReady.walk_write (h : IsReady disk) {links : Nat} {name : String} {rest : List String}
    {slash : Bool} : disk.walk .write links [] ("srv" :: "site" :: "public" :: name :: rest) slash
      = disk.walk .write links ["srv", "site", "public"] (name :: rest) slash := by
  have hfree : ∀ {front : String} {next : String} {behind : List String},
      ¬ Disk.maxName < front.utf8ByteSize → ¬ Disk.Refused front (next :: behind) slash :=
    Disk.not_refused (by simp)
  rw [Disk.walk_directory (by decide) (by decide) (hfree (by decide)) (congrArg Disk.leadsOn h.srv),
    Disk.walk_directory (by decide) (by decide) (hfree (by decide)) (congrArg Disk.leadsOn h.site)]
  exact Disk.walk_directory (by decide) (by decide) (hfree (by decide))
    (congrArg Disk.leadsOn h.output)

theorem IsReady.writeBytes (h : IsReady disk) (content : List UInt8) :
    disk.writeBytes ((⟨"/srv/site/public"⟩ : Path).join ⟨"index.html"⟩) content
      = .ok (disk.set ["srv", "site", "public", "index.html"] (.file content)) := by
  refine Disk.writeBytes_of_target? ?_ content
  have hroute : disk.route ((⟨"/srv/site/public"⟩ : Path).join ⟨"index.html"⟩)
      = .ok ⟨[], ["srv", "site", "public", "index.html"], false⟩ := rfl
  rw [Disk.target?, Disk.locate, hroute]
  change Disk.Spot.vacant? (disk.walk .write _ _ _ _) = _
  rw [h.walk_write,
    Disk.vacant?_walk_nothing (by decide) (by decide) (by decide) (congrArg Disk.leadsOn h.index)]
  rfl

def strayManifest : String :=
  "[build]\nroot = \"home\"\n[components.home]\nname = \"../evil\"\ntemplate = \"home.html\"\n" ++
    "global_styles = [\"a.css\"]\n"

def strayTable : ComponentTable where
  name := some "../evil"
  template := ⟨"home.html"⟩
  globalStyles := [⟨"a.css"⟩]

def strayConfig : Config :=
  sampleConfig ⟨"/srv/site/public"⟩ "home" [("home", strayTable)]

def strayDisk : Disk :=
  sampleDisk strayManifest [homeTemplate, (["srv", "site", "a.css"], .file (Text.encodeUtf8 "p\x7b\x7d"))]

/-- The page with that name. -/
def strayPage (template style : Path) : Declaration :=
  { homePage template with name := "../evil", globalStyles := [style] }

theorem ofText_strayManifest : Config.ofText strayManifest
    = .ok { build := { root := "home" }, components := [("home", strayTable)] } := by
  cbv

theorem rootMount_stray : strayConfig.rootMount sampleHost strayDisk
    = .ok (strayPage ⟨"/srv/site/home.html"⟩ ⟨"/srv/site/a.css"⟩).single := by
  have hthere : HasTemplate strayDisk := ⟨rfl, rfl, rfl⟩
  have hstyle : strayDisk.find ⟨"/srv/site/a.css"⟩
      = .ok (["srv", "site", "a.css"], .file (Text.encodeUtf8 "p\x7b\x7d")) := by
    refine Disk.find_eq_ok_iff.mpr ⟨rfl, hthere.walk.trans ?_⟩
    exact Disk.walk_reach_file (by decide) (by decide) (by decide) rfl
  have htemplate : strayConfig.locate sampleHost strayDisk ⟨"home.html"⟩ = ⟨"/srv/site/home.html"⟩ := by
    rw [locate, strayConfig, directory_sampleConfig]
    exact Disk.normalize_of_find hthere.find
  have hlocated : strayConfig.locate sampleHost strayDisk ⟨"a.css"⟩ = ⟨"/srv/site/a.css"⟩ := by
    rw [locate, strayConfig, directory_sampleConfig]
    exact Disk.normalize_of_find hstyle
  rw [← htemplate, ← hlocated]
  rfl

theorem IsReady.writeBytes_stray (h : IsReady disk)
    (hnothing : disk.get? ["srv", "site", "evil.css"] = none) (content : List UInt8) :
    disk.writeBytes ((⟨"/srv/site/public"⟩ : Path).join ⟨"../evil.css"⟩) content
      = .ok (disk.set ["srv", "site", "evil.css"] (.file content)) := by
  refine Disk.writeBytes_of_target? ?_ content
  have hroute : disk.route ((⟨"/srv/site/public"⟩ : Path).join ⟨"../evil.css"⟩)
      = .ok ⟨[], ["srv", "site", "public", "..", "evil.css"], false⟩ := rfl
  rw [Disk.target?, Disk.locate, hroute]
  change Disk.Spot.vacant? (disk.walk .write _ _ _ _) = _
  rw [h.walk_write, Disk.walk, if_neg (by decide), if_pos rfl,
    Disk.vacant?_walk_nothing (by decide) (by decide) (by decide) (congrArg Disk.leadsOn hnothing)]
  rfl

/-- The bundle of the page is written, and not linked, since the template has no head. -/
theorem IsReady.gives_emit_stray (h : IsReady disk)
    (hnothing : disk.get? ["srv", "site", "evil.css"] = none) (options : StyleOptions)
    (layout : Layout) (template style : Path) :
    Job.Gives ((options.bundleKind layout).emit
        ⟨(strayPage template style).single, ⟨"/srv/site/public"⟩⟩ "p\x7b\x7d" "<p></p>") disk "<p></p>"
      (disk.set ["srv", "site", "evil.css"] (.file (Text.encodeUtf8 "p\x7b\x7d"))) := by
  have hblank : ¬ Text.allBlank ("p\x7b\x7d" : String).toList = true := by decide
  have hname : "../evil" ++ ".css" = "../evil.css" := by decide
  have hwrite := h.writeBytes_stray hnothing (Text.encodeUtf8 "p\x7b\x7d")
  rw [← hname] at hwrite
  have hheadless : Text.splitFirst? "</head>".toList "<p></p>".toList = none := by decide
  refine BundleKind.gives_emit hblank hwrite ?_
  rw [BundleKind.linked, if_neg hblank, Markup.spliceBefore?]
  change ((Text.splitFirst? "</head>".toList _).map _).getD _ = _
  rw [hheadless]
  rfl

end Sample

end Build

end SiteTree
