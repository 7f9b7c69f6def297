import SiteTree.Proofs.Disk.Directories
import SiteTree.Proofs.Disk.Tree
import SiteTree.Proofs.Outcome
import SiteTree.Run

/-!
# Configurations that a run is prepared with

A configuration that a run goes on with was read from a file, whose canonical path it has. Its
output is spelled with the canonical path of what is there, or else with an absolute path that leads
nowhere, and the directory of the configuration is not below it as far as the spelling tells.

* `isLoaded_of_prepare` — what is known of such a configuration.
-/

namespace SiteTree.Config

variable {host : Host} {disk : Disk} {config : Config} {options : CommandLine.Options}

/-! ### Loading -/

theorem exists_of_load {path : Path} (h : load host disk path = .ok config) :
    ∃ text read, disk.readText path = .ok text ∧ Config.ofText text = .ok read ∧
      config = ({ read with path := disk.normalize path } : Config).withLocatedPaths host disk := by
  rw [load] at h
  cases htext : disk.readText path with
  | error error =>
    rw [htext] at h
    cases h
  | ok text =>
    rw [htext] at h
    cases hread : Config.ofText text with
    | error failure =>
      simp only [pure_bind, hread] at h
      cases h
    | ok read =>
      simp only [pure_bind, hread] at h
      exact ⟨text, read, rfl, hread, (Except.ok.inj h).symm⟩

theorem exists_of_prepare (h : Run.prepare host disk options = .ok config) :
    ∃ loaded, load host disk (Run.configPath options) = .ok loaded ∧
      config = loaded.override host disk options.overrides ∧ config.validate host disk = .ok () := by
  rw [Run.prepare] at h
  obtain ⟨loaded, hload, h⟩ := exists_of_bind_eq_ok h
  obtain ⟨⟨⟩, hvalid, h⟩ := exists_of_bind_eq_ok h
  cases h
  exact ⟨loaded, hload, rfl, hvalid⟩

theorem startsWith_of_validate (h : config.validate host disk = .ok ()) :
    config.directory.startsWith config.build.output = false := by
  rw [validate] at h
  dsimp only at h
  split at h
  · cases h
  split at h
  · cases h
  split at h
  · cases h
  next hstarts => exact Bool.eq_false_iff.mpr hstarts

/-- Without assets and without a preprocessor, nothing else is checked. -/
theorem validate_eq_ok (hexists : disk.exists? config.path = true)
    (hroot : (config.components.lookup config.build.root).isNone = false)
    (hapart : config.directory.startsWith config.build.output = false)
    (hassets : config.build.assets = none)
    (hstyles : config.build.styles.preprocessing = .nothing) :
    config.validate host disk = .ok () := by
  rw [validate]
  dsimp only
  rw [hexists, hroot, hapart, hassets, checkCommand, hstyles]
  rfl

/-! ### Spelling -/

/-- A path as it is written in the configuration, made absolute. -/
def written (config : Config) (host : Host) (path : Path) : Path :=
  let path := path.expandHome host.home
  if path.isAbsolute then path else config.directory.join path

theorem locate_eq (config : Config) (host : Host) (disk : Disk) (path : Path) :
    config.locate host disk path = disk.normalize (config.written host path) :=
  rfl

theorem isAbsolute_written (hdirectory : config.directory.isAbsolute = true) (host : Host)
    (path : Path) : (config.written host path).isAbsolute = true := by
  rw [written]
  split
  · assumption
  · exact Path.isAbsolute_join hdirectory

/-- Is the path that of the location it leads to, if it leads anywhere? -/
structure IsSpelled (disk : Disk) (path : Path) : Prop where
  isAbsolute : path.isAbsolute = true
  eq_path : ∀ location entry, disk.find path = .ok (location, entry) → path = location.path

theorem isSpelled_normalize (htree : disk.IsTree) {path : Path} (h : path.isAbsolute = true) :
    IsSpelled disk (disk.normalize path) := by
  cases hfind : disk.find path with
  | error error =>
    rw [Disk.normalize_of_error h hfind]
    refine ⟨h, fun location entry hfound => ?_⟩
    rw [hfind] at hfound
    cases hfound
  | ok found =>
    obtain ⟨location, entry⟩ := found
    obtain ⟨hentry, hlink⟩ := htree.get?_of_find h hfind
    rw [Disk.normalize_of_find hfind]
    refine ⟨location.isAbsolute_path, fun other found hfound => ?_⟩
    obtain ⟨rfl, -⟩ := Prod.mk.inj (htree.find_path hentry hlink hfound)
    rfl

theorem isSpelled_locate (host : Host) (htree : disk.IsTree)
    (hdirectory : config.directory.isAbsolute = true) (path : Path) :
    IsSpelled disk (config.locate host disk path) := by
  rw [locate_eq]
  exact isSpelled_normalize htree (isAbsolute_written hdirectory host path)

/-! ### What is loaded -/

/-- A configuration that was read from a file in the directory `project`. -/
structure IsLoaded (disk : Disk) (config : Config) (project : Location) (name : String) :
    Prop where
  file : ∃ content, disk.get? (project ++ [name]) = some (.file content)
  path : config.path = Location.path (project ++ [name])
  directory : config.directory = project.path
  isEntryName : ∀ other ∈ project, IsEntryName other
  output : IsSpelled disk config.build.output
  apart : project.path.startsWith config.build.output = false

theorem path_withLocatedPaths (config : Config) (host : Host) (disk : Disk) :
    (config.withLocatedPaths host disk).path = config.path := by
  rw [withLocatedPaths]

theorem path_override (config : Config) (host : Host) (disk : Disk) (overrides : Overrides) :
    (config.override host disk overrides).path = config.path := by
  rw [override]

theorem directory_override (config : Config) (host : Host) (disk : Disk) (overrides : Overrides) :
    ((config.withLocatedPaths host disk).override host disk overrides).directory
      = config.directory := by
  rw [directory, path_override, path_withLocatedPaths, directory]

theorem directory_of_path {project : Location} {name : String}
    (hnames : ∀ other ∈ project ++ [name], IsEntryName other)
    (hpath : config.path = Location.path (project ++ [name])) :
    config.directory = Location.path project := by
  rw [directory, hpath, Location.parent?_path hnames]
  rfl

theorem output_withLocatedPaths (config : Config) (host : Host) (disk : Disk) :
    (config.withLocatedPaths host disk).build.output
      = config.locate host disk config.build.output := by
  rw [withLocatedPaths]

theorem output_override (config : Config) (host : Host) (disk : Disk) (overrides : Overrides) :
    (config.override host disk overrides).build.output
      = (overrides.output.map (config.locate host disk)).getD config.build.output := by
  rw [override]

theorem isSpelled_override (host : Host) (htree : disk.IsTree)
    (hdirectory : config.directory.isAbsolute = true) (overrides : Overrides) :
    IsSpelled disk ((config.withLocatedPaths host disk).override host disk overrides).build.output := by
  rw [output_override]
  cases overrides.output with
  | none =>
    rw [Option.map_none, Option.getD_none, output_withLocatedPaths]
    exact isSpelled_locate host htree hdirectory config.build.output
  | some output =>
    rw [Option.map_some, Option.getD_some]
    refine isSpelled_locate host htree ?_ output
    rw [directory, path_withLocatedPaths]
    exact hdirectory

/-- The project is not below its output. -/
theorem IsLoaded.not_prefix {project location : Location} {name : String} {entry : Entry}
    (h : IsLoaded disk config project name) (htree : disk.IsTree)
    (hfind : disk.find config.build.output = .ok (location, entry)) : ¬ location <+: project := by
  have hnames := htree.isEntryName_of_get? (htree.get?_of_find h.output.isAbsolute hfind).1
  rw [← Location.startsWith_path h.isEntryName hnames, ← h.output.eq_path location entry hfind,
    h.apart]
  exact Bool.false_ne_true

theorem isLoaded_of_prepare (htree : disk.IsTree)
    (h : Run.prepare host disk options = .ok config) :
    ∃ project name content,
      disk.find (Run.configPath options) = .ok (project ++ [name], .file content) ∧
      IsLoaded disk config project name := by
  obtain ⟨loaded, hload, rfl, hvalid⟩ := exists_of_prepare h
  obtain ⟨text, read, htext, -, rfl⟩ := exists_of_load hload
  obtain ⟨content, hread, -⟩ := Disk.readText_eq_ok_iff.mp htext
  -- The file that was read is not the root, so it is in a directory.
  obtain ⟨location, hfind⟩ : ∃ location, disk.find (Run.configPath options)
      = .ok (location, .file content) := by
    rw [Disk.readBytes] at hread
    obtain ⟨⟨location, _ | found | target⟩, hfind, hread⟩ := exists_of_bind_eq_ok hread
    · cases hread
    · cases hread
      exact ⟨location, hfind⟩
    · cases hread
  have hfile : disk.get? location = some (.file content) :=
    Disk.get?_of_walk (Disk.find_eq_ok_iff.mp hfind).2 (by simp)
  have hroot : location ≠ [] := by
    rintro rfl
    cases hfile
  obtain ⟨project, name, rfl⟩ := (List.eq_nil_or_concat' location).resolve_left hroot
  have hnames := htree.isEntryName_of_get? hfile
  generalize hlocated : ({ read with path := disk.normalize (Run.configPath options) } : Config)
    = located at hvalid ⊢
  have hpath : located.path = Location.path (project ++ [name]) := by
    rw [← hlocated]
    exact Disk.normalize_of_find hfind
  have hdirectory := directory_of_path hnames hpath
  have habs : located.directory.isAbsolute = true := hdirectory ▸ Location.isAbsolute_path project
  have hlater := directory_override located host disk options.overrides
  have hstarts := startsWith_of_validate hvalid
  rw [hlater, hdirectory] at hstarts
  have hpath' : ((located.withLocatedPaths host disk).override host disk options.overrides).path
      = Location.path (project ++ [name]) := by
    rw [path_override, path_withLocatedPaths, hpath]
  exact ⟨project, name, content, hfind, ⟨content, hfile⟩, hpath', hlater.trans hdirectory,
    fun other hother => hnames other (List.mem_append_left _ hother),
    isSpelled_override host htree habs options.overrides, hstarts⟩

/-! ### A small project -/

section Sample

variable {manifest root : String} {others : List (Location × Entry)} {written output : Path}
  {components : Components}

/-- A project in `/srv/site`, seen from there, with further entries besides its configuration. -/
def sampleDisk (manifest : String) (others : List (Location × Entry)) : Disk where
  entries := (["srv"], .directory) :: (["srv", "site"], .directory) ::
    (["srv", "site", "quoia.toml"], .file (Text.encodeUtf8 manifest)) :: others
  workDir := ["srv", "site"]

theorem isTree_sampleDisk (hothers : ∀ entry ∈ others, (∀ name ∈ entry.1, IsEntryName name) ∧
    (sampleDisk manifest others).get? entry.1.dropLast = some .directory) :
    (sampleDisk manifest others).IsTree := by
  refine Disk.isTree_of_entries fun entry hentry => ?_
  rcases List.mem_cons.mp hentry with rfl | hentry
  · exact ⟨by dsimp only; decide, rfl⟩
  rcases List.mem_cons.mp hentry with rfl | hentry
  · exact ⟨by dsimp only; decide, rfl⟩
  rcases List.mem_cons.mp hentry with rfl | hentry
  · exact ⟨by dsimp only; decide, rfl⟩
  · exact hothers entry hentry

def sampleHost : Host where
  home := ⟨"/root"⟩
  program? _ := none

/-- The command line of a build without any options. -/
def sampleOptions : CommandLine.Options where
  root := none
  output := none
  assets := none
  config := ⟨"quoia.toml"⟩
  action := .build none false

/-- A configuration of the small project that says where the output goes and what the root is. -/
def sampleConfig (output : Path) (root : String) (components : Components) : Config where
  path := ⟨"/srv/site/quoia.toml"⟩
  build := { output, root }
  components := components

theorem walk_manifest {links : Nat} : (sampleDisk manifest others).walk .reach links ["srv", "site"]
    ["quoia.toml"] false
      = .ok ⟨["srv", "site", "quoia.toml"], some (.file (Text.encodeUtf8 manifest))⟩ :=
  Disk.walk_reach_file (by decide) (by decide) (by decide) rfl

theorem find_manifest : (sampleDisk manifest others).find (Run.configPath sampleOptions)
    = .ok (["srv", "site", "quoia.toml"], .file (Text.encodeUtf8 manifest)) := by
  refine Disk.find_eq_ok_iff.mpr ⟨rfl, ?_⟩
  change (sampleDisk manifest others).walk .reach Disk.maxLinks ["srv", "site"] [".", "quoia.toml"]
    false = _
  rw [Disk.walk, if_pos rfl, walk_manifest]

theorem find_path_manifest : (sampleDisk manifest others).find ⟨"/srv/site/quoia.toml"⟩
    = .ok (["srv", "site", "quoia.toml"], .file (Text.encodeUtf8 manifest)) := by
  refine Disk.find_eq_ok_iff.mpr ⟨rfl, ?_⟩
  change (sampleDisk manifest others).walk .reach Disk.maxLinks [] ["srv", "site", "quoia.toml"]
    false = _
  rw [Disk.walk_reach_directory (by decide) (by decide) (by decide) rfl,
    Disk.walk_reach_directory (by decide) (by decide) (by decide) rfl]
  exact walk_manifest

theorem directory_sampleConfig : (sampleConfig output root components).directory = ⟨"/srv/site"⟩ := by
  have hparent : (⟨"/srv/site/quoia.toml"⟩ : Path).parent? = some ⟨"/srv/site"⟩ := by rfl
  rw [directory, sampleConfig, hparent, Option.getD_some]

theorem validate_sampleConfig (hroot : (components.lookup root).isNone = false)
    (hapart : (⟨"/srv/site"⟩ : Path).startsWith output = false) :
    (sampleConfig output root components).validate sampleHost (sampleDisk manifest others)
      = .ok () := by
  have hexists : (sampleDisk manifest others).exists? ⟨"/srv/site/quoia.toml"⟩ = true := by
    rw [Disk.exists?, find_path_manifest]
    rfl
  refine validate_eq_ok hexists hroot ?_ rfl rfl
  rw [directory_sampleConfig]
  exact hapart

/-- A build of the small project goes on with what its configuration file says. -/
theorem prepare_sample (hread : Config.ofText manifest
      = .ok { build := { output := written, root }, components })
    (hroot : (components.lookup root).isNone = false)
    (houtput : (sampleDisk manifest others).resolve ⟨"/root"⟩ ⟨"/srv/site"⟩ written = output)
    (hapart : (⟨"/srv/site"⟩ : Path).startsWith output = false) :
    Run.prepare sampleHost (sampleDisk manifest others) sampleOptions
      = .ok (sampleConfig output root components) := by
  have htext : (sampleDisk manifest others).readText (Run.configPath sampleOptions) = .ok manifest :=
    Disk.readText_of_walk (Disk.find_eq_ok_iff.mp find_manifest).1
      (Disk.find_eq_ok_iff.mp find_manifest).2
  have hpath : (sampleDisk manifest others).normalize (Run.configPath sampleOptions)
      = ⟨"/srv/site/quoia.toml"⟩ := Disk.normalize_of_find find_manifest
  have hlocated : (sampleConfig written root components).withLocatedPaths sampleHost
      (sampleDisk manifest others) = sampleConfig output root components := by
    rw [withLocatedPaths]
    simp only [locate, directory_sampleConfig]
    simp only [sampleConfig, sampleHost, houtput, Option.map_none, List.map_nil]
  have hoverride : (sampleConfig output root components).override sampleHost
      (sampleDisk manifest others) sampleOptions.overrides = sampleConfig output root components := by
    rw [override]
    rfl
  have hload : load sampleHost (sampleDisk manifest others) (Run.configPath sampleOptions)
      = .ok (sampleConfig output root components) := by
    rw [load, htext]
    simp only [pure_bind, hread, hpath]
    exact congrArg Except.ok hlocated
  rw [Run.prepare, hload]
  change (((sampleConfig output root components).override _ _ _).validate _ _ >>= _) = _
  rw [hoverride, validate_sampleConfig hroot hapart]
  rfl

end Sample

end SiteTree.Config
