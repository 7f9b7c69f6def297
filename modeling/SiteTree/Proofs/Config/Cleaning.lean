import SiteTree.Proofs.Build.Step
import SiteTree.Proofs.Config.Loading
import SiteTree.Proofs.Disk.Removal
import Mathlib

/-!
# Deleting the output of a project

The output that a configuration is prepared with is deleted, if at all, at its canonical location.
The project is not below it, so the configuration file stays with all directories on the way to it.

* `deletion_keeps_project` — what the deletion of the output can take away.
-/

namespace SiteTree.Build

variable {host : Host} {options : CommandLine.Options} {config : Config} {session : Session}

/-- The jobs that delete the output: the deletion itself, the run that does nothing else, and the
first step of a build. -/
def deletions (config : Config) : List (Job Unit) :=
  [Files.removeDirectory config.build.output, cleanSite config, prepareOutput config]

/-- What deleting the output does to the disk: nothing, or it takes away a directory with what is
below it. -/
inductive Deletes (output : Path) (before : Disk) : Disk → Prop where
  | nothing : Deletes output before before
  | tree {base : Location} : base ≠ [] → before.find output = .ok (base, .directory) →
      Deletes output before (before.eraseTree base)

theorem Deletes.exists_base {output : Path} {before after : Disk} {location : Location}
    (h : Deletes output before after) (hchanged : after.get? location ≠ before.get? location) :
    ∃ base, base ≠ [] ∧ before.find output = .ok (base, .directory) ∧ base <+: location := by
  cases h with
  | nothing => exact absurd rfl hchanged
  | @tree base hroot hfind =>
    refine ⟨base, hroot, hfind, ?_⟩
    by_contra hnot
    exact hchanged (Disk.get?_eraseTree_outside hnot)

theorem deletes_removeDirectory (htree : session.disk.IsTree)
    (hspelled : Config.IsSpelled session.disk config.build.output) :
    Deletes config.build.output session.disk
      ((Files.removeDirectory config.build.output).run.run session).2.disk := by
  have hremoves := Files.removes_removeDirectory htree hspelled.eq_path
  generalize (Files.removeDirectory config.build.output).run.run session = run at hremoves ⊢
  cases hremoves with
  | absent => exact .nothing
  | removed hroot hfind => exact .tree hroot hfind
  | refused => exact .nothing

/-- What a deletion leaves is there in the end, with new directories perhaps. -/
theorem exists_deletes (htree : session.disk.IsTree)
    (hspelled : Config.IsSpelled session.disk config.build.output) {job : Job Unit}
    (hjob : job ∈ deletions config) :
    ∃ middle, Deletes config.build.output session.disk middle ∧
      middle.Extends (job.run.run session).2.disk := by
  simp only [deletions, List.mem_cons, List.not_mem_nil, or_false] at hjob
  rcases hjob with rfl | rfl | rfl
  · exact ⟨_, deletes_removeDirectory htree hspelled, .refl _⟩
  · rw [cleanSite, disk_step]
    generalize hlater : announced "clean" "delete output directory" session = later
    have hdisk : later.disk = session.disk := by rw [← hlater]; rfl
    rw [← hdisk] at htree hspelled ⊢
    exact ⟨_, deletes_removeDirectory htree hspelled, .refl _⟩
  · rw [prepareOutput]
    have hmade : ∀ later : Session, later.disk.Extends
        ((Files.makeDirectory config.build.output).run.run later).2.disk := by
      intro later
      rw [Files.makeDirectory, Job.run_changeAnyway]
      exact Disk.extends_makeDirectories later.disk config.build.output
    cases config.build.clean with
    | false => exact ⟨_, .nothing, hmade session⟩
    | true =>
      have hdeletes := deletes_removeDirectory htree hspelled
      rw [if_pos rfl, run_bind]
      generalize (Files.removeDirectory config.build.output).run.run session = run at hdeletes ⊢
      obtain ⟨_ | value, later⟩ := run
      · exact ⟨_, hdeletes, .refl _⟩
      · exact ⟨_, hdeletes, hmade later⟩

/-- Deleting the output leaves the configuration file as it was, with all directories on the way to
it. What it takes away is at the location of the output or below it, and that is never the root. -/
theorem deletion_keeps_project (htree : session.disk.IsTree)
    (hprepare : Run.prepare host session.disk options = .ok config) :
    (∃ manifest content,
      session.disk.find (Run.configPath options) = .ok (manifest, .file content) ∧
      config.path = Location.path manifest ∧
      session.disk.get? manifest = some (.file content) ∧
      ∀ job ∈ deletions config, ∀ location, location <+: manifest →
        (job.run.run session).2.disk.get? location = session.disk.get? location) ∧
    (∀ job ∈ deletions config, ∀ location entry, session.disk.get? location = some entry →
      (job.run.run session).2.disk.get? location ≠ some entry →
        ∃ base, base ≠ [] ∧ base <+: location ∧
          session.disk.find config.build.output = .ok (base, .directory)) ∧
    ∀ path entry, session.disk.find path = .ok ([], entry) →
      (Files.removeDirectory path).run.run session
        = (.error (.of (.build (.rootPath (Location.path [])))), session) := by
  obtain ⟨project, name, content, hmanifest, hloaded⟩ := Config.isLoaded_of_prepare htree hprepare
  have hchanges : ∀ job ∈ deletions config, ∀ location entry,
      session.disk.get? location = some entry →
      (job.run.run session).2.disk.get? location ≠ some entry →
        ∃ base, base ≠ [] ∧ base <+: location ∧
          session.disk.find config.build.output = .ok (base, .directory) := by
    intro job hjob location entry hentry hchanged
    obtain ⟨middle, hdeletes, hextends⟩ := exists_deletes htree hloaded.output hjob
    obtain ⟨base, hroot, hfind, hwithin⟩ := hdeletes.exists_base fun hsame =>
      hchanged (hextends.get? location entry (hsame.trans hentry))
    exact ⟨base, hroot, hwithin, hfind⟩
  refine ⟨?_, hchanges, fun path entry hfind => Files.run_removeDirectory_root hfind⟩
  have hfile : session.disk.get? (project ++ [name]) = some (.file content) :=
    Disk.get?_of_walk (Disk.find_eq_ok_iff.mp hmanifest).2 (by simp)
  refine ⟨project ++ [name], content, hmanifest, hloaded.path, hfile, fun job hjob location hwithin => ?_⟩
  obtain ⟨entry, hentry⟩ := Option.isSome_iff_exists.mp
    (htree.isSome_get?_of_prefix (by rw [hfile]; rfl) hwithin)
  rw [hentry]
  by_contra hchanged
  obtain ⟨base, -, hbase, hfind⟩ := hchanges job hjob location entry hentry hchanged
  have hdirectory := (htree.get?_of_find hloaded.output.isAbsolute hfind).1
  -- The output is a directory on the way to the configuration file, so the project is below it.
  rcases List.prefix_concat_iff.mp (hbase.trans hwithin) with rfl | hbelow
  · rw [hfile] at hdirectory
    cases hdirectory
  · exact hloaded.not_prefix htree hfind hbelow

/-! ### An output that is deleted -/

section Sample

open Config

/-- The configuration of a site with a root page of its own. -/
def homeManifest : String :=
  "[build]\nroot = \"home\"\n[components.home]\ntemplate = \"home.html\"\n"

/-- An output directory with an old page in it. -/
def oldOutput : List (Location × Entry) :=
  [(["srv", "site", "public"], .directory), (["srv", "site", "public", "index.html"], .file [])]

theorem ofText_homeManifest : Config.ofText homeManifest
    = .ok { build := { root := "home" }, components := [("home", { template := ⟨"home.html"⟩ })] } := by
  cbv

theorem isTree_oldOutput : (sampleDisk homeManifest oldOutput).IsTree := by
  refine isTree_sampleDisk fun entry hentry => ?_
  rcases List.mem_pair.mp hentry with rfl | rfl
  · exact ⟨by dsimp only; decide, rfl⟩
  · exact ⟨by dsimp only; decide, rfl⟩

theorem find_oldOutput : (sampleDisk homeManifest oldOutput).find ⟨"/srv/site/public"⟩
    = .ok (["srv", "site", "public"], .directory) := by
  refine Disk.find_eq_ok_iff.mpr ⟨rfl, ?_⟩
  change (sampleDisk homeManifest oldOutput).walk .reach Disk.maxLinks [] ["srv", "site", "public"]
    false = _
  rw [Disk.walk_reach_directory (by decide) (by decide) (by decide) rfl,
    Disk.walk_reach_directory (by decide) (by decide) (by decide) rfl,
    Disk.walk_reach_directory (by decide) (by decide) (by decide) rfl, Disk.walk]
  rfl

def homeConfig : Config :=
  sampleConfig ⟨"/srv/site/public"⟩ "home" [("home", { template := ⟨"home.html"⟩ })]

theorem prepare_oldOutput : Run.prepare sampleHost (sampleDisk homeManifest oldOutput) sampleOptions
    = .ok homeConfig :=
  prepare_sample ofText_homeManifest rfl (Disk.normalize_of_find find_oldOutput) rfl

theorem deletion_keeps_homeManifest :
    Run.prepare sampleHost (sampleDisk homeManifest oldOutput) sampleOptions = .ok homeConfig ∧
    ∀ job ∈ deletions homeConfig,
      (job.run.run { disk := sampleDisk homeManifest oldOutput }).2.disk.get?
        ["srv", "site", "quoia.toml"] = some (.file (Text.encodeUtf8 homeManifest)) := by
  have htree : ({ disk := sampleDisk homeManifest oldOutput } : Session).disk.IsTree :=
    isTree_oldOutput
  obtain ⟨⟨manifest, content, hfind, -, hfile, hkeeps⟩, -⟩ :=
    deletion_keeps_project htree prepare_oldOutput
  rw [find_manifest] at hfind
  cases hfind
  refine ⟨prepare_oldOutput, fun job hjob => ?_⟩
  rw [hkeeps job hjob _ List.prefix_rfl]
  exact hfile

end Sample

end SiteTree.Build
