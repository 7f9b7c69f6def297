import SiteTree.Proofs.Config.Cleaning

/-!
# Where the output is

A build first makes sure that there is a new output directory. If the output was there before, it is
at the same place again. If it was not, the configuration could only be checked by the spelling of
the path, which says where the new directory is unless the path leads up again, by `..`, out of a
part that is not there yet.

* `output_contains_no_project` — the output directory is not the project's nor one that it is in.
* `missing_up_contains_project` — a path that leads up out of a missing part escapes the check.
-/

namespace SiteTree.Build

variable {host : Host} {options : CommandLine.Options} {config : Config} {session later : Session}

/-- How the output comes to be there: it is left as it was, or it was deleted and is there again, or
it is made where nothing was. -/
inductive Readies (output : Path) (clean : Bool) (before : Disk) : Disk → Prop where
  | kept {base : Location} : clean = false → before.find output = .ok (base, .directory) →
      Readies output clean before before
  | renewed {base : Location} : clean = true → base ≠ [] →
      before.find output = .ok (base, .directory) → output = base.path →
      Readies output clean before ((before.eraseTree base).set base .directory)
  | made {error : DiskError} {after : Disk} : before.find output = .error error →
      before.makeDirectories output = (none, after) → Readies output clean before after

theorem run_makeDirectory {path : Path}
    (h : (Files.makeDirectory path).run.run session = (.ok (), later)) :
    ∃ after, session.disk.makeDirectories path = (none, after) ∧
      later = { session with disk := after } := by
  rw [Files.makeDirectory, Job.run_changeAnyway] at h
  rcases hmade : session.disk.makeDirectories path with ⟨_ | error, after⟩
  · rw [hmade] at h
    exact ⟨after, rfl, (Prod.mk.inj h).2.symm⟩
  · rw [hmade] at h
    cases h

theorem readies_of_prepareOutput (htree : session.disk.IsTree)
    (hspelled : Config.IsSpelled session.disk config.build.output)
    (h : (prepareOutput config).run.run session = (.ok (), later)) :
    ∃ after, later = { session with disk := after } ∧
      Readies config.build.output config.build.clean session.disk after := by
  rw [prepareOutput] at h
  cases hclean : config.build.clean with
  | false =>
    rw [hclean] at h
    obtain ⟨after, hmade, rfl⟩ := run_makeDirectory h
    refine ⟨after, rfl, ?_⟩
    rcases hfind : session.disk.find config.build.output with error | ⟨base, entry⟩
    · exact .made hfind hmade
    · -- What is there already is still there, so it is a directory.
      have hextends := Disk.extends_makeDirectories session.disk config.build.output
      rw [hmade] at hextends
      have hdirectory := Disk.isDirectory?_of_makeChain
        (Disk.isEmpty_of_isAbsolute hspelled.isAbsolute) hmade
      rw [Disk.isDirectory?, hextends.find hfind] at hdirectory
      cases entry with
      | directory =>
        rw [Disk.makeDirectories_of_find hfind] at hmade
        cases hmade
        exact .kept rfl hfind
      | file content => cases hdirectory
      | link target => cases hdirectory
  | true =>
    rw [hclean, if_pos rfl] at h
    obtain ⟨⟨⟩, middle, hremove, hmake⟩ := run_bind_eq_ok h
    have hremoves := Files.removes_removeDirectory htree hspelled.eq_path
    rw [hremove] at hremoves
    obtain ⟨after, hmade, rfl⟩ := run_makeDirectory hmake
    generalize hresult : ((Except.ok () : Except Failure Unit), middle) = result at hremoves
    cases hremoves with
    | absent hfind =>
      cases hresult
      exact ⟨after, rfl, .made hfind hmade⟩
    | @removed base hroot hfind =>
      cases hresult
      have hpath := hspelled.eq_path base .directory hfind
      have hentry := (htree.get?_of_find hspelled.isAbsolute hfind).1
      have hagain := (htree.makeDirectories_eraseTree hroot hentry (hpath ▸ hfind)).1
      rw [← hpath] at hagain
      have heq := hmade.symm.trans hagain
      cases heq
      exact ⟨_, rfl, .renewed rfl hroot hfind hpath⟩
    | refused => cases hresult

/-- The output directory that a build works in is not the directory of the configuration file, and not
one that it is in, if all that is missing on the way to it are names. -/
theorem output_contains_no_project (htree : session.disk.IsTree)
    (hprepare : Run.prepare host session.disk options = .ok config)
    (hnames : ∀ path ∈ config.build.output :: config.build.output.parents,
      session.disk.isDirectory? path = false → path.fileName?.isSome = true)
    (h : (prepareOutput config).run.run session = (.ok (), later)) :
    ∃ base project name, later.disk.find config.build.output = .ok (base, .directory) ∧
      config.path = Location.path (project ++ [name]) ∧
      config.directory = Location.path project ∧ ¬ base <+: project := by
  obtain ⟨project, name, content, hmanifest, hloaded⟩ := Config.isLoaded_of_prepare htree hprepare
  obtain ⟨after, rfl, hreadies⟩ := readies_of_prepareOutput htree hloaded.output h
  suffices hbase : ∃ base, after.find config.build.output = .ok (base, .directory) ∧
      ¬ base <+: project by
    obtain ⟨base, hfind, hapart⟩ := hbase
    exact ⟨base, project, name, hfind, hloaded.path, hloaded.directory, hapart⟩
  cases hreadies with
  | kept _ hfind => exact ⟨_, hfind, hloaded.not_prefix htree hfind⟩
  | renewed _ hroot hfind hpath =>
    have hentry := (htree.get?_of_find hloaded.output.isAbsolute hfind).1
    have hagain := (htree.makeDirectories_eraseTree hroot hentry (hpath ▸ hfind)).2
    exact ⟨_, hpath ▸ hagain, hloaded.not_prefix htree hfind⟩
  | made hfind hmade =>
    obtain ⟨base, hsettles⟩ :=
      htree.settles_of_makeDirectories hloaded.output.isAbsolute hnames hmade
    refine ⟨base, hsettles.found, fun hwithin => ?_⟩
    rcases hsettles.fresh with rfl | ⟨hnew, -⟩
    · rw [hsettles.found] at hfind
      cases hfind
    · -- All that is on the way to the configuration file was there before.
      obtain ⟨content, hfile⟩ := hloaded.file
      have hthere := htree.isSome_get?_of_prefix (by rw [hfile]; rfl)
        (hwithin.trans (List.prefix_append project [name]))
      rw [hnew] at hthere
      cases hthere

theorem run_prepareOutput_of_error (config : Config) (session : Session) {error : DiskError}
    {after : Disk} (hfind : session.disk.find config.build.output = .error error)
    (hparent : config.build.output.parent?.isNone = false)
    (hmade : session.disk.makeDirectories config.build.output = (none, after)) :
    (prepareOutput config).run.run session = (.ok (), { session with disk := after }) := by
  have hmake : (Files.makeDirectory config.build.output).run.run session
      = (.ok (), { session with disk := after }) := by
    rw [Files.makeDirectory, Job.run_changeAnyway, hmade]
  rw [prepareOutput]
  cases config.build.clean with
  | false => exact hmake
  | true =>
    rw [if_pos rfl, run_bind, Files.run_removeDirectory_of_error hfind hparent]
    exact hmake

/-! ### Outputs that are not there yet -/

section Sample

open Config

variable {others : List (Location × Entry)}

theorem walk_project {manifest : String} {links : Nat} {rest : List String} {slash : Bool} :
    (sampleDisk manifest others).walk .reach links [] ("srv" :: "site" :: rest) slash
      = (sampleDisk manifest others).walk .reach links ["srv", "site"] rest slash := by
  rw [Disk.walk_reach_directory (by decide) (by decide) (by decide) rfl]
  exact Disk.walk_reach_directory (by decide) (by decide) (by decide) rfl

/-- The path of the output of a site that was not built before is a name in its directory. -/
theorem names_public {manifest : String} : (sampleDisk manifest others).Names ⟨"/srv/site/public"⟩
    ⟨[], ["srv", "site", "public"], false⟩ ["srv", "site"] "public" := by
  refine ⟨rfl, ?_, rfl, by decide, by decide, by decide⟩
  change (sampleDisk manifest others).walk .reach Disk.maxLinks [] ["srv", "site"] true = _
  rw [walk_project, Disk.walk]

theorem find_public {manifest : String}
    (hnothing : (sampleDisk manifest others).get? ["srv", "site", "public"] = none) :
    (sampleDisk manifest others).find ⟨"/srv/site/public"⟩ = .error .notFound :=
  names_public.find_of_nothing hnothing

theorem prepare_public
    (hnothing : (sampleDisk homeManifest others).get? ["srv", "site", "public"] = none) :
    Run.prepare sampleHost (sampleDisk homeManifest others) sampleOptions = .ok homeConfig :=
  prepare_sample ofText_homeManifest rfl (Disk.normalize_of_error rfl (find_public hnothing)) rfl

/-- An output of that path is made. -/
theorem run_prepareOutput_public {manifest root : String} {components : Components}
    (console : List String)
    (hnothing : (sampleDisk manifest others).get? ["srv", "site", "public"] = none) :
    (prepareOutput (sampleConfig ⟨"/srv/site/public"⟩ root components)).run.run
        ⟨sampleDisk manifest others, console⟩
      = (.ok (), ⟨(sampleDisk manifest others).set ["srv", "site", "public"] .directory, console⟩) := by
  have hparent : (⟨"/srv/site/public"⟩ : Path).parent?.isNone = false := by decide +kernel
  have hmade : (sampleDisk manifest others).makeDirectories ⟨"/srv/site/public"⟩
      = (none, (sampleDisk manifest others).set ["srv", "site", "public"] .directory) :=
    Disk.makeDirectories_of_free names_public hnothing
  exact run_prepareOutput_of_error (sampleConfig ⟨"/srv/site/public"⟩ root components)
    ⟨sampleDisk manifest others, console⟩ (find_public hnothing) hparent hmade

theorem output_contains_no_homeManifest :
    Run.prepare sampleHost (sampleDisk homeManifest []) sampleOptions = .ok homeConfig ∧
    ∃ base project name,
      ((sampleDisk homeManifest []).set ["srv", "site", "public"] .directory).find
        ⟨"/srv/site/public"⟩ = .ok (base, .directory) ∧
      homeConfig.path = Location.path (project ++ [name]) ∧
      homeConfig.directory = Location.path project ∧ ¬ base <+: project := by
  have hnames : ∀ path ∈ homeConfig.build.output :: homeConfig.build.output.parents,
      (sampleDisk homeManifest []).isDirectory? path = false → path.fileName?.isSome = true := by
    have hpaths : homeConfig.build.output :: homeConfig.build.output.parents
        = [⟨"/srv/site/public"⟩, ⟨"/srv/site"⟩, ⟨"/srv"⟩, ⟨"/"⟩] := by decide +kernel
    rw [hpaths]
    intro path hpath hmissing
    simp only [List.mem_cons, List.not_mem_nil, or_false] at hpath
    rcases hpath with rfl | rfl | rfl | rfl
    · rfl
    · rfl
    · rfl
    · have hroot : (sampleDisk homeManifest []).find ⟨"/"⟩ = .ok ([], .directory) := by
        refine Disk.find_eq_ok_iff.mpr ⟨rfl, ?_⟩
        change (sampleDisk homeManifest []).walk .reach Disk.maxLinks [] [] true = _
        rw [Disk.walk]
      rw [Disk.isDirectory?_eq_true_iff.mpr ⟨_, hroot⟩] at hmissing
      cases hmissing
  have htree : ({ disk := sampleDisk homeManifest [] } : Session).disk.IsTree :=
    isTree_sampleDisk (by simp)
  have hplace := output_contains_no_project htree (prepare_public rfl) hnames
    (run_prepareOutput_public [] rfl)
  exact ⟨prepare_public rfl, hplace⟩

/-! #### An output that leads up out of a missing directory -/

def upManifest : String :=
  "[build]\noutput = \"missing/..\"\nroot = \"home\"\n[components.home]\ntemplate = \"home.html\"\n"

def upConfig : Config :=
  sampleConfig ⟨"/srv/site/missing/.."⟩ "home" [("home", { template := ⟨"home.html"⟩ })]

theorem ofText_upManifest : Config.ofText upManifest
    = .ok { build := { output := ⟨"missing/.."⟩, root := "home" },
            components := [("home", { template := ⟨"home.html"⟩ })] } := by
  cbv

theorem names_missing : (sampleDisk upManifest []).Names ⟨"/srv/site/missing"⟩
    ⟨[], ["srv", "site", "missing"], false⟩ ["srv", "site"] "missing" := by
  refine ⟨rfl, ?_, rfl, by decide, by decide, by decide⟩
  change (sampleDisk upManifest []).walk .reach Disk.maxLinks [] ["srv", "site"] true = _
  rw [walk_project, Disk.walk]

theorem find_up : (sampleDisk upManifest []).find ⟨"/srv/site/missing/.."⟩ = .error .notFound := by
  have hroute : (sampleDisk upManifest []).route ⟨"/srv/site/missing/.."⟩
      = .ok ⟨[], ["srv", "site", "missing", ".."], false⟩ := by rfl
  have hwalk : (sampleDisk upManifest []).walk .reach Disk.maxLinks []
      ["srv", "site", "missing", ".."] false = .error .notFound := by
    rw [walk_project]
    exact Disk.walk_reach_nothing (by decide) (by decide) (by decide) rfl
  rw [Disk.find, Disk.locate, hroute]
  simp only [bind, Except.bind, hwalk]

theorem makeDirectory_up :
    (sampleDisk upManifest []).makeDirectory ⟨"/srv/site/missing/.."⟩ = .error .notFound := by
  have hroute : (sampleDisk upManifest []).route ⟨"/srv/site/missing/.."⟩
      = .ok ⟨[], ["srv", "site", "missing", ".."], false⟩ := by rfl
  have hwalk : (sampleDisk upManifest []).walk .reach Disk.maxLinks [] ["srv", "site", "missing"] true
      = .ok ⟨["srv", "site", "missing"], none⟩ := by
    rw [walk_project]
    exact Disk.walk_reach_nothing (by decide) (by decide) (by decide) rfl
  have hplace : (sampleDisk upManifest []).placeOf
      ⟨[], ["srv", "site", "missing", ".."], false⟩ = .error .notFound := by
    rw [Disk.placeOf]
    simp only [List.dropLast, bind, Except.bind, hwalk]
  rw [Disk.makeDirectory, hroute]
  simp only [bind, Except.bind, Disk.vacancy, hplace]

theorem find_up_set :
    ((sampleDisk upManifest []).set ["srv", "site", "missing"] .directory).find
      ⟨"/srv/site/missing/.."⟩ = .ok (["srv", "site"], .directory) := by
  refine Disk.find_eq_ok_iff.mpr ⟨by rfl, ?_⟩
  change ((sampleDisk upManifest []).set ["srv", "site", "missing"] .directory).walk .reach
    Disk.maxLinks [] ["srv", "site", "missing", ".."] false = _
  rw [Disk.walk_reach_directory (by decide) (by decide) (by decide) rfl,
    Disk.walk_reach_directory (by decide) (by decide) (by decide) rfl,
    Disk.walk_reach_directory (by decide) (by decide) (by decide) rfl,
    Disk.walk, if_neg (by decide), if_pos rfl, Disk.walk]
  rfl

/-- The check is passed by a path that leads to the project as soon as what it leads through is
made. -/
theorem missing_up_contains_project :
    Run.prepare sampleHost (sampleDisk upManifest []) sampleOptions = .ok upConfig ∧
    upConfig.directory = Location.path ["srv", "site"] ∧
    ∃ later, (prepareOutput upConfig).run.run { disk := sampleDisk upManifest [] }
        = (.ok (), later) ∧
      later.disk.find upConfig.build.output = .ok (["srv", "site"], .directory) := by
  have hparent : upConfig.build.output.parent?.isNone = false := by decide +kernel
  have hparents : upConfig.build.output.parents
      = ⟨"/srv/site/missing"⟩ :: (⟨"/srv/site/missing"⟩ : Path).parents := by decide +kernel
  have hmissing : Disk.makeChain upConfig.build.output.parents (sampleDisk upManifest [])
      = (none, (sampleDisk upManifest []).set ["srv", "site", "missing"] .directory) := by
    rw [hparents]
    exact Disk.makeDirectories_of_free names_missing rfl
  have hmade := Disk.makeDirectories_of_parents makeDirectory_up hmissing find_up_set
  have hrun := run_prepareOutput_of_error upConfig { disk := sampleDisk upManifest [] } find_up
    hparent hmade
  exact ⟨prepare_sample ofText_upManifest rfl (Disk.normalize_of_error rfl find_up) rfl,
    directory_sampleConfig, _, hrun, find_up_set⟩

end Sample

end SiteTree.Build
