import SiteTree.Build
import SiteTree.CommandLine.Options

/-!
# Runs of the program

A run reads the configuration, puts the settings of the command line in front of it, checks
the result, and builds or cleans.
-/

namespace SiteTree.Run

open CommandLine

/-- The configuration file of a project. -/
def configPath (options : Options) : Path :=
  (options.root.getD ⟨"./"⟩).join options.config

/-- Reads, completes and checks the configuration. -/
def prepare (host : Host) (disk : Disk) (options : Options) : Except Failure Config := do
  let config ← Config.load host disk (configPath options)
  let config := config.override host disk options.overrides
  config.validate host disk
  return config

/-- Does what the command line asks for. -/
def perform (host : Host) (options : Options) (config : Config) : Job Unit :=
  match options.action with
  | .build _ _ => Build.buildSite host config
  | .clean => Build.cleanSite config

/-- A whole run; a configuration file that is not there is reported as such. -/
def main (host : Host) (options : Options) : Job Unit := do
  let disk ← Job.disk
  let path := configPath options
  if !disk.exists? path then
    throw (.plain ("Config file " ++ ticked path.text ++ " not found."))
  perform host options (← Job.ofExcept (prepare host disk options))

/-- The status that the program ends with, and what it reports on its error stream. -/
def report : Except Failure Unit → Nat × String
  | .ok () => (0, "")
  | .error failure => (1, failure.report ++ "\n")

end SiteTree.Run
