import SiteTree.Command.Basic
import SiteTree.Component.Resolution
import SiteTree.Config.Decode

/-!
# Loading a configuration

The paths of a configuration file are read from the directory that the file is in. Settings
on the command line come before those of the file. A configuration is checked before it is
used, so that a build cannot delete the project it is made from.
-/

namespace SiteTree.Config

/-- Settings that come before those of the file. -/
structure Overrides where
  output : Option Path := none
  assets : Option Path := none
  minify : Option Bool := none
  keepOutput : Bool := false
  deriving DecidableEq, Repr

/-- A file or directory that goes into the output. -/
structure CopyTarget where
  path : Path
  /-- Of a directory, does only what is in it go there? -/
  contentsOnly : Bool
  deriving DecidableEq, Repr

/-- The directory of the configuration file. -/
def directory (config : Config) : Path :=
  config.path.parent?.getD ⟨"/"⟩

/-- A path as it is read in the configuration. -/
def locate (config : Config) (host : Host) (disk : Disk) (path : Path) : Path :=
  disk.resolve host.home config.directory path

/-! ### Reading -/

/-- The configuration with the paths of its build settings made absolute. -/
def withLocatedPaths (config : Config) (host : Host) (disk : Disk) : Config :=
  let locate := config.locate host disk
  let build := config.build
  { config with
    build := { build with
      output := locate build.output
      assets := build.assets.map locate
      styles := { build.styles with includePaths := build.styles.includePaths.map locate } } }

/-- Reads a configuration file. -/
def load (host : Host) (disk : Disk) (path : Path) : Except Failure Config := do
  let text ←
    match disk.readText path with
    | .ok text => pure text
    | .error error => throw (.of (.config (.read path error)))
  match Config.ofText text with
  | .ok config =>
    return ({ config with path := disk.normalize path } : Config).withLocatedPaths host disk
  | .error failure => throw (failure.within ("invalid config " ++ ticked path.text))

/-- The configuration with the settings of the command line. -/
def override (config : Config) (host : Host) (disk : Disk) (overrides : Overrides) : Config :=
  let locate := config.locate host disk
  let build := config.build
  { config with
    build := { build with
      output := (overrides.output.map locate).getD build.output
      assets := (overrides.assets.map locate).or build.assets
      minify := overrides.minify.getD build.minify
      clean := build.clean && !overrides.keepOutput } }

/-! ### Views -/

/-- What is copied into the output. -/
def copyTargets (config : Config) (host : Host) (disk : Disk) : List CopyTarget :=
  config.build.copy.map fun written =>
    { path := config.locate host disk ⟨written⟩
      contentsOnly := written.toList.getLast? == some '/' || written.toList.getLast? == some '\\' }

/-- The component tables, with paths read in the configuration's directory. -/
def manifest (config : Config) (host : Host) (disk : Disk) : Manifest :=
  ⟨config.components, config.locate host disk⟩

/-- The root page with all that is below it. -/
def rootMount (config : Config) (host : Host) (disk : Disk) : Except ManifestError Mount :=
  (config.manifest host disk).resolve config.build.root

/-! ### Checks -/

def invalid (detail : String) : Except Failure Unit :=
  .error (.of (.config (.validation detail)))

/-- Is the preprocessor there that stylesheets are to go through? -/
def checkCommand (config : Config) (host : Host) : Except Failure Unit :=
  match config.build.styles.preprocessing, config.build.styles.command with
  | .nothing, _ => .ok ()
  | .command, [] => invalid "[build.styles.command] must have at least one element"
  | .command, name :: _ =>
    match host.program? name with
    | some _ => .ok ()
    | none =>
      .error ((Failure.plain "cannot find binary path").within
        (ticked name ++ " not found. Please install it first."))

/-- Is the configuration fit for a build? -/
def validate (config : Config) (host : Host) (disk : Disk) : Except Failure Unit := do
  if !disk.exists? config.path then throw (.plain "Config file not found")
  if (config.components.lookup config.build.root).isNone then
    throw (.of (.manifest (.missingRoot config.build.root)))
  let output := config.build.output
  if config.directory.startsWith output then
    invalid ("[build.output] " ++ ticked output.text ++ " would delete the project directory")
  match config.build.assets with
  | some assets =>
    if !disk.isDirectory? assets then
      invalid ("[build.assets] " ++ ticked assets.text ++ " is not a directory")
  | none => pure ()
  config.checkCommand host

end SiteTree.Config
