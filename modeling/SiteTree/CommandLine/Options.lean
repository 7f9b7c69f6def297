import SiteTree.CommandLine.Grammar
import SiteTree.Config.Load

/-!
# What the command line asks for

A run builds the site or deletes its output.
-/

namespace SiteTree.CommandLine

inductive Action where
  | build (minify : Option Bool) (keepOutput : Bool)
  | clean
  deriving DecidableEq, Repr

structure Options where
  /-- the directory of the project -/
  root : Option Path
  output : Option Path
  assets : Option Path
  /-- the configuration file, in the directory of the project -/
  config : Path
  action : Action
  deriving DecidableEq, Repr

/-! ### The grammar -/

def helpFlag (subcommand : Option String) : Flag :=
  { long := "help", short := some 'h', arity := .instead (.help subcommand) }

/-- The options in front of the subcommand. -/
def mainGrammar : Grammar where
  flags :=
    [{ long := "root", short := some 'r', arity := .path },
      { long := "output", short := some 'o', arity := .path },
      { long := "assets", short := some 'a', arity := .path },
      { long := "config", short := some 'C', arity := .path },
      helpFlag none,
      { long := "version", short := some 'V', arity := .instead .version }]
  subcommands := ["build", "clean", "help"]

def buildGrammar : Grammar where
  flags :=
    [{ long := "minify", short := some 'm', arity := .truth },
      { long := "no-clean", arity := .nothing },
      helpFlag (some "build")]

def cleanGrammar : Grammar where
  flags := [helpFlag (some "clean")]

/-! ### Reading -/

/-- Reads the options of a subcommand, behind which nothing else can come. -/
def readLast (grammar : Grammar) (arguments : List String) : Except UsageError Reading := do
  let (reading, _) ← grammar.read {} arguments
  reading.finish

/-- Reads the topic of a request for help. -/
def readHelp : List String → Except UsageError Action
  | [] => .error (.help none)
  | [topic] =>
    if mainGrammar.subcommands.contains topic then .error (.help (some topic))
    else .error .unknownSubcommand
  | _ => .error .unknownSubcommand

/-- Reads what follows the name of a subcommand. -/
def readAction : Subcommand → Except UsageError Action
  | ("build", arguments) => do
    let reading ← readLast buildGrammar arguments
    return .build ((reading.settled.lookup "minify").map (· == "true"))
      (reading.settled.lookup "no-clean").isSome
  | ("clean", arguments) => do
    let _ ← readLast cleanGrammar arguments
    return .clean
  | (_, arguments) => readHelp arguments

/-- Reads a command line, without the name of the program. -/
def parse (arguments : List String) : Except UsageError Options := do
  let (reading, subcommand) ← mainGrammar.read {} arguments
  let action? ← subcommand.mapM readAction
  let reading ← reading.finish
  let path? (name : String) : Option Path := (reading.settled.lookup name).map Path.mk
  match action? with
  | some action =>
    return {
      root := path? "root"
      output := path? "output"
      assets := path? "assets"
      config := (path? "config").getD ⟨"quoia.toml"⟩
      action }
  | none => throw (if reading.settled.isEmpty then .nothingAsked else .missingSubcommand)

/-- The settings of the command line that come before those of the configuration. -/
def Options.overrides (options : Options) : Config.Overrides :=
  match options.action with
  | .build minify keepOutput =>
    { output := options.output, assets := options.assets, minify, keepOutput }
  | .clean => { output := options.output, assets := options.assets }

end SiteTree.CommandLine
