import SiteTree.CommandLine.Grammar

/-!
# Help

What the program says in place of a run.
-/

namespace SiteTree.CommandLine

def mainHelp : List String :=
  ["component-tree static site compiler - scoped styles, bundled scripts, one page per node",
    "",
    "Usage: quoia [OPTIONS] <COMMAND>",
    "",
    "Commands:",
    "  build  Compile the component tree into the output directory",
    "  clean  Delete the output directory",
    "  help   Print this message or the help of the given subcommand(s)",
    "",
    "Options:",
    "  -r, --root <ROOT>      Project root directory (where the config file lives)",
    "  -o, --output <OUTPUT>  Output directory path (relative to project root)",
    "  -a, --assets <ASSETS>  Assets directory path (relative to project root)",
    "  -C, --config <CONFIG>  Config file name (default: quoia.toml) [default: quoia.toml]",
    "  -h, --help             Print help",
    "  -V, --version          Print version"]

def buildHelp : List String :=
  ["Compile the component tree into the output directory",
    "",
    "Usage: quoia build [OPTIONS]",
    "",
    "Options:",
    "  -m, --minify [<MINIFY>]  Minify the html content [possible values: true, false]",
    "      --no-clean           Keep the existing output directory instead of deleting it first",
    "  -h, --help               Print help"]

def cleanHelp : List String :=
  ["Delete the output directory",
    "",
    "Usage: quoia clean",
    "",
    "Options:",
    "  -h, --help  Print help"]

def helpHelp : List String :=
  ["Print this message or the help of the given subcommand(s)",
    "",
    "Usage: quoia help [COMMAND]...",
    "",
    "Arguments:",
    "  [COMMAND]...  Print help for the subcommand(s)"]

def helpOn : Option String → List String
  | some "build" => buildHelp
  | some "clean" => cleanHelp
  | some _ => helpHelp
  | none => mainHelp

namespace UsageError

/-- The lines that answer a request; `none` for an error. -/
def answer? : UsageError → Option (List String)
  | .help subcommand => some (helpOn subcommand)
  | .version => some ["quoia 0.2.0"]
  | _ => none

/-- What is wrong with the command line. -/
def message : UsageError → String
  | .help _ => "help was asked for"
  | .version => "the version was asked for"
  | .nothingAsked => "nothing was asked for"
  | .missingSubcommand => "a subcommand is missing"
  | .unknownArgument => "an argument is not known"
  | .unknownSubcommand => "a subcommand is not known"
  | .invalidValue => "the value of an option is missing or not valid"
  | .repeated => "an option is given more than once"
  | .unneededValue => "an option takes no value"

/-- The status that the program ends with. -/
def status (error : UsageError) : Nat :=
  if error.answer?.isSome then 0 else 2

end UsageError

end SiteTree.CommandLine
