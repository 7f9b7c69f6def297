import SiteTree.Command.Basic
import SiteTree.Command.Quoting
import SiteTree.Text.Search

/-!
# Switches

A switch is given as a letter behind a dash, several of which may share the dash, or as a name
behind two dashes, of which enough to tell it apart will do.
-/

namespace SiteTree.Command

/-- A switch of a program. -/
structure Switch where
  letter : Char
  /-- empty for a switch that is a letter only -/
  name : String

/-- A refusal: a message and what to do about it. -/
def usageError (program : String) (message : List UInt8) : Outcome where
  errors := Text.encodeUtf8 (program ++ ": ") ++ message
    ++ Text.encodeUtf8 ("\nTry '" ++ program ++ " --help' for more information.\n")
  ending := .exited 1

/-- The switch that an argument names behind two dashes, or what is wrong with it. -/
def namedSwitch (known : List Switch) (argument : String) : Except (List UInt8) Switch :=
  let text := argument.toList.drop 2
  let written := text.takeWhile (· != '=')
  let hasValue := written.length < text.length
  let named := known.filter fun (switch : Switch) => !switch.name.isEmpty
  let fitting :=
    match named.filter fun (switch : Switch) => switch.name.toList == written with
    | [] => named.filter fun (switch : Switch) => (Text.after? written switch.name.toList).isSome
    | exact => exact
  match fitting with
  | [] => .error (Text.encodeUtf8 ("unrecognized option '" ++ argument ++ "'"))
  | [switch] =>
    if hasValue then
      .error (Text.encodeUtf8 ("option '--" ++ switch.name ++ "' doesn't allow an argument"))
    else .ok switch
  | several =>
    let names := several.map fun (switch : Switch) => " '--" ++ switch.name ++ "'"
    .error (Text.encodeUtf8 ("option '" ++ argument ++ "' is ambiguous; possibilities:"
      ++ String.join names))

/-- The switches that letters behind a dash stand for. -/
def letterSwitches (known : List Switch) : List Char → Except (List UInt8) (List Char)
  | [] => .ok []
  | c :: letters =>
    if known.any fun (switch : Switch) => switch.letter == c then do
      return c :: (← letterSwitches known letters)
    else
      let first := (Text.encodeUtf8 (String.ofList [c])).take 1
      .error (Text.encodeUtf8 "invalid option -- '" ++ first ++ [0x27])

/-- The switches that are given, by their letters, and the other arguments. Where the program
does not `search` for switches, they end at the first other argument. -/
def readSwitches (known : List Switch) (search : Bool) :
    List String → Except (List UInt8) (List Char × List String)
  | [] => .ok ([], [])
  | argument :: rest =>
    match argument.toList with
    | ['-', '-'] => .ok ([], rest)
    | '-' :: '-' :: _ => do
      let switch ← namedSwitch known argument
      let (letters, operands) ← readSwitches known search rest
      return (switch.letter :: letters, operands)
    | '-' :: c :: more => do
      let here ← letterSwitches known (c :: more)
      let (letters, operands) ← readSwitches known search rest
      return (here ++ letters, operands)
    | _ =>
      if search then do
        let (letters, operands) ← readSwitches known search rest
        return (letters, argument :: operands)
      else .ok ([], argument :: rest)

end SiteTree.Command
