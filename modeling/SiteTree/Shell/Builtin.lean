import SiteTree.Shell.Condition
import SiteTree.Shell.Expansion
import SiteTree.Shell.Printing

/-!
# Commands of the shell itself

These commands read and change the state of the shell. Each answers its status. The commands
that run others stand with what runs them.
-/

namespace SiteTree.Shell.Builtin

/-- Complains under the name of a command, and leaves it. -/
def refuse {α : Type} (name message : String) : Effect α :=
  Effect.speaking (some name) (Effect.giveUp message)

/-- The number that an argument writes; there is nothing else in it. -/
def natural (name text : String) : Effect Nat := do
  let digits := text.toList
  let value := (Arithmetic.digits 10 digits).1
  if !digits.isEmpty ∧ digits.all Char.isDigit ∧ value < 1 <<< 31 then return value.toNat
  else refuse name ("Illegal number: " ++ text)

/-- The arguments behind switches with single letters, and the letters. -/
def letters (name known : String) : List String → Effect (List Char × List String)
  | [] => return ([], [])
  | argument :: rest =>
    match argument.toList with
    | ['-', '-'] => return ([], rest)
    | '-' :: c :: more => do
      match (c :: more).find? fun c => !known.toList.contains c with
      | some bad => refuse name ("Illegal option -" ++ String.ofList [bad])
      | none =>
        let (here, operands) ← letters name known rest
        return (c :: more ++ here, operands)
    | _ => return ([], argument :: rest)

/-! ### Directories -/

/-- The names of a path that begins at the root, with dots followed. -/
def straighten (path : String) : List String :=
  ((Path.mk path).segments.foldl (fun names segment =>
    if segment = "" ∨ segment = "." then names
    else if segment = ".." then names.tail
    else segment :: names) []).reverse

def currentDirectory : Effect String := do
  let machine ← get
  return (machine.bindings.lookup "PWD").bind (·.value) |>.getD
    (ofText (Location.path machine.workDir).text)

/-- Goes to a directory, and says where that is if the way to it was not given. -/
def changeDirectory (arguments : List String) : Effect Nat := do
  let (_, operands) ← letters "cd" "LP" arguments
  let (target, tell) ←
    match operands with
    | [] => pure ((← Effect.valueOf? "HOME").getD "", false)
    | "-" :: _ => pure ((← Effect.valueOf? "OLDPWD").getD "", true)
    | target :: _ => pure (target, false)
  let here ← currentDirectory
  let tell := tell || operands == ["-"]
  let joined := if target.toList.head? = some '/' then target else here ++ "/" ++ target
  let straight := "/" ++ "/".intercalate (straighten joined)
  let disk ← Effect.disk
  match disk.find ⟨toText straight⟩ with
  | .ok (location, .directory) =>
    modify fun machine => { machine with workDir := location }
    Effect.setVariable "OLDPWD" here
    Effect.setVariable "PWD" straight
    if tell then Effect.write 1 (toBytes (straight ++ "\n"))
    return 0
  | _ => refuse "cd" ("can't cd to " ++ target)

/-! ### Variables -/

/-- Is the name one that a variable can have? -/
def checkName (command name : String) : Effect Unit := do
  if !isName name.toList then refuse command (name ++ ": bad variable name")

/-- Characters as the shell could read them again: stretches in quotes, and the single quotes
between them in double ones. -/
def shownChars : Nat → List Char → List Char
  | 0, _ => []
  | fuel + 1, chars =>
    let isQuote (c : Char) : Bool := c == '\''
    let plain := chars.takeWhile fun c => !isQuote c
    let behind := chars.dropWhile fun c => !isQuote c
    let rest := behind.dropWhile isQuote
    '\'' :: plain ++ '\'' ::
      if behind.isEmpty then []
      else
        '"' :: behind.takeWhile isQuote ++ '"' ::
          if rest.isEmpty then [] else shownChars fuel rest

/-- A value as the shell could read it again. -/
def shownValue (value : String) : String :=
  let chars := value.toList
  String.ofList (shownChars (chars.length + 1) chars)

/-- Lists variables, each behind a word. -/
def listVariables (start : String) (among : Variable → Bool) : Effect Unit := do
  let sorted := (← get).bindings.mergeSort fun a b => a.1 ≤ b.1
  for (name, held) in sorted do
    if among held then
      let value := (held.value.map fun value => "=" ++ shownValue value).getD ""
      Effect.write 1 (toBytes (start ++ name ++ value ++ "\n"))

/-- The two sides of an assignment, or the name alone. -/
def sides (argument : String) : String × Option String :=
  let name := argument.toList.takeWhile (· != '=')
  match argument.toList.dropWhile (· != '=') with
  | _ :: value => (String.ofList name, some (String.ofList value))
  | [] => (argument, none)

/-- Marks variables, and gives those values that are assigned to. -/
def mark (command : String) (change : Variable → Variable) (among : Variable → Bool)
    (arguments : List String) : Effect Nat := do
  let (shown, operands) ← letters command "p" arguments
  if operands.isEmpty ∨ shown.contains 'p' then
    listVariables (command ++ " ") among
  else
    for argument in operands do
      let (name, value) := sides argument
      checkName command name
      match value with
      | some value => Effect.setVariable name value
      | none => pure ()
      let held := (← Effect.binding? name).getD { value := none }
      Effect.putVariable name (some (change held))
  return 0

/-- Makes variables that the function at hand has for itself. -/
def makeLocal (arguments : List String) : Effect Nat := do
  match (← get).hidden with
  | [] => refuse "local" "not in a function"
  | frame :: frames =>
    let mut frame := frame
    for argument in arguments do
      let (name, value) := sides argument
      checkName "local" name
      if !(frame.any fun entry => entry.1 == name) then
        frame := (name, ← Effect.binding? name) :: frame
      match value with
      | some value => Effect.setVariable name value
      | none => pure ()
    modify fun machine => { machine with hidden := frame :: frames }
    return 0

def unset (arguments : List String) : Effect Nat := do
  let (shown, operands) ← letters "unset" "fv" arguments
  for name in operands do
    if shown.contains 'f' then
      modify fun machine =>
        { machine with functions := machine.functions.filter fun entry => entry.1 != name }
    else
      checkName "unset" name
      match ← Effect.binding? name with
      | some held =>
        if held.fixed then refuse "unset" (name ++ ": is read only")
        else Effect.putVariable name none
      | none => pure ()
  return 0

/-! ### Aliases -/

def listAlias (name : String) (text : List Char) : Effect Unit :=
  Effect.write 1 (toBytes (name ++ "=" ++ shownValue (String.ofList text) ++ "\n"))

/-- Says that there is no such alias. -/
def lackAlias (command name : String) : Effect Unit :=
  Effect.write 2 (toBytes (command ++ ": " ++ name ++ " not found\n"))

def alias' (arguments : List String) : Effect Nat := do
  if arguments.isEmpty then
    for (name, text) in (← get).aliases do
      listAlias name text
  let mut status := 0
  for argument in arguments do
    match sides argument, (← get).aliases.lookup argument with
    | (name, some value), _ =>
      modify fun machine =>
        { machine with aliases := Effect.put name value.toList machine.aliases }
    | (name, none), some text => listAlias name text
    | (name, none), none =>
      lackAlias "alias" name
      status := 1
  return status

def unalias (arguments : List String) : Effect Nat := do
  let (shown, operands) ← letters "unalias" "a" arguments
  if !shown.isEmpty then modify fun machine => { machine with aliases := [] }
  let mut status := 0
  for name in operands do
    if ((← get).aliases.lookup name).isNone then
      lackAlias "unalias" name
      status := 1
    modify fun machine =>
      { machine with aliases := machine.aliases.filter fun entry => entry.1 != name }
  return status

/-! ### Options and arguments -/

def switch (option : String) (on : Bool) : Effect Unit :=
  modify fun machine =>
    let others := machine.options.filter (· != option)
    { machine with options := if on then option :: others else others }

/-- Shows all options and whether they are set, for a reader or as the commands that set them. -/
def listOptions (forReader : Bool) : Effect Unit := do
  let machine ← get
  if forReader then Effect.write 1 (toBytes "Current option settings\n")
  for (name, _) in Effect.optionNames do
    let on := machine.options.contains name
    let line :=
      if forReader then
        let gap := String.ofList (List.replicate (16 - name.length) ' ')
        name ++ gap ++ (if on then "on" else "off")
      else "set " ++ (if on then "-o " else "+o ") ++ name
    Effect.write 1 (toBytes (line ++ "\n"))

/-- Sets options by their letters. A letter can ask for a name, which comes next. -/
def switchLetters (on : Bool) : List Char → List String → Effect (List String)
  | [], rest => return rest
  | 'o' :: more, name :: rest => do
    if (Effect.optionNames.lookup name).isSome then
      switch name on
      switchLetters on more rest
    else refuse "set" ("Illegal option " ++ (if on then "-" else "+") ++ "o " ++ name)
  | 'o' :: more, [] => do
    listOptions on
    switchLetters on more []
  | c :: more, rest => do
    match Effect.optionOf? c with
    | some option =>
      switch option on
      switchLetters on more rest
    | none => refuse "set" ("Illegal option " ++ (if on then "-" else "+") ++ String.ofList [c])

/-- Sets options, and the arguments if there are others. -/
def set : Nat → List String → Effect Nat
  | 0, _ => return 0
  | _, [] => return 0
  | fuel + 1, argument :: rest => do
    let replace (arguments : List String) : Effect Nat := do
      modify fun machine => { machine with arguments }
      return 0
    match argument.toList with
    | ['-', '-'] => replace rest
    | ['-'] =>
      switch "xtrace" false
      switch "verbose" false
      if rest.isEmpty then return 0 else replace rest
    | '-' :: letters =>
      let rest ← switchLetters true letters rest
      set fuel rest
    | '+' :: letters =>
      let rest ← switchLetters false letters rest
      set fuel rest
    | _ => replace (argument :: rest)

def shift (arguments : List String) : Effect Nat := do
  let count ←
    match arguments with
    | [] => pure 1
    | text :: _ => natural "shift" text
  if (← get).arguments.length < count then refuse "shift" "can't shift that many"
  else
    modify fun machine => { machine with arguments := machine.arguments.drop count }
    return 0

/-! ### Reading -/

/-- The characters of a line, each with a mark if a backslash stood before it; whether the line
ended, and what is left. -/
def lineOf (raw : Bool) : Nat → List UInt8 → List (Char × Bool) × Bool × List UInt8
  | 0, rest => ([], false, rest)
  | _, [] => ([], false, [])
  | _, 0x0A :: rest => ([], true, rest)
  | fuel + 1, b :: rest =>
    if b = 0 then lineOf raw fuel rest
    else if b = 0x5C ∧ !raw then
      match rest with
      | [] => ([], false, [])
      | 0x0A :: rest => lineOf raw fuel rest
      | c :: rest =>
        let (line, ended, rest) := lineOf raw fuel rest
        ((Char.ofUInt8 c, true) :: line, ended, rest)
    else
      let (line, ended, rest) := lineOf raw fuel rest
      ((Char.ofUInt8 b, false) :: line, ended, rest)

/-- Shares a line out among so many variables; the last one gets the rest. -/
def share (separators : List Char) : Nat → List (Char × Bool) → List String
  | 0, _ => []
  | count + 1, line =>
    let separates (entry : Char × Bool) : Bool := separators.contains entry.1 && !entry.2
    let isBlank (entry : Char × Bool) : Bool :=
      separates entry && (entry.1 == ' ' || entry.1 == '\t' || entry.1 == '\n')
    let text (line : List (Char × Bool)) : String := String.ofList (line.map Prod.fst)
    let line := line.dropWhile isBlank
    let first := line.takeWhile fun entry => !separates entry
    let behind := (line.dropWhile fun entry => !separates entry).dropWhile isBlank
    let next :=
      match behind with
      | entry :: rest =>
        -- a separator next to blanks counts together with them
        if separates entry then rest.dropWhile isBlank else behind
      | [] => []
    match count with
    | 0 =>
      if next.isEmpty then [text first]
      else [text (line.reverse.dropWhile isBlank).reverse]
    | count => text first :: share separators count next

def read (arguments : List String) : Effect Nat := do
  let rec withoutPrompt : List String → List String
    | "-p" :: _ :: rest => withoutPrompt rest
    | argument :: rest => argument :: withoutPrompt rest
    | [] => []
  let (shown, names) ← letters "read" "r" (withoutPrompt arguments)
  if names.isEmpty then refuse "read" "arg count"
  for name in names do
    checkName "read" name
  let input ← Effect.unread 0
  let (line, ended, rest) := lineOf (shown.contains 'r') (input.length + 1) input
  Effect.setUnread 0 rest
  let values := share (← Effect.separators) names.length line
  for (name, i) in names.zipIdx do
    Effect.setVariable name ((values[i]?).getD "")
  return if ended then 0 else 1

/-! ### Switches of scripts -/

/-- Takes the next switch off the arguments of a script. -/
def nextSwitch (arguments : List String) : Effect Nat := do
  match arguments with
  | known :: name :: given =>
    let args ← if given.isEmpty then pure (← get).arguments else pure given
    let place := ((← Effect.valueOf? "OPTIND").bind String.toNat?).getD 1
    let inside := (← get).letterPlace
    let put (letter : String) (value : Option String) (place inside : Nat) : Effect Unit := do
      Effect.setVariable name letter
      match value with
      | some value => Effect.setVariable "OPTARG" value
      | none => Effect.putVariable "OPTARG" none
      Effect.setVariable "OPTIND" (toString place)
      modify fun machine => { machine with letterPlace := inside }
    let quiet := known.toList.head? = some ':'
    match args[place - 1]? with
    | none =>
      put "?" none place 0
      return 1
    | some argument =>
      let text := argument.toList
      if inside = 0 ∧ (text.head? ≠ some '-' ∨ text.length < 2 ∨ text = ['-', '-']) then
        put "?" none (if text = ['-', '-'] then place + 1 else place) 0
        return 1
      else
        let at' := if inside = 0 then 1 else inside
        let letter := (text[at']?).getD '?'
        let more := text.drop (at' + 1)
        let follow := (known.toList.dropWhile (· != letter)).tail
        let shown := String.ofList [letter]
        let (nextPlace, nextInside) :=
          if more.isEmpty then (place + 1, 0) else (place, at' + 1)
        if letter = ':' ∨ !known.toList.contains letter then
          if quiet then put "?" (some shown) nextPlace nextInside
          else
            Effect.write 2 (toBytes ("Illegal option -" ++ shown ++ "\n"))
            put "?" none nextPlace nextInside
          return 0
        else if follow.head? = some ':' then
          if !more.isEmpty then put shown (some (String.ofList more)) (place + 1) 0
          else
            match args[place]? with
            | some value => put shown (some value) (place + 2) 0
            | none =>
              if quiet then put ":" (some shown) (place + 1) 0
              else
                Effect.write 2 (toBytes ("No arg for -" ++ shown ++ " option\n"))
                put "?" none (place + 1) 0
          return 0
        else
          put shown none nextPlace nextInside
          return 0
  | _ => refuse "getopts" "Usage: getopts optstring var [arg...]"

/-! ### Signals -/

/-- The name that a signal is shown under. One has a name that the shell does not know, and
those that have no fixed use are counted from either end. -/
def signalName (signal : Nat) : String :=
  if signal = 0 then "EXIT"
  else if signal = 34 then "RTMIN"
  else if signal = 64 then "RTMAX"
  else if 34 < signal ∧ signal < 50 then "RTMIN+" ++ toString (signal - 34)
  else if 50 ≤ signal ∧ signal < 64 then "RTMAX-" ++ toString (64 - signal)
  else
    match Ending.signalName? signal with
    | some "STKFLT" => toString signal
    | name => name.getD (toString signal)

/-- The signal that a name or number stands for. -/
def signal? (text : String) : Option Nat :=
  let isNumber := !text.isEmpty && text.toList.all Char.isDigit
  if isNumber then text.toNat?.filter (· ≤ 64)
  else
    let upper := String.ofList (text.toList.map Char.toUpper)
    (List.range 65).find? fun signal => signalName signal == upper

/-- Sends a signal to the shell itself. -/
def receive (signal : Nat) : Effect Unit := do
  match (← get).traps.lookup signal with
  | some action =>
    if !action.isEmpty then
      modify fun machine => { machine with pending := machine.pending ++ [signal] }
  | none =>
    -- these are not dealt with unless that is asked for
    if signal ∉ [0, 17, 18, 23, 28] then throw (.killed signal)

def killUsage : String :=
  "Usage: kill [-s sigspec | -signum | -sigspec] [pid | job]... or\nkill -l [exitstatus]"

/-- Sends a signal to processes. -/
def sendAll (signal : Nat) : List String → Effect Nat
  | [] => refuse "kill" killUsage
  | targets => do
    let mut status := 0
    for target in targets do
      if target.toList.head? = some '%' then refuse "kill" ("No such job: " ++ target)
      let process ← natural "kill" target
      if process = (← get).process then receive signal
      else if !((← get).jobs.any fun job => job.1 == process) then
        Effect.complain "No such process\n"
        status := 1
    return status

def kill (arguments : List String) : Effect Nat := do
  let listed (name : String) : Effect Nat := do
    Effect.write 1 (toBytes (name ++ "\n"))
    return 0
  match arguments with
  | [] => refuse "kill" killUsage
  | "--" :: targets => sendAll 15 targets
  | ["-l"] =>
    for n in [0:65] do
      let name := if n = 0 then "0" else signalName n
      Effect.write 1 (toBytes (name ++ "\n"))
    return 0
  | "-l" :: status :: _ =>
    let n ← natural "kill" status
    let signal := if 128 < n then n - 128 else n
    if 0 < signal ∧ signal ≤ 64 then listed (signalName signal)
    else refuse "kill" ("invalid signal number or exit status: " ++ status)
  | ["-s"] => refuse "kill" "No arg for -s option"
  | "-s" :: name :: targets =>
    match signal? name with
    | some signal => sendAll signal (if targets.head? = some "--" then targets.tail else targets)
    | none => refuse "kill" ("invalid signal number or name: " ++ name)
  | first :: targets =>
    match first.toList with
    | '-' :: c :: more =>
      match signal? (String.ofList (c :: more)) with
      | some signal => sendAll signal targets
      | none => refuse "kill" ("Illegal option -" ++ String.ofList [c])
    | _ => sendAll 15 arguments

/-- Says what to do when a signal arrives, or when the shell ends. -/
def trap (arguments : List String) : Effect Nat := do
  let (_, arguments) ← letters "trap" "" arguments
  match arguments with
  | [] =>
    for (signal, action) in (← get).traps.mergeSort fun a b => a.1 ≤ b.1 do
      Effect.write 1
        (toBytes ("trap -- " ++ shownValue action ++ " " ++ signalName signal ++ "\n"))
    return 0
  | first :: rest =>
    let alone := rest.isEmpty || (signal? first).isSome && first.toList.all Char.isDigit
    let action := if alone ∨ first = "-" then none else some first
    for name in (if alone then arguments else rest) do
      match signal? name with
      | none =>
        Effect.write 2 (toBytes ("trap: " ++ name ++ ": bad trap\n"))
        return 1
      | some signal =>
        modify fun machine =>
          let others := machine.traps.filter fun entry => entry.1 != signal
          { machine with traps := (action.map (signal, ·)).toList ++ others }
    return 0

/-- Waits for commands in the background, which have ended long since. -/
def wait (arguments : List String) : Effect Nat := do
  let (_, operands) ← letters "wait" "" arguments
  match operands.getLast? with
  | none => return 0
  | some target =>
    let process ← natural "wait" target
    return ((← get).jobs.lookup process).getD 127

/-! ### Finding commands -/

/-- The commands that the shell knows itself, apart from the special ones. -/
def plainCommands : List String :=
  ["[", "alias", "bg", "cd", "command", "echo", "false", "fg", "getopts", "hash", "jobs", "kill",
    "printf", "pwd", "read", "test", "true", "type", "ulimit", "umask", "unalias",
    "wait"]

/-- Where programs are looked for. -/
def programDirectories : Effect (List String) := do
  let path := ((← Effect.valueOf? "PATH").getD "").toList
  return (Effect.splitColons path).map fun stretch =>
    String.ofList (stretch.takeWhile (· != ':'))

/-- The programs that are installed. -/
def programs : List String :=
  ["cat", "tr", "sh", "false"]

def installedIn : List String :=
  ["/bin", "/usr/bin"]

/-- The path of a program, if there is one of the name. -/
def programPath? (name : String) : Effect (Option String) := do
  if !programs.contains name then return none
  else
    let directories ← programDirectories
    return (directories.find? installedIn.contains).map (· ++ "/" ++ name)

/-- Says what a name stands for; `brief` without explanation. -/
def explain (brief : Bool) (name : String) : Effect Nat := do
  let say (long short : String) : Effect Nat := do
    Effect.write 1 (toBytes ((if brief then short else name ++ long) ++ "\n"))
    return 0
  if Reader.keywords.contains name then say " is a shell keyword" name
  else if ((← get).functions.lookup name).isSome then say " is a shell function" name
  else if specialCommands.contains name then say " is a special shell builtin" name
  else if plainCommands.contains name then say " is a shell builtin" name
  else
    match ← programPath? name with
    | some path => say (" is " ++ path) path
    | none =>
      if !brief then Effect.write 1 (toBytes (name ++ ": not found\n"))
      return 127
where
  specialCommands : List String := Reader.specialCommands

def explainAll (names : List String) : Effect Nat := do
  let mut status := 0
  for name in names do
    let answer ← explain false name
    if answer ≠ 0 then status := answer
  return status

/-! ### Printing and conditions -/

def printf (arguments : List String) : Effect Nat := do
  let (_, operands) ← letters "printf" "" arguments
  match operands with
  | [] => refuse "printf" "usage: printf format [arg ...]"
  | format :: rest =>
    let printed := formatAll format.toList (rest.length + 1) rest
    for warning in printed.warnings do
      Effect.complain warning
    Effect.write 1 printed.output
    match printed.mistake with
    | some message => refuse "printf" message
    | none => return if printed.warnings.isEmpty then 0 else 1

def test (name : String) (arguments : List String) : Effect Nat := do
  let words ←
    if name = "[" then
      if arguments.getLast? = some "]" then pure arguments.dropLast
      else refuse name "missing ]"
    else pure arguments
  match Condition.evaluate (← Effect.disk) (words.length + 1) words with
  | .ok holds => return if holds then 0 else 1
  | .error message => refuse name message

/-! ### The rest -/

/-- Permissions as three digits and a leading one. -/
def octal (mask : Nat) : String :=
  String.ofList ((Nat.toDigits 8 (4096 + mask)).drop 1)

/-- The permissions that a mask leaves. -/
def allowed (mask : Nat) : String :=
  let letters (shift : Nat) : String :=
    String.ofList ([('r', 4), ('w', 2), ('x', 1)].filterMap fun (letter, bit) =>
      if (mask >>> shift) &&& bit = 0 then some letter else none)
  "u=" ++ letters 6 ++ ",g=" ++ letters 3 ++ ",o=" ++ letters 0

/-- Shows or changes the permissions that new files do not get. -/
def umask (arguments : List String) : Effect Nat := do
  let (shown, operands) ← letters "umask" "S" arguments
  let mask := (← get).mask
  match operands with
  | [] =>
    let text := if shown.isEmpty then octal mask else allowed mask
    Effect.write 1 (toBytes (text ++ "\n"))
    return 0
  | text :: _ =>
    let digits := text.toList
    if digits.head?.any Char.isDigit then
      if digits.all fun c => '0' ≤ c ∧ c ≤ '7' then
        let mask := digits.foldl (fun n c => n * 8 + (c.toNat - 48)) 0
        modify fun machine => { machine with mask := mask % 512 }
        return 0
      else refuse "umask" ("Illegal number: " ++ text)
    else refuse "umask" ("Illegal mode: " ++ text)

/-- Looks for programs and remembers where they are. -/
def hash (arguments : List String) : Effect Nat := do
  let (_, operands) ← letters "hash" "rv" arguments
  let mut status := 0
  for name in operands do
    let machine ← get
    let there := (← programPath? name).isSome || plainCommands.contains name
      || Reader.specialCommands.contains name || (machine.functions.lookup name).isSome
    if !there then
      Effect.complain (name ++ ": not found")
      status := 1
  return status

def ulimit (arguments : List String) : Effect Nat := do
  let (_, operands) ← letters "ulimit" "HStfdscmlpnavwr" arguments
  match operands with
  | [] => Effect.write 1 (toBytes "unlimited\n")
  | text :: _ => if text ≠ "unlimited" ∧ !text.toList.all Char.isDigit then
      refuse "ulimit" "bad number"
  return 0

/-- Runs a command that runs no others. -/
def run? (name : String) (arguments : List String) : Option (Effect Nat) :=
  match name with
  | ":" => some (return 0)
  | "true" => some (return 0)
  | "false" => some (return 1)
  | "echo" => some do
    Effect.write 1 (echo arguments)
    return 0
  | "printf" => some (printf arguments)
  | "test" => some (test name arguments)
  | "[" => some (test name arguments)
  | "pwd" => some do
    let _ ← letters name "LP" arguments
    Effect.write 1 (toBytes ((← currentDirectory) ++ "\n"))
    return 0
  | "cd" => some (changeDirectory arguments)
  | "export" => some
    (mark name (fun held => { held with exported := true }) Variable.exported arguments)
  | "readonly" => some
    (mark name (fun held => { held with fixed := true }) Variable.fixed arguments)
  | "local" => some (makeLocal arguments)
  | "unset" => some (unset arguments)
  | "set" => some do
    if arguments.isEmpty then
      listVariables "" fun held => held.value.isSome
      return 0
    else set (arguments.length + 1) arguments
  | "shift" => some (shift arguments)
  | "read" => some (read arguments)
  | "getopts" => some (nextSwitch arguments)
  | "kill" => some (kill arguments)
  | "trap" => some (trap arguments)
  | "wait" => some (wait arguments)
  | "type" => some (explainAll arguments)
  | "umask" => some (umask arguments)
  | "times" => some do
    Effect.write 1 (toBytes "0m0.000000s 0m0.000000s\n0m0.000000s 0m0.000000s\n")
    return 0
  | "ulimit" => some (ulimit arguments)
  | "hash" => some (hash arguments)
  | "jobs" => some do
    let _ ← letters name "lp" arguments
    return 0
  | "alias" => some (alias' arguments)
  | "unalias" => some (unalias arguments)
  | "fg" => some (refuse name "No current job")
  | "bg" => some (refuse name "No current job")
  | _ => none

end SiteTree.Shell.Builtin
