import SiteTree.Shell.Builtin

/-!
# Running scripts

Commands run one after the other and leave their status. What runs a command is given what
runs the commands in it; `run` ties the two together, with fuel for how deep commands are
nested.
-/

namespace SiteTree.Shell

open SiteTree.Command

/-- Runs a command. Where its status is asked for by the script itself, it is `tested`. -/
abbrev Runner := (tested : Bool) → Command → Effect Unit

namespace Effect

def status : Effect Nat := do
  return (← get).status

/-- Runs something and puts the streams back. -/
def keepingStreams {α : Type} (body : Effect α) : Effect α := do
  let streams := (← get).streams
  let restore : Effect Unit := modify fun machine => { machine with streams }
  let value ← tryCatch body fun leave => do
    restore
    throw leave
  restore
  return value

def setStream (stream : Nat) (channel : Channel) : Effect Unit :=
  modify fun machine => { machine with streams := put stream channel machine.streams }

end Effect

namespace Runner

open Effect

variable (again : Runner)

/-! ### Text as a script -/

/-- The first lines of a text. -/
def firstLines : Nat → List Char → List Char
  | 0, _ => []
  | _, [] => []
  | lines + 1, c :: text => c :: firstLines (if c = '\n' then lines else lines + 1) text

/-- Runs the commands of a script. The lines of one that comes from a file can be shown as they
are read. -/
def source (tested fromFile : Bool) : Nat → Source → Effect Unit
  | 0, _ => return
  | fuel + 1, script => do
    let shown ← hasOption "verbose"
    let show' (text : List Char) : Effect Unit := do
      if fromFile ∧ shown then write 2 (toBytes (String.ofList text))
    match Reader.nextCommand { script with aliases := (← get).aliases } with
    | .error mistake =>
      show' (firstLines (mistake.line + 1 - script.line) script.text)
      modify fun machine => { machine with line := mistake.line }
      giveUp mistake.message
    | .ok (none, _) => show' script.text
    | .ok (some command, rest) =>
      show' (script.text.take (script.text.length - rest.text.length))
      again tested command
      source tested fromFile fuel rest

def script (tested : Bool) (text : String) : Effect Unit :=
  let chars := text.toList
  source again tested false (chars.length + 2) { text := chars }

/-- Runs the script in a file. -/
def scriptFile (tested : Bool) (content : List UInt8) : Effect Unit :=
  let chars := (ofBytes content).toList
  source again tested true (chars.length + 2) { text := chars }

/-- Does what is to be done when signals have arrived. -/
def arrivals : Effect Unit := do
  let machine ← get
  set { machine with pending := [] }
  for signal in machine.pending do
    match machine.traps.lookup signal with
    | some action =>
      script again false action
      setStatus machine.status
    | none => pure ()

/-! ### Copies of the shell -/

/-- Runs the body of a shell to its end, and then what is to be done at the end. Only a signal
ends it before that. -/
def toEnd (body : Effect Unit) : Effect Unit := do
  let finish (body : Effect Unit) : Effect Unit :=
    tryCatch body fun leave =>
      match leave with
      | .exit status => setStatus status
      | .fault => setStatus 2
      | .killed signal => throw (.killed signal)
      | .leaveFunction status => setStatus status
      | _ => pure ()
  finish body
  let machine ← get
  match machine.traps.lookup 0 with
  | none => pure ()
  | some action =>
    set { machine with traps := machine.traps.filter fun entry => entry.1 != 0 }
    let before := machine.status
    finish do
      script again false action
      setStatus before

/-- Runs something in a copy of the shell: what the world has become stays, and the rest is as
it was before. The answer is the status. -/
def inCopy (body : Effect Unit) : Effect Nat := do
  let before ← get
  set { before with traps := before.traps.filter fun entry => entry.2 == "" }
  toEnd again body
  let after ← get
  set { before with world := after.world }
  return after.status

/-- What a command writes. -/
def output (command : Command) : Effect (List UInt8) := do
  let id ← fresh
  let status ← inCopy again do
    setStream 1 (.sink id)
    again false command
  modify fun machine => { machine with substituted := some status }
  return (← get).world.collected id

/-! ### Redirections -/

/-- Why a file cannot be opened, given what it lacks. -/
def openError (missing : String) : DiskError → String
  | .notFound => missing
  | .notDirectory => missing
  | error => error.reason

/-- The streams that files stand for. -/
def streamFiles : List (String × Nat) :=
  [("/dev/stdin", 0), ("/dev/stdout", 1), ("/dev/stderr", 2), ("/dev/fd/0", 0),
    ("/dev/fd/1", 1), ("/dev/fd/2", 2)]

/-- Opens a file for reading. -/
def openToRead (name : String) : Effect Channel := do
  match (← disk).find ⟨toText name⟩ with
  | .ok (location, .file content) => newSource content (some location)
  | .ok (_, _) => return .directory
  | .error error => giveUp ("cannot open " ++ name ++ ": " ++ openError "No such file" error)

/-- Opens a file for writing; what it held before stays if more is to be added to it. -/
def openToWrite (keep : Bool) (name : String) : Effect Channel := do
  let disk ← disk
  let path : Path := ⟨toText name⟩
  let refuse (error : DiskError) : Effect Channel :=
    giveUp ("cannot create " ++ name ++ ": " ++ openError "Directory nonexistent" error)
  let before :=
    match disk.find path with
    | .ok (_, .file content) => some content
    | _ => none
  if name = "/dev/full" then return .full
  else if !keep ∧ before.isSome ∧ (← hasOption "noclobber") then refuse .exists
  else
    let written := disk.writeBytes path (if keep then before.getD [] else [])
    match written, disk.locate .write path with
    | .ok disk, .ok spot =>
      changeWorld fun world => { world with entries := disk.entries }
      return .file spot.location keep
    | .error error, _ => refuse error
    | _, .error error => refuse error

def openFile (mode : FileMode) (name : String) : Effect Channel := do
  match name, streamFiles.lookup name with
  | "/dev/null", _ => return .nowhere
  | _, some stream =>
    match ← channel? stream with
    | some channel => return channel
    | none => giveUp ("cannot open " ++ name ++ ": No such file")
  | _, none =>
    match mode with
    | .read => openToRead name
    | .readWrite =>
      let _ ← openToWrite true name
      openToRead name
    | .append => openToWrite true name
    | .write => openToWrite false name

def redirect : Redirection → Effect Unit
  | .file mode stream word => do
    let name ← textOfWord (output again) false word
    setStream stream (← openFile mode name)
  | .copy stream word => do
    let text ← textOfWord (output again) false word
    if text = "-" then
      modify fun machine =>
        { machine with streams := machine.streams.filter fun entry => entry.1 != stream }
    else
      match text.toNat? with
      | none => giveUp "Bad fd number"
      | some number =>
        match ← channel? number with
        | some channel => setStream stream channel
        | none => giveUp (text ++ ": Bad file descriptor")
  | .document stream content => do
    let text ← textOfWord (output again) false content
    setStream stream (← newSource (toBytes text) none)

/-- Redirects streams one after the other; is that possible? -/
def redirectAll (redirections : List Redirection) : Effect Bool := do
  tryCatch
    (do
      for redirection in redirections do
        redirect again redirection
      return true)
    fun leave =>
      match leave with
      | .fault => return false
      | leave => throw leave

/-! ### Programs -/

/-- Runs a filter on the streams. -/
def filter (program : Program) (name : String) (arguments : List String) : Effect Unit := do
  let input ← unread 0
  let disk ← disk
  let inputFile? : Option Channel → Option Location
    | some (.source _ file) => file
    | _ => none
  let outputFile? : Option Channel → Option Location
    | some (.file location adding) =>
      if adding || disk.get? location != some (.file []) then some location else none
    | _ => none
  let outcome := program
    { name := toText name
      arguments := arguments.map toText
      input
      environment := (← environment).map fun (name, value) => (toText name, toText value)
      disk
      inputFault := inputFault? (← channel? 0)
      outputFault := outputFault? (← channel? 1)
      inputFile := inputFile? (← channel? 0)
      outputFile := outputFile? (← channel? 1) }
  setUnread 0 outcome.unread
  write 1 outcome.output
  write 2 outcome.errors
  match outcome.ending with
  | .exited status => setStatus status
  | .signalled signal => setStatus (128 + signal)

/-- What is said of a program that a signal has ended. -/
def obituary? (signal : Nat) : Option String :=
  if 34 ≤ signal ∧ signal ≤ 64 then some ("Real-time signal " ++ toString (signal - 34))
  else obituaries.lookup signal
where
  obituaries : List (Nat × String) :=
    [(1, "Hangup"), (3, "Quit"), (4, "Illegal instruction"), (5, "Trace/breakpoint trap"),
      (6, "Aborted"), (7, "Bus error"), (8, "Floating point exception"), (9, "Killed"),
      (10, "User defined signal 1"), (11, "Segmentation fault"), (12, "User defined signal 2"),
      (14, "Alarm clock"), (15, "Terminated"), (16, "Stack fault"),
      (24, "CPU time limit exceeded"), (25, "File size limit exceeded"),
      (26, "Virtual timer expired"), (27, "Profiling timer expired"), (29, "I/O possible"),
      (30, "Power failure"), (31, "Bad system call")]

/-- What a shell is to run: a script with a name and arguments, or what it reads itself. -/
inductive Start where
  | text (text name : String) (arguments : List String)
  | input (arguments : List String)
  | file (name : String) (arguments : List String)
  /-- a mistake in how it is started -/
  | wrong (message : String)

structure StartOptions where
  options : List String := []
  command : Bool := false
  input : Bool := false

/-- Reads the arguments of a shell. -/
def readStart (name : String) : Nat → StartOptions → List String → StartOptions × Start
  | 0, options, _ => (options, .input [])
  | fuel + 1, options, arguments =>
    let finish (arguments : List String) : StartOptions × Start :=
      if options.command then
        match arguments with
        | [] => (options, .wrong "-c requires an argument")
        | [text] => (options, .text text name [])
        | text :: name :: arguments => (options, .text text name arguments)
      else if options.input then (options, .input arguments)
      else
        match arguments with
        | [] => (options, .input [])
        | file :: arguments => (options, .file file arguments)
    match arguments with
    | [] => finish []
    | argument :: rest =>
      match argument.toList with
      | ['-'] => finish rest
      | ['-', '-'] => finish rest
      | sign :: letters =>
        let known (c : Char) : Bool :=
          "clo".toList.contains c || (optionOf? c).isSome
        let long := rest.take (letters.count 'o')
        if sign ≠ '-' ∧ sign ≠ '+' then finish arguments
        else
          match letters.find? (!known ·), long.find? fun word => (optionNames.lookup word).isNone with
          | some bad, _ => (options, .wrong ("Illegal option " ++ String.ofList [sign, bad]))
          | none, some bad =>
            (options, .wrong ("Illegal option " ++ String.ofList [sign] ++ "o " ++ bad))
          | none, none =>
            let named := long ++ letters.filterMap optionOf?
            let others := options.options.filter fun option => !named.contains option
            let options : StartOptions :=
              { options := (if sign = '-' then named else []) ++ others
                command := options.command || letters.contains 'c'
                input := options.input || letters.contains 's' }
            readStart name fuel options (rest.drop long.length)
      | [] => finish arguments

/-- The variables that a new shell does not take over. -/
def freshVariables : List (String × Variable) :=
  [("IFS", " \t\n"), ("OPTIND", "1"), ("PS1", "# "), ("PS2", "> "), ("PS4", "+ ")].map
    fun (name, value) => (name, { value := some value })

/-- Runs a new shell in the streams of this one. The answer says how it ended. -/
def startShell (name : String) (arguments : List String) : Effect Ending := do
  let before ← get
  let process ← fresh
  let handedOn := before.bindings.filter fun entry =>
    entry.2.exported && entry.2.value.isSome || entry.1 == "PWD"
  let bindings := freshVariables ++ handedOn.filter fun entry =>
    (freshVariables.lookup entry.1).isNone
  let (options, start) := readStart name (arguments.length + 2) {} arguments
  let enter (name : String) (arguments : List String) (line : Nat) : Effect Unit := do
    let world := (← get).world
    let ignored := before.traps.filter fun entry => entry.2 == ""
    set { world, workDir := before.workDir, name, arguments, bindings, line, process
          streams := before.streams, options := options.options, traps := ignored
          mask := before.mask : Machine }
  let body : Effect Unit := do
    match start with
    | .text text name arguments => do
      enter name arguments 1
      toEnd again (script again false text)
    | .input arguments => do
      enter name arguments 1
      let bytes ← unread 0
      setUnread 0 []
      modify fun machine => { machine with options := "stdin" :: machine.options }
      toEnd again (scriptFile again false bytes)
    | .file file arguments => do
      enter name arguments 0
      match (← disk).find ⟨toText file⟩ with
      | .ok (_, .file content) => do
        enter file arguments 1
        toEnd again (scriptFile again false content)
      | .ok _ => setStatus 0
      | .error error => do
        complain ("cannot open " ++ file ++ ": " ++ openError "No such file" error)
        setStatus 2
    | .wrong message => do
      enter name [] 0
      complain message
      setStatus 2
  let killedBy ← tryCatch (do body; return none) fun leave =>
    match leave with
    | .killed signal => return some signal
    | _ => return none
  let after ← get
  set { before with world := after.world }
  match killedBy with
  | none => return .exited after.status
  | some signal => return .signalled signal

/-- Runs a new shell as a program. -/
def newShell (name : String) (arguments : List String) : Effect Unit := do
  match ← startShell again name arguments with
  | .exited status => setStatus status
  | .signalled signal =>
    match obituary? signal with
    | some text => write 2 (toBytes (text ++ "\n"))
    | none => pure ()
    setStatus (128 + signal)

/-- Runs the program of a name, in the place of the shell if it is `replacing` that. -/
def program (replacing : Bool) (name : String) (arguments : List String) : Effect Unit := do
  let lacking (status : Nat) (message : String) : Effect Unit := do
    complain (name ++ ": " ++ message)
    setStatus status
  let start (short : String) : Effect Unit :=
    if short = "sh" then
      if replacing then do
        match ← startShell again name arguments with
        | .exited status => setStatus status
        | .signalled signal => throw (.killed signal)
      else newShell again name arguments
    else
      match filters.lookup short with
      | some program => filter program name arguments
      | none => lacking 127 "not found"
  if name.toList.contains '/' then
    match Builtin.programs.find? fun program =>
        Builtin.installedIn.any fun directory => directory ++ "/" ++ program == name with
    | some short => start short
    | none =>
      match (← disk).find ⟨toText name⟩ with
      | .error .notFound => lacking 127 "not found"
      | .error .notDirectory => lacking 127 "not found"
      | _ => lacking 126 "Permission denied"
  else
    match ← Builtin.programPath? name with
    | some _ => start name
    | none => lacking 127 (if name.isEmpty then "Permission denied" else "not found")

/-! ### Simple commands -/

/-- The fields of the words of a command. Words behind a command that declares variables are
not split where they are assignments. -/
def fields (words : List Word) : Effect (List String) := do
  let declares (word : Word) : Bool :=
    match word with
    | [.text false chars] => ["export", "readonly", "local"].contains (String.ofList chars)
    | _ => false
  match words with
  | [] => return []
  | first :: rest =>
    let mut all ← fieldsOf (output again) first
    for word in rest do
      match declares first, Reader.assignment? word with
      | true, some (name, value) =>
        all := all ++ [name ++ "=" ++ (← textOfWord (output again) true value)]
      | _, _ => all := all ++ (← fieldsOf (output again) word)
    return all

/-- Shows a command before it runs. -/
def trace (words : List String) : Effect Unit := do
  if (← hasOption "xtrace") ∧ !words.isEmpty then
    let mark := (← valueOf? "PS4").getD ""
    let start ←
      match Reader.documentWord mark with
      | some word => textOfWord (output again) false word
      | none => pure mark
    write 2 (toBytes (start ++ " ".intercalate words ++ "\n"))

/-- Assigns values one after the other, so that each can make use of those before it. The
variables can be `exported` at the same time. -/
def assign (exported : Bool) (assignments : List (String × Word)) :
    Effect (List (String × String)) := do
  let mut values := []
  for (name, word) in assignments do
    let value ← textOfWord (output again) true word
    setVariable name value
    if exported then
      let held := (← binding? name).getD { value := none }
      putVariable name (some { held with exported := true })
    values := values ++ [(name, value)]
  return values

/-- Runs something and gives some variables back what they had before. -/
def keepingVariables (names : List String) (body : Effect Unit) : Effect Unit := do
  let before := (← get).bindings
  let restore : Effect Unit := do
    for name in names do
      putVariable name (before.lookup name)
  tryCatch body fun leave => do
    restore
    throw leave
  restore

/-- Calls a function. -/
def call (tested : Bool) (body : Command) (arguments : List String) : Effect Unit := do
  let before ← get
  set { before with arguments, loops := 0, hidden := [] :: before.hidden }
  let restore : Effect Unit := do
    let machine ← get
    for (name, held) in (machine.hidden.head?).getD [] do
      putVariable name held
    modify fun machine =>
      { machine with arguments := before.arguments, loops := before.loops, hidden := before.hidden }
  tryCatch (again tested body) fun leave =>
    match leave with
    | .leaveFunction status => setStatus status
    | leave => do
      restore
      throw leave
  restore

/-- The number of loops that a command leaves. -/
def loopCount (name : String) (arguments : List String) : Effect Nat := do
  let count ←
    match arguments with
    | [] => pure 1
    | text :: _ => Builtin.natural name text
  let machine ← get
  if count = 0 then Builtin.refuse name ("Illegal number: " ++ (arguments.head?).getD "")
  else return min count machine.loops

/-- Runs a special command of the shell that runs others or leaves what is being run. -/
def special? (tested : Bool) (name : String) (arguments : List String) : Option (Effect Unit) :=
  let statusOf (arguments : List String) : Effect Nat := do
    match arguments with
    | [] => status
    | text :: _ => Builtin.natural name text
  match name with
  | "exit" => some do throw (.exit ((← statusOf arguments) % 256))
  | "return" => some do throw (.leaveFunction ((← statusOf arguments) % 256))
  | "break" => some do
    let count ← loopCount name arguments
    setStatus 0
    if count ≠ 0 then throw (.leaveLoops count)
  | "continue" => some do
    let count ← loopCount name arguments
    setStatus 0
    if count ≠ 0 then throw (.nextRound count)
  | "eval" => some do
    setStatus 0
    script again tested (" ".intercalate arguments)
  | "." => some do
    let (_, operands) ← Builtin.letters name "" arguments
    match operands with
    | [] => setStatus 0
    | file :: _ =>
      if !file.toList.contains '/' then Builtin.refuse name (file ++ ": not found")
      match (← disk).find ⟨toText file⟩ with
      | .ok (_, .file content) => do
        setStatus 0
        tryCatch (speaking (some file) (scriptFile again tested content)) fun leave =>
          match leave with
          | .leaveFunction status => setStatus status
          | leave => throw leave
      | .ok _ => setStatus 0
      | .error error =>
        if file = "/dev/null" then setStatus 0
        else
          Builtin.refuse name
            ("cannot open " ++ file ++ ": " ++ openError "No such file" error)
  | "exec" => some do
    match arguments with
    | [] => setStatus 0
    | program :: rest =>
      let found ← Builtin.programPath? program
      if found.isNone ∧ !program.toList.contains '/' then
        complain (program ++ ": not found")
        throw (.exit 127)
      else
        Runner.program again true program rest
        modify fun machine => { machine with traps := machine.traps.filter fun t => t.1 != 0 }
        throw (.exit (← status))
  | _ => none

/-- Runs the command of a name that the shell knows itself. It fails if its output is lost. -/
def builtin? (tested : Bool) (name : String) (arguments : List String) : Option (Effect Unit) :=
  let body? := (special? again tested name arguments).or <|
    (Builtin.run? name arguments).map fun body => do setStatus (← body)
  body?.map fun body => speaking (some name) do
    let setLost (lost : Bool) : Effect Unit := modify fun machine => { machine with lost }
    setLost false
    body
    if (← get).lost then
      complain (name ++ ": I/O error")
      setStatus ((← status) ||| 1)
    setLost false

/-- Runs a command that is no special one; a mistake in it ends nothing else. -/
def tolerant (body : Effect Unit) : Effect Unit :=
  tryCatch body fun leave =>
    match leave with
    | .fault => setStatus 2
    | leave => throw leave

/-- Runs the command of a name, given by its first word. `functions` says whether it may be a
function. -/
def named (tested functions : Bool) (name : String) (arguments : List String) : Effect Unit := do
  let machine ← get
  let function? := if functions then machine.functions.lookup name else none
  match function?, builtin? again tested name arguments with
  | some body, _ => call again tested body arguments
  | none, some body => if Reader.specialCommands.contains name then body else tolerant body
  | none, none => program again false name arguments

/-- Runs the command behind `command`, or says what it is. -/
def plainly (tested : Bool) (arguments : List String) : Effect Unit := do
  let mut explainAs : Option Bool := none
  let mut rest := arguments
  let mut searching := true
  for argument in arguments do
    if searching then
      match argument.toList with
      | ['-', '-'] =>
        rest := rest.tail
        searching := false
      | '-' :: letters =>
        for letter in letters do
          if letter = 'v' then explainAs := some true
          else if letter = 'V' then explainAs := some false
          else if letter ≠ 'p' then
            tolerant (Builtin.refuse "command" ("Illegal option -" ++ String.ofList [letter]))
            return
        rest := rest.tail
      | _ => searching := false
  match explainAs, rest with
  | _, [] => setStatus 0
  | some brief, name :: _ => do setStatus (← Builtin.explain brief name)
  | none, name :: arguments =>
    tolerant (named again tested false name arguments)

def simple (tested : Bool) (line : Nat) (assignments : List (String × Word)) (words : List Word)
    (redirections : List Redirection) : Effect Unit := do
  modify fun machine => { machine with line, substituted := none }
  let fields ← fields again words
  let special := fields.head?.any Reader.specialCommands.contains
  let lasting := special || fields.isEmpty
  let run : Effect Unit := do
    let values ← assign again (!lasting) assignments
    trace again (values.map (fun (name, value) => name ++ "=" ++ value) ++ fields)
    match fields with
    | [] => setStatus ((← get).substituted.getD 0)
    | "command" :: arguments => plainly again tested arguments
    | name :: arguments => named again tested true name arguments
  let body : Effect Unit := do
    if ← redirectAll again redirections then
      if lasting then run else keepingVariables (assignments.map Prod.fst) run
    else
      setStatus 2
      if special then throw .fault
  if fields = ["exec"] then body else keepingStreams body

/-! ### Commands -/

/-- Ends the shell if that is asked for and a command fails where nothing tests it. -/
def checkExit (tested : Bool) : Effect Unit := do
  let status ← status
  if !tested ∧ status ≠ 0 ∧ (← hasOption "errexit") then throw (.exit status)

/-- Runs something in a loop; is the loop to go on? -/
def round (body : Effect Unit) : Effect Bool := do
  let loops := (← get).loops
  let onward ← tryCatch (do body; return true) fun leave => do
    modify fun machine => { machine with loops }
    match leave with
    | .leaveLoops count => if 1 < count then throw (.leaveLoops (count - 1)) else return false
    | .nextRound count => if 1 < count then throw (.nextRound (count - 1)) else return true
    | leave => throw leave
  return onward

/-- Runs something within one more loop. -/
def inLoop (body : Effect Unit) : Effect Unit := do
  let loops := (← get).loops
  modify fun machine => { machine with loops := loops + 1 }
  let restore : Effect Unit := modify fun machine => { machine with loops }
  tryCatch body fun leave => do
    restore
    throw leave
  restore

/-- The most rounds that a loop can take. -/
def maxRounds : Nat := 1000000

/-- Repeats a body as long as a condition asks for it; the status is that of the last body. -/
def rounds (tested untilSuccess : Bool) (condition body : Command) : Nat → Nat → Effect Unit
  | 0, last => setStatus last
  | fuel + 1, last => do
    let mut holds := false
    let onward ← round do
      again true condition
    if onward then holds := ((← status) == 0) != untilSuccess
    if !onward then setStatus 0
    else if !holds then setStatus last
    else
      let onward ← round (again tested body)
      if onward then rounds tested untilSuccess condition body fuel (← status)
      else pure ()

/-- Runs the parts of a pipeline, each with what the one before wrote as its input. -/
def pipeline (tested : Bool) (input : Option Channel) : List Command → Effect Unit
  | [] => pure ()
  | [command] => do
    let status ← inCopy again do
      match input with
      | some channel => setStream 0 channel
      | none => pure ()
      again tested command
    setStatus status
  | command :: commands => do
    let id ← fresh
    let _ ← inCopy again do
      match input with
      | some channel => setStream 0 channel
      | none => pure ()
      setStream 1 (.sink id)
      again tested command
    let channel ← newSource ((← get).world.collected id) none
    pipeline tested (some channel) commands

/-- Runs the first arm of which a pattern fits. -/
def arms (tested : Bool) (subject : List Char) :
    List (List Word × Command) → Effect Unit
  | [] => pure ()
  | (patterns, body) :: rest => do
    let mut fits := false
    for word in patterns do
      if !fits then fits := (← patternOf (output again) word).fits subject
    if fits then again tested body else arms tested subject rest

def each (tested : Bool) (name : String) (body : Command) : List String → Effect Unit
  | [] => pure ()
  | value :: values => do
    setVariable name value
    if ← round (again tested body) then each tested name body values

/-- Runs a command, given what runs the commands in it. -/
def step (tested : Bool) (command : Command) : Effect Unit := do
  if ← hasOption "noexec" then return
  match command with
  | .nothing => pure ()
  | .simple line assignments words redirections => do
    simple again tested line assignments words redirections
    arrivals again
    checkExit tested
  | .redirected line body redirections => do
    modify fun machine => { machine with line }
    keepingStreams do
      if ← redirectAll again redirections then again tested body else setStatus 2
  | .subshell line body => do
    modify fun machine => { machine with line }
    setStatus (← inCopy again (again tested body))
    checkExit tested
  | .background body => do
    let status ← inCopy again do
      setStream 0 .nowhere
      again true body
    let process ← fresh
    modify fun machine => { machine with jobs := (process, status) :: machine.jobs, status := 0 }
  | .pipeline commands => do
    pipeline again tested none commands
    checkExit tested
  | .negation body => do
    again true body
    setStatus (if (← status) = 0 then 1 else 0)
  | .sequence first second => do
    again tested first
    again tested second
  | .both first second => do
    again true first
    if (← status) = 0 then again tested second
  | .either first second => do
    again true first
    if (← status) ≠ 0 then again tested second
  | .branch condition body otherwise => do
    again true condition
    if (← status) = 0 then again tested body
    else
      setStatus 0
      again tested otherwise
  | .loop untilSuccess condition body =>
    inLoop (rounds again tested untilSuccess condition body maxRounds 0)
  | .each line name words body => do
    modify fun machine => { machine with line }
    let mut values := []
    for word in words do
      values := values ++ (← fieldsOf (output again) word)
    setStatus 0
    inLoop (each again tested name body values)
  | .select line subject branches => do
    modify fun machine => { machine with line }
    let text ← textOfWord (output again) false subject
    setStatus 0
    arms again tested text.toList branches
  | .define name body => do
    modify fun machine => { machine with functions := put name body machine.functions, status := 0 }
where
  /-- Puts a function in the place of the one of its name. -/
  put (name : String) (body : Command) (functions : List (String × Command)) :
      List (String × Command) :=
    (name, body) :: functions.filter fun entry => entry.1 != name

/-- Runs commands that are nested at most so deep. -/
def run : Nat → Runner
  | 0 => fun _ _ => throw (.exit 2)
  | fuel + 1 => step (run fuel)

end Runner

/-! ### The shell as a program -/

/-- How deep commands can be nested when they run. -/
def maxDepth : Nat := 10000

/-- The variables that every shell has. -/
def firstVariables (home workDir : Path) (environment : List (String × String)) :
    List (String × Variable) :=
  let held (exported : Bool) (name value : String) : String × Variable :=
    (ofText name, { value := some (ofText value), exported })
  environment.map (fun (name, value) => held true name value) ++
    [held true "HOME" home.text,
      held true "PATH" "/usr/local/sbin:/usr/local/bin:/usr/sbin:/usr/bin:/sbin:/bin",
      held true "PWD" workDir.text]

/-- The shell as a program. -/
def program (home : Path) : Program := fun invocation =>
  let workDir := invocation.disk.workDir
  let machine : Machine :=
    { world := { entries := invocation.disk.entries, sources := [(0, invocation.input)] }
      workDir
      name := ofText invocation.name
      process := 99
      bindings := firstVariables home workDir.path invocation.environment
      streams := [(0, .source 0 none), (1, .sink 1), (2, .sink 2)] }
  let body :=
    Runner.startShell (Runner.run maxDepth) machine.name (invocation.arguments.map ofText)
  let (ending, machine) := (body.run).run machine
  { output := machine.world.collected 1
    errors := machine.world.collected 2
    ending :=
      match ending with
      | .ok ending => ending
      | .error _ => .exited 2
    unread := (machine.world.sources.lookup 0).getD []
    entries := some machine.world.entries }

end SiteTree.Shell
