/-!
# Command-line arguments

A command line has two levels: options for the program, then a command with options of its own.  The options that every
command shares may stand at both levels, and those at the level of the command win.

Arguments are read from left to right.  The value of an option is looked at when the next option of its level is met, or
at the end of the level, and the outer level ends after the inner one; so a request for help that comes between the two
is granted although the value is bad.
-/

namespace ELOntology

namespace CommandLine

/-- The commands by name. -/
inductive CommandName where
  | classify
  | realize
  | check
  | initConfig
deriving DecidableEq, Inhabited

/-- The options that take a value. -/
inductive Setting where
  | config
  | workers
  | axiomFile
  | out
deriving DecidableEq, Inhabited

/-- What help can be asked about. -/
inductive Topic where
  | program
  | command (name : CommandName)
  | help
deriving DecidableEq, Inhabited

/-- Why a command line is refused. -/
inductive UsageError where
  | unexpectedArgument (argument : String)
  | unknownCommand (name : String)
  | missingCommand
  | missingValue (setting : Setting)
  | invalidValue (setting : Setting) (value : String)
  | unneededValue (option : String)
  | repeated (option : String)
  | missingSetting (setting : Setting)
deriving DecidableEq, Inhabited

/-- Why the arguments give no command to run. -/
inductive Stop where
  | refused (error : UsageError)
  | help (topic : Topic)
  | version
deriving DecidableEq, Inhabited

inductive Command where
  | classify (axiomFile : String) (validate : Bool)
  | realize (axiomFile : String)
  | check (axiomFile : String)
  | initConfig (out : String)
deriving DecidableEq, Inhabited

structure Invocation where
  /-- The file of the configuration; without one, the standard configuration is used. -/
  config : Option String
  /-- The number of workers, which wins over the one in the configuration. -/
  workers : Option Nat
  command : Command
deriving DecidableEq, Inhabited

def CommandName.text : CommandName → String
  | classify => "classify"
  | realize => "realize"
  | check => "check"
  | initConfig => "init-config"

def CommandName.all : List CommandName := [classify, realize, check, initConfig]

def CommandName.ofText? (text : String) : Option CommandName := all.find? fun name => name.text = text

def Setting.text : Setting → String
  | config => "config"
  | workers => "workers"
  | axiomFile => "axioms"
  | out => "out"

/-- The options with a value that a topic knows. -/
def Topic.settings : Topic → List Setting
  | program => [.config, .workers]
  | command .initConfig => [.config, .workers, .out]
  | command _ => [.axiomFile, .config, .workers]
  | help => []

/-- The file that `init-config` writes when it is told of none. -/
def defaultOut : String := "el-classifier.toml"

/-! ### Values -/

/-- A number in decimal digits, possibly with a plus sign, of at most 64 bits. -/
def count? (text : String) : Option Nat :=
  let digits := match text.toList with
    | '+' :: digits => digits
    | digits => digits
  if digits.isEmpty || !digits.all (fun c => '0' ≤ c && c ≤ '9') then none
  else
    let n := digits.foldl (fun n c => n * 10 + (c.toNat - 48)) 0
    if n < UInt64.size then some n else none

/-- The options found at one level. -/
structure Options where
  config : Option String
  workers : Option Nat
  axiomFile : Option String
  out : Option String
  validate : Bool
  /-- The option whose value was not looked at yet. -/
  pending : Option (Setting × String)
deriving DecidableEq, Inhabited

namespace Options

def none : Options := ⟨.none, .none, .none, .none, false, .none⟩

/-- Give a path to an option that has none. -/
def path (setting : Setting) (value : String) (old : Option String) : Except Stop (Option String) :=
  if value = "" then .error (.refused (.invalidValue setting value))
  else if old.isSome then .error (.refused (.repeated setting.text))
  else .ok (some value)

/-- Look at the value that is pending.  An option can be given once at a level. -/
def settle (o : Options) : Except Stop Options := do
  let o' := { o with pending := .none }
  match o.pending with
  | .none => return o'
  | some (.config, value) => return { o' with config := ← path .config value o.config }
  | some (.axiomFile, value) => return { o' with axiomFile := ← path .axiomFile value o.axiomFile }
  | some (.out, value) => return { o' with out := ← path .out value o.out }
  | some (.workers, value) =>
    match count? value with
    | .none => .error (.refused (.invalidValue .workers value))
    | some n =>
      if o.workers.isSome then .error (.refused (.repeated (Setting.text .workers)))
      else return { o' with workers := some n }

end Options

/-! ### Levels -/

/-- The name and the attached value of a long option. -/
def longOption? (argument : String) : Option (String × Option String) :=
  match argument.toList with
  | '-' :: '-' :: rest =>
    match rest.span (· ≠ '=') with
    | (name, '=' :: value) => some (String.ofList name, some (String.ofList value))
    | (name, _) => some (String.ofList name, none)
  | _ => none

/-- The letters of a group of short options. -/
def shortOptions? (argument : String) : Option (List Char) :=
  match argument.toList with
  | '-' :: '-' :: _ => none
  | '-' :: c :: rest => some (c :: rest)
  | _ => none

/-- What the reader of a level has to do after an option. -/
inductive Next where
  /-- Go on. -/
  | done (options : Options)
  /-- Take the next argument as the value. -/
  | value (setting : Setting) (options : Options)

/-- Read a long option. -/
def readLong (topic : Topic) (name : String) (attached : Option String) (o : Options) : Except Stop Next := do
  match topic.settings.find? (fun s => s.text = name), attached with
  | some setting, some value =>
    let o ← o.settle
    return .done (← Options.settle { o with pending := some (setting, value) })
  | some setting, none => return .value setting (← o.settle)
  | none, attached =>
    let isSwitch := name = "help" || (name = "version" && topic = .program)
      || (name = "validate" && topic = .command .classify)
    if !isSwitch then .error (.refused (.unexpectedArgument ("--" ++ name)))
    else if attached.isSome then .error (.refused (.unneededValue name))
    else
      let o ← o.settle
      if name = "help" then .error (.help topic)
      else if name = "version" then .error .version
      else if o.validate then .error (.refused (.repeated name))
      else return .done { o with validate := true }

/-- Read a group of short options.  Each of those there are ends the reading. -/
def readShort (topic : Topic) (letters : List Char) (o : Options) : Except Stop Next := do
  match letters with
  | 'h' :: _ =>
    let _ ← o.settle
    .error (.help topic)
  | 'V' :: _ =>
    if topic = .program then
      let _ ← o.settle
      .error .version
    else .error (.refused (.unexpectedArgument "-V"))
  | letters => .error (.refused (.unexpectedArgument ("-" ++ String.ofList (letters.take 1))))

/-- Read an option, if the argument is one. -/
def readOption (topic : Topic) (argument : String) (o : Options) : Option (Except Stop Next) :=
  match longOption? argument with
  | some (name, attached) => some (readLong topic name attached o)
  | none => (shortOptions? argument).map fun letters => readShort topic letters o

/-- Whether an argument cannot be a value. -/
def looksLikeOption (argument : String) : Bool := (longOption? argument).isSome || (shortOptions? argument).isSome

/-- Read the options of a level up to the first argument that is none.  After `--` nothing may follow. -/
def readLevel (topic : Topic) : List String → Options → Except Stop (Options × List String)
  | [], o => .ok (o, [])
  | "--" :: [], o => .ok (o, [])
  | "--" :: argument :: _, _ => .error (.refused (.unexpectedArgument argument))
  | [argument], o =>
    match readOption topic argument o with
    | none => .ok (o, [argument])
    | some (.error stop) => .error stop
    | some (.ok (.done o)) => .ok (o, [])
    | some (.ok (.value setting _)) => .error (.refused (.missingValue setting))
  | argument :: next :: rest, o =>
    match readOption topic argument o with
    | none => .ok (o, argument :: next :: rest)
    | some (.error stop) => .error stop
    | some (.ok (.done o)) => readLevel topic (next :: rest) o
    | some (.ok (.value setting o)) =>
      if looksLikeOption next then .error (.refused (.missingValue setting))
      else readLevel topic rest { o with pending := some (setting, next) }

/-! ### Commands -/

def Options.require (o : Options) : Except Stop String :=
  match o.axiomFile with
  | some path => .ok path
  | .none => .error (.refused (.missingSetting .axiomFile))

/-- The command that the options of its level make. -/
def CommandName.command (name : CommandName) (o : Options) : Except Stop Command := do
  match name with
  | classify => return .classify (← o.require) o.validate
  | realize => return .realize (← o.require)
  | check => return .check (← o.require)
  | initConfig => return .initConfig (o.out.getD defaultOut)

/-- Read the level of a command. -/
def readCommand (name : CommandName) (arguments : List String) : Except Stop (Options × Command) := do
  let (o, rest) ← readLevel (.command name) arguments .none
  match rest with
  | [] =>
    let o ← o.settle
    return (o, ← name.command o)
  | argument :: _ => .error (.refused (.unexpectedArgument argument))

/-- What `help` is asked about. -/
def helpTopic : List String → Except Stop Topic
  | [] => .ok .program
  | [name] =>
    if name = "help" then .ok .help
    else match CommandName.ofText? name with
      | some name => .ok (.command name)
      | none => .error (.refused (.unknownCommand name))
  | name :: next :: _ =>
    if name = "help" ∨ (CommandName.ofText? name).isSome then .error (.refused (.unknownCommand next))
    else .error (.refused (.unknownCommand name))

/-- The command that a command line asks for. -/
def parse (arguments : List String) : Except Stop Invocation := do
  let (outer, rest) ← readLevel .program arguments .none
  match rest with
  | [] =>
    let _ ← outer.settle
    .error (.refused .missingCommand)
  | "help" :: rest => .error (.help (← helpTopic rest))
  | name :: rest =>
    match CommandName.ofText? name with
    | none => .error (.refused (.unknownCommand name))
    | some name =>
      let (inner, command) ← readCommand name rest
      let outer ← outer.settle
      return ⟨inner.config.or outer.config, inner.workers.or outer.workers, command⟩

end CommandLine

end ELOntology
