import ELOntology.CommandLine.Arguments

/-!
# Texts of the command line

What is printed when a command line asks for help or for the version, and what is said of one that is refused.
-/

namespace ELOntology

namespace CommandLine

def programName : String := "el-classify"

def versionText : String := programName ++ " 0.1.0\n"

def aboutTopic : Topic → String
  | .program => "Concurrent OWL 2 EL classifier"
  | .command .classify => "Classify the ontology and print the class taxonomy as JSON"
  | .command .realize => "Compute direct types of individuals and print them as JSON"
  | .command .check => "Report whether the ontology is consistent"
  | .command .initConfig => "Write the default configuration to a file"
  | .help => "Print this message or the help of the given subcommand(s)"

def usageLine : Topic → String
  | .program => programName ++ " [OPTIONS] <COMMAND>"
  | .command .initConfig => programName ++ " init-config [OPTIONS]"
  | .command name => programName ++ " " ++ name.text ++ " [OPTIONS] --axioms <AXIOMS>"
  | .help => programName ++ " help [COMMAND]..."

def aboutSetting : Setting → String
  | .config => "Reasoner configuration file (TOML)"
  | .workers => "Number of saturation workers, overriding the config file"
  | .axiomFile => "JSON file holding an array of axioms"
  | .out => "Destination path [default: " ++ defaultOut ++ "]"

/-- An option with the name of its value. -/
def Setting.usage : Setting → String
  | .config => "--config <CONFIG>"
  | .workers => "--workers <WORKERS>"
  | .axiomFile => "--axioms <AXIOMS>"
  | .out => "--out <OUT>"

/-- A line of a table whose second column starts at the given place. -/
def tableLine (column : Nat) (left right : String) : String :=
  let left := "  " ++ left
  left ++ String.ofList (List.replicate (column - left.length) ' ') ++ right ++ "\n"

def settingLine (s : Setting) : String := tableLine 27 ("    " ++ s.usage) (aboutSetting s)

def helpLine : String := tableLine 27 "-h, --help" "Print help"

/-- The options of a command, by name within their place. -/
def optionLines : CommandName → String
  | .classify => settingLine .axiomFile ++ settingLine .config
      ++ tableLine 27 "    --validate" "Check the taxonomy's structure before printing it" ++ settingLine .workers
  | .initConfig => settingLine .config ++ settingLine .out ++ settingLine .workers
  | _ => settingLine .axiomFile ++ settingLine .config ++ settingLine .workers

def commandLines : String :=
  let line (topic : Topic) (name : String) := tableLine 15 name (aboutTopic topic)
  String.join (CommandName.all.map fun name => line (.command name) name.text) ++ line .help "help"

def helpText (topic : Topic) : String :=
  aboutTopic topic ++ "\n\nUsage: " ++ usageLine topic ++ "\n\n" ++
    match topic with
    | .program => "Commands:\n" ++ commandLines ++ "\nOptions:\n" ++ settingLine .config ++ settingLine .workers
        ++ helpLine ++ tableLine 27 "-V, --version" "Print version"
    | .command name => "Options:\n" ++ optionLines name ++ helpLine
    | .help => "Arguments:\n" ++ tableLine 16 "[COMMAND]..." "Print help for the subcommand(s)"

def UsageError.message : UsageError → String
  | unexpectedArgument argument => "unexpected argument '" ++ argument ++ "' found"
  | unknownCommand name => "unrecognized subcommand '" ++ name ++ "'"
  | missingCommand => "'" ++ programName ++ "' requires a subcommand but one was not provided"
  | missingValue setting => "a value is required for '" ++ setting.usage ++ "' but none was supplied"
  | invalidValue setting value => "invalid value '" ++ value ++ "' for '" ++ setting.usage ++ "'"
  | unneededValue option => "unexpected value for '--" ++ option ++ "' found; no more were expected"
  | repeated option => "the argument '--" ++ option ++ "' cannot be used multiple times"
  | missingSetting setting => "the following required arguments were not provided: " ++ setting.usage

end CommandLine

end ELOntology
