import ELOntology.CommandLine.Help
import ELOntology.Json.Reader
import ELOntology.Json.Writer
import ELOntology.Reasoner.Query
import ELOntology.Syntax.Exchange
import ELOntology.Taxonomy.Exchange

/-!
# Running a command line

A run reads and writes files and ends with an exit code: 0 if all went well, 1 if a command failed, 2 if the command line
was refused.  Only a run that ends with 0 writes to its output.
-/

namespace ELOntology

namespace CommandLine

structure Outcome where
  exit : Nat
  output : String
  complaint : String
deriving DecidableEq, Inhabited

/-- Why a command fails. -/
inductive Failure where
  | reasoner (error : ReasonerError)
  | unreadable (path : String)
  | notAxioms (path : String)
deriving DecidableEq, Inhabited

def Failure.message : Failure → String
  | reasoner error => error.message
  | unreadable path => "failed to read " ++ path
  | notAxioms path => "failed to parse axioms from " ++ path

/-- The outcome of a command line that gives no command to run. -/
def Stop.outcome : Stop → Outcome
  | refused error => ⟨2, "", "error: " ++ error.message ++ "\n\nFor more information, try '--help'.\n"⟩
  | help topic => ⟨0, helpText topic, ""⟩
  | version => ⟨0, versionText, ""⟩

def outcome : Except Failure String → Outcome
  | .ok output => ⟨0, output, ""⟩
  | .error failure => ⟨1, "", "Error: " ++ failure.message ++ "\n"⟩

variable {m : Type → Type} [Monad m]

def configured (files : FileAccess m) (threads : Nat) (i : Invocation) : ExceptT Failure m Config := do
  let config ← match i.config with
    | some path => (ExceptT.mk (Config.load files threads path)).adapt fun e => .reasoner (.config e)
    | none => pure (.standard threads)
  match i.workers with
  | some workers => return { config with workers }
  | none => return config

/-- The axioms in a file. -/
def readAxioms (files : FileAccess m) (path : String) : ExceptT Failure m (List Axiom) := do
  match ← files.read path with
  | none => throw (.unreadable path)
  | some source =>
    match (Json.parse? source).bind Ontology.ofJson? with
    | none => throw (.notAxioms path)
    | some axioms => return axioms

/-- The answer to a request about an ontology of its own. -/
def answer {α : Type} (config : Config) (axioms : List Axiom) (request : Request α) : Except ReasonerError α := do
  let r ← Reasoner.new config
  match r.addAll axioms with
  | (.error e, _) => throw e
  | (.ok _, r) => (request r).1

/-- What a command writes to its output. -/
def execute (files : FileAccess m) (config : Config) : Command → ExceptT Failure m String
  | .classify axiomFile validate => do
    let config := { config with validateTaxonomy := config.validateTaxonomy || validate }
    let axioms ← readAxioms files axiomFile
    let taxonomy ← ExceptT.mk (pure ((answer config axioms Reasoner.classify).mapError .reasoner))
    return taxonomy.toJson.pretty ++ "\n"
  | .realize axiomFile => do
    let axioms ← readAxioms files axiomFile
    let realization ← ExceptT.mk (pure ((answer config axioms Reasoner.realize).mapError .reasoner))
    return realization.toJson.pretty ++ "\n"
  | .check axiomFile => do
    let axioms ← readAxioms files axiomFile
    let inconsistent ← ExceptT.mk (pure ((answer config axioms Reasoner.isInconsistent).mapError .reasoner))
    return if inconsistent then "inconsistent\n" else "consistent\n"
  | .initConfig out => do
    (ExceptT.mk (config.save files out)).adapt fun e => .reasoner (.config e)
    return "Wrote configuration to " ++ out ++ "\n"

/-- Run a command line on a machine that runs so many threads at once. -/
def run (files : FileAccess m) (threads : Nat) (arguments : List String) : m Outcome := do
  match parse arguments with
  | .error stop => return stop.outcome
  | .ok invocation =>
    let result ← ((do
      let config ← configured files threads invocation
      execute files config invocation.command : ExceptT Failure m String)).run
    return outcome result

end CommandLine

end ELOntology
