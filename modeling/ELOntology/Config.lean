import ELOntology.Error
import ELOntology.File.Access
import ELOntology.Toml.Reader

/-!
# Configuration of a reasoner

A configuration is kept in a TOML file.  Keys that are missing take standard values and keys that are not known are
passed over.  Whatever is read is checked; what is written is not.
-/

namespace ELOntology

structure Config where
  /-- How many workers a run may have. -/
  workers : Nat
  /-- Whether a saturation is maintained when axioms change, or started anew. -/
  incremental : Bool
  /-- Whether each classification is audited. -/
  validateTaxonomy : Bool
  /-- How many inferences a recorder keeps; all of them without a limit. -/
  traceLimit : Option Nat
deriving DecidableEq, Inhabited

namespace Config

/-- The configuration of a machine that runs so many threads at once. -/
def standard (workers : Nat) : Config := ⟨workers, true, false, none⟩

/-- Refuse what a reasoner cannot run with. -/
def check (c : Config) : Except ConfigError Unit :=
  if c.workers = 0 then .error .noWorkers
  else if c.traceLimit = some 0 then .error .noTrace
  else .ok ()

/-! ### Reading -/

/-- A number that is not negative, if the key is there; anything else at the key is refused. -/
def count? (key : String) (entries : Toml.Entries) : Option (Option Nat) :=
  match Toml.lookup key entries with
  | none => some none
  | some (.integer n) => if 0 ≤ n then some (some n.toNat) else none
  | some _ => none

def switch? (key : String) (entries : Toml.Entries) : Option (Option Bool) :=
  match Toml.lookup key entries with
  | none => some none
  | some (.boolean b) => some (some b)
  | some _ => none

/-- The configuration in a document, for a machine that runs so many threads at once. -/
def ofToml? (threads : Nat) (entries : Toml.Entries) : Option Config := do
  let workers ← count? "workers" entries
  let incremental ← switch? "incremental" entries
  let validateTaxonomy ← switch? "validate_taxonomy" entries
  let traceLimit ← count? "trace_limit" entries
  return ⟨workers.getD threads, incremental.getD true, validateTaxonomy.getD false, traceLimit⟩

/-- The configuration in the text of the file at a path. -/
def ofText (threads : Nat) (path source : String) : Except ConfigError Config :=
  match (Toml.parse? source).bind (ofToml? threads) with
  | none => .error (.parse path)
  | some c => c.check.map fun _ => c

def load {m : Type → Type} [Monad m] (files : FileAccess m) (threads : Nat) (path : String) :
    m (Except ConfigError Config) := do
  match ← files.read path with
  | none => return .error (.read path)
  | some source => return ofText threads path source

/-! ### Writing -/

/-- The greatest integer in TOML. -/
def maxInteger : Nat := 9223372036854775807

def writeCount (key : String) (n : Nat) : Option String :=
  if n ≤ maxInteger then some (key ++ " = " ++ toString n ++ "\n") else none

def writeSwitch (key : String) (b : Bool) : String := key ++ " = " ++ (if b then "true" else "false") ++ "\n"

/-- A line for each setting, but none for a limit that is not set. -/
def toText? (c : Config) : Option String := do
  let workers ← writeCount "workers" c.workers
  let traceLimit ← match c.traceLimit with
    | some n => writeCount "trace_limit" n
    | none => some ""
  return workers ++ writeSwitch "incremental" c.incremental ++ writeSwitch "validate_taxonomy" c.validateTaxonomy
    ++ traceLimit

/-- Write a configuration to a file, making its directory if need be. -/
def save {m : Type → Type} [Monad m] (files : FileAccess m) (path : String) (c : Config) :
    m (Except ConfigError Unit) := do
  match c.toText? with
  | none => return .error (.parse path)
  | some source =>
    if ← files.makeDirectory (parentPath path) then
      if ← files.write path source then return .ok () else return .error (.write path)
    else return .error (.write (parentPath path))

end Config

end ELOntology
