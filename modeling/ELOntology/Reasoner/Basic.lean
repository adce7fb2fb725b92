import ELOntology.Config
import ELOntology.Index.Assert
import ELOntology.Saturation.Maintenance
import ELOntology.Saturation.Run
import ELOntology.Stage
import ELOntology.Taxonomy.Audit
import ELOntology.Taxonomy.Realization

/-!
# The reasoner and its axioms

A reasoner owns an index, the workspace in which it is saturated, and what was computed from them.  Changing an axiom
computes nothing; it only makes stages not done.  A change is left to maintenance if there is something to maintain and
the change is one that maintenance covers.  Otherwise all contexts are dropped: when maintenance is switched off, when
the role hierarchy changes, and when an earlier change is only partly worked off.
-/

namespace ELOntology

/-- How far the maintenance of a saturation has come, kept over interruptions. -/
structure Progress where
  deletionsSeeded : Bool
  additionsSeeded : Bool
  /-- The roots whose contexts were cleaned. -/
  cleaned : List ExprId
deriving DecidableEq, Inhabited

namespace Progress

def none : Progress := ⟨false, false, []⟩

def inFlight (p : Progress) : Bool := p.deletionsSeeded || p.additionsSeeded || !p.cleaned.isEmpty

end Progress

structure Reasoner where
  config : Config
  /-- The pool of workers. -/
  engine : Engine
  index : Index
  roles : RoleHierarchy
  workspace : Workspace
  stages : StageStatus
  progress : Progress
  inconsistent : Bool
  taxonomy : Option Taxonomy
  realization : Option Realization
  statistics : Statistics
deriving Inhabited

namespace Reasoner

/-- A reasoner without axioms.  One worker carries out its runs, until another engine is put in. -/
def new (config : Config) : Except ReasonerError Reasoner :=
  match config.check with
  | .error e => .error (.config e)
  | .ok () => .ok
    { config
      engine := .single
      index := .empty
      roles := .empty
      workspace := .empty
      stages := .nothingDone
      progress := .none
      inconsistent := false
      taxonomy := none
      realization := none
      statistics := [] }

def ruleBase (r : Reasoner) : RuleBase := ⟨r.index, r.roles⟩

/-- Run the rules in a workspace. -/
def runRules (mode : Mode) (w : Workspace) (r : Reasoner) : Option Statistics × Workspace :=
  r.engine.run r.config.workers r.ruleBase mode w

/-- Let the table of contexts cover the index. -/
def sync (r : Reasoner) : Reasoner := { r with workspace := r.workspace.grow r.index.nodes.size }

def invalidate (stage : Stage) (r : Reasoner) : Reasoner := { r with stages := r.stages.invalidate stage }

/-- Commit what is pending and drop every context. -/
def reset (r : Reasoner) : Reasoner :=
  let r := { r with index := r.index.commit.2, workspace := r.workspace.reset, progress := .none }
  r.invalidate .deletion

/-- Make the stages not done that a change of axioms concerns. -/
def axiomsChanged (r : Reasoner) : Reasoner :=
  let (rolesChanged, index) := r.index.takeRolesChanged
  let r := { r with index }
  let saturated := !r.workspace.isEmpty
  let r := if r.index.roles.size ≠ r.roles.size then r.invalidate .roleHierarchy else r
  let r :=
    if !saturated || !r.config.incremental || rolesChanged || r.progress.inFlight then
      let r := r.reset
      if rolesChanged then r.invalidate .roleHierarchy else r
    else r.invalidate .deletion
  { r with taxonomy := none, realization := none }

/-- Take over the index after an axiom was asserted or retracted. -/
def edited (r : Reasoner) : Except IndexError Bool × Index → Except ReasonerError Bool × Reasoner
  | (.error e, index) => (.error (.index e), { r with index }.sync)
  | (.ok false, index) => (.ok false, { r with index }.sync)
  | (.ok true, index) => (.ok true, { r with index }.sync.axiomsChanged)

/-- Assert an axiom.  The answer says whether the ontology has changed. -/
def add (a : Axiom) (r : Reasoner) : Except ReasonerError Bool × Reasoner := r.edited (r.index.assert a)

/-- Retract an axiom.  The answer says whether the ontology has changed. -/
def remove (a : Axiom) (r : Reasoner) : Except ReasonerError Bool × Reasoner := r.edited (r.index.retract a)

/-- Assert axioms up to the first that fails.  The answer is the number of changes. -/
def addAll : List Axiom → Reasoner → Except ReasonerError Nat × Reasoner
  | [], r => (.ok 0, r)
  | a :: as, r =>
    match r.add a with
    | (.error e, r) => (.error e, r)
    | (.ok changed, r) =>
      match addAll as r with
      | (.error e, r) => (.error e, r)
      | (.ok n, r) => (.ok (n + if changed then 1 else 0), r)

/-! ### Watching and prompting

What a caller may do to a reasoner from outside between two requests. -/

def onWorkspace (f : Workspace → Workspace) (r : Reasoner) : Reasoner := { r with workspace := f r.workspace }

def onMonitor (f : Monitor → Monitor) (r : Reasoner) : Reasoner :=
  r.onWorkspace fun w => { w with monitor := f w.monitor }

/-- Ask for an interruption, which the next request meets. -/
def interrupt (r : Reasoner) : Reasoner := r.onMonitor (·.raise)

def clearInterrupt (r : Reasoner) : Reasoner := r.onMonitor (·.lower)

def isInterrupted (r : Reasoner) : Bool := r.workspace.monitor.interrupt.raised

/-- Record inferences from now on, as many as the configuration allows. -/
def record (r : Reasoner) : Reasoner := r.onMonitor (·.record r.config.traceLimit)

/-- Create the context of a root ahead of any request. -/
def createContext (root : ExprId) (r : Reasoner) : Reasoner := r.onWorkspace (·.ensure root)

end Reasoner

end ELOntology
