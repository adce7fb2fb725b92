import ELOntology.Reasoner.Basic

/-!
# What the stages do

Each stage of a reasoner as a request that may be interrupted.  A stage that is interrupted leaves the work it has not
done in the workspace and what it has done in the progress record, so that running it again neither repeats nor skips a
step.
-/

namespace ELOntology

/-- A request to a reasoner, which keeps its state also when the request fails. -/
abbrev Request := ExceptT ReasonerError (StateM Reasoner)

namespace Request

def change (f : Reasoner → Reasoner) : Request Unit := fun r => (.ok (), f r)

def ask {α : Type} (f : Reasoner → α) : Request α := fun r => (.ok (f r), r)

/-- Submit roots and run the rules on behalf of a stage. -/
def saturate (stage : Stage) (mode : Mode) (roots : List ExprId) : Request Unit := fun r =>
  match r.workspace.submitAll roots with
  | (true, workspace) => (.error (.interrupted stage.name), { r with workspace })
  | (false, workspace) =>
    match r.runRules mode workspace with
    | (none, workspace) => (.error (.interrupted stage.name), { r with workspace })
    | (some statistics, workspace) =>
      (.ok (), { r with workspace, statistics := r.statistics.merge statistics })

/-- Retract, under the old rules, what removed contributions have concluded.  Derivations that an interrupted run has
left over are finished first. -/
def runDeletion : Request Unit := do
  let r ← get
  if !r.progress.deletionsSeeded && r.workspace.hasActive then
    saturate .deletion .derive []
  change fun r =>
    if r.progress.deletionsSeeded then r
    else
      { r with
        workspace := r.workspace.seedRemoved r.roles r.index.pending.removed
        progress := { r.progress with deletionsSeeded := true } }
  saturate .deletion .retract []

/-- Note modified contexts as cleaned, and retract all that those store which were not noted before.  The answer says
whether there are any. -/
def cleanModified (r : Reasoner) : Bool × Reasoner :=
  let (modified, workspace) := r.workspace.takeModified
  let fresh := modified.filter (· ∉ r.progress.cleaned)
  (!fresh.isEmpty,
    { r with
      workspace := workspace.seedCleaning fresh
      progress := { r.progress with cleaned := r.progress.cleaned ++ fresh } })

def cleaningPasses : Nat → Request Unit
  | 0 => return
  | passes + 1 => do
    saturate .cleaning .retract []
    let more ← fun r => let (more, r) := cleanModified r; (.ok more, r)
    if more then cleaningPasses passes

/-- Clean contexts until no other context loses a conclusion.  Each pass but the last cleans a context. -/
def runCleaning : Request Unit := do
  let r ← get
  cleaningPasses (r.workspace.contexts.size + 1)

/-- Commit, start the cleaned contexts again and derive what is missing. -/
def runAddition : Request Unit := do
  change fun r =>
    if r.progress.additionsSeeded then r
    else
      let (changes, index) := r.index.commit
      let r := { r with index }.sync
      let cleaned := r.progress.cleaned
      let workspace := r.ruleBase.replay cleaned (r.workspace.restart cleaned)
      { r with
        workspace := workspace.seedAdded changes.added cleaned
        progress := { r.progress with additionsSeeded := true } }
  saturate .addition .derive []
  change fun r => { r with progress := .none }

/-- Saturate every class and individual of the index. -/
def runSaturation : Request Unit := do
  change (·.sync)
  let r ← get
  saturate .saturation .derive (r.index.classes ++ r.index.individuals)

/-- Whether the top class or an individual has been found to be empty. -/
def isContradictory (r : Reasoner) : Bool :=
  r.workspace.isUnsatisfiable .thing || r.index.individuals.any (r.workspace.isUnsatisfiable ·)

/-- The class taxonomy, built if it is not there. -/
def withTaxonomy (r : Reasoner) : Taxonomy × Reasoner :=
  match r.taxonomy with
  | some t => (t, r)
  | none =>
    let t := Taxonomy.build r.index r.workspace r.inconsistent
    (t, { r with taxonomy := some t })

/-- The realization, built if it is not there. -/
def withRealization (r : Reasoner) : Realization × Reasoner :=
  let (t, r) := withTaxonomy r
  match r.realization with
  | some i => (i, r)
  | none =>
    let i := Realization.build r.index r.workspace t r.inconsistent
    (i, { r with realization := some i })

def runStage : Stage → Request Unit
  | .roleHierarchy => change fun r => { r with roles := .build r.index }
  | .deletion => runDeletion
  | .cleaning => runCleaning
  | .addition => runAddition
  | .saturation => runSaturation
  | .consistency => change fun r => { r with inconsistent := isContradictory r }
  | .classTaxonomy => change fun r =>
    { r with taxonomy := some (Taxonomy.build r.index r.workspace r.inconsistent), realization := none }
  | .instanceTaxonomy => change fun r => (withRealization { r with realization := none }).2
  | .validation => do
    let r ← get
    match r.taxonomy with
    | none => return
    | some t =>
      match t.audit r.index with
      | .ok () => return
      | .error e => throw (.taxonomy e)

def runner : StageRunner Reasoner ReasonerError where
  status r := r.stages
  setStatus stages r := { r with stages }
  run := runStage

/-- Run stages up to the given one.  An interruption is used up when it is reported. -/
def complete (stage : Stage) : Request Unit := fun r =>
  match runner.complete stage r with
  | (.ok (), r) => (.ok (), r)
  | (.error e, r) => (.error e, if e.isInterrupted then r.clearInterrupt else r)

end Request

end ELOntology
