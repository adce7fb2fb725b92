import ELOntology.Graph.Reach

/-!
# Stages of reasoning

The work of a reasoner is cut into stages, each of which needs others to be done first.  A stage that fails stays not
done, so that completing it again resumes there.  Invalidating a stage invalidates everything that rests on it, and
nothing else.
-/

namespace ELOntology

inductive Stage where
  | roleHierarchy
  | deletion
  | cleaning
  | addition
  | saturation
  | consistency
  | classTaxonomy
  | instanceTaxonomy
  | validation
deriving DecidableEq, Inhabited

namespace Stage

/-- All stages, in the order of the pipeline. -/
def all : List Stage :=
  [roleHierarchy, deletion, cleaning, addition, saturation, consistency, classTaxonomy, instanceTaxonomy, validation]

def name : Stage → String
  | roleHierarchy => "property-hierarchy"
  | deletion => "incremental-deletion"
  | cleaning => "incremental-cleaning"
  | addition => "incremental-addition"
  | saturation => "class-saturation"
  | consistency => "consistency-check"
  | classTaxonomy => "class-taxonomy"
  | instanceTaxonomy => "instance-taxonomy"
  | validation => "taxonomy-validation"

def ofName? (name : String) : Option Stage := all.find? fun stage => stage.name = name

/-- The stages that have to be done first. -/
def dependencies : Stage → List Stage
  | roleHierarchy => []
  | deletion => [roleHierarchy]
  | cleaning => [deletion]
  | addition => [cleaning]
  | saturation => [addition]
  | consistency => [saturation]
  | classTaxonomy => [consistency]
  | instanceTaxonomy => [classTaxonomy]
  | validation => [classTaxonomy]

/-- The stages that need the given one directly. -/
def dependents (stage : Stage) : List Stage := all.filter fun s => stage ∈ s.dependencies

/-- The stage and all that rest on it. -/
def affected (stage : Stage) : List Stage := reach dependents all.length stage

end Stage

/-- The stages that are done, each once. -/
structure StageStatus where
  done : List Stage
deriving DecidableEq, Inhabited

namespace StageStatus

def nothingDone : StageStatus := ⟨[]⟩

def isDone (status : StageStatus) (stage : Stage) : Bool := decide (stage ∈ status.done)

def markDone (stage : Stage) (status : StageStatus) : StageStatus := ⟨status.done.insert stage⟩

/-- The stage is no longer done, and neither is anything that rests on it. -/
def invalidate (stage : Stage) (status : StageStatus) : StageStatus :=
  ⟨status.done.filter (· ∉ stage.affected)⟩

end StageStatus

/-- Something that runs stages and keeps track of which are done. -/
structure StageRunner (σ ε : Type) where
  status : σ → StageStatus
  setStatus : StageStatus → σ → σ
  /-- Run one stage, whose dependencies are done. -/
  run : Stage → σ → Except ε Unit × σ

namespace StageRunner

variable {σ ε : Type} (runner : StageRunner σ ε)

/-- Run stages one after the other up to the first failure. -/
def inOrder (run : Stage → σ → Except ε Unit × σ) : List Stage → σ → Except ε Unit × σ
  | [], s => (.ok (), s)
  | stage :: stages, s =>
    match run stage s with
    | (.ok (), s) => inOrder run stages s
    | (.error e, s) => (.error e, s)

def completeWithin : Nat → Stage → σ → Except ε Unit × σ
  | 0, _, s => (.ok (), s)
  | fuel + 1, stage, s =>
    if (runner.status s).isDone stage then (.ok (), s)
    else
      match inOrder (completeWithin fuel) stage.dependencies s with
      | (.error e, s) => (.error e, s)
      | (.ok (), s) =>
        match runner.run stage s with
        | (.error e, s) => (.error e, s)
        | (.ok (), s) => (.ok (), runner.setStatus ((runner.status s).markDone stage) s)

/-- Run a stage and, first, every stage it needs that is not done.  A chain of dependencies is no longer than the list of
all stages. -/
def complete (stage : Stage) (s : σ) : Except ε Unit × σ := runner.completeWithin Stage.all.length stage s

end StageRunner

end ELOntology
