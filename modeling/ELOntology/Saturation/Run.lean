import ELOntology.Saturation.Bound
import ELOntology.Saturation.Statistics

/-!
# Running the rules

`process` is the one step of a run: a context takes in a conclusion, or gives it up, and its productions are sent on.
A conclusion that changes nothing has no productions.  A run takes the active contexts in turn and lets each one process
everything it has to do, including what it gives itself.  Between two contexts it looks whether it should stop; what is
not done then stays where it is and a later run goes on with it.

Every run ends, and `workBound`, which is computed at its start, serves as fuel.

This is the run of one worker.  Several workers may take turns in many other ways, so who carries out a run is left open
(`Engine`).
-/

namespace ELOntology

namespace Workspace

/-- Take the oldest conclusion that a context has to process from its queue. -/
def next (root : ExprId) (w : Workspace) : Option Conclusion × Workspace :=
  match w.context? root with
  | none => (none, w)
  | some ctx =>
    match ctx.todo.pop? with
    | none => (none, w)
    | some (c, rest) => (some c, w.put root { ctx with todo := rest })

end Workspace

namespace RuleBase

/-- Send productions on, in order. -/
def sendAll (mode : Mode) (productions : List Production) (w : Workspace) : Workspace :=
  productions.foldl (fun w (root, c) => w.send mode root c) w

/-- Process one conclusion in the context of a root.  The answer says whether the context changed. -/
def process (rb : RuleBase) (mode : Mode) (root : ExprId) (c : Conclusion) (w : Workspace) : Bool × Workspace :=
  match w.context? root with
  | none => (false, w)
  | some ctx =>
    match mode with
    | .derive =>
      if ctx.facts.contains c then (false, w)
      else
        let facts := ctx.facts.insert c
        let w := (w.put root { ctx with facts, saturated := false }).observe ⟨root, c, .derive⟩
        (true, sendAll .derive (rb.productions .derive root facts c) w)
    | .retract =>
      if ctx.facts.contains c then
        let w := sendAll .retract (rb.productions .retract root ctx.facts c) (w.observe ⟨root, c, .retract⟩)
        (true, (w.update root fun ctx => { ctx with facts := ctx.facts.erase c }).markModified root)
      else (false, w)

/-- Let a context process everything it has to do. -/
def drain (rb : RuleBase) (mode : Mode) (root : ExprId) : Nat → Workspace × Statistics → Workspace × Statistics
  | 0, state => state
  | fuel + 1, (w, statistics) =>
    match w.next root with
    | (none, w) => (w.deactivate root, statistics)
    | (some c, w) =>
      let (changed, w) := rb.process mode root c w
      drain rb mode root fuel (w, statistics.record c.kind changed)

/-- Take active contexts in turn until there is none left, or until an interruption is asked for. -/
def work (rb : RuleBase) (mode : Mode) (limit : Nat) : Nat → Workspace × Statistics → Workspace × Statistics
  | 0, state => state
  | fuel + 1, (w, statistics) =>
    match w.look with
    | (true, w) => (w, statistics)
    | (false, w) =>
      match w.poll with
      | (none, w) => (w, statistics)
      | (some root, w) => work rb mode limit fuel (rb.drain mode root limit (w, statistics))

/-- A run until nothing is left to do, or `none` when it was interrupted.  After a run that derives to the end all
contexts are saturated. -/
def run (rb : RuleBase) (mode : Mode) (w : Workspace) : Option Statistics × Workspace :=
  let limit := rb.workBound w
  let (w, statistics) := rb.work mode limit limit (w, [])
  match w.look with
  | (true, w) => (none, w)
  | (false, w) =>
    match mode with
    | .derive => (some statistics, w.markSaturated)
    | .retract => (some statistics, w)

end RuleBase

/-- What carries out a run: from the number of workers, the rules, the mode and the workspace that is given to it, it comes
to the statistics of the run, or `none` when it was interrupted, and leaves a workspace. -/
structure Engine where
  run : Nat → RuleBase → Mode → Workspace → Option Statistics × Workspace

namespace Engine

/-- The engine in which one worker takes all turns, however many there are. -/
def single : Engine := ⟨fun _ rb mode w => rb.run mode w⟩

instance : Inhabited Engine := ⟨single⟩

end Engine

namespace Workspace

/-- Have the context of a root saturated by the next run.  The answer says whether an interruption was asked for instead;
then nothing is submitted. -/
def submit (root : ExprId) (w : Workspace) : Bool × Workspace :=
  match w.look with
  | (true, w) => (true, w)
  | (false, w) => (false, w.ensure root)

/-- Submit roots until an interruption is asked for. -/
def submitAll : List ExprId → Workspace → Bool × Workspace
  | [], w => (false, w)
  | root :: roots, w =>
    match w.submit root with
    | (true, w) => (true, w)
    | (false, w) => submitAll roots w

end Workspace

end ELOntology
