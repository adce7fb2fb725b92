import ELOntology.Order.Queue
import ELOntology.Saturation.Facts
import ELOntology.Saturation.Monitor

/-!
# The workspace of a saturation

One context for each root that has been needed, in a table that covers the numbers of all indexed expressions.  A
context is active while it has conclusions to process; the active contexts wait in a queue.  Contexts that have lost
conclusions wait in another queue until they are taken.  Both queues are first in, first out, and hold a context at most
once at a time.
-/

namespace ELOntology

/-- What is known and what is to be done about one root. -/
structure Context where
  facts : Facts
  /-- The conclusions to process. -/
  todo : Queue Conclusion
  active : Bool
  saturated : Bool
  modified : Bool
deriving DecidableEq, Inhabited

/-- A context as it is created. -/
def Context.new : Context := ⟨.empty, .empty, false, false, false⟩

/-- Whether the root has not been found to be empty. -/
def Context.isSatisfiable (c : Context) : Bool := !c.facts.contradictory

structure Workspace where
  contexts : Array (Option Context)
  active : Queue ExprId
  modified : Queue ExprId
  monitor : Monitor
deriving Inhabited

namespace Workspace

def empty : Workspace := ⟨#[], .empty, .empty, .idle⟩

/-- Extend the table to the given number of expressions. -/
def grow (size : Nat) (w : Workspace) : Workspace :=
  { w with contexts := w.contexts ++ Array.replicate (size - w.contexts.size) none }

/-- Drop all contexts and all work.  Watches and observers stay. -/
def reset (w : Workspace) : Workspace :=
  { w with contexts := Array.replicate w.contexts.size none, active := .empty, modified := .empty }

/-! ### Contexts -/

def context? (w : Workspace) (root : ExprId) : Option Context := (w.contexts[root.val]?).join

/-- The roots that have a context, in the order of their numbers. -/
def roots (w : Workspace) : List ExprId :=
  ((List.range w.contexts.size).map ExprId.mk).filter fun root => (w.context? root).isSome

def contextCount (w : Workspace) : Nat := w.roots.length

def isEmpty (w : Workspace) : Bool := w.roots.isEmpty

def put (root : ExprId) (c : Context) (w : Workspace) : Workspace :=
  { w with contexts := w.contexts.setIfInBounds root.val (some c) }

/-- Change the context of a root, if it has one. -/
def update (root : ExprId) (f : Context → Context) (w : Workspace) : Workspace :=
  match w.context? root with
  | some c => w.put root (f c)
  | none => w

/-- Whether a root has a context in which the given subsumer holds. -/
def hasSubsumer (w : Workspace) (root expr : ExprId) : Bool :=
  match w.context? root with
  | some c => c.facts.hasSubsumer expr
  | none => false

/-- Whether a root has a context that has found it to be empty. -/
def isUnsatisfiable (w : Workspace) (root : ExprId) : Bool :=
  match w.context? root with
  | some c => c.facts.contradictory
  | none => false

/-! ### Work -/

/-- Give a conclusion to an existing context, which becomes active. -/
def enqueue (root : ExprId) (c : Conclusion) (w : Workspace) : Workspace :=
  match w.context? root with
  | none => w
  | some ctx =>
    let w := w.put root { ctx with todo := ctx.todo.push c, active := true }
    if ctx.active then w else { w with active := w.active.push root }

/-- Create the context of a root that has none; its first conclusion is `init`. -/
def ensure (root : ExprId) (w : Workspace) : Workspace :=
  match w.context? root with
  | some _ => w
  | none =>
    if root.val < w.contexts.size then
      let w := (w.put root .new).enqueue root .init
      { w with monitor := w.monitor.created }
    else w

/-- Give a conclusion to the context of a root.  A derivation creates the context; a retraction has nothing to take back
from a context that does not exist. -/
def send (mode : Mode) (root : ExprId) (c : Conclusion) (w : Workspace) : Workspace :=
  match mode with
  | .derive => (w.ensure root).enqueue root c
  | .retract => w.enqueue root c

/-- Take the next active context from the queue. -/
def poll (w : Workspace) : Option ExprId × Workspace :=
  match w.active.pop? with
  | none => (none, w)
  | some (root, rest) => (some root, { w with active := rest })

def hasActive (w : Workspace) : Bool := !w.active.isEmpty

/-- The context has no more work. -/
def deactivate (root : ExprId) (w : Workspace) : Workspace := w.update root fun c => { c with active := false }

/-- Every context is as it will remain until something changes. -/
def markSaturated (w : Workspace) : Workspace :=
  { w with contexts := w.contexts.map fun c => c.map fun c => { c with saturated := true } }

/-! ### Modified contexts -/

/-- Note that a context has lost a conclusion. -/
def markModified (root : ExprId) (w : Workspace) : Workspace :=
  match w.context? root with
  | none => w
  | some c =>
    let w := w.put root { c with saturated := false, modified := true }
    if c.modified then w else { w with modified := w.modified.push root }

/-- Take all modified contexts from their queue. -/
def takeModified (w : Workspace) : List ExprId × Workspace :=
  let roots := w.modified.toList
  let w := roots.foldl (fun w root => w.update root fun c => { c with modified := false }) w
  (roots, { w with modified := .empty })

/-- Drop what a context knows and what it has to do. -/
def clearContext (root : ExprId) (w : Workspace) : Workspace :=
  w.update root fun c => { c with facts := .empty, todo := .empty, saturated := false, modified := false }

/-! ### Watching -/

def observe (inference : Inference) (w : Workspace) : Workspace :=
  { w with monitor := w.monitor.visit inference }

/-- Look at the flag that asks for an interruption. -/
def look (w : Workspace) : Bool × Workspace :=
  let (raised, monitor) := w.monitor.look
  (raised, { w with monitor })

end Workspace

end ELOntology
