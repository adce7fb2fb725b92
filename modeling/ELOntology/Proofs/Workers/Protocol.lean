import Mathlib.Logic.Function.Basic
import ELOntology.Saturation.Rules

/-!
# Workers that share a workspace

A run may have several workers.  A worker takes an active context from the queue, drains it and takes the next one.  When
it finds the queue empty, it leaves the count of busy workers and waits, until there is work again or no worker is busy.

Here this is cut into moves, each of which touches one thing that the workers share: a flag, a queue or the count.  What a
processed conclusion leads to is left open, and so is what a look at the interruption flag shows.  So the runs are those of
every rule base in either mode, whenever contexts are created, with interruptions and without.

Key definitions: `Move` (the next move of a worker, by its phase), `Crew.Step` (one worker makes its next move) and
`Crew.Run` (any number of steps, in any order, with the conclusions that are pushed and polled on the way).
-/

namespace ELOntology

/-- What the workers share.  A context that does not exist yet is idle and has nothing to process. -/
structure Shared where
  /-- The conclusions that each context has to process, the oldest first. -/
  todo : ExprId → List Conclusion
  /-- The flag of each context. -/
  active : ExprId → Bool
  /-- The queue of active contexts, the oldest first. -/
  waiting : List ExprId
  /-- How many workers have counted themselves as busy. -/
  busy : Nat

/-- What a worker is about to do. -/
inductive Phase where
  /-- To join the count. -/
  | entering
  /-- To look at the interruption flag. -/
  | checking
  /-- To take a context from the queue of active contexts. -/
  | polling
  /-- To push the next unsent production of the context, or to take the next conclusion when all are sent. -/
  | draining (root : ExprId) (unsent : List Production)
  /-- To activate the context that a production was pushed to. -/
  | activating (root target : ExprId) (unsent : List Production)
  /-- To queue a context that it has activated. -/
  | queueing (root target : ExprId) (unsent : List Production)
  /-- To deactivate a context that has nothing to process. -/
  | closing (root : ExprId)
  /-- To look once more whether a deactivated context has anything to process. -/
  | rechecking (root : ExprId)
  /-- To activate that context again. -/
  | reopening (root : ExprId)
  /-- To leave the count, as no context is active. -/
  | leaving
  /-- Outside of the count, to look at the interruption flag. -/
  | waiting
  /-- To look whether a context is active. -/
  | peeking
  /-- To look at the count. -/
  | counting
  /-- To look once more whether a context is active, as the count was zero. -/
  | confirming
  /-- To leave the count, as an interruption was asked for. -/
  | quitting
  /-- It has left, as there was nothing left to do. -/
  | left
  /-- It has left, as an interruption was asked for. -/
  | stopped
deriving DecidableEq, Inhabited

namespace Phase

/-- Whether the worker is in the count. -/
def isBusy : Phase → Bool
  | entering | waiting | peeking | counting | confirming | left | stopped => false
  | _ => true

/-- The context that the worker drains.  It gives the context up when it deactivates it. -/
def drained? : Phase → Option ExprId
  | draining root _ | activating root _ _ | queueing root _ _ | closing root => some root
  | _ => none

/-- The context that the worker has activated and not queued yet. -/
def queued? : Phase → Option ExprId
  | queueing _ target _ => some target
  | _ => none

/-- The context that the worker is still going to activate if it has to. -/
def minded? : Phase → Option ExprId
  | activating _ target _ => some target
  | rechecking root | reopening root => some root
  | _ => none

end Phase

/-- A conclusion is pushed to a context, or polled from it. -/
inductive Event where
  | pushed (root : ExprId) (c : Conclusion)
  | polled (root : ExprId) (c : Conclusion)
deriving DecidableEq, Inhabited

namespace Event

/-- The conclusions that are pushed to a context, in order. -/
def pushes (root : ExprId) (events : List Event) : List Conclusion :=
  events.filterMap fun
    | pushed target c => if target = root then some c else none
    | polled .. => none

/-- The conclusions that are polled from a context, in order. -/
def polls (root : ExprId) (events : List Event) : List Conclusion :=
  events.filterMap fun
    | polled source c => if source = root then some c else none
    | pushed .. => none

end Event

/-- The next move of a worker: what it finds, what happens, and what it leaves behind. -/
inductive Move (s : Shared) : Phase → List Event → Shared → Phase → Prop
  | enter : Move s .entering [] { s with busy := s.busy + 1 } .checking
  | proceed : Move s .checking [] s .polling
  | interrupted : Move s .checking [] s .quitting
  | quit : Move s .quitting [] { s with busy := s.busy - 1 } .stopped
  | take {root : ExprId} {rest : List ExprId} (h : s.waiting = root :: rest) :
      Move s .polling [] { s with waiting := rest } (.draining root [])
  | findNone (h : s.waiting = []) : Move s .polling [] s .leaving
  /-- A conclusion is polled and processed, whatever this leads to. -/
  | poll {root : ExprId} {c : Conclusion} {rest : List Conclusion} (h : s.todo root = c :: rest)
      (productions : List Production) : Move s (.draining root []) [.polled root c]
        { s with todo := Function.update s.todo root rest } (.draining root productions)
  | push {root target : ExprId} {c : Conclusion} {unsent : List Production} :
      Move s (.draining root ((target, c) :: unsent)) [.pushed target c]
        { s with todo := Function.update s.todo target (s.todo target ++ [c]) } (.activating root target unsent)
  | activate {root target : ExprId} {unsent : List Production} (h : s.active target = false) :
      Move s (.activating root target unsent) [] { s with active := Function.update s.active target true }
        (.queueing root target unsent)
  | findActive {root target : ExprId} {unsent : List Production} (h : s.active target = true) :
      Move s (.activating root target unsent) [] s (.draining root unsent)
  | queue {root target : ExprId} {unsent : List Production} :
      Move s (.queueing root target unsent) [] { s with waiting := s.waiting ++ [target] } (.draining root unsent)
  | finish {root : ExprId} (h : s.todo root = []) : Move s (.draining root []) [] s (.closing root)
  | deactivate {root : ExprId} : Move s (.closing root) [] { s with active := Function.update s.active root false }
      (.rechecking root)
  | findPending {root : ExprId} (h : s.todo root ≠ []) : Move s (.rechecking root) [] s (.reopening root)
  | findNothing {root : ExprId} (h : s.todo root = []) : Move s (.rechecking root) [] s .checking
  | reopen {root : ExprId} (h : s.active root = false) : Move s (.reopening root) []
      { s with active := Function.update s.active root true } (.draining root [])
  | findTaken {root : ExprId} (h : s.active root = true) : Move s (.reopening root) [] s .checking
  | leave : Move s .leaving [] { s with busy := s.busy - 1 } .waiting
  | stay : Move s .waiting [] s .peeking
  | stop : Move s .waiting [] s .stopped
  | seeWork (h : s.waiting ≠ []) : Move s .peeking [] s .entering
  | seeNone (h : s.waiting = []) : Move s .peeking [] s .counting
  | countSome (h : s.busy ≠ 0) : Move s .counting [] s .waiting
  | countNone (h : s.busy = 0) : Move s .counting [] s .confirming
  | confirmSome (h : s.waiting ≠ []) : Move s .confirming [] s .waiting
  | confirmNone (h : s.waiting = []) : Move s .confirming [] s .left

/-- The workers of a run and what they share. -/
structure Crew where
  shared : Shared
  phases : List Phase

namespace Crew

/-- One of the workers makes its next move. -/
inductive Step : Crew → List Event → Crew → Prop
  | move {s s' : Shared} {before after : List Phase} {p p' : Phase} {events : List Event}
      (h : Move s p events s' p') : Step ⟨s, before ++ p :: after⟩ events ⟨s', before ++ p' :: after⟩

/-- Any number of steps, in any order, with what happens on the way. -/
inductive Run (crew : Crew) : List Event → Crew → Prop
  | refl : Run crew [] crew
  | tail {events events' : List Event} {crew' crew'' : Crew} (h : Run crew events crew')
      (hstep : Step crew' events' crew'') : Run crew (events ++ events') crew''

/-- The workers of a pool of threads before their first move.  A pool has one worker at least. -/
def start (threads : Nat) (s : Shared) : Crew := ⟨{ s with busy := 0 }, List.replicate (max threads 1) .entering⟩

end Crew

end ELOntology
