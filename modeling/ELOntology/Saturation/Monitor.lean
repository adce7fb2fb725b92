import ELOntology.Saturation.Conclusion

/-!
# Watching a run

A run can be watched and interrupted, neither of which has a part in what is derived.  A watch counts the contexts that
are created, a recorder keeps the conclusions that change a context, and both a watch and an alarm can ask for an
interruption when their count is reached.  A request from outside is modelled by the number of looks at the flag after
which it arrives.
-/

namespace ELOntology

/-- The flag that asks a run to stop. -/
structure Interrupt where
  raised : Bool
  /-- A request from outside arrives when the flag has been looked at this many times more. -/
  arrival : Option Nat
deriving DecidableEq, Inhabited

namespace Interrupt

def clear : Interrupt := ⟨false, none⟩

/-- Whether the flag is raised when it is looked at. -/
def look (i : Interrupt) : Bool × Interrupt :=
  if i.raised then (true, i)
  else
    match i.arrival with
    | none => (false, i)
    | some 0 => (true, ⟨true, none⟩)
    | some (n + 1) => (false, ⟨false, some n⟩)

def raise (i : Interrupt) : Interrupt := { i with raised := true }

def lower (i : Interrupt) : Interrupt := { i with raised := false }

end Interrupt

/-- Counts the contexts created while it is registered. -/
structure Watch where
  created : Nat
  /-- The count at which an interruption is asked for; none when zero. -/
  raiseAt : Nat
  registered : Bool
deriving DecidableEq, Inhabited

/-- Count one more context. -/
def Watch.count (w : Watch) : Watch := if w.registered then { w with created := w.created + 1 } else w

/-- A conclusion that changed the context of `root`. -/
structure Inference where
  root : ExprId
  conclusion : Conclusion
  mode : Mode
deriving DecidableEq, Inhabited

/-- Keeps the inferences that are numbered first, up to a limit. -/
structure Recorder where
  limit : Option Nat
  /-- How many inferences have been numbered, whether they were kept or not. -/
  seen : Nat
  kept : Array Inference
deriving DecidableEq, Inhabited

namespace Recorder

def new (limit : Option Nat) : Recorder := ⟨limit, 0, #[]⟩

/-- Give the next inference its number. -/
def number (r : Recorder) : Nat × Recorder := (r.seen, { r with seen := r.seen + 1 })

/-- Keep an inference that has been numbered, if its number is below the limit. -/
def keep (number : Nat) (inference : Inference) (r : Recorder) : Recorder :=
  if r.limit.any (· ≤ number) then r else { r with kept := r.kept.push inference }

/-- Number an inference and keep it.  These are two steps; one worker takes them one right after the other. -/
def visit (r : Recorder) (inference : Inference) : Recorder :=
  let (number, r) := r.number
  r.keep number inference

def clear (r : Recorder) : Recorder := new r.limit

end Recorder

/-- What is told about every conclusion that changes a context. -/
inductive Observer where
  | recorder
  /-- Ask for an interruption at the conclusion with the given number among those of one mode. -/
  | alarm (mode : Mode) (number seen : Nat)
deriving DecidableEq, Inhabited

structure Monitor where
  interrupt : Interrupt
  watches : List Watch
  observer : Option Observer
  /-- The recorder that was installed last. -/
  recorder : Option Recorder
deriving DecidableEq, Inhabited

namespace Monitor

def idle : Monitor := ⟨.clear, [], none, none⟩

def raise (m : Monitor) : Monitor := { m with interrupt := m.interrupt.raise }

def lower (m : Monitor) : Monitor := { m with interrupt := m.interrupt.lower }

def look (m : Monitor) : Bool × Monitor :=
  let (raised, interrupt) := m.interrupt.look
  (raised, { m with interrupt })

/-- Register a watch; its number is its place in the list. -/
def watch (raiseAt : Nat) (m : Monitor) : Monitor := { m with watches := m.watches ++ [⟨0, raiseAt, true⟩] }

/-- Take the registration of a watch back.  The answer says whether there was one, if there is such a watch. -/
def unwatch (number : Nat) (m : Monitor) : Option Bool × Monitor :=
  match m.watches[number]? with
  | none => (none, m)
  | some w => (some w.registered, { m with watches := m.watches.set number { w with registered := false } })

/-- A context has been created. -/
def created (m : Monitor) : Monitor :=
  let watches := m.watches.map (·.count)
  let raised := watches.any fun w => w.registered && w.created = w.raiseAt
  { m with watches, interrupt := if raised then m.interrupt.raise else m.interrupt }

/-- A conclusion has changed a context. -/
def visit (m : Monitor) (inference : Inference) : Monitor :=
  match m.observer with
  | none => m
  | some .recorder => { m with recorder := m.recorder.map (·.visit inference) }
  | some (.alarm mode number seen) =>
    if inference.mode = mode then
      let m := { m with observer := some (.alarm mode number (seen + 1)) }
      if seen + 1 = number then m.raise else m
    else m

def record (limit : Option Nat) (m : Monitor) : Monitor :=
  { m with observer := some .recorder, recorder := some (.new limit) }

def setAlarm (mode : Mode) (number : Nat) (m : Monitor) : Monitor :=
  { m with observer := some (.alarm mode number 0) }

def unobserve (m : Monitor) : Monitor := { m with observer := none }

end Monitor

end ELOntology
