import ELOntology.Reasoner.Stages

/-!
# Queries

Every query runs the stages it rests on if they are not done, and fails if one of them does.  Classes and individuals are
named by IRIs; a name that is not known has neither super- nor subclasses, and is satisfiable.
-/

namespace ELOntology

namespace Reasoner

open Request

/-- The class taxonomy. -/
def classify : Request Taxonomy := do
  complete .classTaxonomy
  let r ← get
  if r.config.validateTaxonomy then complete .validation
  fun r => let (t, r) := withTaxonomy r; (.ok t, r)

/-- The direct types of all individuals. -/
def realize : Request Realization := do
  let _ ← classify
  complete .instanceTaxonomy
  fun r => let (i, r) := withRealization r; (.ok i, r)

def isInconsistent : Request Bool := do
  complete .consistency
  ask (·.inconsistent)

def isSatisfiable (iri : String) : Request Bool := do
  complete .consistency
  ask fun r =>
    !r.inconsistent &&
      match r.index.classId? iri with
      | some id => !r.workspace.isUnsatisfiable id
      | none => true

/-- The names of the nodes above a class, or only of those directly above it. -/
def superClasses (iri : String) (direct : Bool) : Request (List String) := do
  let t ← classify
  return ((if direct then t.directSupers? iri else t.supers? iri).getD [])

def subClasses (iri : String) (direct : Bool) : Request (List String) := do
  let t ← classify
  return ((if direct then t.directSubs? iri else t.subs? iri).getD [])

/-- The classes equivalent to a class, itself included. -/
def equivalentClasses (iri : String) : Request (List String) := do
  let t ← classify
  return ((t.equivalents? iri).getD [])

def types (individual : String) (direct : Bool) : Request (List String) := do
  let i ← realize
  let t ← fun r => let (t, r) := withTaxonomy r; (.ok t, r)
  return ((if direct then i.directTypes? individual else i.types? t individual).getD [])

/-- Whether one class is included in another.  Between names of which one was never indexed this holds only if they are
equal or one is the top or the bottom class. -/
def isSubsumed (sub sup : String) : Request Bool := do
  if ← isInconsistent then return true
  ask fun r =>
    match r.index.classId? sub, r.index.classId? sup with
    | some subId, some supId => r.workspace.isUnsatisfiable subId || r.workspace.hasSubsumer subId supId
    | _, _ => sub = sup || sup = owlThing || sub = owlNothing

end Reasoner

end ELOntology
