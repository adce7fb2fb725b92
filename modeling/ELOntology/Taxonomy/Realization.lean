import ELOntology.Taxonomy.Build

/-!
# Realization

The direct types of an individual are the lowest nodes among those of the classes that its context has found it to
belong to.  Types and instances are kept in both directions, by the names that stand for the nodes.
-/

namespace ELOntology

/-- Tables sorted by key whose values are sets. -/
structure Realization where
  /-- The direct types of each individual. -/
  types : List (String × List String)
  /-- The individuals that each class directly types. -/
  instances : List (String × List String)
deriving DecidableEq, Inhabited

namespace Realization

def individuals (r : Realization) : List String := r.types.map (·.1)

def directTypes? (r : Realization) (individual : String) : Option (List String) :=
  (r.types.find? fun entry => entry.1 = individual).map (·.2)

def directInstances? (r : Realization) (canonical : String) : Option (List String) :=
  (r.instances.find? fun entry => entry.1 = canonical).map (·.2)

/-- The direct types of an individual and all that is above them. -/
def types? (r : Realization) (t : Taxonomy) (individual : String) : Option (List String) :=
  (r.directTypes? individual).map fun direct =>
    textSet (direct ++ direct.flatMap fun name =>
      match t.place? name with
      | some place => (t.ancestors place).map fun p => (t.node p).canonical
      | none => [])

/-- The individuals typed by the node of a class or by a node below it. -/
def instancesOf (r : Realization) (t : Taxonomy) (iri : String) : List String :=
  match t.place? iri with
  | none => []
  | some place =>
    textSet ((place :: t.descendants place).flatMap fun p => (r.directInstances? (t.node p).canonical).getD [])

/-- The nodes that type an individual, sorted; the top node for one without a context. -/
def typePlaces (ix : Index) (w : Workspace) (t : Taxonomy) (individual : ExprId) : List Nat :=
  match w.context? individual with
  | none => [t.top]
  | some ctx =>
    let classes := ctx.facts.subsumers.filter fun id => ix.isClass id
    distinct (sortBy (fun a b => decide (a ≤ b)) (classes.filterMap fun id => t.place? (ix.iriOf id)))

/-- The nodes that have no other one of them below. -/
def lowest (t : Taxonomy) (places : List Nat) : List Nat :=
  let ancestry := places.map fun p => (p, t.ancestors p)
  places.filter fun p => !ancestry.any fun (q, above) => q ≠ p && decide (p ∈ above)

def directTypes (ix : Index) (w : Workspace) (t : Taxonomy) (inconsistent : Bool) (individual : ExprId) : List String :=
  if inconsistent then [(t.node t.bottom).canonical]
  else t.canonicals (lowest t (typePlaces ix w t individual))

/-- Turn a table round. -/
def invert (types : List (String × List String)) : List (String × List String) :=
  (textSet (types.flatMap (·.2))).map fun name =>
    (name, textSet ((types.filter fun entry => name ∈ entry.2).map (·.1)))

/-- The realization of the individuals of an index. -/
def build (ix : Index) (w : Workspace) (t : Taxonomy) (inconsistent : Bool) : Realization :=
  let types := ix.individuals.map fun id => (ix.iriOf id, directTypes ix w t inconsistent id)
  let types := sortBy (fun a b => decide (a.1 ≤ b.1)) types
  ⟨types, invert types⟩

end Realization

end ELOntology
