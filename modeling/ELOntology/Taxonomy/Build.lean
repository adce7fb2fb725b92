import ELOntology.Index.Basic
import ELOntology.Saturation.Workspace
import ELOntology.Taxonomy.Basic

/-!
# Building the class taxonomy

Each satisfiable class is reduced on its own: of its subsumers, those that it subsumes too are its equivalents, and the
minimal ones among the others are directly above it.  The reductions are then put together in the order of the class
numbers, one node for the classes of a reduction unless its class already has a node.  The unsatisfiable classes form
the bottom node, which comes last and lies directly below every node with nothing else below it.

In an inconsistent ontology all classes are in one node.
-/

namespace ELOntology

/-- What a context says about a class: whether it can have instances, and the classes that it is included in. -/
structure ClassSummary where
  id : ExprId
  satisfiable : Bool
  supers : List ExprId
deriving Inhabited

/-- A class with the classes equivalent to it and those directly above it. -/
structure Reduction where
  id : ExprId
  equivalents : List ExprId
  direct : List ExprId
deriving Inhabited

namespace Taxonomy

/-- Whether a class is included in another one.  A class without a context is included in itself and in the top class. -/
def included (w : Workspace) (sub sup : ExprId) : Bool :=
  match w.context? sub with
  | some ctx => ctx.facts.hasSubsumer sup
  | none => sup = sub || sup = .thing

def summarize (ix : Index) (w : Workspace) (id : ExprId) : ClassSummary :=
  match w.context? id with
  | some ctx => ⟨id, ctx.isSatisfiable, ctx.facts.subsumers.filter ix.isListed⟩
  | none => ⟨id, true, [ExprId.thing].insert id⟩

def sortClasses (ids : List ExprId) : List ExprId := sortBy (fun a b => decide (a.val ≤ b.val)) ids

/-- The reduction of a class that is included in the given ones, where `included` says what is included in what. -/
def reduce (included : ExprId → ExprId → Bool) (id : ExprId) (supers : List ExprId) : Reduction :=
  let others := supers.filter (· ≠ id)
  let strict := others.filter fun sup => !included sup id
  let below (a b : ExprId) : Bool := a ≠ b && included a b && !included b a
  { id
    equivalents := sortClasses (id :: others.filter fun sup => included sup id)
    direct := strict.filter fun sup => !strict.any fun other => below other sup }

/-- The reductions of the satisfiable classes. -/
def reductions (w : Workspace) (summaries : List ClassSummary) : List Reduction :=
  (summaries.filter (·.satisfiable)).map fun s => reduce (included w) s.id s.supers

/-- The reductions that make a node, and the node of each class; the entry nearest to the front counts. -/
structure Layout where
  chosen : List Reduction
  places : List (ExprId × Nat)

namespace Layout

def place? (layout : Layout) (id : ExprId) : Option Nat := (layout.places.find? fun entry => entry.1 = id).map (·.2)

/-- Give the classes of a reduction the next node, unless its class has one. -/
def add (layout : Layout) (r : Reduction) : Layout :=
  if (layout.place? r.id).isSome then layout
  else
    let place := layout.chosen.length
    { chosen := layout.chosen ++ [r]
      places := (r.equivalents.map fun id => (id, place)).reverse ++ layout.places }

def ofReductions (rs : List Reduction) : Layout := rs.foldl add ⟨[], []⟩

end Layout

/-- The names of equivalent classes in order, but the top class before all others. -/
def sortMembers (names : List String) : List String :=
  let names := sortTexts names
  if owlThing ∈ names then owlThing :: names.erase owlThing else names

/-- The names of the given classes in order, after the bottom class. -/
def bottomMembers (ix : Index) (ids : List ExprId) : List String :=
  owlNothing :: sortTexts ((ids.filter (· ≠ .nothing)).map ix.iriOf)

/-- The nodes directly above the node at `place`; the top node if there is none. -/
def superPlaces (layout : Layout) (top bottom place : Nat) (r : Reduction) : List Nat :=
  let found := distinct (sortBy (fun a b => decide (a ≤ b))
    ((r.direct.filterMap layout.place?).filter (· ≠ place)))
  if found.isEmpty && place ≠ top && top ≠ bottom then [top] else found

/-- The table of classes that belongs to a list of nodes; a later node comes before an earlier one. -/
def placesOf (nodes : List TaxonomyNode) : List (String × Nat) :=
  (nodes.zipIdx.flatMap fun (node, place) => node.members.map fun m => (m, place)).reverse

/-- The places of the lists that hold the given place. -/
def linkedTo (place : Nat) (links : List (List Nat × Nat)) : List Nat :=
  links.filterMap fun (above, i) => if place ∈ above then some i else none

def assemble (ix : Index) (w : Workspace) : Taxonomy :=
  let summaries := ix.classes.map (summarize ix w)
  let layout := Layout.ofReductions (reductions w summaries)
  let bottom := layout.chosen.length
  let top := (layout.place? .thing).getD bottom
  let supers := layout.chosen.zipIdx.map fun (r, place) => superPlaces layout top bottom place r
  let subs := (List.range bottom).map fun place => linkedTo place supers.zipIdx
  let inner := (layout.chosen.zip (supers.zip subs)).map fun (r, above, below) =>
    (⟨sortMembers (r.equivalents.map ix.iriOf), above, if below.isEmpty then [bottom] else below⟩ : TaxonomyNode)
  let leaves := subs.zipIdx.filterMap fun (below, place) => if below.isEmpty then some place else none
  let unsatisfiable := (summaries.filter fun s => !s.satisfiable).map (·.id)
  let nodes := inner ++ [⟨bottomMembers ix unsatisfiable, leaves, []⟩]
  ⟨nodes.toArray, placesOf nodes, top, bottom⟩

/-- The taxonomy of an inconsistent ontology. -/
def collapsed (ix : Index) : Taxonomy :=
  let node : TaxonomyNode := ⟨bottomMembers ix ix.classes, [], []⟩
  ⟨#[node], placesOf [node], 0, 0⟩

/-- The class taxonomy of an index and a saturated workspace. -/
def build (ix : Index) (w : Workspace) (inconsistent : Bool) : Taxonomy :=
  if inconsistent then collapsed ix
  else assemble ix w

end Taxonomy

end ELOntology
