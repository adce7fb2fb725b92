import ELOntology.Graph.Reach
import ELOntology.Order.Sort

/-!
# Taxonomies

A taxonomy is a graph whose nodes are sets of equivalent classes.  A node names its direct neighbours above and below
by their places in the list of nodes.  The first member of a node stands for it in answers.
-/

namespace ELOntology

structure TaxonomyNode where
  members : List String
  supers : List Nat
  subs : List Nat
deriving DecidableEq, Inhabited

namespace TaxonomyNode

/-- The member that stands for the node. -/
def canonical (node : TaxonomyNode) : String := node.members.headD ""

end TaxonomyNode

structure Taxonomy where
  nodes : Array TaxonomyNode
  /-- The node of each class, the entry nearest to the front when there are several. -/
  places : List (String × Nat)
  top : Nat
  bottom : Nat
deriving DecidableEq, Inhabited

namespace Taxonomy

def size (t : Taxonomy) : Nat := t.nodes.size

def node (t : Taxonomy) (place : Nat) : TaxonomyNode := t.nodes.getD place ⟨[], [], []⟩

/-- The place of the node of a class. -/
def place? (t : Taxonomy) (iri : String) : Option Nat := (t.places.find? fun entry => entry.1 = iri).map (·.2)

def nodeOf? (t : Taxonomy) (iri : String) : Option TaxonomyNode := (t.place? iri).map t.node

/-- Whether the class is among those that are always empty. -/
def isBottom (t : Taxonomy) (iri : String) : Bool := t.place? iri = some t.bottom

/-- The names that stand for the given nodes. -/
def canonicals (t : Taxonomy) (places : List Nat) : List String := textSet (places.map fun p => (t.node p).canonical)

/-- What can be reached from a node by one step or more, without the node itself. -/
def reachable (t : Taxonomy) (next : TaxonomyNode → List Nat) (start : Nat) : List Nat :=
  (reach (fun p => next (t.node p)) t.size start).drop 1

/-- The nodes strictly above a node. -/
def ancestors (t : Taxonomy) (start : Nat) : List Nat := t.reachable (·.supers) start

/-- The nodes strictly below a node. -/
def descendants (t : Taxonomy) (start : Nat) : List Nat := t.reachable (·.subs) start

/-! ### Answers by name

`none` for a class without a node. -/

def equivalents? (t : Taxonomy) (iri : String) : Option (List String) := (t.nodeOf? iri).map fun n => textSet n.members

def directSupers? (t : Taxonomy) (iri : String) : Option (List String) :=
  (t.nodeOf? iri).map fun n => t.canonicals n.supers

def directSubs? (t : Taxonomy) (iri : String) : Option (List String) :=
  (t.nodeOf? iri).map fun n => t.canonicals n.subs

def supers? (t : Taxonomy) (iri : String) : Option (List String) :=
  (t.place? iri).map fun p => t.canonicals (t.ancestors p)

def subs? (t : Taxonomy) (iri : String) : Option (List String) :=
  (t.place? iri).map fun p => t.canonicals (t.descendants p)

end Taxonomy

end ELOntology
