import ELOntology.Error
import ELOntology.Index.Basic
import ELOntology.Taxonomy.Basic

/-!
# Auditing a taxonomy

`Taxonomy.audit` checks a taxonomy of any origin against an index: each class of the index is a member, no class is a
member twice, the table of classes agrees with the members, links are mutual, there is no cycle, and no direct link is
implied by others.  The first defect found, in this order, is the answer.
-/

namespace ELOntology

namespace Taxonomy

/-- All members with the places of their nodes, in order. -/
def memberships (t : Taxonomy) : List (String × Nat) :=
  t.nodes.toList.zipIdx.flatMap fun (node, place) => node.members.map fun m => (m, place)

/-- The first name that has occurred before. -/
def firstRepeated? (seen : List String) : List String → Option String
  | [] => none
  | name :: names => if name ∈ seen then some name else firstRepeated? (name :: seen) names

def checkMembers (t : Taxonomy) (ix : Index) : Except TaxonomyError Unit :=
  let members := t.memberships
  match firstRepeated? [] (members.map (·.1)) with
  | some iri => .error (.duplicateMember iri)
  | none =>
    match members.find? fun (m, place) => t.place? m ≠ some place with
    | some (m, _) => .error (.lookupMismatch m)
    | none =>
      match (ix.classes.map ix.iriOf).find? fun iri => iri ∉ members.map (·.1) with
      | some iri => .error (.missingClass iri)
      | none => .ok ()

/-- The places of all nodes. -/
def allPlaces (t : Taxonomy) : List Nat := List.range t.size

/-- The links of the node at `place` that the other end does not return. -/
def oneSided (t : Taxonomy) (place : Nat) : List Nat :=
  ((t.node place).supers.filter fun sup => place ∉ (t.node sup).subs)
    ++ (t.node place).subs.filter fun sub => place ∉ (t.node sub).supers

def checkLinks (t : Taxonomy) : Except TaxonomyError Unit :=
  match (t.allPlaces.flatMap fun place => (t.oneSided place).map fun other => (place, other)).head? with
  | some (place, other) => .error (.linkMismatch (t.node place).canonical (t.node other).canonical)
  | none => .ok ()

/-- Whether there is a path upwards, possibly of no steps. -/
def leadsTo (t : Taxonomy) (start goal : Nat) : Bool :=
  decide (goal ∈ reach (fun p => (t.node p).supers) t.size start)

def onCycle (t : Taxonomy) (place : Nat) : Bool := (t.node place).supers.any fun sup => t.leadsTo sup place

/-- Pairs of direct super-nodes of which the second is above the first. -/
def impliedLinks (t : Taxonomy) (place : Nat) : List (Nat × Nat) :=
  let supers := (t.node place).supers
  supers.flatMap fun via =>
    (supers.filter fun redundant => redundant ≠ via && t.leadsTo via redundant).map fun redundant => (via, redundant)

def checkReduction (t : Taxonomy) : Except TaxonomyError Unit :=
  match t.allPlaces.find? t.onCycle with
  | some place => .error (.cycle (t.node place).canonical)
  | none =>
    match (t.allPlaces.flatMap fun place => (t.impliedLinks place).map fun link => (place, link)).head? with
    | some (place, via, redundant) =>
      .error (.redundantEdge (t.node place).canonical (t.node redundant).canonical (t.node via).canonical)
    | none => .ok ()

/-- Whether the taxonomy is well formed and covers the classes of the index. -/
def audit (t : Taxonomy) (ix : Index) : Except TaxonomyError Unit := do
  t.checkMembers ix
  t.checkLinks
  t.checkReduction

end Taxonomy

end ELOntology
