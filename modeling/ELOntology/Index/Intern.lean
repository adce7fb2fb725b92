import ELOntology.Error
import ELOntology.Index.Basic
import ELOntology.Order.Sort

/-!
# Interning class expressions

Numbering an expression numbers its parts first.  Nested intersections are one intersection; its conjuncts are ordered
by structural hash and paired from the left, so that the order and the grouping in which they were written does not
matter.  A repeated conjunct stays repeated.

Interning can fail in the middle, and what was numbered up to then stays numbered: `Indexing` keeps the index also when
it fails.
-/

namespace ELOntology

/-- A computation on an index that may fail and keeps the index in either case. -/
abbrev Indexing := ExceptT IndexError (StateM Index)

namespace Indexing

def intern (shape : Shape) : Indexing ExprId := fun ix =>
  let (id, ix) := ix.intern shape
  (.ok id, ix)

def internRole (iri : String) : Indexing RoleId := fun ix =>
  let (id, ix) := ix.internRole iri
  (.ok id, ix)

/-- Change the index. -/
def change (f : Index → Index) : Indexing Unit := fun ix => (.ok (), f ix)

def internRoles : List String → Indexing (List RoleId)
  | [] => return []
  | iri :: iris => do
    let id ← internRole iri
    let ids ← internRoles iris
    return id :: ids

end Indexing

/-- Conjuncts are ordered by hash, and by number where the hashes are equal. -/
def conjunctLe (a b : UInt64 × ExprId) : Bool := a.1 < b.1 || (a.1 = b.1 && a.2.val ≤ b.2.val)

/-- The first two neighbours with equal hashes that are not the same node. -/
def collision? : List (UInt64 × ExprId) → Option (ExprId × ExprId × UInt64)
  | a :: b :: rest => if a.1 = b.1 ∧ a.2 ≠ b.2 then some (a.2, b.2, a.1) else collision? (b :: rest)
  | _ => none

/-- Order conjuncts by structural hash. -/
def orderConjuncts (ix : Index) (conjuncts : List ExprId) : Except IndexError (List ExprId) :=
  let ordered := sortBy conjunctLe (conjuncts.map fun id => (ix.hashOf id, id))
  match collision? ordered with
  | some (a, b, hash) => .error (.hashCollision (ix.render a) (ix.render b) hash)
  | none => .ok (ordered.map (·.2))

/-- Pair the conjuncts from the left. -/
def internFold : ExprId → List ExprId → Indexing ExprId
  | acc, [] => return acc
  | acc, next :: rest => do
    let acc ← Indexing.intern (.conjunction acc next)
    internFold acc rest

/-- The node of an intersection of the given conjuncts. -/
def internConjunction (conjuncts : List ExprId) : Indexing ExprId := do
  let ix ← get
  match orderConjuncts ix conjuncts with
  | .error e => throw e
  | .ok [] => throw .emptyIntersection
  | .ok (first :: rest) => internFold first rest

def DataRange.valueSpace : DataRange → ValueSpace
  | datatype iri => .entire iri
  | length iri min max => .length iri min max

namespace ClassExpression

mutual

def intern : ClassExpression → Indexing ExprId
  | named iri => Indexing.intern (.named iri)
  | thing => return .thing
  | nothing => return .nothing
  | intersection operands => do
    let conjuncts ← internConjuncts operands
    internConjunction conjuncts
  | someValues role filler => do
    let filler ← filler.intern
    let role ← Indexing.internRole role
    Indexing.intern (.existential role filler)
  | hasValue role individual => do
    let filler ← Indexing.intern (.nominal individual)
    let role ← Indexing.internRole role
    Indexing.intern (.existential role filler)
  | oneOf individual => Indexing.intern (.nominal individual)
  | dataHasValue property literal => Indexing.intern (.data property (.value literal.datatype literal.lexical))
  | dataSomeValues property range => Indexing.intern (.data property range.valueSpace)

/-- The conjuncts of an intersection, those of its nested intersections in their places. -/
def internConjuncts : List ClassExpression → Indexing (List ExprId)
  | [] => return []
  | intersection operands :: rest => do
    let inner ← internConjuncts operands
    let outer ← internConjuncts rest
    return inner ++ outer
  | operand :: rest => do
    let id ← operand.intern
    let ids ← internConjuncts rest
    return id :: ids

end

def internAll : List ClassExpression → Indexing (List ExprId)
  | [] => return []
  | e :: es => do
    let id ← e.intern
    let ids ← internAll es
    return id :: ids

end ClassExpression

end ELOntology
