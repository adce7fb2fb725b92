/-!
# Shapes of indexed expressions

The index numbers expressions, roles and disjointness axioms.  A shape is a class expression whose immediate parts are
numbers, so expressions that are equal as trees have equal shapes once their parts have been numbered.

Numbers are natural numbers here, without a bound.  An index that keeps them in 32 bits has the same numbers as long as no
table has more than `2 ^ 32` entries; beyond that it would give a number twice, which is not modelled.
-/

namespace ELOntology

/-- The number of an indexed class expression, unbounded. -/
@[ext]
structure ExprId where
  val : Nat
deriving DecidableEq, Inhabited

/-- The number of an indexed role, unbounded. -/
@[ext]
structure RoleId where
  val : Nat
deriving DecidableEq, Inhabited

/-- The number of an indexed disjointness axiom, unbounded. -/
@[ext]
structure DisjointnessId where
  val : Nat
deriving DecidableEq, Inhabited

/-- The top class is the first expression of every index. -/
def ExprId.thing : ExprId := ⟨0⟩

/-- The bottom class is the second expression of every index. -/
def ExprId.nothing : ExprId := ⟨1⟩

/-- The values that a data restriction admits. -/
inductive ValueSpace where
  | entire (datatype : String)
  | value (datatype lexical : String)
  | length (datatype : String) (min max : Option UInt32)
deriving DecidableEq, Inhabited

inductive Shape where
  | named (iri : String)
  | conjunction (first second : ExprId)
  | existential (role : RoleId) (filler : ExprId)
  | data (property : String) (space : ValueSpace)
  | nominal (individual : String)
deriving DecidableEq, Inhabited

/-- The side of an inclusion on which an expression occurs: positive on the right, negative on the left. -/
inductive Polarity where
  | positive
  | negative
deriving DecidableEq, Inhabited

end ELOntology
