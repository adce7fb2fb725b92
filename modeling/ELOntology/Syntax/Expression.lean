/-!
# Class expressions of the EL profile

The written form of class expressions, before anything is shared or normalised: plain trees over IRIs.  Equality is
equality of trees, so `thing` and the class named `owlThing` are different expressions.
-/

namespace ELOntology

/-- The IRI of the top class. -/
def owlThing : String := "http://www.w3.org/2002/07/owl#Thing"

/-- The IRI of the bottom class. -/
def owlNothing : String := "http://www.w3.org/2002/07/owl#Nothing"

/-- A typed data value. -/
structure Literal where
  lexical : String
  datatype : String
deriving DecidableEq, Inhabited

/-- A data range: a whole datatype, or its values with a length between two optional bounds. -/
inductive DataRange where
  | datatype (iri : String)
  | length (datatype : String) (min max : Option UInt32)
deriving DecidableEq, Inhabited

inductive ClassExpression where
  | named (iri : String)
  | thing
  | nothing
  | intersection (operands : List ClassExpression)
  | someValues (role : String) (filler : ClassExpression)
  | hasValue (role : String) (individual : String)
  | oneOf (individual : String)
  | dataHasValue (property : String) (literal : Literal)
  | dataSomeValues (property : String) (range : DataRange)
deriving Inhabited

/-- The left side of a role inclusion: a role, or a composition of roles. -/
inductive RoleExpression where
  | role (iri : String)
  | chain (roles : List String)
deriving DecidableEq, Inhabited

namespace ClassExpression

mutual

private def same : ClassExpression → ClassExpression → Bool
  | named s, named t => s == t
  | thing, thing => true
  | nothing, nothing => true
  | intersection as, intersection bs => sameAll as bs
  | someValues r a, someValues s b => r == s && same a b
  | hasValue r i, hasValue s j => r == s && i == j
  | oneOf i, oneOf j => i == j
  | dataHasValue p l, dataHasValue q m => p == q && decide (l = m)
  | dataSomeValues p r, dataSomeValues q s => p == q && decide (r = s)
  | _, _ => false

private def sameAll : List ClassExpression → List ClassExpression → Bool
  | [], [] => true
  | a :: as, b :: bs => same a b && sameAll as bs
  | _, _ => false

end

mutual

private theorem same_iff : (a b : ClassExpression) → (same a b = true ↔ a = b)
  | named _, b => by cases b <;> simp [same]
  | thing, b => by cases b <;> simp [same]
  | nothing, b => by cases b <;> simp [same]
  | intersection as, b => by cases b <;> simp [same, sameAll_iff as]
  | someValues _ a, b => by cases b <;> simp [same, same_iff a]
  | hasValue _ _, b => by cases b <;> simp [same]
  | oneOf _, b => by cases b <;> simp [same]
  | dataHasValue _ _, b => by cases b <;> simp [same]
  | dataSomeValues _ _, b => by cases b <;> simp [same]

private theorem sameAll_iff : (as bs : List ClassExpression) → (sameAll as bs = true ↔ as = bs)
  | [], bs => by cases bs <;> simp [sameAll]
  | a :: as, bs => by cases bs <;> simp [sameAll, same_iff a, sameAll_iff as]

end

instance : DecidableEq ClassExpression := fun a b => decidable_of_iff _ (same_iff a b)

end ClassExpression

end ELOntology
