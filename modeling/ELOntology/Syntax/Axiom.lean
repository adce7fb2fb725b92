import ELOntology.Syntax.Expression

/-!
# Axioms

The axioms an ontology may assert.  Two axioms are the same when they are the same tree, so an axiom is identified by
the way it is written.
-/

namespace ELOntology

inductive Entity where
  | namedClass (iri : String)
  | objectProperty (iri : String)
  | individual (iri : String)
deriving DecidableEq, Inhabited

inductive Axiom where
  | declaration (entity : Entity)
  | subClassOf (sub sup : ClassExpression)
  | equivalentClasses (members : List ClassExpression)
  | disjointClasses (members : List ClassExpression)
  | classAssertion (type : ClassExpression) (individual : String)
  | roleAssertion (role subject object : String)
  | subRoleOf (sub : RoleExpression) (sup : String)
  | equivalentRoles (roles : List String)
  | transitiveRole (role : String)
deriving DecidableEq, Inhabited

namespace Axiom

/-- Whether the axiom speaks about the role hierarchy. -/
def isRoleAxiom : Axiom → Bool
  | subRoleOf .. | equivalentRoles _ | transitiveRole _ => true
  | _ => false

/-- The name of the form of the axiom in the OWL structural specification. -/
def kindName : Axiom → String
  | declaration _ => "Declaration"
  | subClassOf .. => "SubClassOf"
  | equivalentClasses _ => "EquivalentClasses"
  | disjointClasses _ => "DisjointClasses"
  | classAssertion .. => "ClassAssertion"
  | roleAssertion .. => "ObjectPropertyAssertion"
  | subRoleOf .. => "SubObjectPropertyOf"
  | equivalentRoles _ => "EquivalentObjectProperties"
  | transitiveRole _ => "TransitiveObjectProperty"

end Axiom

end ELOntology
