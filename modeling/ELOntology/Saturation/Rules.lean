import ELOntology.Role.Hierarchy
import ELOntology.Saturation.Facts

/-!
# The rules of the calculus

`productions` lists what follows from one conclusion in a context, given the facts of that context: the root of the
context that is concerned, and the conclusion for it.  The same list serves both modes; in the mode `retract` it is what
once followed and may have to go.  Only there, a subsumer is taken apart whatever its polarity, since a context does not
remember how it came by it.
-/

namespace ELOntology

/-- What the rules are read from. -/
structure RuleBase where
  index : Index
  roles : RoleHierarchy
deriving Inhabited

/-- A conclusion for the context of a root. -/
abbrev Production := ExprId × Conclusion

namespace RuleBase

/-- What an expression consists of. -/
def decompose (rb : RuleBase) (root expr : ExprId) : List Production :=
  match rb.index.shape? expr with
  | some (.conjunction first second) => [(root, .subsumer first .positive), (root, .subsumer second .positive)]
  | some (.existential role filler) => [(filler, .backwardLink root role)]
  | _ => []

/-- What one rule concludes from its premise. -/
def ruleConclusions (rb : RuleBase) (facts : Facts) (premise : ExprId) : Rule → List Conclusion
  | .toldSupers supers => supers.map (.subsumer · .positive)
  | .conjunctions pairs =>
    (pairs.filter fun (other, _) => facts.hasSubsumer other).map fun (_, conjunction) =>
      .subsumer conjunction .negative
  | .propagations pairs =>
    pairs.flatMap fun (role, existential) => (rb.roles.subRoles role).map (.propagation · existential)
  | .disjointness memberships => memberships.map (.disjointMember · premise)

/-- What the rules of a premise conclude. -/
def compose (rb : RuleBase) (facts : Facts) (premise : ExprId) : List Conclusion :=
  (rb.index.rulesOf premise).flatMap (rb.ruleConclusions facts premise)

/-- The links that arise from a link `source` to the root by `left` and those from the root onwards. -/
def composeForward (rb : RuleBase) (facts : Facts) (source : ExprId) (left : RoleId) : List Production :=
  facts.forward.flatMap fun (right, targets) =>
    (rb.roles.compositions left right).flatMap fun composed =>
      targets.map fun target => (target, .backwardLink source composed)

/-- The links that arise from those to the root and a link from the root by `right` to `target`. -/
def composeBackward (rb : RuleBase) (facts : Facts) (right : RoleId) (target : ExprId) : List Production :=
  facts.backward.flatMap fun (left, sources) =>
    (rb.roles.compositions left right).flatMap fun composed =>
      sources.map fun source => (target, .backwardLink source composed)

def productions (rb : RuleBase) (mode : Mode) (root : ExprId) (facts : Facts) : Conclusion → List Production
  | .init => [(root, .subsumer root .positive), (root, .subsumer .thing .positive)]
  | .subsumer expr polarity =>
    (if expr = .nothing then [(root, .contradiction)] else [])
      ++ (if polarity = .positive ∨ mode = .retract then rb.decompose root expr else [])
      ++ (rb.compose facts expr).map (root, ·)
  | .backwardLink source role =>
    (if facts.contradictory then [(source, .contradiction)] else [])
      ++ (facts.carriedBy role).map (fun carry => (source, .subsumer carry .negative))
      ++ (if rb.roles.isRightComposable role then [(source, .forwardLink role root)] else [])
      ++ rb.composeForward facts source role
  | .forwardLink role target => rb.composeBackward facts role target
  | .propagation role carry => (facts.sourcesBy role).map fun source => (source, .subsumer carry .negative)
  | .disjointMember d member =>
    if (facts.disjointMembers d).any (· ≠ member) then [(root, .contradiction)] else []
  | .contradiction => facts.backward.flatMap fun (_, sources) => sources.map fun source => (source, .contradiction)
  | .rulesChanged premise => if facts.hasSubsumer premise then (rb.compose facts premise).map (root, ·) else []

end RuleBase

end ELOntology
