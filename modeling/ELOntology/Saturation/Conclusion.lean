import ELOntology.Index.Shape

/-!
# Conclusions

Saturation works on contexts, one for each root expression, which send each other conclusions.  A conclusion speaks
about the root of the context that receives it.  Two kinds are commands rather than facts: `init` starts a context and
`rulesChanged` has it look again at the rules of a premise.
-/

namespace ELOntology

inductive Conclusion where
  /-- The root and the top class hold. -/
  | init
  /-- The root is included in `expr`.  A positive subsumer is taken apart, a negative one only combined. -/
  | subsumer (expr : ExprId) (polarity : Polarity)
  /-- `source` is linked to the root by `role`. -/
  | backwardLink (source : ExprId) (role : RoleId)
  /-- The root is linked to `target` by `role`, which can stand on the right of a composition. -/
  | forwardLink (role : RoleId) (target : ExprId)
  /-- Whatever is linked to the root by `role` is included in `carry`. -/
  | propagation (role : RoleId) (carry : ExprId)
  /-- The root is included in `member`, which is listed in a disjointness axiom. -/
  | disjointMember (disjointness : DisjointnessId) (member : ExprId)
  /-- The root is empty. -/
  | contradiction
  /-- The rules of `premise` have changed. -/
  | rulesChanged (premise : ExprId)
deriving DecidableEq, Inhabited

inductive ConclusionKind where
  | init
  | subsumer
  | backwardLink
  | forwardLink
  | propagation
  | disjointMember
  | contradiction
  | rulesChanged
deriving DecidableEq, Inhabited

namespace ConclusionKind

def all : List ConclusionKind :=
  [init, subsumer, backwardLink, forwardLink, propagation, disjointMember, contradiction, rulesChanged]

def name : ConclusionKind → String
  | init => "context-init"
  | subsumer => "subsumer"
  | backwardLink => "backward-link"
  | forwardLink => "forward-link"
  | propagation => "propagation"
  | disjointMember => "disjointness-member"
  | contradiction => "contradiction"
  | rulesChanged => "index-change"

end ConclusionKind

namespace Conclusion

def kind : Conclusion → ConclusionKind
  | init => .init
  | subsumer .. => .subsumer
  | backwardLink .. => .backwardLink
  | forwardLink .. => .forwardLink
  | propagation .. => .propagation
  | disjointMember .. => .disjointMember
  | contradiction => .contradiction
  | rulesChanged _ => .rulesChanged

/-- The conclusion with the polarity of a subsumer forgotten, which is what a context stores. -/
def unsigned : Conclusion → Conclusion
  | subsumer expr _ => subsumer expr .positive
  | c => c

/-- Whether a context can store the conclusion. -/
def isStorable : Conclusion → Bool
  | init | rulesChanged _ => false
  | _ => true

end Conclusion

/-- Whether conclusions are derived, or what was derived from them is taken back. -/
inductive Mode where
  | derive
  | retract
deriving DecidableEq, Inhabited

end ELOntology
