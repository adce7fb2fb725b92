import ELOntology.Index.Basic
import ELOntology.Saturation.Monitor

/-!
# Describing inferences

The wording of a recorded inference, with the expressions as the index renders them.
-/

namespace ELOntology

namespace Conclusion

/-- What a conclusion says, about a root that is named beside it. -/
def describe (ix : Index) : Conclusion → String
  | init => "init"
  | subsumer expr _ => "⊑ " ++ ix.render expr
  | backwardLink source role => ix.render source ++ " ⊑ ∃" ++ ix.roleName role ++ ".·"
  | forwardLink role target => "⊑ ∃" ++ ix.roleName role ++ "." ++ ix.render target
  | propagation role carry => "propagates " ++ ix.render carry ++ " over " ++ ix.roleName role
  | disjointMember _ member => "⊑ disjoint member " ++ ix.render member
  | contradiction => "⊑ ⊥"
  | rulesChanged premise => "rules of " ++ ix.render premise ++ " changed"

end Conclusion

def Inference.describe (ix : Index) (i : Inference) : String :=
  let verb := match i.mode with
    | .derive => "derived"
    | .retract => "retracted"
  verb ++ " [" ++ ix.render i.root ++ "] " ++ i.conclusion.describe ix

end ELOntology
