import ELOntology.Saturation.Rules
import ELOntology.Saturation.Workspace

/-!
# How long a run can be

A run mentions no other expressions, roles and disjointness axioms than those of its vocabulary: what the index and the
hierarchy mention, and what is stored or waits in some context.  Only finitely many conclusions can be stored over a
vocabulary, and each of them has finitely many productions.  `workBound` exceeds the number of conclusions that a run
processes, and the number of times that it takes a context from the queue.
-/

namespace ELOntology

/-- What conclusions can be made of. -/
structure Vocabulary where
  exprs : List ExprId
  roles : List RoleId
  disjointnesses : List DisjointnessId
deriving Inhabited

namespace Vocabulary

def empty : Vocabulary := ⟨[], [], []⟩

def append (u v : Vocabulary) : Vocabulary :=
  ⟨u.exprs ++ v.exprs, u.roles ++ v.roles, u.disjointnesses ++ v.disjointnesses⟩

def join (vs : List Vocabulary) : Vocabulary := vs.foldr append empty

/-- At least the number of conclusions over the vocabulary that one context can store. -/
def factCount (v : Vocabulary) : Nat :=
  v.exprs.length * (3 * v.roles.length + v.disjointnesses.length + 1) + 1

end Vocabulary

def Conclusion.vocabulary : Conclusion → Vocabulary
  | init | contradiction => .empty
  | subsumer expr _ | rulesChanged expr => ⟨[expr], [], []⟩
  | backwardLink expr role | forwardLink role expr | propagation role expr => ⟨[expr], [role], []⟩
  | disjointMember d member => ⟨[member], [], [d]⟩

def Shape.vocabulary : Shape → Vocabulary
  | conjunction first second => ⟨[first, second], [], []⟩
  | existential role filler => ⟨[filler], [role], []⟩
  | named _ | data .. | nominal _ => .empty

def Rule.vocabulary : Rule → Vocabulary
  | toldSupers supers => ⟨supers, [], []⟩
  | conjunctions pairs => ⟨pairs.flatMap fun (other, both) => [other, both], [], []⟩
  | propagations pairs => ⟨pairs.map (·.2), pairs.map (·.1), []⟩
  | disjointness memberships => ⟨[], [], memberships⟩

def Node.vocabulary (node : Node) : Vocabulary :=
  node.shape.vocabulary.append (.join (node.rules.map (·.vocabulary)))

def RoleHierarchy.vocabulary (h : RoleHierarchy) : Vocabulary :=
  ⟨[], h.below.toList.flatten ++ h.told.map (fun (_, _, sup) => sup), []⟩

namespace Workspace

/-- The conclusions that a context stores or has to process. -/
def conclusionsOf : Option Context → List Conclusion
  | some c => c.todo.toList ++ c.facts.stored
  | none => []

/-- All conclusions that are stored or have to be processed. -/
def conclusions (w : Workspace) : List Conclusion := w.contexts.toList.flatMap conclusionsOf

/-- The top class, the roots that the table covers, and what the conclusions mention. -/
def vocabulary (w : Workspace) : Vocabulary :=
  let roots : Vocabulary := ⟨.thing :: (List.range w.contexts.size).map ExprId.mk, [], []⟩
  roots.append (.join (w.conclusions.map (·.vocabulary)))

end Workspace

namespace RuleBase

def vocabulary (rb : RuleBase) : Vocabulary :=
  rb.roles.vocabulary.append (.join (rb.index.nodes.toList.map (·.vocabulary)))

/-- At least the number of conclusions that a rule of the given size makes of its premise. -/
def ruleWidth (rb : RuleBase) (rule : Rule) : Nat :=
  rule.size * ((rb.roles.below.toList.map List.length).foldl max 1)

/-- At least the number of conclusions that the rules of a premise make of it. -/
def nodeWidth (rb : RuleBase) (node : Node) : Nat := node.rules.foldr (fun rule n => rb.ruleWidth rule + n) 0

/-- At least the number of productions of one conclusion in a context that stores at most `facts` conclusions. -/
def widthBound (rb : RuleBase) (facts : Nat) : Nat :=
  let rules := rb.index.nodes.toList.foldr (fun node n => rb.nodeWidth node + n) 0
  4 + facts * (rb.roles.told.length + 1) + rules

/-- More than the conclusions that a run processes. -/
def workBound (rb : RuleBase) (w : Workspace) : Nat :=
  let known := w.conclusions.length
  let facts := known + (rb.vocabulary.append w.vocabulary).factCount
  let changes := w.contexts.size * (facts + 1) + known
  known + w.active.toList.length + 2 * changes * rb.widthBound facts + 1

end RuleBase

end ELOntology
