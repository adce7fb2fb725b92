import ELOntology.Index.Shape
import ELOntology.Order.SwapErase

/-!
# Rule contributions

Asserting an axiom contributes to the rules of certain expressions, the premises; retracting it takes the contributions
back.  The rules of a premise form a chain with at most one rule of each kind, which gathers what all axioms contribute
to it.  Equal contributions are counted: one of two equal contributions can go while the other stays.

Contributions wait in a `Changes` until they are committed.  One that is taken back before it was committed leaves no
trace.
-/

namespace ELOntology

inductive RuleKind where
  | toldSupers
  | conjunctions
  | propagations
  | disjointness
deriving DecidableEq, Inhabited

def RuleKind.name : RuleKind → String
  | toldSupers => "super-class-from-sub-class"
  | conjunctions => "conjunction-composition"
  | propagations => "existential-propagation"
  | disjointness => "disjointness-membership"

/-- What an axiom adds to the rules of one premise. -/
inductive Contribution where
  /-- `sub` is told to be included in `sup`. -/
  | toldSuper (sub sup : ExprId)
  /-- Where `conjunct` and `other` hold, `conjunction` holds. -/
  | conjunction (conjunct other conjunction : ExprId)
  /-- Where `filler` holds, whatever is linked to it by `role` satisfies `existential`. -/
  | propagation (filler : ExprId) (role : RoleId) (existential : ExprId)
  /-- `member` is listed in a disjointness axiom. -/
  | disjointness (member : ExprId) (disjointness : DisjointnessId)
deriving DecidableEq, Inhabited

namespace Contribution

/-- The expression whose rules are contributed to. -/
def premise : Contribution → ExprId
  | toldSuper sub _ => sub
  | conjunction conjunct _ _ => conjunct
  | propagation filler _ _ => filler
  | disjointness member _ => member

def kind : Contribution → RuleKind
  | toldSuper .. => .toldSupers
  | conjunction .. => .conjunctions
  | propagation .. => .propagations
  | disjointness .. => .disjointness

end Contribution

/-- The contributions of one kind to one premise, without the premise. -/
inductive Rule where
  | toldSupers (supers : List ExprId)
  /-- Pairs of the other conjunct and the conjunction. -/
  | conjunctions (pairs : List (ExprId × ExprId))
  /-- Pairs of a role and an existential over it. -/
  | propagations (pairs : List (RoleId × ExprId))
  | disjointness (memberships : List DisjointnessId)
deriving DecidableEq, Inhabited

namespace Rule

def kind : Rule → RuleKind
  | toldSupers _ => .toldSupers
  | conjunctions _ => .conjunctions
  | propagations _ => .propagations
  | disjointness _ => .disjointness

/-- The number of contributions gathered. -/
def size : Rule → Nat
  | toldSupers supers => supers.length
  | conjunctions pairs => pairs.length
  | propagations pairs => pairs.length
  | disjointness memberships => memberships.length

/-- The rule that gathers a single contribution. -/
def single : Contribution → Rule
  | .toldSuper _ sup => toldSupers [sup]
  | .conjunction _ other conjunction => conjunctions [(other, conjunction)]
  | .propagation _ role existential => propagations [(role, existential)]
  | .disjointness _ d => disjointness [d]

def contains : Rule → Contribution → Bool
  | toldSupers supers, .toldSuper _ sup => decide (sup ∈ supers)
  | conjunctions pairs, .conjunction _ other conjunction => decide ((other, conjunction) ∈ pairs)
  | propagations pairs, .propagation _ role existential => decide ((role, existential) ∈ pairs)
  | disjointness memberships, .disjointness _ d => decide (d ∈ memberships)
  | _, _ => false

/-- Gather one more contribution; one of another kind is passed over. -/
def push : Rule → Contribution → Rule
  | toldSupers supers, .toldSuper _ sup => toldSupers (supers ++ [sup])
  | conjunctions pairs, .conjunction _ other conjunction => conjunctions (pairs ++ [(other, conjunction)])
  | propagations pairs, .propagation _ role existential => propagations (pairs ++ [(role, existential)])
  | disjointness memberships, .disjointness _ d => disjointness (memberships ++ [d])
  | rule, _ => rule

/-- Give up the first of the contributions that are equal to the given one. -/
def erase : Rule → Contribution → Rule
  | toldSupers supers, .toldSuper _ sup => toldSupers (supers.erase sup)
  | conjunctions pairs, .conjunction _ other conjunction => conjunctions (pairs.erase (other, conjunction))
  | propagations pairs, .propagation _ role existential => propagations (pairs.erase (role, existential))
  | disjointness memberships, .disjointness _ d => disjointness (memberships.erase d)
  | rule, _ => rule

end Rule

/-- The rules of one premise, in the order in which their kinds were first contributed to. -/
abbrev RuleChain := List Rule

namespace RuleChain

def find? (chain : RuleChain) (kind : RuleKind) : Option Rule := List.find? (fun rule => rule.kind = kind) chain

def add (c : Contribution) : RuleChain → RuleChain
  | [] => [.single c]
  | rule :: rules => if rule.kind = c.kind then rule.push c :: rules else rule :: add c rules

/-- The chain without one contribution, or `none` when it is not there.  A rule that has lost its last contribution
leaves the chain. -/
def remove? (c : Contribution) : RuleChain → Option RuleChain
  | [] => none
  | rule :: rules =>
    if rule.kind = c.kind then
      if rule.contains c then
        let rule := rule.erase c
        some (if rule.size = 0 then rules else rule :: rules)
      else none
    else (remove? c rules).map (rule :: ·)

def size (chain : RuleChain) : Nat := chain.foldr (fun rule n => rule.size + n) 0

end RuleChain

/-- Contributions added and removed since the last commit. -/
structure Changes where
  added : List Contribution
  removed : List Contribution
deriving DecidableEq, Inhabited

namespace Changes

def empty : Changes := ⟨[], []⟩

def isEmpty (changes : Changes) : Bool := changes.added.isEmpty && changes.removed.isEmpty

def recordAddition (c : Contribution) (changes : Changes) : Changes :=
  if c ∈ changes.removed then { changes with removed := swapErase c changes.removed }
  else { changes with added := changes.added ++ [c] }

def recordRemoval (c : Contribution) (changes : Changes) : Changes :=
  if c ∈ changes.added then { changes with added := swapErase c changes.added }
  else { changes with removed := changes.removed ++ [c] }

end Changes

end ELOntology
