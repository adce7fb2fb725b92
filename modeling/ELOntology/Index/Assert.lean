import ELOntology.Index.Intern

/-!
# Asserting and retracting axioms

Asserting an axiom that is asserted already only counts, and so does retracting one of several assertions.  The first
assertion and the last retraction change the index: they number the expressions of the axiom, count their occurrences
and record the rule contributions that the axiom makes or takes back.

A conjunction or existential makes contributions while it occurs on the left of some axiom, so they are recorded when
its negative count leaves zero and taken back when it returns to zero.  A disjointness axiom makes its contributions
while some asserted axiom has exactly these members, in whatever order.
-/

namespace ELOntology

/-- Whether an axiom comes or goes. -/
inductive Edit where
  | assert
  | retract
deriving DecidableEq, Inhabited

namespace Edit

/-- A counter after the edit. -/
def step (edit : Edit) (n : Nat) : Nat :=
  match edit with
  | .assert => n + 1
  | .retract => n - 1

/-- Whether a counter that the edit has brought to `n` has left zero or returned to it. -/
def turns (edit : Edit) (n : Nat) : Bool :=
  match edit with
  | .assert => n = 1
  | .retract => n = 0

end Edit

namespace Node

/-- Step the counters of a node. -/
def step (edit : Edit) (polarity : Polarity) (node : Node) : Node :=
  { node with
    occurrences := edit.step node.occurrences
    negativeOccurrences :=
      match polarity with
      | .positive => node.negativeOccurrences
      | .negative => edit.step node.negativeOccurrences }

def attach (c : Contribution) (node : Node) : Node := { node with rules := node.rules.add c }

def detach (c : Contribution) (node : Node) : Node :=
  { node with rules := (node.rules.remove? c).getD node.rules }

end Node

namespace Index

/-- Record a contribution as added or as removed. -/
def record (edit : Edit) (c : Contribution) (ix : Index) : Index :=
  match edit with
  | .assert => { ix with pending := ix.pending.recordAddition c }
  | .retract => { ix with pending := ix.pending.recordRemoval c }

/-! ### Occurrences -/

/-- The contributions that a node makes while it occurs negatively. -/
def structural (id : ExprId) : Shape → List Contribution
  | .conjunction first second =>
    .conjunction first second id :: if first = second then [] else [.conjunction second first id]
  | .existential role filler => [.propagation filler role id]
  | _ => []

def countWithin (edit : Edit) (polarity : Polarity) : Nat → ExprId → Index → Index
  | 0, _, ix => ix
  | fuel + 1, id, ix =>
    match ix.node? id with
    | none => ix
    | some node =>
      let stepped := node.step edit polarity
      let ix := { ix with nodes := ix.nodes.setIfInBounds id.val stepped }
      let ix :=
        if polarity = .negative ∧ edit.turns stepped.negativeOccurrences then
          (structural id node.shape).foldl (fun ix c => ix.record edit c) ix
        else ix
      match node.shape with
      | .conjunction first second =>
        countWithin edit polarity fuel second (countWithin edit polarity fuel first ix)
      | .existential _ filler => countWithin edit polarity fuel filler ix
      | _ => ix

/-- Count an occurrence of an expression, which is one of each of its parts as well. -/
def count (edit : Edit) (polarity : Polarity) (id : ExprId) (ix : Index) : Index :=
  countWithin edit polarity (id.val + 1) id ix

/-! ### What an axiom says -/

def subsumption (edit : Edit) (sub sup : ExprId) (ix : Index) : Index :=
  ((ix.count edit .negative sub).count edit .positive sup).record edit (.toldSuper sub sup)

/-- Each of the members below the first one is included in it, and the other way round. -/
def equivalence (edit : Edit) (first : ExprId) : List ExprId → Index → Index
  | [], ix => ix
  | other :: rest, ix => equivalence edit first rest ((ix.subsumption edit first other).subsumption edit other first)

/-- The contributions of a disjointness axiom.  A member listed twice is disjoint with itself, so it is empty. -/
def disjointnessContributions (id : DisjointnessId) (members : List ExprId) : List Contribution :=
  (distinct members).map fun member =>
    if 1 < members.count member then .toldSuper member .nothing else .disjointness member id

/-- The disjointness axiom with the given sorted members, with its counter stepped.  None is made by a retraction. -/
def stepDisjointSet (edit : Edit) (members : List ExprId) (ix : Index) : Option (DisjointnessId × Nat) × Index :=
  match ix.disjointnessId? members with
  | some id =>
    let n := edit.step ((ix.disjointSets[id.val]?.map (·.occurrences)).getD 0)
    (some (id, n), { ix with disjointSets := ix.disjointSets.setIfInBounds id.val ⟨members, n⟩ })
  | none =>
    match edit with
    | .assert =>
      let id : DisjointnessId := ⟨ix.disjointSets.size⟩
      (some (id, 1), { ix with
        disjointSets := ix.disjointSets.push ⟨members, 1⟩
        disjointnessIds := (members, id) :: ix.disjointnessIds })
    | .retract => (none, ix)

def sortIds (ids : List ExprId) : List ExprId := sortBy (fun a b => decide (a.val ≤ b.val)) ids

def disjointness (edit : Edit) (ids : List ExprId) (ix : Index) : Index :=
  let members := sortIds ids
  let ix := members.foldl (fun ix member => ix.count edit .negative member) ix
  match ix.stepDisjointSet edit members with
  | (some (id, n), ix) =>
    if edit.turns n then (disjointnessContributions id members).foldl (fun ix c => ix.record edit c) ix else ix
  | (none, ix) => ix

def inclusion (edit : Edit) (sub sup : RoleId) (ix : Index) : Index :=
  match edit with
  | .assert => { ix with toldInclusions := ix.toldInclusions ++ [(sub, sup)] }
  | .retract => { ix with toldInclusions := swapErase (sub, sup) ix.toldInclusions }

def roleEquivalence (edit : Edit) (first : RoleId) : List RoleId → Index → Index
  | [], ix => ix
  | other :: rest, ix => roleEquivalence edit first rest ((ix.inclusion edit first other).inclusion edit other first)

def composition (edit : Edit) (left right sup : RoleId) (ix : Index) : Index :=
  match edit with
  | .assert => { ix with toldCompositions := ix.toldCompositions ++ [(left, right, sup)] }
  | .retract => { ix with toldCompositions := swapErase (left, right, sup) ix.toldCompositions }

/-- A role for the composition of a non-empty list of roles, and its name.  The composition of several roles is that of
the first with the composition of the others, which has a role of its own named after its parts. -/
def internSuffix (edit : Edit) : List (String × RoleId) → Indexing (String × RoleId)
  | [] => throw .emptyChain
  | [last] => return last
  | (name, id) :: rest => do
    let (restName, restId) ← internSuffix edit rest
    let composed := name ++ "∘" ++ restName
    let composedId ← Indexing.internRole composed
    Indexing.change (composition edit id restId composedId)
    return (composed, composedId)

/-- A chain of roles below a role: pairs of roles with auxiliary roles for the compositions of the later ones. -/
def chain (edit : Edit) (names : List String) (sup : RoleId) : Indexing Unit := do
  let ids ← Indexing.internRoles names
  match names.zip ids with
  | [] => throw .emptyChain
  | [(_, only)] => Indexing.change (inclusion edit only sup)
  | (_, first) :: rest =>
    let (_, restId) ← internSuffix edit rest
    Indexing.change (composition edit first restId sup)

/-- Note that the role hierarchy has to be built again. -/
def noteRoles (ix : Index) : Index := { ix with rolesChanged := true }

/-- Enter what an axiom says into the index, or take it out. -/
def enter (edit : Edit) : Axiom → Indexing Unit
  | .declaration (.namedClass iri) => do
    let id ← Indexing.intern (.named iri)
    Indexing.change (count edit .positive id)
  | .declaration (.individual iri) => do
    let id ← Indexing.intern (.nominal iri)
    Indexing.change (count edit .positive id)
  | .declaration (.objectProperty iri) => do
    let _ ← Indexing.internRole iri
  | .subClassOf sub sup => do
    let sub ← sub.intern
    let sup ← sup.intern
    Indexing.change (subsumption edit sub sup)
  | .equivalentClasses members => do
    let ids ← ClassExpression.internAll members
    match ids with
    | [] => return
    | first :: rest => Indexing.change (equivalence edit first rest)
  | .disjointClasses members => do
    let ids ← ClassExpression.internAll members
    Indexing.change (disjointness edit ids)
  | .classAssertion type individual => do
    let type ← type.intern
    let individual ← Indexing.intern (.nominal individual)
    Indexing.change (subsumption edit individual type)
  | .roleAssertion role subject object => do
    let subject ← Indexing.intern (.nominal subject)
    let object ← Indexing.intern (.nominal object)
    let role ← Indexing.internRole role
    let existential ← Indexing.intern (.existential role object)
    Indexing.change (subsumption edit subject existential)
  | .subRoleOf sub sup => do
    let sup ← Indexing.internRole sup
    match sub with
    | .role sub =>
      let sub ← Indexing.internRole sub
      Indexing.change (inclusion edit sub sup)
    | .chain roles => chain edit roles sup
    Indexing.change noteRoles
  | .equivalentRoles roles => do
    let ids ← Indexing.internRoles roles
    match ids with
    | [] => Indexing.change noteRoles
    | first :: rest => Indexing.change fun ix => (ix.roleEquivalence edit first rest).noteRoles
  | .transitiveRole role => do
    let id ← Indexing.internRole role
    Indexing.change fun ix => (ix.composition edit id id id).noteRoles

/-! ### The operations -/

/-- Set the number of times an axiom is asserted. -/
def setAssertions (a : Axiom) (n : Nat) (ix : Index) : Index :=
  { ix with axioms := ix.axioms.map fun entry => if entry.1 = a then (a, n) else entry }

/-- Assert an axiom.  The answer says whether it was not asserted before. -/
def assert (a : Axiom) (ix : Index) : Except IndexError Bool × Index :=
  match ix.assertions a with
  | n + 1 => (.ok false, ix.setAssertions a (n + 2))
  | 0 =>
    match enter .assert a ix with
    | (.ok (), ix) => (.ok true, { ix with axioms := ix.axioms ++ [(a, 1)] })
    | (.error e, ix) => (.error e, ix)

/-- Retract an axiom.  The answer says whether its last assertion is gone. -/
def retract (a : Axiom) (ix : Index) : Except IndexError Bool × Index :=
  match ix.assertions a with
  | 0 => (.ok false, ix)
  | n + 2 => (.ok false, ix.setAssertions a (n + 1))
  | 1 =>
    match enter .retract a ix with
    | (.ok (), ix) => (.ok true, { ix with axioms := ix.axioms.filter fun entry => entry.1 ≠ a })
    | (.error e, ix) => (.error e, ix)

def attach (c : Contribution) (ix : Index) : Index :=
  { ix with nodes := ix.nodes.modify c.premise.val (·.attach c) }

def detach (c : Contribution) (ix : Index) : Index :=
  { ix with nodes := ix.nodes.modify c.premise.val (·.detach c) }

/-- Bring the pending changes into force, and say what they were. -/
def commit (ix : Index) : Changes × Index :=
  let changes := ix.pending
  let ix := { ix with pending := .empty }
  let ix := changes.added.foldl (fun ix c => ix.attach c) ix
  (changes, changes.removed.foldl (fun ix c => ix.detach c) ix)

/-- Whether role axioms have changed since this was last asked. -/
def takeRolesChanged (ix : Index) : Bool × Index := (ix.rolesChanged, { ix with rolesChanged := false })

end Index

end ELOntology
