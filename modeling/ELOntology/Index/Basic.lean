import ELOntology.Digest.SipHash
import ELOntology.Index.Contribution
import ELOntology.Syntax.Axiom

/-!
# The index of an ontology

Every expression that occurs in an asserted axiom is a node, with a number of its own; nodes are never removed.  A node
counts how often it occurs in the asserted axioms, and how often on the left side, and carries the rules for which it is
the premise.  Rules change only on a commit; until then their changes are pending.

Nodes, roles and disjointness axioms each have a table, in which the number of an entry is its place.  Beside each table the
index keeps a map from what is looked up to the number, and every entry that is made is put into both.

The first two nodes are the top and the bottom class.
-/

namespace ELOntology

structure Node where
  shape : Shape
  /-- The structural hash, which depends on the expression alone. -/
  hash : UInt64
  occurrences : Nat
  negativeOccurrences : Nat
  rules : RuleChain
deriving Inhabited

/-- The members of disjointness axioms, sorted, and how many asserted axioms have exactly these. -/
structure DisjointSet where
  members : List ExprId
  occurrences : Nat
deriving Inhabited

structure Index where
  nodes : Array Node
  /-- The number of the node of each shape, the node made last first. -/
  shapeIds : List (Shape × ExprId)
  roles : Array String
  /-- The number of each name of a role, the last one first. -/
  roleIds : List (String × RoleId)
  /-- Pairs of a role and a role told to be above it. -/
  toldInclusions : List (RoleId × RoleId)
  /-- Triples of two roles and a role told to be above their composition. -/
  toldCompositions : List (RoleId × RoleId × RoleId)
  disjointSets : Array DisjointSet
  /-- The number of each list of members, the last one first. -/
  disjointnessIds : List (List ExprId × DisjointnessId)
  /-- The asserted axioms, each with the number of times it was asserted. -/
  axioms : List (Axiom × Nat)
  pending : Changes
  /-- Whether a role axiom was asserted or retracted since the flag was last taken. -/
  rolesChanged : Bool
deriving Inhabited

namespace Index

/-! ### Nodes and roles -/

def node? (ix : Index) (id : ExprId) : Option Node := ix.nodes[id.val]?

def shape? (ix : Index) (id : ExprId) : Option Shape := (ix.node? id).map (·.shape)

def hashOf (ix : Index) (id : ExprId) : UInt64 := ((ix.node? id).map (·.hash)).getD 0

def rulesOf (ix : Index) (id : ExprId) : RuleChain := ((ix.node? id).map (·.rules)).getD []

def role? (ix : Index) (id : RoleId) : Option String := ix.roles[id.val]?

def roleName (ix : Index) (id : RoleId) : String := (ix.role? id).getD ""

/-- The node of a shape. -/
def find? (ix : Index) (shape : Shape) : Option ExprId := ix.shapeIds.lookup shape

def roleId? (ix : Index) (iri : String) : Option RoleId := ix.roleIds.lookup iri

/-- The disjointness axiom with the given sorted members. -/
def disjointnessId? (ix : Index) (members : List ExprId) : Option DisjointnessId := ix.disjointnessIds.lookup members

def disjointMembers (ix : Index) (id : DisjointnessId) : List ExprId :=
  (ix.disjointSets[id.val]?.map (·.members)).getD []

def classId? (ix : Index) (iri : String) : Option ExprId := ix.find? (.named iri)

def individualId? (ix : Index) (iri : String) : Option ExprId := ix.find? (.nominal iri)

def isClass (ix : Index) (id : ExprId) : Bool :=
  match ix.shape? id with
  | some (.named _) => true
  | _ => false

/-- The name of a class or of an individual. -/
def iri? (ix : Index) (id : ExprId) : Option String :=
  match ix.shape? id with
  | some (.named iri) | some (.nominal iri) => some iri
  | _ => none

def iriOf (ix : Index) (id : ExprId) : String := (ix.iri? id).getD ""

/-- The numbers of all nodes. -/
def ids (ix : Index) : List ExprId := (List.range ix.nodes.size).map ExprId.mk

def occurs (ix : Index) (id : ExprId) : Bool :=
  match ix.node? id with
  | some node => decide (0 < node.occurrences)
  | none => false

/-- Whether a node is one of the named classes that occur in an asserted axiom, or the top or the bottom class. -/
def isListed (ix : Index) (id : ExprId) : Bool := ix.isClass id && (ix.occurs id || id = .thing || id = .nothing)

/-- The named classes that occur in an asserted axiom, and the top and the bottom class. -/
def classes (ix : Index) : List ExprId := ix.ids.filter ix.isListed

/-- The individuals that occur in an asserted axiom. -/
def individuals (ix : Index) : List ExprId :=
  ix.ids.filter fun id =>
    match ix.shape? id with
    | some (.nominal _) => ix.occurs id
    | _ => false

/-! ### Asserted axioms -/

def assertions (ix : Index) (a : Axiom) : Nat := ((ix.axioms.find? fun entry => entry.1 = a).map (·.2)).getD 0

def containsAxiom (ix : Index) (a : Axiom) : Bool := ix.axioms.any fun entry => entry.1 = a

/-- The number of distinct asserted axioms. -/
def axiomCount (ix : Index) : Nat := ix.axioms.length

def isEmpty (ix : Index) : Bool := ix.axioms.isEmpty

def hasPending (ix : Index) : Bool := !ix.pending.isEmpty || ix.rolesChanged

/-! ### Rendering -/

def renderBound : Option UInt32 → String
  | some n => "Some(" ++ toString n.toNat ++ ")"
  | none => "None"

def ValueSpace.render : ValueSpace → String
  | .entire datatype => datatype
  | .value datatype lexical => "\x7b\"" ++ lexical ++ "\"^^" ++ datatype ++ "\x7d"
  | .length datatype min max => datatype ++ "[" ++ renderBound min ++ ".." ++ renderBound max ++ "]"

def renderWithin (ix : Index) : Nat → ExprId → String
  | 0, _ => ""
  | fuel + 1, id =>
    match ix.shape? id with
    | some (.named iri) => iri
    | some (.conjunction first second) =>
      "(" ++ renderWithin ix fuel first ++ " ⊓ " ++ renderWithin ix fuel second ++ ")"
    | some (.existential role filler) => "∃" ++ ix.roleName role ++ "." ++ renderWithin ix fuel filler
    | some (.data property space) => "∃" ++ property ++ "." ++ ValueSpace.render space
    | some (.nominal individual) => "\x7b" ++ individual ++ "\x7d"
    | none => ""

/-- The expression in mathematical notation.  The parts of a node have smaller numbers than the node. -/
def render (ix : Index) (id : ExprId) : String := renderWithin ix (id.val + 1) id

/-- The first node with the given rendering. -/
def named? (ix : Index) (rendering : String) : Option ExprId := ix.ids.find? fun id => ix.render id = rendering

/-! ### Structural hashes -/

def optionBytes : Option UInt32 → List UInt8
  | none => Digest.word64 0
  | some n => Digest.word64 1 ++ Digest.word32 n

def ValueSpace.bytes : ValueSpace → List UInt8
  | .entire datatype => Digest.word64 0 ++ Digest.text datatype
  | .value datatype lexical => Digest.word64 1 ++ Digest.text datatype ++ Digest.text lexical
  | .length datatype min max => Digest.word64 2 ++ Digest.text datatype ++ optionBytes min ++ optionBytes max

/-- The bytes that are hashed for a shape: its form, its names, and the hashes of its parts. -/
def shapeBytes (ix : Index) : Shape → List UInt8
  | .named iri => 0 :: Digest.text iri
  | .conjunction first second => 1 :: (Digest.word64 (ix.hashOf first) ++ Digest.word64 (ix.hashOf second))
  | .existential role filler => 2 :: (Digest.text (ix.roleName role) ++ Digest.word64 (ix.hashOf filler))
  | .data property space => 3 :: (Digest.text property ++ ValueSpace.bytes space)
  | .nominal individual => 4 :: Digest.text individual

def shapeHash (ix : Index) (shape : Shape) : UInt64 := Digest.sipHash (ix.shapeBytes shape)

/-! ### New nodes and roles -/

/-- The node of a shape, made if there is none. -/
def intern (ix : Index) (shape : Shape) : ExprId × Index :=
  match ix.find? shape with
  | some id => (id, ix)
  | none =>
    let node : Node := ⟨shape, ix.shapeHash shape, 0, 0, []⟩
    let id : ExprId := ⟨ix.nodes.size⟩
    (id, { ix with nodes := ix.nodes.push node, shapeIds := (shape, id) :: ix.shapeIds })

def internRole (ix : Index) (iri : String) : RoleId × Index :=
  match ix.roleId? iri with
  | some id => (id, ix)
  | none =>
    let id : RoleId := ⟨ix.roles.size⟩
    (id, { ix with roles := ix.roles.push iri, roleIds := (iri, id) :: ix.roleIds })

/-- The index of the ontology without axioms. -/
def empty : Index :=
  let blank : Index := ⟨#[], [], #[], [], [], [], #[], [], [], .empty, false⟩
  ((blank.intern (.named owlThing)).2.intern (.named owlNothing)).2

end Index

end ELOntology
