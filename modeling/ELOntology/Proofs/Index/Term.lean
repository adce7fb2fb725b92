import ELOntology.Index.Basic

/-!
# Terms

A term is a class expression as an index keeps it: a tree whose intersections have two conjuncts.  Every node of an index
stands for a term, `Denotes` says for which, and no two nodes stand for the same (`Tidy.id_unique`).  Numbers depend on
the history of an index, terms do not, and the structural hash of a node is that of its term (`Tidy.hashOf_eq`).

Key facts: making nodes and roles keeps the table tidy and the meaning of all numbers (`Tidy.intern`, `Tidy.internRole`).
-/

namespace ELOntology

inductive Term where
  | named (iri : String)
  | conjunction (first second : Term)
  | existential (role : String) (filler : Term)
  | data (property : String) (space : ValueSpace)
  | nominal (individual : String)
deriving DecidableEq, Inhabited

namespace Term

/-- The structural hash of every node that stands for the term. -/
def hash : Term → UInt64
  | named iri => Digest.sipHash (0 :: Digest.text iri)
  | conjunction first second => Digest.sipHash (1 :: (Digest.word64 first.hash ++ Digest.word64 second.hash))
  | existential role filler => Digest.sipHash (2 :: (Digest.text role ++ Digest.word64 filler.hash))
  | data property space => Digest.sipHash (3 :: (Digest.text property ++ Index.ValueSpace.bytes space))
  | nominal individual => Digest.sipHash (4 :: Digest.text individual)

def thing : Term := named owlThing

def nothing : Term := named owlNothing

end Term

/-- The parts of a shape are numbered. -/
def Shape.Within (shape : Shape) (ix : Index) : Prop :=
  match shape with
  | .conjunction first second => first.val < ix.nodes.size ∧ second.val < ix.nodes.size
  | .existential role filler => role.val < ix.roles.size ∧ filler.val < ix.nodes.size
  | .named _ | .data .. | .nominal _ => True

namespace Index

/-- The node stands for the term. -/
inductive Denotes (ix : Index) : ExprId → Term → Prop
  | named {id : ExprId} {iri : String} (h : ix.shape? id = some (.named iri)) : Denotes ix id (.named iri)
  | conjunction {id first second : ExprId} {t u : Term} (h : ix.shape? id = some (.conjunction first second))
      (hfirst : Denotes ix first t) (hsecond : Denotes ix second u) : Denotes ix id (.conjunction t u)
  | existential {id filler : ExprId} {role : RoleId} {name : String} {t : Term}
      (h : ix.shape? id = some (.existential role filler)) (hrole : ix.role? role = some name)
      (hfiller : Denotes ix filler t) : Denotes ix id (.existential name t)
  | data {id : ExprId} {property : String} {space : ValueSpace} (h : ix.shape? id = some (.data property space)) :
      Denotes ix id (.data property space)
  | nominal {id : ExprId} {individual : String} (h : ix.shape? id = some (.nominal individual)) :
      Denotes ix id (.nominal individual)

/-- The map of shapes is inverse to the table of nodes. -/
def ShapesFound (ix : Index) : Prop :=
  ∀ (shape : Shape) (id : ExprId), ix.find? shape = some id ↔ ix.shape? id = some shape

/-- The map of names is inverse to the table of roles. -/
def RolesFound (ix : Index) : Prop :=
  ∀ (name : String) (role : RoleId), ix.roleId? name = some role ↔ ix.role? role = some name

/-- The tables of nodes and roles are in order: what is looked up is found exactly at its place, parts come before the
whole, and hashes are structural. -/
structure Tidy (ix : Index) : Prop where
  shapes : ix.ShapesFound
  roles : ix.RolesFound
  conjuncts {id first second : ExprId} :
    ix.shape? id = some (.conjunction first second) → first.val < id.val ∧ second.val < id.val
  filler {id filler : ExprId} {role : RoleId} :
    ix.shape? id = some (.existential role filler) → filler.val < id.val ∧ role.val < ix.roles.size
  hash {id : ExprId} {node : Node} : ix.node? id = some node → node.hash = ix.shapeHash node.shape
  thing : ix.shape? .thing = some (.named owlThing)
  nothing : ix.shape? .nothing = some (.named owlNothing)

/-- All numbers of the first index mean the same in the second. -/
structure Names (ix ix' : Index) : Prop where
  shape? {id : ExprId} {shape : Shape} : ix.shape? id = some shape → ix'.shape? id = some shape
  role? {role : RoleId} {name : String} : ix.role? role = some name → ix'.role? role = some name

/-- The second index is the first one with more nodes, which nothing has used yet, and more roles. -/
structure Grown (ix ix' : Index) : Prop where
  node? {id : ExprId} {node : Node} : ix.node? id = some node → ix'.node? id = some node
  blank {id : ExprId} {node : Node} : ix.node? id = none → ix'.node? id = some node →
    node.occurrences = 0 ∧ node.negativeOccurrences = 0 ∧ node.rules = []
  role? {role : RoleId} {name : String} : ix.role? role = some name → ix'.role? role = some name
  toldInclusions : ix'.toldInclusions = ix.toldInclusions
  toldCompositions : ix'.toldCompositions = ix.toldCompositions
  disjointSets : ix'.disjointSets = ix.disjointSets
  disjointnessIds : ix'.disjointnessIds = ix.disjointnessIds
  axioms : ix'.axioms = ix.axioms
  pending : ix'.pending = ix.pending
  rolesChanged : ix'.rolesChanged = ix.rolesChanged

/-! ### Looking numbers up -/

variable {ix ix' ix'' : Index}

theorem node?_isSome_iff {id : ExprId} : (∃ node, ix.node? id = some node) ↔ id.val < ix.nodes.size := by
  unfold node?
  constructor
  · rintro ⟨node, h⟩
    exact (Array.getElem?_eq_some_iff.1 h).1
  · intro h
    exact ⟨_, Array.getElem?_eq_getElem h⟩

theorem lt_size_of_node? {id : ExprId} {node : Node} (h : ix.node? id = some node) : id.val < ix.nodes.size :=
  node?_isSome_iff.1 ⟨node, h⟩

theorem shape?_eq_some_iff {id : ExprId} {shape : Shape} :
    ix.shape? id = some shape ↔ ∃ node, ix.node? id = some node ∧ node.shape = shape := by
  simp [shape?]

theorem lt_size_of_shape? {id : ExprId} {shape : Shape} (h : ix.shape? id = some shape) : id.val < ix.nodes.size := by
  obtain ⟨node, hnode, -⟩ := shape?_eq_some_iff.1 h
  exact lt_size_of_node? hnode

theorem exists_shape? {id : ExprId} (h : id.val < ix.nodes.size) : ∃ shape, ix.shape? id = some shape := by
  obtain ⟨node, hnode⟩ := node?_isSome_iff.2 h
  exact ⟨node.shape, shape?_eq_some_iff.2 ⟨node, hnode, rfl⟩⟩

theorem exists_role? {role : RoleId} (h : role.val < ix.roles.size) : ∃ name, ix.role? role = some name :=
  ⟨_, Array.getElem?_eq_getElem h⟩

theorem lt_size_of_role? {role : RoleId} {name : String} (h : ix.role? role = some name) : role.val < ix.roles.size :=
  (Array.getElem?_eq_some_iff.1 h).1

theorem roleName_of_role? {role : RoleId} {name : String} (h : ix.role? role = some name) : ix.roleName role = name := by
  simp [roleName, h]

theorem Denotes.lt_size {id : ExprId} {t : Term} (h : ix.Denotes id t) : id.val < ix.nodes.size := by
  cases h with
  | named h | conjunction h | existential h | data h | nominal h => exact lt_size_of_shape? h

/-! ### Growing -/

namespace Names

theorem refl (ix : Index) : ix.Names ix := ⟨id, id⟩

theorem trans (h : ix.Names ix') (h' : ix'.Names ix'') : ix.Names ix'' :=
  ⟨fun hs => h'.shape? (h.shape? hs), fun hr => h'.role? (h.role? hr)⟩

theorem size_le (h : ix.Names ix') : ix.nodes.size ≤ ix'.nodes.size := by
  refine Nat.le_of_not_lt fun hlt => ?_
  obtain ⟨shape, hshape⟩ : ∃ shape, ix.shape? ⟨ix'.nodes.size⟩ = some shape := exists_shape? hlt
  exact Nat.lt_irrefl _ (lt_size_of_shape? (h.shape? hshape))

theorem roles_size_le (h : ix.Names ix') : ix.roles.size ≤ ix'.roles.size := by
  refine Nat.le_of_not_lt fun hlt => ?_
  obtain ⟨name, hname⟩ : ∃ name, ix.role? ⟨ix'.roles.size⟩ = some name := exists_role? hlt
  exact Nat.lt_irrefl _ (lt_size_of_role? (h.role? hname))

theorem denotes (h : ix.Names ix') {id : ExprId} {t : Term} (hd : ix.Denotes id t) : ix'.Denotes id t := by
  induction hd with
  | named hs => exact .named (h.shape? hs)
  | conjunction hs _ _ ih₁ ih₂ => exact .conjunction (h.shape? hs) ih₁ ih₂
  | existential hs hr _ ih => exact .existential (h.shape? hs) (h.role? hr) ih
  | data hs => exact .data (h.shape? hs)
  | nominal hs => exact .nominal (h.shape? hs)

end Names

namespace Grown

theorem refl (ix : Index) : ix.Grown ix :=
  ⟨id, fun h h' => by simp [h] at h', id, rfl, rfl, rfl, rfl, rfl, rfl, rfl⟩

theorem trans (h : ix.Grown ix') (h' : ix'.Grown ix'') : ix.Grown ix'' where
  node? hn := h'.node? (h.node? hn)
  blank {id} {node} hnone hsome := by
    cases hmiddle : ix'.node? id with
    | none => exact h'.blank hmiddle hsome
    | some node' =>
      obtain rfl := Option.some.inj ((h'.node? hmiddle).symm.trans hsome)
      exact h.blank hnone hmiddle
  role? hr := h'.role? (h.role? hr)
  toldInclusions := h'.toldInclusions.trans h.toldInclusions
  toldCompositions := h'.toldCompositions.trans h.toldCompositions
  disjointSets := h'.disjointSets.trans h.disjointSets
  disjointnessIds := h'.disjointnessIds.trans h.disjointnessIds
  axioms := h'.axioms.trans h.axioms
  pending := h'.pending.trans h.pending
  rolesChanged := h'.rolesChanged.trans h.rolesChanged

theorem names (h : ix.Grown ix') : ix.Names ix' where
  shape? hs := by
    obtain ⟨node, hnode, e⟩ := shape?_eq_some_iff.1 hs
    exact shape?_eq_some_iff.2 ⟨node, h.node? hnode, e⟩
  role? := h.role?

end Grown

/-- Both indices have the same shapes and roles under the same numbers. -/
structure Alike (ix ix' : Index) : Prop where
  node? (id : ExprId) : (ix'.node? id).map (fun node => (node.shape, node.hash)) =
    (ix.node? id).map fun node => (node.shape, node.hash)
  roles : ix'.roles = ix.roles
  shapeIds : ix'.shapeIds = ix.shapeIds
  roleIds : ix'.roleIds = ix.roleIds

namespace Alike

theorem refl (ix : Index) : ix.Alike ix := ⟨fun _ => rfl, rfl, rfl, rfl⟩

theorem trans (h : ix.Alike ix') (h' : ix'.Alike ix'') : ix.Alike ix'' :=
  ⟨fun id => (h'.node? id).trans (h.node? id), h'.roles.trans h.roles, h'.shapeIds.trans h.shapeIds,
    h'.roleIds.trans h.roleIds⟩

theorem symm (h : ix.Alike ix') : ix'.Alike ix :=
  ⟨fun id => (h.node? id).symm, h.roles.symm, h.shapeIds.symm, h.roleIds.symm⟩

theorem of_nodes (hnodes : ix'.nodes = ix.nodes) (hroles : ix'.roles = ix.roles) (hshapeIds : ix'.shapeIds = ix.shapeIds)
    (hroleIds : ix'.roleIds = ix.roleIds) : ix.Alike ix' :=
  ⟨fun id => by rw [Index.node?, Index.node?, hnodes], hroles, hshapeIds, hroleIds⟩

theorem shape?_eq (h : ix.Alike ix') (id : ExprId) : ix'.shape? id = ix.shape? id := by
  have hnode := congrArg (Option.map Prod.fst) (h.node? id)
  simpa [Index.shape?, Option.map_map, Function.comp_def] using hnode

theorem hashOf_eq (h : ix.Alike ix') (id : ExprId) : ix'.hashOf id = ix.hashOf id := by
  have hnode := congrArg (fun o => (Option.map Prod.snd o).getD 0) (h.node? id)
  simpa [Index.hashOf, Option.map_map, Function.comp_def] using hnode

theorem role?_eq (h : ix.Alike ix') (role : RoleId) : ix'.role? role = ix.role? role := by
  rw [Index.role?, Index.role?, h.roles]

theorem names (h : ix.Alike ix') : ix.Names ix' :=
  ⟨fun hs => (h.shape?_eq _).trans hs, fun hr => (h.role?_eq _).trans hr⟩

theorem size_eq (h : ix.Alike ix') : ix'.nodes.size = ix.nodes.size :=
  Nat.le_antisymm h.symm.names.size_le h.names.size_le

theorem shapesFound (h : ix.Alike ix') (hix : ix.ShapesFound) : ix'.ShapesFound := fun shape id => by
  rw [h.shape?_eq, Index.find?, h.shapeIds]
  exact hix shape id

theorem rolesFound (h : ix.Alike ix') (hix : ix.RolesFound) : ix'.RolesFound := fun name role => by
  rw [h.role?_eq, roleId?, h.roleIds]
  exact hix name role

theorem tidy (h : ix.Alike ix') (hix : ix.Tidy) : ix'.Tidy := by
  have hhash (shape : Shape) : ix'.shapeHash shape = ix.shapeHash shape := by
    cases shape <;> simp [shapeHash, shapeBytes, h.hashOf_eq, roleName, h.role?_eq]
  refine ⟨h.shapesFound hix.shapes, h.rolesFound hix.roles, ?_, ?_, ?_, ?_, ?_⟩
  · intro id first second
    rw [h.shape?_eq]
    exact hix.conjuncts
  · intro id filler role
    rw [h.shape?_eq, h.roles]
    exact hix.filler
  · intro id node hnode
    have hpair := h.node? id
    rw [hnode] at hpair
    obtain ⟨node', hnode', e⟩ := Option.map_eq_some_iff.1 hpair.symm
    obtain ⟨e₁, e₂⟩ := Prod.mk.inj e
    rw [hhash, ← e₁, ← e₂, hix.hash hnode']
  · rw [h.shape?_eq]
    exact hix.thing
  · rw [h.shape?_eq]
    exact hix.nothing

end Alike

/-! ### What nodes stand for -/

/-- A node stands for one term at most. -/
theorem Denotes.term_unique {id : ExprId} {t u : Term} (h : ix.Denotes id t) (h' : ix.Denotes id u) : t = u := by
  induction h generalizing u with
  | named h =>
    cases h' <;> rename_i h'' <;> cases h.symm.trans h''
    rfl
  | conjunction h _ _ ih₁ ih₂ =>
    cases h' with
    | conjunction h' h₁ h₂ =>
      cases h.symm.trans h'
      rw [ih₁ h₁, ih₂ h₂]
    | named h' | existential h' | data h' | nominal h' => cases h.symm.trans h'
  | existential h hrole _ ih =>
    cases h' with
    | existential h' hrole' hfiller =>
      cases h.symm.trans h'
      cases hrole.symm.trans hrole'
      rw [ih hfiller]
    | named h' | conjunction h' | data h' | nominal h' => cases h.symm.trans h'
  | data h =>
    cases h' <;> rename_i h'' <;> cases h.symm.trans h''
    rfl
  | nominal h =>
    cases h' <;> rename_i h'' <;> cases h.symm.trans h''
    rfl

namespace Tidy

theorem find?_iff (hix : ix.Tidy) {shape : Shape} {id : ExprId} : ix.find? shape = some id ↔ ix.shape? id = some shape :=
  hix.shapes shape id

theorem roleId?_iff (hix : ix.Tidy) {name : String} {role : RoleId} :
    ix.roleId? name = some role ↔ ix.role? role = some name := hix.roles name role

/-- No two nodes have the same shape. -/
theorem shape_unique (hix : ix.Tidy) {id id' : ExprId} {shape : Shape} (h : ix.shape? id = some shape)
    (h' : ix.shape? id' = some shape) : id = id' :=
  Option.some.inj ((hix.find?_iff.2 h).symm.trans (hix.find?_iff.2 h'))

/-- No two roles have the same name. -/
theorem role_unique (hix : ix.Tidy) {role role' : RoleId} {name : String} (h : ix.role? role = some name)
    (h' : ix.role? role' = some name) : role = role' :=
  Option.some.inj ((hix.roleId?_iff.2 h).symm.trans (hix.roleId?_iff.2 h'))

/-- No two nodes stand for the same term. -/
theorem id_unique (hix : ix.Tidy) {id id' : ExprId} {t : Term} (h : ix.Denotes id t) (h' : ix.Denotes id' t) :
    id = id' := by
  induction h generalizing id' with
  | named h =>
    cases h' with
    | named h' => exact hix.shape_unique h h'
  | conjunction h _ _ ih₁ ih₂ =>
    cases h' with
    | conjunction h' h₁ h₂ =>
      rw [ih₁ h₁, ih₂ h₂] at h
      exact hix.shape_unique h h'
  | existential h hrole _ ih =>
    cases h' with
    | existential h' hrole' hfiller =>
      rw [ih hfiller, hix.role_unique hrole hrole'] at h
      exact hix.shape_unique h h'
  | data h =>
    cases h' with
    | data h' => exact hix.shape_unique h h'
  | nominal h =>
    cases h' with
    | nominal h' => exact hix.shape_unique h h'

/-- Every node stands for a term. -/
theorem exists_denotes (hix : ix.Tidy) {id : ExprId} (h : id.val < ix.nodes.size) : ∃ t, ix.Denotes id t := by
  induction hn : id.val using Nat.strongRecOn generalizing id with
  | ind n ih =>
    subst hn
    obtain ⟨shape, hshape⟩ := exists_shape? h
    cases shape with
    | named iri => exact ⟨_, .named hshape⟩
    | data property space => exact ⟨_, .data hshape⟩
    | nominal individual => exact ⟨_, .nominal hshape⟩
    | conjunction first second =>
      obtain ⟨h₁, h₂⟩ := hix.conjuncts hshape
      obtain ⟨t, ht⟩ := ih _ h₁ (Nat.lt_trans h₁ h) rfl
      obtain ⟨u, hu⟩ := ih _ h₂ (Nat.lt_trans h₂ h) rfl
      exact ⟨_, .conjunction hshape ht hu⟩
    | existential role filler =>
      obtain ⟨hfiller, hrole⟩ := hix.filler hshape
      obtain ⟨t, ht⟩ := ih _ hfiller (Nat.lt_trans hfiller h) rfl
      obtain ⟨name, hname⟩ := exists_role? hrole
      exact ⟨_, .existential hshape hname ht⟩

theorem denotes_thing (hix : ix.Tidy) : ix.Denotes .thing .thing := .named hix.thing

theorem denotes_nothing (hix : ix.Tidy) : ix.Denotes .nothing .nothing := .named hix.nothing

/-- The structural hash of a node is that of its term. -/
theorem hashOf_eq (hix : ix.Tidy) {id : ExprId} {t : Term} (h : ix.Denotes id t) : ix.hashOf id = t.hash := by
  have of_shape {id : ExprId} {shape : Shape} (h : ix.shape? id = some shape) : ix.hashOf id = ix.shapeHash shape := by
    obtain ⟨node, hnode, rfl⟩ := shape?_eq_some_iff.1 h
    rw [hashOf, hnode, ← hix.hash hnode]
    rfl
  induction h with
  | named h | data h | nominal h =>
    rw [of_shape h]
    rfl
  | conjunction h _ _ ih₁ ih₂ => rw [of_shape h, shapeHash, shapeBytes, ih₁, ih₂, Term.hash]
  | existential h hrole _ ih => rw [of_shape h, shapeHash, shapeBytes, ih, roleName_of_role? hrole, Term.hash]

end Tidy

/-! ### Making nodes and roles -/

/-- A table and the map beside it stay inverse to each other when an entry with a new key is put into both. -/
theorem lookup_cons_iff {κ ν : Type} [BEq κ] [LawfulBEq κ] [DecidableEq ν] {map : List (κ × ν)} {key : κ} {number : ν}
    (kept? : ν → Option κ) {kept?' : ν → Option κ} (h : ∀ k n, map.lookup k = some n ↔ kept? n = some k)
    (hnew : map.lookup key = none) (hfree : kept? number = none)
    (hentry : ∀ n, kept?' n = if n = number then some key else kept? n) (k : κ) (n : ν) :
    ((key, number) :: map).lookup k = some n ↔ kept?' n = some k := by
  rw [List.lookup_cons, hentry]
  by_cases hk : k = key
  · subst hk
    rw [beq_self_eq_true]
    by_cases hn : n = number
    · simp [hn]
    · -- the key has no other place
      have hother : kept? n ≠ some k := fun e => by simp [(h k n).2 e] at hnew
      simp [hn, hother, Ne.symm hn]
  · rw [beq_eq_false_iff_ne.2 hk, h]
    by_cases hn : n = number
    · simp [hn, hfree, Ne.symm hk]
    · simp [hn]

private theorem node?_push {node : Node} {shapeIds : List (Shape × ExprId)} {id : ExprId} :
    node? { ix with nodes := ix.nodes.push node, shapeIds } id = if id = ⟨ix.nodes.size⟩ then some node else ix.node? id := by
  simp [node?, Array.getElem?_push, ExprId.ext_iff]

private theorem role?_push {name : String} {roleIds : List (String × RoleId)} {role : RoleId} :
    role? { ix with roles := ix.roles.push name, roleIds } role =
      if role = ⟨ix.roles.size⟩ then some name else ix.role? role := by
  simp [role?, Array.getElem?_push, RoleId.ext_iff]

private theorem ne_of_node? {id : ExprId} {node : Node} (h : ix.node? id = some node) : id ≠ ⟨ix.nodes.size⟩ :=
  fun e => Nat.ne_of_lt (lt_size_of_node? h) (congrArg ExprId.val e)

private theorem ne_of_role? {role : RoleId} {name : String} (h : ix.role? role = some name) : role ≠ ⟨ix.roles.size⟩ :=
  fun e => Nat.ne_of_lt (lt_size_of_role? h) (congrArg RoleId.val e)

private theorem grown_push {node : Node} (shapeIds : List (Shape × ExprId))
    (hnode : node.occurrences = 0 ∧ node.negativeOccurrences = 0 ∧ node.rules = []) :
    ix.Grown { ix with nodes := ix.nodes.push node, shapeIds } where
  node? {id node'} h := by
    rw [node?_push, if_neg (ne_of_node? h), h]
  blank {id node'} hnone hsome := by
    rw [node?_push] at hsome
    split at hsome
    · cases hsome
      exact hnode
    · simp [hnone] at hsome
  role? := id
  toldInclusions := rfl
  toldCompositions := rfl
  disjointSets := rfl
  disjointnessIds := rfl
  axioms := rfl
  pending := rfl
  rolesChanged := rfl

private theorem grown_push_role {name : String} (roleIds : List (String × RoleId)) :
    ix.Grown { ix with roles := ix.roles.push name, roleIds } where
  node? := id
  blank h h' := by
    cases (show ix.node? _ = some _ from h').symm.trans h
  role? {role _} h := by
    rw [role?_push, if_neg (ne_of_role? h), h]
  toldInclusions := rfl
  toldCompositions := rfl
  disjointSets := rfl
  disjointnessIds := rfl
  axioms := rfl
  pending := rfl
  rolesChanged := rfl

private theorem shape?_push {node : Node} {shapeIds : List (Shape × ExprId)} (id : ExprId) :
    shape? { ix with nodes := ix.nodes.push node, shapeIds } id =
      if id = ⟨ix.nodes.size⟩ then some node.shape else ix.shape? id := by
  rw [Index.shape?, node?_push]
  split <;> rfl

/-- Interning a shape keeps the map of shapes inverse to the table. -/
theorem ShapesFound.intern (h : ix.ShapesFound) (shape : Shape) : (ix.intern shape).2.ShapesFound := by
  unfold Index.intern
  cases hfind : ix.find? shape with
  | some id => exact h
  | none =>
    refine lookup_cons_iff ix.shape? h hfind ?_ shape?_push
    rw [Index.shape?, node?, Array.getElem?_eq_none (Nat.le_refl _)]
    rfl

/-- Interning a role keeps the map of names inverse to the table. -/
theorem RolesFound.internRole (h : ix.RolesFound) (name : String) : (ix.internRole name).2.RolesFound := by
  unfold Index.internRole
  cases hfind : ix.roleId? name with
  | some role => exact h
  | none =>
    refine lookup_cons_iff ix.role? h hfind ?_ fun _ => role?_push
    exact Array.getElem?_eq_none (Nat.le_refl _)

/-- The hash of a shape stays the same when its parts do. -/
theorem Grown.shapeHash_eq (h : ix.Grown ix') {shape : Shape} (hshape : shape.Within ix) :
    ix'.shapeHash shape = ix.shapeHash shape := by
  have hash_eq {id : ExprId} (hid : id.val < ix.nodes.size) : ix'.hashOf id = ix.hashOf id := by
    obtain ⟨node, hnode⟩ := node?_isSome_iff.2 hid
    rw [hashOf, hashOf, hnode, h.node? hnode]
  have name_eq {role : RoleId} (hrole : role.val < ix.roles.size) : ix'.roleName role = ix.roleName role := by
    obtain ⟨name, hname⟩ := exists_role? hrole
    rw [roleName, roleName, hname, h.role? hname]
  cases shape with
  | named iri | data property space | nominal individual => rfl
  | conjunction first second =>
    rw [shapeHash, shapeHash, shapeBytes, shapeBytes, hash_eq hshape.1, hash_eq hshape.2]
  | existential role filler =>
    rw [shapeHash, shapeHash, shapeBytes, shapeBytes, name_eq hshape.1, hash_eq hshape.2]

theorem Tidy.shape_within (hix : ix.Tidy) {id : ExprId} {shape : Shape} (h : ix.shape? id = some shape) :
    shape.Within ix := by
  have hlt := lt_size_of_shape? h
  cases shape with
  | named iri | data property space | nominal individual => trivial
  | conjunction first second =>
    obtain ⟨h₁, h₂⟩ := hix.conjuncts h
    exact ⟨Nat.lt_trans h₁ hlt, Nat.lt_trans h₂ hlt⟩
  | existential role filler =>
    obtain ⟨hfiller, hrole⟩ := hix.filler h
    exact ⟨hrole, Nat.lt_trans hfiller hlt⟩

/-- Interning a shape whose parts are numbered gives it a node and keeps the table tidy. -/
theorem Tidy.intern (hix : ix.Tidy) {shape : Shape} (hshape : shape.Within ix) :
    (ix.intern shape).2.Tidy ∧ ix.Grown (ix.intern shape).2 ∧
      (ix.intern shape).2.shape? (ix.intern shape).1 = some shape := by
  have hshapes := hix.shapes.intern shape
  unfold Index.intern at hshapes ⊢
  cases hfind : ix.find? shape with
  | some id => exact ⟨hix, .refl ix, hix.find?_iff.1 hfind⟩
  | none =>
    rw [hfind] at hshapes
    dsimp only at hshapes ⊢
    generalize hnode : (⟨shape, ix.shapeHash shape, 0, 0, []⟩ : Node) = node at hshapes ⊢
    generalize (shape, (⟨ix.nodes.size⟩ : ExprId)) :: ix.shapeIds = shapeIds at hshapes ⊢
    have hnode_shape : node.shape = shape := by rw [← hnode]
    have hgrown : ix.Grown { ix with nodes := ix.nodes.push node, shapeIds } := grown_push _ (by subst hnode; simp)
    have hshape? (id : ExprId) : shape? { ix with nodes := ix.nodes.push node, shapeIds } id =
        if id = ⟨ix.nodes.size⟩ then some shape else ix.shape? id := hnode_shape ▸ shape?_push id
    refine ⟨⟨hshapes, hix.roles, ?_, ?_, ?_, ?_, ?_⟩, hgrown, by rw [hshape?, if_pos rfl]⟩
    · intro id first second h
      rw [hshape?] at h
      split at h <;> rename_i e
      · cases h
        rw [e]
        exact hshape
      · exact hix.conjuncts h
    · intro id filler role h
      rw [hshape?] at h
      split at h <;> rename_i e
      · cases h
        rw [e]
        exact ⟨hshape.2, hshape.1⟩
      · exact hix.filler h
    · intro id node' h
      rw [node?_push] at h
      split at h
      · cases h
        rw [hnode_shape, hgrown.shapeHash_eq hshape, ← hnode]
      · rw [hgrown.shapeHash_eq (hix.shape_within (shape?_eq_some_iff.2 ⟨node', h, rfl⟩)), hix.hash h]
    · exact hgrown.names.shape? hix.thing
    · exact hgrown.names.shape? hix.nothing

/-- Interning a role gives it a number and keeps the table tidy. -/
theorem Tidy.internRole (hix : ix.Tidy) (name : String) :
    (ix.internRole name).2.Tidy ∧ ix.Grown (ix.internRole name).2 ∧
      (ix.internRole name).2.role? (ix.internRole name).1 = some name := by
  have hroles := hix.roles.internRole name
  unfold Index.internRole at hroles ⊢
  cases hfind : ix.roleId? name with
  | some role => exact ⟨hix, .refl ix, hix.roleId?_iff.1 hfind⟩
  | none =>
    rw [hfind] at hroles
    dsimp only at hroles ⊢
    have hgrown : ix.Grown { ix with
        roles := ix.roles.push name, roleIds := (name, ⟨ix.roles.size⟩) :: ix.roleIds } := grown_push_role _
    refine ⟨⟨hix.shapes, hroles, hix.conjuncts, ?_, ?_, hix.thing, hix.nothing⟩, hgrown, by rw [role?_push, if_pos rfl]⟩
    · intro id filler role h
      obtain ⟨hfiller, hrole⟩ := hix.filler h
      exact ⟨hfiller, Nat.lt_of_lt_of_le hrole hgrown.names.roles_size_le⟩
    · intro id node h
      rw [hgrown.shapeHash_eq (hix.shape_within (shape?_eq_some_iff.2 ⟨node, h, rfl⟩))]
      exact hix.hash h

end Index

end ELOntology
