import ELOntology.Proofs.Role.Fits
import ELOntology.Proofs.Saturation.Vocabulary

/-!
# The tables of an index

Expressions, roles and sets of disjoint classes are known by numbers, which are places in tables that only grow.
`Uses` lists all that an index uses besides the shapes of its nodes: in its rules, in what is pending, in its sets of
disjoint classes and in what it is told of roles.  In an `Enclosed` index all of that is in the tables.

Key facts: `Enclosed.uses` and `Enclosed.call` (whatever is done to the index keeps it so).
-/

namespace ELOntology

/-- All that a contribution mentions. -/
def Contribution.vocabulary : Contribution → Vocabulary
  | toldSuper sub sup => ⟨[sub, sup], [], []⟩
  | conjunction conjunct other both => ⟨[conjunct, other, both], [], []⟩
  | propagation filler role existential => ⟨[filler, existential], [role], []⟩
  | disjointness member d => ⟨[member], [], [d]⟩

theorem Contribution.over_vocabulary (g : Contribution) : g.Over g.vocabulary := by
  cases g <;> simp [Contribution.Over, vocabulary]

namespace Index

variable {ix ix' : Index}

/-- All numbers in use. -/
def tables (ix : Index) : Vocabulary :=
  ⟨ix.ids, (List.range ix.roles.size).map RoleId.mk, (List.range ix.disjointSets.size).map DisjointnessId.mk⟩

@[simp] theorem mem_exprs_tables {id : ExprId} : id ∈ ix.tables.exprs ↔ id.val < ix.nodes.size := by
  obtain ⟨i⟩ := id
  simp [tables, ids]

@[simp] theorem mem_roles_tables {role : RoleId} : role ∈ ix.tables.roles ↔ role.val < ix.roles.size := by
  obtain ⟨i⟩ := role
  simp [tables]

@[simp] theorem mem_disjointnesses_tables {d : DisjointnessId} :
    d ∈ ix.tables.disjointnesses ↔ d.val < ix.disjointSets.size := by
  obtain ⟨i⟩ := d
  simp [tables]

/-- Tables that grow keep what is in them. -/
theorem tables_le (hnames : ix.Names ix') (hsets : ix.disjointSets.size ≤ ix'.disjointSets.size) : ix.tables.Le ix'.tables where
  exprs h := mem_exprs_tables.2 (Nat.lt_of_lt_of_le (mem_exprs_tables.1 h) hnames.size_le)
  roles h := mem_roles_tables.2 (Nat.lt_of_lt_of_le (mem_roles_tables.1 h) hnames.roles_size_le)
  disjointnesses h := mem_disjointnesses_tables.2 (Nat.lt_of_lt_of_le (mem_disjointnesses_tables.1 h) hsets)

/-- What an index uses somewhere else than in the shape of a node. -/
inductive Uses (ix : Index) : Vocabulary → Prop
  /-- In a rule that is in force. -/
  | inForce {premise : ExprId} {g : Contribution} (h : g ∈ ix.contributionsOf premise) : ix.Uses g.vocabulary
  /-- In a contribution that the next commit adds. -/
  | added {g : Contribution} (h : g ∈ ix.pending.added) : ix.Uses g.vocabulary
  /-- In a contribution that the next commit removes. -/
  | removed {g : Contribution} (h : g ∈ ix.pending.removed) : ix.Uses g.vocabulary
  /-- In a set of disjoint classes, whether an axiom has just these members now or has had them before. -/
  | disjoint {d : Nat} {set : DisjointSet} (h : ix.disjointSets[d]? = some set) : ix.Uses ⟨set.members, [], [⟨d⟩]⟩
  | inclusion {sub sup : RoleId} (h : (sub, sup) ∈ ix.toldInclusions) : ix.Uses ⟨[], [sub, sup], []⟩
  | composition {left right sup : RoleId} (h : (left, right, sup) ∈ ix.toldCompositions) :
      ix.Uses ⟨[], [left, right, sup], []⟩

/-- What keeps all that an index uses in its tables. -/
structure Enclosed (ix : Index) : Prop where
  accounts : ix.Accounts
  members {d : Nat} {set : DisjointSet} : ix.disjointSets[d]? = some set → ∀ id ∈ set.members, id.val < ix.nodes.size
  sets {member : ExprId} {d : DisjointnessId} :
    .disjointness member d ∈ ix.contributionsOf member → d.val < ix.disjointSets.size

namespace Enclosed

/-! ### What is in force, and what is pending -/

private theorem lt_size_of_mem_contributionsOf {premise : ExprId} {g : Contribution} (hg : g ∈ ix.contributionsOf premise) :
    premise.val < ix.nodes.size := by
  refine Nat.lt_of_not_le fun hle => ?_
  have hnone : ix.node? premise = none := Array.getElem?_eq_none hle
  rw [contributionsOf, rulesOf, hnone] at hg
  cases hg

private theorem inForce_le (h : ix.Enclosed) {premise : ExprId} {g : Contribution} (hg : g ∈ ix.contributionsOf premise) :
    g.vocabulary.Le ix.tables := by
  obtain rfl := premise_of_mem_contributionsOf hg
  have hpremise := lt_size_of_mem_contributionsOf hg
  have hwithin := h.accounts.coherent.within hg
  cases g with
  | toldSuper sub sup =>
    exact ⟨by simpa [Contribution.vocabulary] using ⟨hpremise, hwithin⟩, nofun, nofun⟩
  | conjunction conjunct other both =>
    have hother : other.val < ix.nodes.size := by
      have htidy := h.accounts.tidy
      rcases h.accounts.coherent.conjunction_shape hg with hshape | hshape
      · exact Nat.lt_trans (htidy.conjuncts hshape).2 hwithin
      · exact Nat.lt_trans (htidy.conjuncts hshape).1 hwithin
    exact ⟨by simpa [Contribution.vocabulary] using ⟨hpremise, hother, hwithin⟩, nofun, nofun⟩
  | propagation filler role existential =>
    have hrole := h.accounts.role_lt_of_mem_contributionsOf hg
    exact ⟨by simpa [Contribution.vocabulary] using ⟨hpremise, hwithin⟩, by simpa [Contribution.vocabulary] using hrole, nofun⟩
  | disjointness member d =>
    have hmember : member.val < ix.nodes.size := hwithin
    exact ⟨by simpa [Contribution.vocabulary] using hmember, nofun, by simpa [Contribution.vocabulary] using h.sets hg⟩

/-- A commit leaves the tables as they are. -/
private theorem otherRules_commit (h : ix.Enclosed) : OtherRules { ix with pending := .empty } ix.commit.2 := by
  obtain ⟨entries, hledger, -⟩ := h.accounts.exists_entries
  exact hledger.otherRules_commit h.accounts.tidy

theorem tables_commit (h : ix.Enclosed) : ix.commit.2.tables = ix.tables := by
  have hother := h.otherRules_commit
  have hsize : ix.commit.2.nodes.size = ix.nodes.size := hother.alike.size_eq
  rw [tables, tables, ids, ids, hsize, hother.roles, hother.disjointSets]

theorem commit (h : ix.Enclosed) : ix.commit.2.Enclosed := by
  have hother := h.otherRules_commit
  have hsize : ix.commit.2.nodes.size = ix.nodes.size := hother.alike.size_eq
  refine ⟨h.accounts.commit.1, fun hset id hid => ?_, fun {member d} hg => ?_⟩
  · rw [hother.disjointSets] at hset
    exact hsize ▸ h.members hset id hid
  · rw [hother.disjointSets]
    obtain ⟨entries, hledger, -⟩ := h.accounts.exists_entries
    rcases (h.accounts.revised_commit .empty).added (g := .disjointness member d) hg with hold | hnew
    · exact h.sets hold
    · cases hledger.due_of_mem_added hnew with
      | member hset => exact (Array.getElem?_eq_some_iff.1 hset).1

/-- What is pending to be added is in force after the commit. -/
private theorem mem_contributionsOf_commit (h : ix.Enclosed) {g : Contribution} (hg : g ∈ ix.pending.added) :
    g ∈ ix.commit.2.contributionsOf g.premise := by
  obtain ⟨entries, hledger, -⟩ := h.accounts.exists_entries
  have hadded := List.count_pos_iff.2 hg
  have hremoved := (hledger.committable.exclusive g).resolve_left (by omega)
  have hbalance := hledger.inForce_commit h.accounts.tidy g
  exact mem_contributionsOf_iff.2 (by omega)

/-- All that the index uses is in its tables. -/
theorem uses (h : ix.Enclosed) {v : Vocabulary} (hv : ix.Uses v) : v.Le ix.tables := by
  obtain ⟨entries, hledger, -⟩ := h.accounts.exists_entries
  cases hv with
  | inForce hg => exact h.inForce_le hg
  | added hg => exact h.tables_commit ▸ h.commit.inForce_le (h.mem_contributionsOf_commit hg)
  | removed hg => exact h.inForce_le (h.accounts.mem_contributionsOf_of_mem_removed hg)
  | disjoint hset =>
    refine ⟨fun hid => mem_exprs_tables.2 (h.members hset _ hid), nofun, fun hd => mem_disjointnesses_tables.2 ?_⟩
    obtain rfl := List.mem_singleton.1 hd
    exact (Array.getElem?_eq_some_iff.1 hset).1
  | inclusion htold =>
    obtain ⟨hsub, hsup⟩ := hledger.within (hledger.mem_toldInclusions_iff.1 htold)
    exact ⟨nofun, by simpa using ⟨hsub, hsup⟩, nofun⟩
  | composition htold =>
    obtain ⟨hleft, hright, hsup⟩ := hledger.within (hledger.mem_toldCompositions_iff.1 htold)
    exact ⟨nofun, by simpa using ⟨hleft, hright, hsup⟩, nofun⟩

/-- After a commit the index uses nothing new. -/
theorem uses_of_commit (h : ix.Enclosed) {v : Vocabulary} (hv : ix.commit.2.Uses v) : ix.Uses v := by
  have hother := h.otherRules_commit
  have hpending : ix.commit.2.pending = .empty := h.accounts.commit.2.2.1
  cases hv with
  | @inForce premise g hg =>
    obtain rfl := premise_of_mem_contributionsOf hg
    exact ((h.accounts.revised_commit .empty).added hg).elim .inForce .added
  | added hg | removed hg =>
    rw [hpending] at hg
    cases hg
  | disjoint hset => exact .disjoint (hother.disjointSets ▸ hset)
  | inclusion htold => exact .inclusion (hother.toldInclusions ▸ htold)
  | composition htold => exact .composition (hother.toldCompositions ▸ htold)

/-! ### Edits -/

/-- An edit that leaves the rules in force alone keeps the index enclosed, and its tables. -/
private theorem edited (h : ix.Enclosed) (haccounts : ix'.Accounts) (hnames : ix.Names ix')
    (hrules : ∀ id, ix'.rulesOf id = ix.rulesOf id) (hsets : ix.SetsKept ix') : ix'.Enclosed ∧ ix.tables.Le ix'.tables := by
  refine ⟨⟨haccounts, fun hset id hid => ?_, fun {member d} hg => ?_⟩, tables_le hnames hsets.size_le⟩
  · rcases hsets.members hset with ⟨old, hold, e⟩ | hnew
    · exact Nat.lt_of_lt_of_le (h.members hold id (e ▸ hid)) hnames.size_le
    · exact hnew id hid
  · rw [contributionsOf, hrules] at hg
    exact Nat.lt_of_lt_of_le (h.sets hg) hsets.size_le

theorem empty : Index.empty.Enclosed := by
  refine ⟨accounts_empty, fun hset => ?_, fun {member d} hg => ?_⟩
  · rw [empty_eq] at hset
    cases hset
  · rw [contributionsOf, rulesOf_empty] at hg
    cases hg

theorem not_uses_empty {v : Vocabulary} : ¬ Index.empty.Uses v := fun hv => by
  cases hv with
  | inForce hg =>
    rw [contributionsOf, rulesOf_empty] at hg
    cases hg
  | added hg | removed hg | disjoint hg | inclusion hg | composition hg =>
    rw [empty_eq] at hg
    cases hg

/-- Whatever is done to the index keeps it enclosed, also when it fails, and what is in the tables stays there. -/
theorem call (h : ix.Enclosed) (call : Call) : (call.apply ix).Enclosed ∧ ix.tables.Le (call.apply ix).tables := by
  cases call with
  | assert a =>
    obtain ⟨haccounts, hnames, hrules, -⟩ := h.accounts.assert a
    exact h.edited haccounts hnames hrules (Call.setsKept_apply h.accounts (.assert a))
  | retract a =>
    obtain ⟨haccounts, hnames, hrules, -⟩ := h.accounts.retract a
    exact h.edited haccounts hnames hrules (Call.setsKept_apply h.accounts (.retract a))
  | commit => exact ⟨h.commit, h.tables_commit ▸ ⟨id, id, id⟩⟩
  | takeRolesChanged => exact ⟨⟨h.accounts.takeRolesChanged, h.members, h.sets⟩, ⟨id, id, id⟩⟩

/-! ### What the rules lead to -/

/-- A hierarchy that was just built has no other roles than the index. -/
theorem vocabulary_build_le (h : ix.Enclosed) : (RoleHierarchy.build ix).vocabulary.Le ix.tables := by
  refine ⟨nofun, fun {role} hrole => ?_, nofun⟩
  rcases RoleHierarchy.mem_roles_vocabulary.1 hrole with ⟨top, hsub⟩ | ⟨left, right, htold⟩
  · obtain ⟨htop, hpath⟩ := RoleHierarchy.mem_subRoles_build_iff.1 hsub
    cases hpath with
    | refl => exact mem_roles_tables.2 htop
    | tail _ htold => exact (h.uses (.inclusion htold)).roles (List.mem_cons_self ..)
  · exact (h.uses (.composition htold)).roles (by simp)

/-- The rules lead to nothing that is not in the tables, by any hierarchy without other roles. -/
theorem over_tables (h : ix.Enclosed) {roles : RoleHierarchy} (hroles : roles.vocabulary.Le ix.tables) :
    (RuleBase.calculus ⟨ix, roles⟩).Over ix.tables where
  thing := mem_exprs_tables.2 (lt_size_of_shape? h.accounts.tidy.thing)
  conjuncts hshape := by
    have hwithin := h.accounts.tidy.shape_within hshape
    exact ⟨mem_exprs_tables.2 hwithin.1, mem_exprs_tables.2 hwithin.2⟩
  existential hshape := by
    have hwithin := h.accounts.tidy.shape_within hshape
    exact ⟨mem_exprs_tables.2 hwithin.2, mem_roles_tables.2 hwithin.1⟩
  contributes {g} hg := g.over_vocabulary.mono (h.uses (.inForce hg))
  subRoles {top bottom} hsub := hroles.roles (RoleHierarchy.mem_roles_vocabulary.2 (.inl ⟨top, hsub⟩))
  told {left right sup} htold := hroles.roles (RoleHierarchy.mem_roles_vocabulary.2 (.inr ⟨left, right, htold⟩))

end Enclosed

end Index

end ELOntology
