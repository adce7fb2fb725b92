import ELOntology.Proofs.Saturation.Renewal
import ELOntology.Proofs.Semantics.Models

/-!
# What changes when an index changes

An edit that fails, or only counts, keeps all that an index is used for (`Kept`).  One that succeeds may change what is
pending, and it changes what is told of roles only if it says so (`Revises`).  A commit revises the rules in force by what
was pending.

Key facts: `Accounts.edits_assert`, `Accounts.edits_retract` and `Accounts.revised_commit`.
-/

namespace ELOntology

/-- Whether the entry speaks of roles. -/
def Entry.ofRoles {ε ρ : Type} : Entry ε ρ → Bool
  | roleInclusion .. | composition .. => true
  | _ => false

namespace Term

theorem ofRoles_of_mem_occurrences {polarity : Polarity} {t : Term} :
    ∀ entry ∈ t.occurrences polarity, entry.ofRoles = false := by
  induction t with
  | conjunction first second ih₁ ih₂ =>
    rw [occurrences, List.forall_mem_cons, List.forall_mem_append]
    exact ⟨rfl, ih₁, ih₂⟩
  | existential role filler ih =>
    rw [occurrences, List.forall_mem_cons]
    exact ⟨rfl, ih⟩
  | named | data | nominal => exact List.forall_mem_singleton.2 rfl

theorem ofRoles_of_mem_inclusionEntries {sub sup : Term} :
    ∀ entry ∈ sub.inclusionEntries sup, entry.ofRoles = false := by
  rw [inclusionEntries, List.forall_mem_append, List.forall_mem_append]
  exact ⟨⟨ofRoles_of_mem_occurrences, ofRoles_of_mem_occurrences⟩, List.forall_mem_singleton.2 rfl⟩

theorem ofRoles_of_mem_equivalenceEntries {first : Term} {rest : List Term} :
    ∀ entry ∈ first.equivalenceEntries rest, entry.ofRoles = false := by
  induction rest with
  | nil => exact fun _ h => absurd h List.not_mem_nil
  | cons t rest ih =>
    rw [equivalenceEntries, List.forall_mem_append, List.forall_mem_append]
    exact ⟨⟨ofRoles_of_mem_inclusionEntries, ofRoles_of_mem_inclusionEntries⟩, ih⟩

theorem ofRoles_of_mem_disjointnessEntries {ts : List Term} :
    ∀ entry ∈ disjointnessEntries ts, entry.ofRoles = false := by
  rw [disjointnessEntries, List.forall_mem_append]
  refine ⟨fun entry hentry => ?_, List.forall_mem_singleton.2 rfl⟩
  obtain ⟨t, -, hentry⟩ := List.mem_flatMap.1 hentry
  exact ofRoles_of_mem_occurrences entry hentry

end Term

/-- An axiom about classes or individuals says nothing of roles. -/
theorem Axiom.ofRoles_of_mem_entries {a : Axiom} {said : List TermEntry} (hrole : a.isRoleAxiom = false)
    (h : a.entries? = some said) : ∀ entry ∈ said, entry.ofRoles = false := by
  cases form_entries hrole h with
  | nothing => exact fun _ h => absurd h List.not_mem_nil
  | occurrence t => exact Term.ofRoles_of_mem_occurrences
  | inclusion sub sup => exact Term.ofRoles_of_mem_inclusionEntries
  | equivalence first rest => exact Term.ofRoles_of_mem_equivalenceEntries
  | disjointness ts => exact Term.ofRoles_of_mem_disjointnessEntries

namespace Index

variable {ix ix' ix'' : Index}

/-! ### What is told of roles -/

theorem mem_said_iff {entry : TermEntry} :
    entry ∈ ix.said ↔ ∃ a ∈ ix.axioms.map Prod.fst, ∃ said, a.entries? = some said ∧ entry ∈ said := by
  rw [said, List.mem_flatMap]
  constructor
  · rintro ⟨asserted, hmem, hentry⟩
    cases hsaid : asserted.1.entries? with
    | none => rw [hsaid] at hentry; cases hentry
    | some said =>
      rw [hsaid] at hentry
      exact ⟨asserted.1, List.mem_map_of_mem hmem, said, hsaid, hentry⟩
  · rintro ⟨a, ha, said, hsaid, hentry⟩
    obtain ⟨asserted, hmem, rfl⟩ := List.mem_map.1 ha
    exact ⟨asserted, hmem, by rw [hsaid]; exact hentry⟩

namespace Accounts

theorem mem_said_iff (hix : ix.Accounts) {entry : TermEntry} : entry ∈ ix.said ↔
    ∃ a, ix.containsAxiom a = true ∧ ∃ said, a.entries? = some said ∧ entry ∈ said := by
  simp only [Index.mem_said_iff, hix.mem_axioms_iff, ← hix.containsAxiom_iff]

theorem exists_entries_of_contains (hix : ix.Accounts) {a : Axiom} (ha : ix.containsAxiom a = true) :
    ∃ said, a.entries? = some said := by
  rw [hix.containsAxiom_iff, ← hix.mem_axioms_iff] at ha
  obtain ⟨⟨b, n⟩, hmem, rfl⟩ := List.mem_map.1 ha
  exact (hix.exists_reading hmem).2

theorem said_of_mem_toldInclusions (h : ix.Accounts) {sub sup : RoleId} (htold : (sub, sup) ∈ ix.toldInclusions) :
    ∃ n m, ix.role? sub = some n ∧ ix.role? sup = some m ∧ .roleInclusion n m ∈ ix.said := by
  obtain ⟨entries, hledger, hreads⟩ := h.exists_entries
  obtain ⟨said, hsaid, hread⟩ := exists_right_of_mem hreads (hledger.mem_toldInclusions_iff.1 htold)
  cases hread with
  | roleInclusion hsub hsup => exact ⟨_, _, hsub, hsup, hsaid⟩

theorem exists_mem_toldInclusions (h : ix.Accounts) {n m : String} (hsaid : .roleInclusion n m ∈ ix.said) :
    ∃ sub sup, ix.role? sub = some n ∧ ix.role? sup = some m ∧ (sub, sup) ∈ ix.toldInclusions := by
  obtain ⟨entries, hledger, hreads⟩ := h.exists_entries
  obtain ⟨entry, hentry, hread⟩ := exists_left_of_mem hreads hsaid
  cases hread with
  | roleInclusion hsub hsup => exact ⟨_, _, hsub, hsup, hledger.mem_toldInclusions_iff.2 hentry⟩

theorem said_of_mem_toldCompositions (h : ix.Accounts) {left right sup : RoleId}
    (htold : (left, right, sup) ∈ ix.toldCompositions) : ∃ l r s, ix.role? left = some l ∧ ix.role? right = some r ∧
      ix.role? sup = some s ∧ .composition l r s ∈ ix.said := by
  obtain ⟨entries, hledger, hreads⟩ := h.exists_entries
  obtain ⟨said, hsaid, hread⟩ := exists_right_of_mem hreads (hledger.mem_toldCompositions_iff.1 htold)
  cases hread with
  | composition hleft hright hsup => exact ⟨_, _, _, hleft, hright, hsup, hsaid⟩

theorem exists_mem_toldCompositions (h : ix.Accounts) {l r s : String} (hsaid : .composition l r s ∈ ix.said) :
    ∃ left right sup, ix.role? left = some l ∧ ix.role? right = some r ∧ ix.role? sup = some s ∧
      (left, right, sup) ∈ ix.toldCompositions := by
  obtain ⟨entries, hledger, hreads⟩ := h.exists_entries
  obtain ⟨entry, hentry, hread⟩ := exists_left_of_mem hreads hsaid
  cases hread with
  | composition hleft hright hsup =>
    exact ⟨_, _, _, hleft, hright, hsup, hledger.mem_toldCompositions_iff.2 hentry⟩

end Accounts

/-- Both indices are told the same of roles, under the same numbers. -/
structure ToldAlike (ix ix' : Index) : Prop where
  inclusions (p : RoleId × RoleId) : p ∈ ix'.toldInclusions ↔ p ∈ ix.toldInclusions
  compositions (p : RoleId × RoleId × RoleId) : p ∈ ix'.toldCompositions ↔ p ∈ ix.toldCompositions

namespace ToldAlike

theorem of_eq (hinclusions : ix'.toldInclusions = ix.toldInclusions)
    (hcompositions : ix'.toldCompositions = ix.toldCompositions) : ix.ToldAlike ix' :=
  ⟨fun p => by rw [hinclusions], fun p => by rw [hcompositions]⟩

/-- Numbers that mean the same, and axioms that say the same of roles, tell the same of roles. -/
theorem of_said (h : ix.Accounts) (h' : ix'.Accounts) (hnames : ix.Names ix')
    (hsaid : ∀ entry : TermEntry, entry.ofRoles = true → (entry ∈ ix'.said ↔ entry ∈ ix.said)) : ix.ToldAlike ix' := by
  have unique {role role' : RoleId} {name : String} (hrole : ix'.role? role = some name) (hrole' : ix.role? role' = some name) :
      role = role' := h'.tidy.role_unique hrole (hnames.role? hrole')
  constructor
  · rintro ⟨sub, sup⟩
    constructor <;> intro htold
    · obtain ⟨n, m, hsub, hsup, hmem⟩ := h'.said_of_mem_toldInclusions htold
      obtain ⟨sub', sup', hsub', hsup', htold'⟩ := h.exists_mem_toldInclusions ((hsaid _ rfl).1 hmem)
      rwa [unique hsub hsub', unique hsup hsup']
    · obtain ⟨n, m, hsub, hsup, hmem⟩ := h.said_of_mem_toldInclusions htold
      obtain ⟨sub', sup', hsub', hsup', htold'⟩ := h'.exists_mem_toldInclusions ((hsaid _ rfl).2 hmem)
      rwa [← unique hsub' hsub, ← unique hsup' hsup]
  · rintro ⟨left, right, sup⟩
    constructor <;> intro htold
    · obtain ⟨l, r, s, hleft, hright, hsup, hmem⟩ := h'.said_of_mem_toldCompositions htold
      obtain ⟨left', right', sup', hleft', hright', hsup', htold'⟩ := h.exists_mem_toldCompositions ((hsaid _ rfl).1 hmem)
      rwa [unique hleft hleft', unique hright hright', unique hsup hsup']
    · obtain ⟨l, r, s, hleft, hright, hsup, hmem⟩ := h.said_of_mem_toldCompositions htold
      obtain ⟨left', right', sup', hleft', hright', hsup', htold'⟩ := h'.exists_mem_toldCompositions ((hsaid _ rfl).2 hmem)
      rwa [← unique hleft' hleft, ← unique hright' hright, ← unique hsup' hsup]

end ToldAlike

/-! ### Edits -/

/-- All that an index is used for is kept.  It may have more nodes and roles, which nothing makes use of yet, and count
assertions otherwise. -/
structure Kept (ix ix' : Index) : Prop where
  names : ix.Names ix'
  rulesOf_eq (id : ExprId) : ix'.rulesOf id = ix.rulesOf id
  told : ix.ToldAlike ix'
  axioms : ix'.axioms.map Prod.fst = ix.axioms.map Prod.fst
  pending : ix'.pending = ix.pending
  rolesChanged : ix'.rolesChanged = ix.rolesChanged
  classes : ix'.classes = ix.classes
  individuals : ix'.individuals = ix.individuals

namespace Kept

theorem refl (ix : Index) : ix.Kept ix := ⟨.refl ix, fun _ => rfl, .of_eq rfl rfl, rfl, rfl, rfl, rfl, rfl⟩

/-- A choice among the nodes in which no new node takes part. -/
private theorem filter_ids_eq (hsize : ix.nodes.size ≤ ix'.nodes.size) {p p' : ExprId → Bool}
    (hsame : ∀ id : ExprId, id.val < ix.nodes.size → p' id = p id)
    (hnew : ∀ id : ExprId, ix.nodes.size ≤ id.val → p' id = false) : ix'.ids.filter p' = ix.ids.filter p := by
  obtain ⟨more, hmore⟩ := Nat.exists_eq_add_of_le hsize
  rw [ids, ids, hmore, List.range_add, List.map_append, List.filter_append]
  have hold : ((List.range ix.nodes.size).map ExprId.mk).filter p' = ((List.range ix.nodes.size).map ExprId.mk).filter p := by
    refine List.filter_congr fun id hid => ?_
    obtain ⟨i, hi, rfl⟩ := List.mem_map.1 hid
    exact hsame ⟨i⟩ (List.mem_range.1 hi)
  have hadded : (((List.range more).map (ix.nodes.size + ·)).map ExprId.mk).filter p' = [] := by
    refine List.filter_eq_nil_iff.2 fun id hid => ?_
    obtain ⟨j, hj, rfl⟩ := List.mem_map.1 hid
    obtain ⟨i, -, rfl⟩ := List.mem_map.1 hj
    rw [hnew ⟨ix.nodes.size + i⟩ (Nat.le_add_right _ _)]
    exact Bool.false_ne_true
  rw [hold, hadded, List.append_nil]

/-- New nodes do not occur in any axiom. -/
theorem of_grown (hix : ix.Tidy) (h : ix.Grown ix') : ix.Kept ix' := by
  have hnode {id : ExprId} (hlt : id.val < ix.nodes.size) : ix'.node? id = ix.node? id := by
    obtain ⟨node, hnode⟩ := node?_isSome_iff.2 hlt
    rw [hnode, h.node? hnode]
  have hoccurs {id : ExprId} (hle : ix.nodes.size ≤ id.val) : ix'.occurs id = false := by
    unfold occurs
    cases hnode : ix'.node? id with
    | none => rfl
    | some node =>
      have hnone : ix.node? id = none := Array.getElem?_eq_none hle
      have hzero := (h.blank hnone hnode).1
      exact decide_eq_false (by omega)
  refine ⟨h.names, h.rulesOf_eq, .of_eq h.toldInclusions h.toldCompositions, by rw [h.axioms], h.pending, h.rolesChanged,
    filter_ids_eq h.names.size_le (fun id hlt => ?_) (fun id hle => ?_),
    filter_ids_eq h.names.size_le (fun id hlt => ?_) (fun id hle => ?_)⟩
  · unfold isListed isClass occurs shape?
    rw [hnode hlt]
  · have hthing : id ≠ .thing := fun e => Nat.not_lt_of_le hle (e ▸ lt_size_of_shape? hix.thing)
    have hnothing : id ≠ .nothing := fun e => Nat.not_lt_of_le hle (e ▸ lt_size_of_shape? hix.nothing)
    simp [isListed, hoccurs hle, hthing, hnothing]
  · unfold occurs shape?
    rw [hnode hlt]
  · simp only [hoccurs hle]
    split <;> rfl

theorem of_setAssertions (a : Axiom) (n : Nat) : ix.Kept (ix.setAssertions a n) := by
  refine ⟨⟨id, id⟩, fun _ => rfl, .of_eq rfl rfl, ?_, rfl, rfl, rfl, rfl⟩
  unfold setAssertions
  rw [List.map_map]
  refine List.map_congr_left fun entry _ => ?_
  rw [Function.comp_apply]
  split
  · rename_i e
    exact e.symm
  · rfl

end Kept

/-- The index after a successful edit.  What is told of roles stays, or has changed and is said to have changed. -/
structure Revises (ix ix' : Index) : Prop where
  names : ix.Names ix'
  rulesOf_eq (id : ExprId) : ix'.rulesOf id = ix.rulesOf id
  told : ix'.rolesChanged = true ∨ ix.ToldAlike ix'

/-- What an edit can lead to. -/
inductive Edits (ix : Index) : Except IndexError Bool × Index → Prop
  | failed {e : IndexError} {ix' : Index} (h : ix.Kept ix') : Edits ix (.error e, ix')
  | counted {ix' : Index} (h : ix.Kept ix') : Edits ix (.ok false, ix')
  | revised {ix' : Index} (h : ix.Revises ix') : Edits ix (.ok true, ix')

/-- The computation, when it succeeds, ends with the note that role axioms have changed. -/
private def Notes (m : Indexing Unit) : Prop := ∀ ix ix', m ix = (.ok (), ix') → ix'.rolesChanged = true

private theorem Notes.bind {α : Type} (m : Indexing α) {f : α → Indexing Unit} (hf : ∀ a, Notes (f a)) :
    Notes (m >>= f) := by
  intro ix ix' h
  rw [Indexing.bind_apply] at h
  split at h
  · exact hf _ _ _ h
  · cases h

private theorem Notes.change {f : Index → Index} (hf : ∀ ix, (f ix).rolesChanged = true) : Notes (Indexing.change f) := by
  intro ix ix' h
  cases h
  exact hf ix

/-- Role axioms are noted. -/
theorem rolesChanged_of_enter {edit : Edit} {a : Axiom} (hrole : a.isRoleAxiom = true)
    (h : enter edit a ix = (.ok (), ix')) : ix'.rolesChanged = true := by
  refine (show Notes (enter edit a) from ?_) ix ix' h
  cases a with
  | subRoleOf sub sup =>
    refine .bind _ fun sup => ?_
    cases sub with
    | role sub => exact .bind _ fun sub => .bind _ fun _ => .change fun _ => rfl
    | chain roles => exact .bind _ fun _ => .change fun _ => rfl
  | equivalentRoles roles =>
    refine .bind _ fun ids => ?_
    cases ids with
    | nil => exact .change fun _ => rfl
    | cons first rest => exact .change fun _ => rfl
  | transitiveRole role => exact .bind _ fun id => .change fun _ => rfl
  | declaration | subClassOf | equivalentClasses | disjointClasses | classAssertion | roleAssertion => cases hrole

namespace Accounts

/-- What axioms say of roles stays when only an axiom about classes or individuals comes or goes. -/
private theorem toldAlike_of_assertions (h : ix.Accounts) (h' : ix'.Accounts) (hnames : ix.Names ix') {a : Axiom}
    (hrole : a.isRoleAxiom = false) (hothers : ∀ b, b ≠ a → ix'.assertions b = ix.assertions b) : ix.ToldAlike ix' := by
  refine .of_said h h' hnames fun entry hentry => ?_
  have hne {b : Axiom} {said : List TermEntry} (hsaid : b.entries? = some said) (hmem : entry ∈ said) : b ≠ a := by
    rintro rfl
    rw [Axiom.ofRoles_of_mem_entries hrole hsaid entry hmem] at hentry
    cases hentry
  have hkeep {b : Axiom} (hb : b ≠ a) : b ∈ ix'.axioms.map Prod.fst ↔ b ∈ ix.axioms.map Prod.fst := by
    rw [h'.mem_axioms_iff, h.mem_axioms_iff, hothers b hb]
  rw [Index.mem_said_iff, Index.mem_said_iff]
  constructor
  · rintro ⟨b, hb, said, hsaid, hmem⟩
    exact ⟨b, (hkeep (hne hsaid hmem)).1 hb, said, hsaid, hmem⟩
  · rintro ⟨b, hb, said, hsaid, hmem⟩
    exact ⟨b, (hkeep (hne hsaid hmem)).2 hb, said, hsaid, hmem⟩

/-- A role axiom is noted, and any other one tells nothing new of roles. -/
private theorem told_of_enter (h : ix.Accounts) (h' : ix'.Accounts) (hnames : ix.Names ix') {edit : Edit} {a : Axiom}
    {entered : Index} (henter : enter edit a ix = (.ok (), entered)) (hflag : ix'.rolesChanged = entered.rolesChanged)
    (hothers : ∀ b, b ≠ a → ix'.assertions b = ix.assertions b) :
    ix'.rolesChanged = true ∨ ix.ToldAlike ix' := by
  cases hrole : a.isRoleAxiom with
  | true => exact .inl (hflag.trans (rolesChanged_of_enter hrole henter))
  | false => exact .inr (h.toldAlike_of_assertions h' hnames hrole hothers)

/-- Asserting an axiom keeps the index, or revises it. -/
theorem edits_assert (h : ix.Accounts) (a : Axiom) : ix.Edits (ix.assert a) := by
  obtain ⟨h', hnames, hrules, hspec⟩ := h.assert a
  cases hcount : ix.assertions a with
  | succ n =>
    have hresult : ix.assert a = (.ok false, ix.setAssertions a (n + 2)) := by rw [Index.assert, hcount]
    rw [hresult]
    exact .counted (.of_setAssertions a _)
  | zero =>
    have henter := enter_spec .assert h.tidy a
    cases hentries : a.entries? with
    | none =>
      rw [hentries] at henter
      obtain ⟨e, entered, he, -, hgrown⟩ := henter
      have hresult : ix.assert a = (.error e, entered) := by
        rw [Index.assert, hcount]
        dsimp only
        rw [he]
      rw [hresult]
      exact .failed (.of_grown h.tidy hgrown)
    | some said =>
      rw [hentries] at henter hspec
      obtain ⟨entered, hok, -⟩ := henter
      have hresult : ix.assert a = (.ok true, { entered with axioms := entered.axioms ++ [(a, 1)] }) := by
        rw [Index.assert, hcount]
        dsimp only
        rw [hok]
      rw [hresult] at h' hnames hrules hspec ⊢
      refine .revised ⟨hnames, hrules, h.told_of_enter h' hnames hok rfl fun b hb => ?_⟩
      rw [hspec.2 b, if_neg hb, Nat.add_zero]

/-- Retracting an axiom keeps the index, or revises it. -/
theorem edits_retract (h : ix.Accounts) (a : Axiom) : ix.Edits (ix.retract a) := by
  obtain ⟨h', hnames, hrules, hok, hcounts⟩ := h.retract a
  match hcount : ix.assertions a with
  | 0 =>
    have hresult : ix.retract a = (.ok false, ix) := by rw [Index.retract, hcount]
    rw [hresult]
    exact .counted (.refl ix)
  | n + 2 =>
    have hresult : ix.retract a = (.ok false, ix.setAssertions a (n + 1)) := by rw [Index.retract, hcount]
    rw [hresult]
    exact .counted (.of_setAssertions a _)
  | 1 =>
    have htrue : (ix.retract a).1 = .ok true := by rw [hok, hcount]; rfl
    rcases henter : enter .retract a ix with ⟨result, entered⟩
    cases result with
    | error e =>
      rw [Index.retract, hcount] at htrue
      dsimp only at htrue
      rw [henter] at htrue
      cases htrue
    | ok =>
      have hresult : ix.retract a =
          (.ok true, { entered with axioms := entered.axioms.filter fun entry => entry.1 ≠ a }) := by
        rw [Index.retract, hcount]
        dsimp only
        rw [henter]
      rw [hresult] at h' hnames hrules hcounts ⊢
      refine .revised ⟨hnames, hrules, h.told_of_enter h' hnames henter rfl fun b hb => ?_⟩
      rw [hcounts b, if_neg hb, Nat.sub_zero]

end Accounts

/-! ### Commits -/

namespace Ledger

variable {entries : List IndexEntry}

/-- After a commit a contribution is in force as often as before, less what was removed and plus what was added. -/
theorem inForce_commit (hix : ix.Tidy) (h : ix.Ledger entries) (g : Contribution) :
    ix.commit.2.inForce g + ix.pending.removed.count g = ix.inForce g + ix.pending.added.count g := by
  have hbefore := h.standing g
  have hafter := (h.commit hix).standing g
  have hother := h.otherRules_commit hix
  have hpending : ix.commit.2.pending = .empty := hother.pending
  have hdue : ix.commit.2.due entries g = ix.due entries g := hother.due_eq g
  rw [Index.standing, hpending, hdue] at hafter
  rw [Index.standing] at hbefore
  simp only [Changes.empty, List.count_nil] at hafter
  rw [inForce, inForce]
  omega

end Ledger

namespace Accounts

/-- What is pending to be removed is in force. -/
theorem mem_contributionsOf_of_mem_removed (h : ix.Accounts) {g : Contribution} (hg : g ∈ ix.pending.removed) :
    g ∈ ix.contributionsOf g.premise := by
  obtain ⟨entries, hledger, -⟩ := h.exists_entries
  have hle := hledger.committable.removed_le g
  have hpos := List.count_pos_iff.2 hg
  exact List.count_pos_iff.1 (by omega)

/-- A propagation that is pending to be added is over a role of the index. -/
theorem role_lt_of_mem_added (h : ix.Accounts) {filler existential : ExprId} {role : RoleId}
    (hg : .propagation filler role existential ∈ ix.pending.added) : role.val < ix.roles.size := by
  obtain ⟨entries, hledger, -⟩ := h.exists_entries
  cases hledger.due_of_mem_added hg with
  | filler hshape => exact (h.tidy.filler hshape).2

/-- A commit revises the rules in force by what was pending. -/
theorem revised_commit (h : ix.Accounts) (roles : RoleHierarchy) :
    (RuleBase.calculus ⟨ix, roles⟩).Revised ix.pending.removed ix.pending.added
      (RuleBase.calculus ⟨ix.commit.2, roles⟩) := by
  obtain ⟨entries, hledger, -⟩ := h.exists_entries
  have hforce := hledger.inForce_commit h.tidy
  refine ⟨funext fun expr => (hledger.alike_commit h.tidy).shape?_eq expr, rfl, fun {g} hg hremoved => ?_, fun {g} hg => ?_⟩
  · have hold : 0 < ix.inForce g := mem_contributionsOf_iff.1 hg
    have hzero := List.count_eq_zero.2 hremoved
    have hbalance := hforce g
    have hnew : 0 < ix.commit.2.inForce g := by omega
    exact mem_contributionsOf_iff.2 hnew
  · have hnew : 0 < ix.commit.2.inForce g := mem_contributionsOf_iff.1 hg
    have hbalance := hforce g
    by_cases hold : 0 < ix.inForce g
    · exact .inl (mem_contributionsOf_iff.2 hold)
    · exact .inr (List.count_pos_iff.1 (by omega))

end Accounts

end Index

end ELOntology
