import Mathlib.Algebra.BigOperators.Group.Finset.Basic
import Mathlib.Algebra.BigOperators.Group.Multiset.Basic
import Mathlib.Algebra.Order.Group.Multiset
import ELOntology.Proofs.Index.TermContribution

/-!
# An index reflects its asserted axioms

The counters of an index are the sums of what its asserted axioms count, what it is told of roles is what they tell, and
the contributions in force together with those pending are the ones due for what they say (`Reflects`).

Key fact: `Accounts.reflects`.
-/

namespace ELOntology

/-- What the axiom says, with repetitions, and nothing for an axiom that cannot be indexed. -/
def Axiom.said (a : Axiom) : Multiset TermEntry := (a.entries?.getD [] : List TermEntry)

namespace Index

variable {ix : Index} {entries : List IndexEntry}

/-- The asserted axioms, each once. -/
def asserted (ix : Index) : Finset Axiom := (ix.axioms.map Prod.fst).toFinset

theorem mem_asserted {a : Axiom} : a ∈ ix.asserted ↔ ix.containsAxiom a = true := by
  rw [asserted, List.mem_toFinset, containsAxiom, List.any_eq_true, List.mem_map]
  exact exists_congr fun entry => and_congr_right fun _ => decide_eq_true_iff.symm

/-- The contributions in force for an expression with those pending to be added, less those pending to be removed. -/
def balance (ix : Index) (id : ExprId) : Multiset Contribution :=
  (ix.contributionsOf id + (ix.pending.added.filter fun g => g.premise = id : List Contribution) : Multiset Contribution) -
    (ix.pending.removed.filter fun g => g.premise = id : List Contribution)

/-- The numbers in a told inclusion belong to the roles of these names. -/
def NamesInclusion (ix : Index) (told : RoleId × RoleId) (names : String × String) : Prop :=
  ix.role? told.1 = some names.1 ∧ ix.role? told.2 = some names.2

/-- The numbers in a told composition belong to the roles of these names. -/
def NamesComposition (ix : Index) (told : RoleId × RoleId × RoleId) (names : String × String × String) : Prop :=
  ix.role? told.1 = some names.1 ∧ ix.role? told.2.1 = some names.2.1 ∧ ix.role? told.2.2 = some names.2.2

/-- The index holds what its asserted axioms say, each of them counted once however often it was asserted. -/
structure Reflects (ix : Index) : Prop where
  denotes {id : ExprId} : id.val < ix.nodes.size → ∃ t, ix.Denotes id t ∧ ∀ id', ix.Denotes id' t → id' = id
  occurrences {id : ExprId} {node : Node} {t : Term} : ix.node? id = some node → ix.Denotes id t →
    node.occurrences = ∑ a ∈ ix.asserted, (a.said.count (.occurrence .positive t) + a.said.count (.occurrence .negative t))
  negatives {id : ExprId} {node : Node} {t : Term} : ix.node? id = some node → ix.Denotes id t →
    node.negativeOccurrences = ∑ a ∈ ix.asserted, a.said.count (.occurrence .negative t)
  sets {d : Nat} {set : DisjointSet} {ts : Multiset Term} : ix.disjointSets[d]? = some set →
    Multiset.Rel ix.Denotes set.members ts →
    set.occurrences = ∑ a ∈ ix.asserted, (a.said.filterMap Entry.disjoint?).count ts
  inclusions : Multiset.Rel ix.NamesInclusion ix.toldInclusions (∑ a ∈ ix.asserted, a.said.filterMap Entry.roleInclusion?)
  compositions : Multiset.Rel ix.NamesComposition ix.toldCompositions
    (∑ a ∈ ix.asserted, a.said.filterMap Entry.composition?)
  contributions {id : ExprId} {t : Term} : ix.Denotes id t → Multiset.Rel ix.Means (ix.balance id)
    ((contributionsDue (∑ a ∈ ix.asserted, a.said)).filter fun c => c.premise = t)
  removed_le (id : ExprId) :
    ((ix.pending.removed.filter fun g => g.premise = id : List Contribution) : Multiset Contribution) ≤ ix.contributionsOf id
  exclusive : ∀ g ∈ ix.pending.added, g ∉ ix.pending.removed

/-! ### Sums over the asserted axioms -/

/-- All that the asserted axioms say, as a sum over them. -/
theorem Accounts.sum_said (h : ix.Accounts) : ∑ a ∈ ix.asserted, a.said = (ix.said : Multiset TermEntry) := by
  rw [asserted, List.sum_toFinset _ h.axioms_nodup, List.map_map, said]
  induction ix.axioms with
  | nil => rfl
  | cons entry entries ih =>
    rw [List.map_cons, List.sum_cons, ih, List.flatMap_cons, ← Multiset.coe_add]
    rfl

theorem Accounts.sum_count (h : ix.Accounts) (entry : TermEntry) :
    ∑ a ∈ ix.asserted, a.said.count entry = ix.said.count entry := by
  rw [← Multiset.count_sum', h.sum_said, Multiset.coe_count]

theorem Accounts.sum_filterMap (h : ix.Accounts) {α : Type} (f : TermEntry → Option α) :
    ∑ a ∈ ix.asserted, a.said.filterMap f = (ix.said : Multiset TermEntry).filterMap f := by
  let hom : Multiset TermEntry →+ Multiset α := ⟨⟨Multiset.filterMap f, Multiset.filterMap_zero f⟩, Multiset.filterMap_add f⟩
  rw [← h.sum_said]
  exact (show ∑ a ∈ ix.asserted, hom a.said = hom (∑ a ∈ ix.asserted, a.said) from (map_sum hom _ _).symm)

/-! ### Reading the ledger -/

variable {said : List TermEntry}

private theorem count_occurrence (hix : ix.Tidy) (hreads : ix.ReadsAll entries said) {id : ExprId} {t : Term}
    (hd : ix.Denotes id t) (polarity : Polarity) :
    entries.count (.occurrence polarity id) = said.count (.occurrence polarity t) := by
  rw [← Multiset.coe_count, ← Multiset.coe_count]
  refine count_eq_of_rel (rel_of_forall₂ hreads) fun entry s hread => ⟨?_, ?_⟩
  · rintro rfl
    cases hread with
    | occurrence h => rw [h.term_unique hd]
  · rintro rfl
    cases hread with
    | occurrence h => rw [hix.id_unique h hd]

/-- A set of disjoint classes counts the axioms that list its members, in whatever order. -/
private theorem countP_lists (hix : ix.Tidy) (hreads : ix.ReadsAll entries said) {set : DisjointSet} {ts : Multiset Term}
    (hsorted : sortIds set.members = set.members) (hts : Multiset.Rel ix.Denotes set.members ts) :
    entries.countP (IndexEntry.lists set.members) = ((said : Multiset TermEntry).filterMap Entry.disjoint?).count ts := by
  have hcount := countP_eq_of_rel (p := fun entry => IndexEntry.lists set.members entry = true)
    (q := fun s : TermEntry => (s.disjoint? == some ts) = true) (rel_of_forall₂ hreads) fun entry s hread => by
      cases hread with
      | @disjointness ids us h =>
        have hus := rel_of_forall₂ h
        show decide (sortIds ids = set.members) = true ↔ (some (us : Multiset Term) == some ts) = true
        rw [decide_eq_true_iff, beq_iff_eq, Option.some.injEq]
        constructor
        · intro e
          rw [← e, Multiset.coe_eq_coe.2 (sortIds_perm ids)] at hts
          exact eq_of_rel_right hus hts fun _ _ _ => Denotes.term_unique
        · rintro rfl
          rw [← hsorted]
          exact sortIds_eq_of_perm (Multiset.coe_eq_coe.1 (eq_of_rel_left hus hts fun _ _ _ => hix.id_unique))
      | _ => exact iff_of_false Bool.false_ne_true Bool.false_ne_true
  rw [Multiset.filterMap_coe, Multiset.coe_count, List.count_filterMap]
  simpa only [Multiset.coe_countP, Bool.decide_eq_true] using hcount

/-- A list that counts the entries of one kind consists of what they contain. -/
private theorem perm_filterMap {α : Type} [BEq α] [LawfulBEq α] {told : List α} {f : IndexEntry → Option α}
    (read : α → IndexEntry) (hf : ∀ entry x, f entry = some x ↔ entry = read x)
    (h : ∀ x, told.count x = entries.count (read x)) : told.Perm (entries.filterMap f) := by
  refine List.perm_iff_count.2 fun x => ?_
  rw [h, List.count_filterMap]
  refine List.countP_congr fun entry _ => ?_
  rw [beq_iff_eq, beq_iff_eq, hf]

private theorem CountsRoles.toldInclusions_perm (h : ix.CountsRoles entries) :
    ix.toldInclusions.Perm (entries.filterMap Entry.roleInclusion?) := by
  refine perm_filterMap (fun p => .roleInclusion p.1 p.2) (fun entry (sub, sup) => ?_) fun p => h.inclusions p.1 p.2
  cases entry <;> simp [Entry.roleInclusion?]

private theorem CountsRoles.toldCompositions_perm (h : ix.CountsRoles entries) :
    ix.toldCompositions.Perm (entries.filterMap Entry.composition?) := by
  refine perm_filterMap (fun p => .composition p.1 p.2.1 p.2.2) (fun entry (left, right, sup) => ?_)
    fun p => h.compositions p.1 p.2.1 p.2.2
  cases entry <;> simp [Entry.composition?]

private theorem count_filter_premise (l : List Contribution) (id : ExprId) (g : Contribution) :
    (l.filter fun g => g.premise = id).count g = if g.premise = id then l.count g else 0 := by
  by_cases hg : g.premise = id
  · rw [if_pos hg, List.count_filter (p := fun g : Contribution => decide (g.premise = id)) (decide_eq_true hg)]
  · rw [if_neg hg]
    exact List.count_eq_zero.2 fun hmem => hg (of_decide_eq_true (List.mem_filter.1 hmem).2)

/-- The balance of an expression is what is due for it. -/
theorem Ledger.balance_eq (h : ix.Ledger entries) (id : ExprId) :
    ix.balance id = (ix.dueAll entries : Multiset Contribution).filter fun g => g.premise = id := by
  refine Multiset.ext.2 fun g => ?_
  have hstanding := h.standing g
  have hle := h.committable.removed_le g
  rw [Index.standing, ← count_dueAll] at hstanding
  rw [balance, Multiset.count_sub, Multiset.count_add, Multiset.filter_coe, Multiset.coe_count, Multiset.coe_count,
    Multiset.coe_count, Multiset.coe_count, count_filter_premise, count_filter_premise, count_filter_premise]
  by_cases hg : g.premise = id
  · subst hg
    rw [if_pos rfl, if_pos rfl, if_pos rfl]
    omega
  · have hforce : (ix.contributionsOf id).count g = 0 :=
      List.count_eq_zero.2 fun hmem => hg (premise_of_mem_contributionsOf hmem)
    rw [if_neg hg, if_neg hg, if_neg hg, hforce]

/-- An index that counts what its asserted axioms say reflects them. -/
theorem Accounts.reflects (h : ix.Accounts) : ix.Reflects := by
  obtain ⟨entries, hledger, hreads⟩ := h.exists_entries
  have hrel := rel_of_forall₂ hreads
  refine ⟨fun hid => ?_, fun {id node t} hnode hd => ?_, fun {id node t} hnode hd => ?_, fun {d set ts} hset hts => ?_, ?_, ?_,
    fun {id t} hd => ?_, fun id => ?_, fun g hadded hremoved => ?_⟩
  · obtain ⟨t, ht⟩ := h.tidy.exists_denotes hid
    exact ⟨t, ht, fun id' ht' => h.tidy.id_unique ht' ht⟩
  · rw [Finset.sum_add_distrib, h.sum_count, h.sum_count, hledger.nodes.occurrences hnode,
      count_occurrence h.tidy hreads hd, count_occurrence h.tidy hreads hd]
  · rw [h.sum_count, hledger.nodes.negatives hnode, count_occurrence h.tidy hreads hd]
  · rw [← Multiset.count_sum', h.sum_filterMap, hledger.sets.occurrences hset,
      countP_lists h.tidy hreads (hledger.sets.sorted hset) hts]
  · rw [h.sum_filterMap, Multiset.coe_eq_coe.2 hledger.roles.toldInclusions_perm, ← Multiset.filterMap_coe]
    refine rel_filterMap hrel fun entry s hread => ?_
    cases hread with
    | roleInclusion hsub hsup => exact .some ⟨hsub, hsup⟩
    | _ => exact .none
  · rw [h.sum_filterMap, Multiset.coe_eq_coe.2 hledger.roles.toldCompositions_perm, ← Multiset.filterMap_coe]
    refine rel_filterMap hrel fun entry s hread => ?_
    cases hread with
    | composition hleft hright hsup => exact .some ⟨hleft, hright, hsup⟩
    | _ => exact .none
  -- numbers and terms match one to one, so the same contributions are picked on both sides
  · rw [h.sum_said, hledger.balance_eq]
    exact rel_filter (hledger.rel_dueAll h.tidy hreads) fun g c hmeans => hmeans.premise_iff h.tidy hd
  · refine Multiset.le_iff_count.2 fun g => ?_
    rw [Multiset.coe_count, Multiset.coe_count, count_filter_premise]
    split
    · rename_i hg
      rw [← hg]
      exact hledger.committable.removed_le g
    · exact Nat.zero_le _
  · have hadded := List.count_pos_iff.2 hadded
    have hremoved := List.count_pos_iff.2 hremoved
    have := hledger.committable.exclusive g
    omega

end Index

end ELOntology
