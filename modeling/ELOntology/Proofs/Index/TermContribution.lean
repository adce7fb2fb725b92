import Mathlib.Data.Multiset.Bind
import ELOntology.Proofs.Order.Matching
import ELOntology.Proofs.Semantics.Models

/-!
# Contributions in terms

What is said determines which contributions are due, in terms and role names and so without any index: one for each told
inclusion, those that a term makes while it occurs on a left side, and those of each set of disjoint classes, however
often and in whatever order its members are listed.  `Index.Means` relates the contributions of an index to these.

Key fact: `Ledger.rel_dueAll` (the contributions due in an index are those due for what is said, under its numbers).
-/

namespace ELOntology

/-- A contribution in terms and names of roles.  A set of disjoint classes is known by its members. -/
inductive TermContribution where
  | toldSuper (sub sup : Term)
  | conjunction (conjunct other conjunction : Term)
  | propagation (filler : Term) (role : String) (existential : Term)
  | disjointness (member : Term) (members : Multiset Term)
deriving DecidableEq

namespace TermContribution

def premise : TermContribution → Term
  | toldSuper sub _ => sub
  | conjunction conjunct _ _ => conjunct
  | propagation filler _ _ => filler
  | disjointness member _ => member

def kind : TermContribution → RuleKind
  | toldSuper .. => .toldSupers
  | conjunction .. => .conjunctions
  | propagation .. => .propagations
  | disjointness .. => .disjointness

end TermContribution

namespace Entry

variable {ε ρ : Type}

def told? : Entry ε ρ → Option (ε × ε)
  | inclusion sub sup => some (sub, sup)
  | _ => none

/-- What the entry counts on a left side. -/
def negative? : Entry ε ρ → Option ε
  | occurrence .negative e => some e
  | _ => none

def disjoint? : Entry ε ρ → Option (Multiset ε)
  | disjointness members => some members
  | _ => none

def roleInclusion? : Entry ε ρ → Option (ρ × ρ)
  | roleInclusion sub sup => some (sub, sup)
  | _ => none

def composition? : Entry ε ρ → Option (ρ × ρ × ρ)
  | composition left right sup => some (left, right, sup)
  | _ => none

end Entry

namespace Term

/-- The contributions that a term makes while it occurs on a left side. -/
def structural : Term → List TermContribution
  | conjunction first second =>
    .conjunction first second (.conjunction first second) ::
      if first = second then [] else [.conjunction second first (.conjunction first second)]
  | existential role filler => [.propagation filler role (.existential role filler)]
  | _ => []

/-- The contributions of a set of disjoint classes.  A member listed twice is disjoint with itself, so it is empty. -/
def disjointnessContributions (members : Multiset Term) : Multiset TermContribution :=
  members.dedup.map fun member =>
    if 1 < members.count member then .toldSuper member .nothing else .disjointness member members

end Term

/-- The contributions due for what is said. -/
def contributionsDue (said : Multiset TermEntry) : Multiset TermContribution :=
  (said.filterMap Entry.told?).map (fun p => .toldSuper p.1 p.2) +
    (said.filterMap Entry.negative?).dedup.bind (fun t => (t.structural : Multiset TermContribution)) +
      (said.filterMap Entry.disjoint?).dedup.bind Term.disjointnessContributions

namespace Index

variable {ix : Index} {entries : List IndexEntry} {said : List TermEntry}

/-- The contribution says in numbers what the other says in terms. -/
inductive Means (ix : Index) : Contribution → TermContribution → Prop
  | toldSuper {sub sup : ExprId} {t u : Term} (hsub : ix.Denotes sub t) (hsup : ix.Denotes sup u) :
      Means ix (.toldSuper sub sup) (.toldSuper t u)
  | conjunction {conjunct other both : ExprId} {t u v : Term} (hconjunct : ix.Denotes conjunct t)
      (hother : ix.Denotes other u) (hboth : ix.Denotes both v) :
      Means ix (.conjunction conjunct other both) (.conjunction t u v)
  | propagation {filler existential : ExprId} {role : RoleId} {t u : Term} {name : String}
      (hfiller : ix.Denotes filler t) (hrole : ix.role? role = some name) (hexistential : ix.Denotes existential u) :
      Means ix (.propagation filler role existential) (.propagation t name u)
  | disjointness {member : ExprId} {d : DisjointnessId} {set : DisjointSet} {t : Term} {ts : Multiset Term}
      (hmember : ix.Denotes member t) (hset : ix.disjointSets[d.val]? = some set)
      (hmembers : Multiset.Rel ix.Denotes set.members ts) : Means ix (.disjointness member d) (.disjointness t ts)

namespace Means

variable {g : Contribution} {c : TermContribution}

theorem premise (h : ix.Means g c) : ix.Denotes g.premise c.premise := by
  cases h with
  | toldSuper h | conjunction h | propagation h | disjointness h => exact h

theorem kind (h : ix.Means g c) : g.kind = c.kind := by
  cases h <;> rfl

theorem premise_iff (hix : ix.Tidy) {id : ExprId} {t : Term} (hd : ix.Denotes id t) (h : ix.Means g c) :
    g.premise = id ↔ c.premise = t := by
  constructor
  · rintro rfl
    exact h.premise.term_unique hd
  · rintro rfl
    exact hix.id_unique h.premise hd

end Means

/-! ### What is due, one by one -/

/-- The nodes that occur on a left side, with their places. -/
def activeNodes (ix : Index) : List (Node × Nat) :=
  ix.nodes.toList.zipIdx.filter fun p => decide (0 < p.1.negativeOccurrences)

/-- The sets of disjoint classes that some axiom has, with their places. -/
def activeSets (ix : Index) : List (DisjointSet × Nat) :=
  ix.disjointSets.toList.zipIdx.filter fun p => decide (0 < p.1.occurrences)

/-- The contributions due for the entries. -/
def dueAll (ix : Index) (entries : List IndexEntry) : List Contribution :=
  (entries.filterMap Entry.told?).map (fun p => .toldSuper p.1 p.2) ++
    (ix.activeNodes.flatMap (fun p => structural ⟨p.2⟩ p.1.shape) ++
      ix.activeSets.flatMap fun p => disjointnessContributions ⟨p.2⟩ p.1.members)

private theorem shares_eq_count {α β : Type} [DecidableEq β] {p : α → Bool} (f : α → Nat → List β) (b : β) (i : Nat)
    (xs : List α) : shares (fun j x => if p x then (f x j).count b else 0) i xs =
      (((xs.zipIdx i).filter fun q => p q.1).flatMap fun q => f q.1 q.2).count b := by
  induction xs generalizing i with
  | nil => rfl
  | cons x xs ih =>
    rw [shares, ih, List.zipIdx_cons, List.filter_cons]
    dsimp only
    split
    · rw [List.flatMap_cons, List.count_append]
    · rw [Nat.zero_add]

private theorem toldShare_eq_count (g : Contribution) : toldShare entries g =
    ((entries.filterMap Entry.told?).map fun p => Contribution.toldSuper p.1 p.2).count g := by
  induction entries with
  | nil => cases g <;> rfl
  | cons entry entries ih =>
    cases entry with
    | inclusion sub sup =>
      have htold : List.filterMap Entry.told? (.inclusion sub sup :: entries) =
          (sub, sup) :: entries.filterMap Entry.told? := rfl
      rw [htold, List.map_cons, List.count_cons, ← ih]
      cases g <;> simp [toldShare, List.count_cons]
    | _ =>
      refine Eq.trans ?_ ih
      cases g <;> simp [toldShare]

theorem count_dueAll (g : Contribution) : (ix.dueAll entries).count g = ix.due entries g := by
  rw [dueAll, List.count_append, List.count_append, ← toldShare_eq_count, activeNodes, activeSets,
    ← shares_eq_count (p := fun node : Node => decide (0 < node.negativeOccurrences)) (fun node i => structural ⟨i⟩ node.shape),
    ← shares_eq_count (p := fun set : DisjointSet => decide (0 < set.occurrences))
      (fun set i => disjointnessContributions ⟨i⟩ set.members), due, ← Nat.add_assoc]
  simp only [decide_eq_true_eq]
  rfl

/-! ### The same in terms -/

theorem mem_activeNodes {node : Node} {i : Nat} :
    (node, i) ∈ ix.activeNodes ↔ ix.node? ⟨i⟩ = some node ∧ 0 < node.negativeOccurrences := by
  rw [activeNodes, List.mem_filter, List.mem_zipIdx_iff_getElem?, decide_eq_true_iff, Array.getElem?_toList]
  rfl

theorem mem_activeSets {set : DisjointSet} {d : Nat} :
    (set, d) ∈ ix.activeSets ↔ ix.disjointSets[d]? = some set ∧ 0 < set.occurrences := by
  rw [activeSets, List.mem_filter, List.mem_zipIdx_iff_getElem?, decide_eq_true_iff, Array.getElem?_toList]

private theorem nodup_zipIdx {α : Type} (xs : List α) : xs.zipIdx.Nodup := by
  refine List.Nodup.of_map Prod.snd ?_
  rw [List.zipIdx_map_snd]
  exact List.nodup_range'

theorem mem_filterMap_negative? {t : Term} :
    t ∈ (said : Multiset TermEntry).filterMap Entry.negative? ↔ .occurrence .negative t ∈ said := by
  rw [Multiset.mem_filterMap]
  constructor
  · rintro ⟨entry, hentry, e⟩
    cases entry with
    | occurrence polarity u =>
      cases polarity with
      | positive => cases e
      | negative =>
        cases e
        exact hentry
    | _ => cases e
  · exact fun h => ⟨_, h, rfl⟩

theorem mem_filterMap_disjoint? {ms : Multiset Term} :
    ms ∈ (said : Multiset TermEntry).filterMap Entry.disjoint? ↔ ∃ ts : List Term, ms = ts ∧ .disjointness ts ∈ said := by
  rw [Multiset.mem_filterMap]
  constructor
  · rintro ⟨entry, hentry, e⟩
    cases entry with
    | disjointness ts =>
      cases e
      exact ⟨ts, rfl, hentry⟩
    | _ => cases e
  · rintro ⟨ts, rfl, h⟩
    exact ⟨_, h, rfl⟩

/-- The node in its place stands for the term. -/
private def NodeDenotes (ix : Index) (p : Node × Nat) (t : Term) : Prop :=
  ix.node? ⟨p.2⟩ = some p.1 ∧ ix.Denotes ⟨p.2⟩ t

/-- The set in its place is that of the terms. -/
private def SetDenotes (ix : Index) (p : DisjointSet × Nat) (ts : Multiset Term) : Prop :=
  ix.disjointSets[p.2]? = some p.1 ∧ Multiset.Rel ix.Denotes p.1.members ts

/-- The nodes on left sides are those of the terms on left sides. -/
private theorem rel_activeNodes (hix : ix.Tidy) (h : ix.Ledger entries) (hreads : ix.ReadsAll entries said) :
    Multiset.Rel ix.NodeDenotes ix.activeNodes
      ((said : Multiset TermEntry).filterMap Entry.negative?).dedup := by
  refine rel_of_nodup ((nodup_zipIdx _).filter _) (Multiset.nodup_dedup _) ?_ ?_ ?_ ?_
  · rintro ⟨node, i⟩ hp
    obtain ⟨hnode, hpos⟩ := mem_activeNodes.1 hp
    rw [h.nodes.negatives hnode, List.count_pos_iff] at hpos
    obtain ⟨entry, hentry, hread⟩ := exists_right_of_mem hreads hpos
    cases hread with
    | occurrence hd => exact ⟨_, Multiset.mem_dedup.2 (mem_filterMap_negative?.2 hentry), hnode, hd⟩
  · intro t ht
    obtain ⟨entry, hentry, hread⟩ := exists_left_of_mem hreads (mem_filterMap_negative?.1 (Multiset.mem_dedup.1 ht))
    cases hread with
    | @occurrence _ id _ hd =>
      obtain ⟨node, hnode⟩ := node?_isSome_iff.2 hd.lt_size
      refine ⟨(node, id.val), mem_activeNodes.2 ⟨hnode, ?_⟩, hnode, hd⟩
      rw [h.nodes.negatives hnode]
      exact List.count_pos_iff.2 hentry
  · rintro ⟨node, i⟩ - ⟨node', j⟩ - t ⟨hnode, hd⟩ ⟨hnode', hd'⟩
    obtain rfl : i = j := congrArg ExprId.val (hix.id_unique hd hd')
    exact Prod.ext (Option.some.inj (hnode.symm.trans hnode')) rfl
  · exact fun _ _ _ _ _ h h' => h.2.term_unique h'.2

private theorem rel_structural (hix : ix.Tidy) {id : ExprId} {node : Node} {t : Term} (hnode : ix.node? id = some node)
    (hd : ix.Denotes id t) : Multiset.Rel ix.Means (structural id node.shape) t.structural := by
  have hshape : ix.shape? id = some node.shape := shape?_eq_some_iff.2 ⟨node, hnode, rfl⟩
  cases hd with
  | named hs | data hs | nominal hs =>
    rw [← Option.some.inj (hs.symm.trans hshape)]
    exact .zero
  | existential hs hrole hfiller =>
    rw [← Option.some.inj (hs.symm.trans hshape)]
    exact .cons (.propagation hfiller hrole (.existential hs hrole hfiller)) .zero
  | @conjunction _ first second t u hs hfirst hsecond =>
    have hboth : ix.Denotes id (.conjunction t u) := .conjunction hs hfirst hsecond
    have hmeans : ix.Means (.conjunction first second id) (.conjunction t u (.conjunction t u)) :=
      .conjunction hfirst hsecond hboth
    have hmeans' : ix.Means (.conjunction second first id) (.conjunction u t (.conjunction t u)) :=
      .conjunction hsecond hfirst hboth
    rw [← Option.some.inj (hs.symm.trans hshape), structural, Term.structural, ← Multiset.cons_coe, ← Multiset.cons_coe]
    refine .cons hmeans ?_
    -- a conjunction with itself contributes once, and equal numbers stand for equal terms
    by_cases e : first = second
    · rw [if_pos e, if_pos (hfirst.term_unique (e ▸ hsecond))]
      exact .zero
    · have e' : t ≠ u := fun h => e (hix.id_unique hfirst (h ▸ hsecond))
      rw [if_neg e, if_neg e']
      exact .cons hmeans' .zero

/-- The members of a set, sorted or not, stand for the members listed. -/
private theorem rel_members {ids : List ExprId} {ts : List Term} (h : ix.DenoteAll ids ts) :
    Multiset.Rel ix.Denotes (sortIds ids) (ts : Multiset Term) := by
  rw [Multiset.coe_eq_coe.2 (sortIds_perm ids)]
  exact rel_of_forall₂ h

/-- The sets of disjoint classes that some axiom has are those that are said to be disjoint. -/
private theorem rel_activeSets (hix : ix.Tidy) (h : ix.Ledger entries) (hreads : ix.ReadsAll entries said) :
    Multiset.Rel ix.SetDenotes ix.activeSets
      ((said : Multiset TermEntry).filterMap Entry.disjoint?).dedup := by
  refine rel_of_nodup ((nodup_zipIdx _).filter _) (Multiset.nodup_dedup _) ?_ ?_ ?_ ?_
  · rintro ⟨set, d⟩ hp
    obtain ⟨hset, hpos⟩ := mem_activeSets.1 hp
    obtain ⟨ids, hids, hmembers⟩ := (h.sets.pos_iff hset).1 hpos
    obtain ⟨entry, hentry, hread⟩ := exists_right_of_mem hreads hids
    cases hread with
    | @disjointness _ ts hd =>
      refine ⟨ts, Multiset.mem_dedup.2 (mem_filterMap_disjoint?.2 ⟨ts, rfl, hentry⟩), hset, ?_⟩
      dsimp only
      rw [hmembers]
      exact rel_members hd
  · intro ms hms
    obtain ⟨ts, rfl, hts⟩ := mem_filterMap_disjoint?.1 (Multiset.mem_dedup.1 hms)
    obtain ⟨entry, hentry, hread⟩ := exists_left_of_mem hreads hts
    cases hread with
    | @disjointness ids _ hd =>
      obtain ⟨d, set, hset, hmembers⟩ := h.sets.exists_set hentry
      refine ⟨(set, d), mem_activeSets.2 ⟨hset, (h.sets.pos_iff hset).2 ⟨ids, hentry, hmembers⟩⟩, hset, ?_⟩
      dsimp only
      rw [hmembers]
      exact rel_members hd
  · rintro ⟨set, d⟩ - ⟨set', d'⟩ - ts ⟨hset, hts⟩ ⟨hset', hts'⟩
    -- sets with the same terms have the same numbers, and sorted the same list, of which there is one set
    have hperm : set.members.Perm set'.members :=
      Multiset.coe_eq_coe.1 (eq_of_rel_left hts hts' fun _ _ _ => hix.id_unique)
    have hmembers : set.members = set'.members := by
      rw [← h.sets.sorted hset, ← h.sets.sorted hset']
      exact sortIds_eq_of_perm hperm
    obtain rfl : d = d' := h.sets.found.unique hset hset' hmembers
    exact Prod.ext (Option.some.inj (hset.symm.trans hset')) rfl
  · exact fun _ _ _ _ _ h h' => eq_of_rel_right h.2 h'.2 fun _ _ _ => Denotes.term_unique

private theorem rel_disjointnessContributions (hix : ix.Tidy) {d : DisjointnessId} {set : DisjointSet} {ts : Multiset Term}
    (hset : ix.disjointSets[d.val]? = some set) (hts : Multiset.Rel ix.Denotes set.members ts) :
    Multiset.Rel ix.Means (disjointnessContributions d set.members) (Term.disjointnessContributions ts) := by
  have hdistinct : Multiset.Rel ix.Denotes (distinct set.members) ts.dedup := by
    refine rel_of_nodup (nodup_distinct _) (Multiset.nodup_dedup _) (fun id hid => ?_) (fun t ht => ?_)
      (fun _ _ _ _ _ => hix.id_unique) fun _ _ _ _ _ => Denotes.term_unique
    · obtain ⟨t, ht, hd⟩ := exists_right_of_rel hts (mem_distinct.1 hid)
      exact ⟨t, Multiset.mem_dedup.2 ht, hd⟩
    · obtain ⟨id, hid, hd⟩ := exists_left_of_rel hts (Multiset.mem_dedup.1 ht)
      exact ⟨id, mem_distinct.2 hid, hd⟩
  refine Multiset.rel_map.2 (hdistinct.mono fun id _ t _ hd => ?_)
  have hcount : (set.members : Multiset ExprId).count id = ts.count t := by
    refine count_eq_of_rel hts fun id' t' hd' => ⟨?_, ?_⟩
    · rintro rfl
      exact hd'.term_unique hd
    · rintro rfl
      exact hix.id_unique hd' hd
  rw [Multiset.coe_count] at hcount
  rw [hcount]
  split
  · exact .toldSuper hd hix.denotes_nothing
  · exact .disjointness hd hset hts

/-- The contributions that are due are, in terms, those due for what is said. -/
theorem Ledger.rel_dueAll (hix : ix.Tidy) (h : ix.Ledger entries) (hreads : ix.ReadsAll entries said) :
    Multiset.Rel ix.Means (ix.dueAll entries) (contributionsDue said) := by
  have htold : Multiset.Rel (fun p q => ix.Means (.toldSuper p.1 p.2) (.toldSuper q.1 q.2))
      ((entries : Multiset IndexEntry).filterMap Entry.told?) ((said : Multiset TermEntry).filterMap Entry.told?) := by
    refine rel_filterMap (rel_of_forall₂ hreads) fun entry s hread => ?_
    cases hread with
    | inclusion hsub hsup => exact .some (.toldSuper hsub hsup)
    | _ => exact .none
  have hnodes := Multiset.rel_bind
    (f := fun p : Node × Nat => (structural ⟨p.2⟩ p.1.shape : Multiset Contribution))
    (g := fun t : Term => (t.structural : Multiset TermContribution))
    (fun p t hp => rel_structural hix hp.1 hp.2) (rel_activeNodes hix h hreads)
  have hsets := Multiset.rel_bind
    (f := fun p : DisjointSet × Nat => (disjointnessContributions ⟨p.2⟩ p.1.members : Multiset Contribution))
    (g := Term.disjointnessContributions)
    (fun p ts hp => rel_disjointnessContributions hix (d := ⟨p.2⟩) hp.1 hp.2) (rel_activeSets hix h hreads)
  rw [Multiset.coe_bind] at hnodes hsets
  rw [dueAll, contributionsDue, ← Multiset.coe_add, ← Multiset.coe_add, ← Multiset.map_coe, Multiset.add_assoc]
  exact (Multiset.rel_map.2 htold).add (hnodes.add hsets)

end Index

end ELOntology
