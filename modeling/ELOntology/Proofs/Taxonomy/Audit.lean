import Mathlib.Logic.Relation
import ELOntology.Proofs.Graph.Reach
import ELOntology.Taxonomy.Audit

/-!
# What an audit decides

`WellFormed` says without any search what an audit looks for: a taxonomy that has each class of an index once, in the place
where it is looked up, with mutual links that are the transitive reduction of an order.

Key facts: `checkMembers_eq_ok_iff`, `checkLinks_eq_ok_iff` and `checkReduction_eq_ok_iff` (what each part of the audit
decides) and `audit_eq_ok_iff`, for every taxonomy whose links lead to nodes.
-/

namespace ELOntology

namespace Taxonomy

/-- The second node is a direct super-node of the first. -/
abbrev Up (t : Taxonomy) : Nat → Nat → Prop := Leads fun p => (t.node p).supers

/-- All links lead to nodes. -/
structure Ranged (t : Taxonomy) : Prop where
  supers {p q : Nat} : q ∈ (t.node p).supers → q < t.size
  subs {p q : Nat} : q ∈ (t.node p).subs → q < t.size

/-- The taxonomy is the reduced graph of an order on nodes, and has each class of the index in one place. -/
structure WellFormed (t : Taxonomy) (ix : Index) : Prop where
  /-- No class is a member twice, of one node or of two. -/
  nodup : (t.nodes.toList.flatMap TaxonomyNode.members).Nodup
  placed {p : Nat} {m : String} : m ∈ (t.node p).members → t.place? m = some p
  covers {id : ExprId} : id ∈ ix.classes → ∃ p, ix.iriOf id ∈ (t.node p).members
  linked {p q : Nat} : q ∈ (t.node p).supers ↔ p ∈ (t.node q).subs
  acyclic (p : Nat) : ¬ Relation.TransGen t.Up p p
  /-- No direct link is implied by another one and a path. -/
  reduced {p via redundant : Nat} : via ∈ (t.node p).supers → redundant ∈ (t.node p).supers → redundant ≠ via →
    ¬ Relation.ReflTransGen t.Up via redundant

variable {t : Taxonomy} {ix : Index} {p q : Nat}

/-! ### Nodes and their members -/

theorem node_eq_getElem (hp : p < t.nodes.size) : t.node p = t.nodes[p] := by
  rw [node, Array.getD_eq_getD_getElem?, Array.getElem?_eq_getElem hp]
  rfl

theorem node_of_not_lt (hp : ¬ p < t.size) : t.node p = ⟨[], [], []⟩ := by
  rw [node, Array.getD_eq_getD_getElem?, Array.getElem?_eq_none (Nat.le_of_not_lt hp)]
  rfl

theorem lt_size_of_mem_members {m : String} (h : m ∈ (t.node p).members) : p < t.size := by
  by_contra hp
  rw [node_of_not_lt hp] at h
  cases h

theorem lt_size_of_mem_supers (h : q ∈ (t.node p).supers) : p < t.size := by
  by_contra hp
  rw [node_of_not_lt hp] at h
  cases h

theorem lt_size_of_mem_subs (h : q ∈ (t.node p).subs) : p < t.size := by
  by_contra hp
  rw [node_of_not_lt hp] at h
  cases h

theorem ranged_iff : t.Ranged ↔
    ∀ p < t.size, (∀ q ∈ (t.node p).supers, q < t.size) ∧ ∀ q ∈ (t.node p).subs, q < t.size :=
  ⟨fun h _ _ => ⟨fun _ => h.supers, fun _ => h.subs⟩, fun h =>
    ⟨fun hq => (h _ (lt_size_of_mem_supers hq)).1 _ hq, fun hq => (h _ (lt_size_of_mem_subs hq)).2 _ hq⟩⟩

instance : Decidable t.Ranged := decidable_of_iff _ ranged_iff.symm

theorem mem_memberships {m : String} : (m, p) ∈ t.memberships ↔ m ∈ (t.node p).members := by
  rw [memberships, List.mem_flatMap]
  constructor
  · rintro ⟨⟨node, place⟩, hnode, hmem⟩
    obtain ⟨m, hm, e⟩ := List.mem_map.1 hmem
    cases e
    obtain ⟨hlt, rfl⟩ := List.getElem?_eq_some_iff.1 (List.mk_mem_zipIdx_iff_getElem?.1 hnode)
    rw [Array.length_toList] at hlt
    rw [node_eq_getElem hlt]
    exact hm
  · intro hm
    have hlt : p < t.nodes.size := lt_size_of_mem_members hm
    rw [node_eq_getElem hlt] at hm
    refine ⟨(t.nodes[p], p), ?_, List.mem_map.2 ⟨m, hm, rfl⟩⟩
    rw [List.mk_mem_zipIdx_iff_getElem?, Array.getElem?_toList]
    exact Array.getElem?_eq_getElem hlt

theorem map_memberships (t : Taxonomy) : t.memberships.map (·.1) = t.nodes.toList.flatMap TaxonomyNode.members := by
  have hpair (node : TaxonomyNode) (p : Nat) :
      (node.members.map fun m => (m, p)).map (·.1) = node.members := by
    rw [List.map_map]
    exact List.map_id _
  rw [memberships, List.map_flatMap, ← List.zipIdx_map_fst 0 t.nodes.toList, List.flatMap_map, List.zipIdx_map_fst]
  exact List.flatMap_congr fun entry _ => hpair entry.1 entry.2

private theorem firstRepeated?_eq_none_iff {seen names : List String} :
    firstRepeated? seen names = none ↔ names.Nodup ∧ ∀ name ∈ names, name ∉ seen := by
  induction names generalizing seen with
  | nil => simp [firstRepeated?]
  | cons name names ih =>
    rw [firstRepeated?, List.nodup_cons, List.forall_mem_cons]
    split <;> rename_i hseen
    · exact ⟨nofun, fun h => absurd hseen h.2.1⟩
    · rw [ih]
      -- what has been seen from now on is the name as well
      simp only [List.mem_cons, not_or]
      constructor
      · rintro ⟨hnodup, hnew⟩
        exact ⟨⟨fun hname => (hnew name hname).1 rfl, hnodup⟩, hseen, fun other hother => (hnew other hother).2⟩
      · rintro ⟨⟨hname, hnodup⟩, -, hnew⟩
        exact ⟨hnodup, fun other hother => ⟨fun e => hname (e ▸ hother), hnew other hother⟩⟩

/-- The members pass if each class of the index is a member of one node, and is found there. -/
theorem checkMembers_eq_ok_iff : t.checkMembers ix = .ok () ↔
    (t.nodes.toList.flatMap TaxonomyNode.members).Nodup ∧
    (∀ p m, m ∈ (t.node p).members → t.place? m = some p) ∧
    ∀ id ∈ ix.classes, ∃ p, ix.iriOf id ∈ (t.node p).members := by
  have hrepeated : firstRepeated? [] (t.memberships.map (·.1)) = none ↔
      (t.nodes.toList.flatMap TaxonomyNode.members).Nodup := by
    rw [firstRepeated?_eq_none_iff, map_memberships]
    exact and_iff_left fun _ _ => List.not_mem_nil
  have hlookup {misplaced : String × Nat → Bool}
      (h : ∀ entry, misplaced entry = decide (t.place? entry.1 ≠ some entry.2)) :
      t.memberships.find? misplaced = none ↔ ∀ p m, m ∈ (t.node p).members → t.place? m = some p := by
    simp only [List.find?_eq_none, h, decide_eq_true_eq, not_not]
    constructor
    · exact fun h p m hm => h (m, p) (mem_memberships.2 hm)
    · exact fun h entry hentry => h entry.2 entry.1 (mem_memberships.1 hentry)
  have hmissing : ((ix.classes.map ix.iriOf).find? fun iri => iri ∉ t.memberships.map (·.1)) = none ↔
      ∀ id ∈ ix.classes, ∃ p, ix.iriOf id ∈ (t.node p).members := by
    rw [List.find?_eq_none, List.forall_mem_map]
    refine forall₂_congr fun id _ => ?_
    simp only [decide_eq_true_eq, Classical.not_not, List.mem_map, Prod.exists, mem_memberships, exists_and_right,
      exists_eq_right]
  rw [← hrepeated, ← hmissing]
  unfold checkMembers
  dsimp only
  cases firstRepeated? [] (t.memberships.map (·.1)) with
  | some iri => simp
  | none =>
    dsimp only
    split <;> rename_i hfound
    · refine ⟨nofun, fun h => ?_⟩
      rw [(hlookup fun _ => rfl).2 h.2.1] at hfound
      cases hfound
    · rw [and_iff_right rfl, and_iff_right ((hlookup fun _ => rfl).1 hfound)]
      cases (ix.classes.map ix.iriOf).find? fun iri => iri ∉ t.memberships.map (·.1) <;> simp

/-- A repeated member is what the check of the members finds first. -/
theorem exists_duplicateMember (h : ¬ (t.nodes.toList.flatMap TaxonomyNode.members).Nodup) :
    ∃ iri, t.checkMembers ix = .error (.duplicateMember iri) := by
  cases hfound : firstRepeated? [] (t.memberships.map (·.1)) with
  | none =>
    have hnodup := (firstRepeated?_eq_none_iff.1 hfound).1
    rw [map_memberships] at hnodup
    exact absurd hnodup h
  | some iri =>
    refine ⟨iri, ?_⟩
    unfold checkMembers
    dsimp only
    rw [hfound]

/-! ### Links -/

/-- The links pass if they are mutual. -/
theorem checkLinks_eq_ok_iff : t.checkLinks = .ok () ↔ ∀ p q, q ∈ (t.node p).supers ↔ p ∈ (t.node q).subs := by
  have hone (p : Nat) : t.oneSided p = [] ↔
      (∀ q ∈ (t.node p).supers, p ∈ (t.node q).subs) ∧ ∀ q ∈ (t.node p).subs, p ∈ (t.node q).supers := by
    simp [oneSided, List.filter_eq_nil_iff]
  have hall : (t.allPlaces.flatMap fun place => (t.oneSided place).map fun other => (place, other)) = [] ↔
      ∀ p < t.size, t.oneSided p = [] := by
    simp [allPlaces, List.flatMap_eq_nil_iff]
  have hcheck : t.checkLinks = .ok () ↔ ∀ p < t.size, t.oneSided p = [] := by
    rw [← hall]
    unfold checkLinks
    cases t.allPlaces.flatMap fun place => (t.oneSided place).map fun other => (place, other) <;> simp
  rw [hcheck]
  constructor
  · intro hmutual p q
    constructor
    · exact fun hq => ((hone p).1 (hmutual p (lt_size_of_mem_supers hq))).1 q hq
    · exact fun hp => ((hone q).1 (hmutual q (lt_size_of_mem_subs hp))).2 p hp
  · exact fun hmutual p _ => (hone p).2 ⟨fun q => (hmutual p q).1, fun q => (hmutual q p).2⟩

/-- Where links lead to nodes, the search of the audit finds a path up if there is one. -/
theorem leadsTo_iff (h : t.Ranged) (hp : p < t.size) :
    t.leadsTo p q = true ↔ Relation.ReflTransGen t.Up p q := by
  rw [leadsTo, decide_eq_true_iff]
  exact mem_reach_iff (List.range t.size) (List.mem_range.2 hp) (fun _ _ _ hq => List.mem_range.2 (h.supers hq))
    (Nat.le_of_eq List.length_range)

private theorem onCycle_iff (h : t.Ranged) : t.onCycle p = true ↔ Relation.TransGen t.Up p p := by
  rw [onCycle, List.any_eq_true, Relation.TransGen.head'_iff]
  exact exists_congr fun q => and_congr_right fun hq => leadsTo_iff h (h.supers hq)

private theorem impliedLinks_eq_nil_iff (h : t.Ranged) : t.impliedLinks p = [] ↔ ∀ via ∈ (t.node p).supers,
    ∀ redundant ∈ (t.node p).supers, redundant ≠ via → ¬ Relation.ReflTransGen t.Up via redundant := by
  rw [impliedLinks, List.flatMap_eq_nil_iff]
  refine forall₂_congr fun via hvia => ?_
  rw [List.map_eq_nil_iff, List.filter_eq_nil_iff]
  refine forall₂_congr fun redundant _ => ?_
  rw [Bool.and_eq_true, decide_eq_true_iff, leadsTo_iff h (h.supers hvia), not_and]

/-- The links are reduced if there is no cycle and no node with two direct super-nodes one of which is above the other. -/
theorem checkReduction_eq_ok_iff (h : t.Ranged) : t.checkReduction = .ok () ↔
    (∀ p, ¬ Relation.TransGen t.Up p p) ∧
    ∀ p, ∀ via ∈ (t.node p).supers, ∀ redundant ∈ (t.node p).supers, redundant ≠ via →
      ¬ Relation.ReflTransGen t.Up via redundant := by
  -- only nodes have links
  have hcycle : t.allPlaces.find? t.onCycle = none ↔ ∀ p, ¬ Relation.TransGen t.Up p p := by
    rw [List.find?_eq_none]
    constructor
    · intro hnone p hpath
      obtain ⟨q, hq, -⟩ := Relation.TransGen.head'_iff.1 hpath
      exact hnone p (List.mem_range.2 (lt_size_of_mem_supers hq)) ((onCycle_iff h).2 hpath)
    · exact fun hnone p _ hp => hnone p ((onCycle_iff h).1 hp)
  have himplied : (t.allPlaces.flatMap fun place => (t.impliedLinks place).map fun link => (place, link)) = [] ↔
      ∀ p, ∀ via ∈ (t.node p).supers, ∀ redundant ∈ (t.node p).supers, redundant ≠ via →
        ¬ Relation.ReflTransGen t.Up via redundant := by
    rw [List.flatMap_eq_nil_iff]
    constructor
    · intro hnil p via hvia
      have hp := hnil p (List.mem_range.2 (lt_size_of_mem_supers hvia))
      exact (impliedLinks_eq_nil_iff h).1 (List.map_eq_nil_iff.1 hp) via hvia
    · intro hreduced p _
      rw [(impliedLinks_eq_nil_iff h).2 (hreduced p), List.map_nil]
  rw [← hcycle, ← himplied]
  unfold checkReduction
  cases t.allPlaces.find? t.onCycle with
  | some place => simp
  | none => cases t.allPlaces.flatMap fun place => (t.impliedLinks place).map fun link => (place, link) <;> simp

/-! ### The audit -/

/-- An audit passes if all of its parts do. -/
theorem audit_eq_ok_iff_checks : t.audit ix = .ok () ↔
    t.checkMembers ix = .ok () ∧ t.checkLinks = .ok () ∧ t.checkReduction = .ok () := by
  unfold audit
  cases t.checkMembers ix with
  | error e => exact ⟨nofun, nofun⟩
  | ok =>
    cases t.checkLinks with
    | error e => exact ⟨nofun, nofun⟩
    | ok => exact ⟨fun h => ⟨rfl, rfl, h⟩, fun h => h.2.2⟩

/-- An audit decides well-formedness.  A taxonomy whose links lead to nodes passes the audit against an index just if no
name is a member twice, each member is looked up where it is, each class of the index is a member, the links are mutual,
no path of direct links returns to its start, and no direct super-node of a node is reached from another one. -/
theorem audit_eq_ok_iff (h : t.Ranged) : t.audit ix = .ok () ↔ t.WellFormed ix := by
  rw [audit_eq_ok_iff_checks, checkMembers_eq_ok_iff, checkLinks_eq_ok_iff, checkReduction_eq_ok_iff h]
  constructor
  · rintro ⟨⟨hnodup, hplaced, hcovers⟩, hlinked, hacyclic, hreduced⟩
    exact ⟨hnodup, hplaced _ _, hcovers _, hlinked _ _, hacyclic, fun hvia hredundant => hreduced _ _ hvia _ hredundant⟩
  · intro hwell
    exact ⟨⟨hwell.nodup, fun _ _ => hwell.placed, fun _ => hwell.covers⟩, fun _ _ => hwell.linked, hwell.acyclic,
      fun _ _ hvia _ hredundant => hwell.reduced hvia hredundant⟩

/-- Three nodes in a chain, the lowest perhaps with a direct link to the highest. -/
private def chain (shortcut : Bool) : Taxonomy where
  nodes := #[⟨[owlThing], [], if shortcut then [1, 2] else [1]⟩, ⟨["A"], [0], [2]⟩,
    ⟨[owlNothing], if shortcut then [1, 0] else [1], []⟩]
  places := [(owlThing, 0), ("A", 1), (owlNothing, 2)]
  top := 0
  bottom := 2

/-- A chain of three nodes is well formed, and it is not with a direct link from the lowest to the highest. -/
theorem audit_eq_ok_iff_chain : (∀ shortcut, (chain shortcut).Ranged) ∧ (chain false).WellFormed .empty ∧
    ¬ (chain true).WellFormed .empty := by
  have hranged (shortcut : Bool) : (chain shortcut).Ranged := by cases shortcut <;> decide
  have haudit : (chain false).audit .empty = .ok () ∧ (chain true).audit .empty ≠ .ok () := by decide +kernel
  exact ⟨hranged, (audit_eq_ok_iff (hranged false)).1 haudit.1, fun h => haudit.2 ((audit_eq_ok_iff (hranged true)).2 h)⟩

end Taxonomy

end ELOntology
