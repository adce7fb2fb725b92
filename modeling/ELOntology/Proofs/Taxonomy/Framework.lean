import ELOntology.Proofs.Index.History
import ELOntology.Proofs.Taxonomy.Assemble
import ELOntology.Proofs.Taxonomy.Audit

/-!
# What holds of the taxonomy of any workspace

A taxonomy is built from whatever the contexts have stored so far.  Before they are saturated, being included is neither
reflexive nor transitive: sets of equivalent classes overlap, and a class directly above another one may share its node,
be unsatisfiable or have no place.  The graph keeps its frame all the same: every class is a member somewhere, links are
mutual and lead to nodes (`Framed`).  So an audit can object to the sets and to the order only.

Key facts: `exists_member` (every class is a member somewhere), `mem_supers_iff_mem_subs` (links are mutual) and
`framed_build`.
-/

namespace ELOntology

namespace Taxonomy

/-- The frame of a taxonomy: each class of the index is a member of some node, links are mutual, and all places that the
taxonomy names are places of nodes. -/
structure Framed (t : Taxonomy) (ix : Index) : Prop where
  covers {id : ExprId} : id ∈ ix.classes → ∃ p < t.size, ix.iriOf id ∈ (t.node p).members
  linked (p q : Nat) : q ∈ (t.node p).supers ↔ p ∈ (t.node q).subs
  ranged : t.Ranged
  top_lt : t.top < t.size
  bottom_lt : t.bottom < t.size
  place_lt {m : String} {p : Nat} : t.place? m = some p → p < t.size

variable {ix : Index} {w : Workspace} {id x : ExprId} {p q : Nat}

/-! ### Nodes -/

/-- The top class is in a node of its own place, or in the bottom node. -/
theorem spot_lt_of_ne (h : spot ix w x ≠ bottomOf ix w) : spot ix w x < bottomOf ix w := by
  cases hplace : (layoutOf ix w).place? x with
  | none =>
    rw [spot, hplace] at h
    exact absurd rfl h
  | some p =>
    rw [spot, hplace]
    exact lt_bottomOf hplace

theorem node_inner (h : p < bottomOf ix w) :
    ∃ r, (layoutOf ix w).chosen[p]? = some r ∧ (assemble ix w).node p = innerNode ix w p r :=
  ⟨_, List.getElem?_eq_getElem h, node_assemble (getElem?_nodesOf (List.getElem?_eq_getElem h))⟩

theorem node_bottom (ix : Index) (w : Workspace) : (assemble ix w).node (bottomOf ix w) = bottomNode ix w :=
  node_assemble (getElem?_nodesOf_bottom ix w)

/-! ### Members -/

theorem iriOf_mem_bottomMembers (hnothing : ix.iriOf .nothing = owlNothing) {ids : List ExprId} (h : id ∈ ids) :
    ix.iriOf id ∈ bottomMembers ix ids := by
  rw [bottomMembers, List.mem_cons, mem_sortTexts, List.mem_map]
  by_cases e : id = .nothing
  · exact .inl (e ▸ hnothing)
  · exact .inr ⟨id, List.mem_filter.2 ⟨h, decide_eq_true e⟩, rfl⟩

/-- A satisfiable class is where the layout puts it, any other one in the bottom node. -/
theorem exists_member (hnothing : ix.iriOf .nothing = owlNothing) (h : id ∈ ix.classes) :
    ∃ p < (assemble ix w).size, ix.iriOf id ∈ ((assemble ix w).node p).members := by
  rw [size_assemble]
  by_cases hsat : (summarize ix w id).satisfiable = true
  · have hr : reductionOf ix w id ∈ reductions w (ix.classes.map (summarize ix w)) := by
      rw [reductions_eq]
      exact List.mem_map.2 ⟨id, List.mem_filter.2 ⟨h, hsat⟩, rfl⟩
    obtain ⟨p, hplace⟩ := (covers_layoutOf ix w).placed hr
    obtain ⟨r, hr, hmem⟩ := (covers_layoutOf ix w).listed hplace
    refine ⟨p, Nat.lt_succ_of_lt (lt_bottomOf hplace), ?_⟩
    rw [node_assemble (getElem?_nodesOf hr)]
    exact mem_sortMembers.2 (List.mem_map.2 ⟨id, hmem, rfl⟩)
  · refine ⟨bottomOf ix w, Nat.lt_succ_self _, ?_⟩
    rw [node_bottom]
    have hid := id_summarize ix w id
    refine iriOf_mem_bottomMembers hnothing (List.mem_map.2 ⟨summarize ix w id, List.mem_filter.2 ⟨?_, ?_⟩, hid⟩)
    · exact List.mem_map.2 ⟨id, h, rfl⟩
    · rw [Bool.eq_false_iff.2 hsat]
      rfl

/-! ### Links -/

/-- Links upwards lead to nodes that were laid out, never to the bottom node. -/
theorem lt_of_mem_superPlaces {r : Reduction}
    (h : q ∈ superPlaces (layoutOf ix w) (spot ix w .thing) (bottomOf ix w) p r) : q < bottomOf ix w := by
  unfold superPlaces at h
  dsimp only at h
  split at h <;> rename_i hcond
  · obtain rfl := List.mem_singleton.1 h
    simp only [Bool.and_eq_true, decide_eq_true_eq] at hcond
    exact spot_lt_of_ne hcond.2
  · rw [mem_distinct, mem_sortBy, List.mem_filter, List.mem_filterMap] at h
    obtain ⟨⟨x, -, hplace⟩, -⟩ := h
    exact lt_bottomOf hplace

theorem lt_of_mem_downward (h : p ∈ downward ix w q) : p < bottomOf ix w ∧ q < bottomOf ix w := by
  obtain ⟨r, hr, hq⟩ := mem_downward.1 h
  exact ⟨(List.getElem?_eq_some_iff.1 hr).1, lt_of_mem_superPlaces hq⟩

/-- The direct super-nodes of a node that was laid out are those that have it below them; the bottom node is directly
below the nodes with nothing else below them. -/
theorem mem_supers_assemble : q ∈ ((assemble ix w).node p).supers ↔
    p ∈ downward ix w q ∨ p = bottomOf ix w ∧ q < bottomOf ix w ∧ downward ix w q = [] := by
  rcases Nat.lt_trichotomy p (bottomOf ix w) with hp | rfl | hp
  · obtain ⟨r, hr, hnode⟩ := node_inner hp
    rw [hnode, mem_downward]
    constructor
    · exact fun hq => .inl ⟨r, hr, hq⟩
    · rintro (⟨r', hr', hq⟩ | ⟨e, -⟩)
      · rw [hr] at hr'
        obtain rfl := Option.some.inj hr'
        exact hq
      · exact absurd e (Nat.ne_of_lt hp)
  · rw [node_bottom, mem_supers_bottom_iff]
    constructor
    · exact fun hq => .inr ⟨rfl, hq⟩
    · rintro (hq | ⟨-, hq⟩)
      · exact absurd (lt_of_mem_downward hq).1 (Nat.lt_irrefl _)
      · exact hq
  · have hout : ¬ p < (assemble ix w).size := by
      rw [size_assemble]
      omega
    rw [node_of_not_lt hout]
    constructor
    · exact fun hq => absurd hq List.not_mem_nil
    · rintro (hq | ⟨e, -⟩)
      · exact absurd (lt_of_mem_downward hq).1 (Nat.lt_asymm hp)
      · exact absurd e (Nat.ne_of_gt hp)

theorem mem_subs_assemble : p ∈ ((assemble ix w).node q).subs ↔
    p ∈ downward ix w q ∨ p = bottomOf ix w ∧ q < bottomOf ix w ∧ downward ix w q = [] := by
  rcases Nat.lt_trichotomy q (bottomOf ix w) with hq | rfl | hq
  · obtain ⟨r, hr, hnode⟩ := node_inner hq
    rw [hnode, innerNode]
    dsimp only
    split <;> rename_i hempty
    · rw [List.isEmpty_iff] at hempty
      simp [hempty, hq]
    · rw [List.isEmpty_iff] at hempty
      simp [hempty]
  · rw [node_bottom]
    constructor
    · exact fun hp => absurd hp List.not_mem_nil
    · rintro (hp | ⟨-, hlt, -⟩)
      · exact absurd (lt_of_mem_downward hp).2 (Nat.lt_irrefl _)
      · exact absurd hlt (Nat.lt_irrefl _)
  · have hout : ¬ q < (assemble ix w).size := by
      rw [size_assemble]
      omega
    rw [node_of_not_lt hout]
    constructor
    · exact fun hp => absurd hp List.not_mem_nil
    · rintro (hp | ⟨-, hlt, -⟩)
      · exact absurd (lt_of_mem_downward hp).2 (Nat.lt_asymm hq)
      · exact absurd hlt (Nat.lt_asymm hq)

theorem mem_supers_iff_mem_subs (ix : Index) (w : Workspace) (p q : Nat) :
    q ∈ ((assemble ix w).node p).supers ↔ p ∈ ((assemble ix w).node q).subs :=
  mem_supers_assemble.trans mem_subs_assemble.symm

theorem ranged_assemble (ix : Index) (w : Workspace) : (assemble ix w).Ranged := by
  have hends {p q : Nat} (h : q ∈ ((assemble ix w).node p).supers) :
      p < (assemble ix w).size ∧ q < (assemble ix w).size :=
    ⟨lt_size_of_mem_supers h, lt_size_of_mem_subs ((mem_supers_iff_mem_subs ix w p q).1 h)⟩
  exact ⟨fun h => (hends h).2, fun h => (hends ((mem_supers_iff_mem_subs ix w _ _).2 h)).1⟩

/-! ### The table of classes -/

section Table

variable {t : Taxonomy} {m : String}

theorem mem_places (hplaces : t.places = t.memberships.reverse) : (m, p) ∈ t.places ↔ m ∈ (t.node p).members := by
  rw [hplaces, List.mem_reverse, mem_memberships]

theorem place_lt (hplaces : t.places = t.memberships.reverse) (h : t.place? m = some p) : p < t.size := by
  obtain ⟨entry, hfind, rfl⟩ := Option.map_eq_some_iff.1 h
  exact lt_size_of_mem_members ((mem_places hplaces).1 (List.mem_of_find?_eq_some hfind))

/-- Where no class is a member twice, the table that is made from the nodes has each member in its place. -/
theorem place?_of_nodup (hplaces : t.places = t.memberships.reverse)
    (hnodup : (t.nodes.toList.flatMap TaxonomyNode.members).Nodup) (hm : m ∈ (t.node p).members) :
    t.place? m = some p := by
  rw [← map_memberships] at hnodup
  refine (place?_eq_some_iff_mem fun {p q} hp hq => ?_).2 ((mem_places hplaces).2 hm)
  rw [hplaces, List.mem_reverse] at hp hq
  exact congrArg Prod.snd (List.inj_on_of_nodup_map hnodup hp hq rfl)

end Table

/-! ### The frame -/

theorem places_assemble (ix : Index) (w : Workspace) : (assemble ix w).places = (assemble ix w).memberships.reverse := by
  rw [assemble_eq, memberships]
  rfl

theorem framed_assemble (hnothing : ix.iriOf .nothing = owlNothing) (w : Workspace) : (assemble ix w).Framed ix where
  covers := exists_member hnothing
  linked := mem_supers_iff_mem_subs ix w
  ranged := ranged_assemble ix w
  top_lt := by
    rw [size_assemble]
    by_cases h : spot ix w .thing = bottomOf ix w
    · exact Nat.lt_succ_of_le (Nat.le_of_eq h)
    · exact Nat.lt_succ_of_lt (spot_lt_of_ne h)
  bottom_lt := by
    rw [size_assemble]
    exact Nat.lt_succ_self _
  place_lt := place_lt (places_assemble ix w)

theorem framed_collapsed (hnothing : ix.iriOf .nothing = owlNothing) : (collapsed ix).Framed ix := by
  have hnode (p : Nat) : ((collapsed ix).node p).supers = [] ∧ ((collapsed ix).node p).subs = [] := by
    cases p <;> exact ⟨rfl, rfl⟩
  refine ⟨fun h => ⟨0, Nat.one_pos, iriOf_mem_bottomMembers hnothing h⟩, fun p q => ?_, ⟨fun h => ?_, fun h => ?_⟩,
    Nat.one_pos, Nat.one_pos, place_lt rfl⟩
  · rw [(hnode p).1, (hnode q).2]
    exact iff_of_false List.not_mem_nil List.not_mem_nil
  · rw [(hnode _).1] at h
    cases h
  · rw [(hnode _).2] at h
    cases h

/-- What an audit can object to in a taxonomy that has its frame. -/
inductive Tolerated : TaxonomyError → Prop
  | duplicateMember (iri : String) : Tolerated (.duplicateMember iri)
  | cycle (node : String) : Tolerated (.cycle node)
  | redundantEdge (sub redundant via : String) : Tolerated (.redundantEdge sub redundant via)

theorem tolerated_of_checkReduction {t : Taxonomy} {e : TaxonomyError} (h : t.checkReduction = .error e) :
    Tolerated e := by
  unfold checkReduction at h
  split at h
  · cases h
    exact .cycle _
  · split at h <;> cases h
    exact .redundantEdge ..

/-- An audit of a taxonomy with its frame, and with the table that is made from its nodes, finds neither a missing class
nor a class that is looked up elsewhere nor a link that is not returned. -/
theorem Framed.tolerated {t : Taxonomy} (h : t.Framed ix) (hplaces : t.places = t.memberships.reverse) {e : TaxonomyError}
    (he : t.audit ix = .error e) : Tolerated e := by
  unfold audit at he
  by_cases hnodup : (t.nodes.toList.flatMap TaxonomyNode.members).Nodup
  · have hmembers : t.checkMembers ix = .ok () := checkMembers_eq_ok_iff.2
      ⟨hnodup, fun _ _ => place?_of_nodup hplaces hnodup, fun _ hid => (h.covers hid).imp fun _ hp => hp.2⟩
    have hlinks : t.checkLinks = .ok () := checkLinks_eq_ok_iff.2 h.linked
    rw [hmembers, hlinks] at he
    exact tolerated_of_checkReduction he
  · obtain ⟨iri, hmembers⟩ : ∃ iri, t.checkMembers ix = .error (.duplicateMember iri) := exists_duplicateMember hnodup
    rw [hmembers] at he
    cases he
    exact .duplicateMember iri

/-- Whatever the contexts of a workspace have stored, and whether or not the ontology is taken for inconsistent: the
taxonomy that is built for an index has each class of the index in some node, its links are mutual, and every place that
it names is that of a node.  An audit against the index can find nothing but a class that is a member twice, a cycle or a
redundant link. -/
theorem framed_build (calls : List Index.Call) (w : Workspace) (inconsistent : Bool) :
    (build (Index.after calls) w inconsistent).Framed (Index.after calls) ∧
      ∀ e, (build (Index.after calls) w inconsistent).audit (Index.after calls) = .error e → Tolerated e := by
  have hnothing : (Index.after calls).iriOf .nothing = owlNothing := (Index.accounts_after calls).tidy.iriOf_nothing
  unfold build
  cases inconsistent with
  | true =>
    have hframed := framed_collapsed hnothing
    exact ⟨hframed, fun _ he => hframed.tolerated rfl he⟩
  | false =>
    have hframed := framed_assemble hnothing w
    exact ⟨hframed, fun _ he => hframed.tolerated (places_assemble _ w) he⟩

end Taxonomy

end ELOntology
