import ELOntology.Proofs.Taxonomy.Drawing
import ELOntology.Proofs.Taxonomy.Spots

/-!
# Putting the taxonomy together

One node is made for each place, and the links are the covering pairs of inclusion: those that the reductions name, and
those from the bottom node to the leaves.

Key fact: `draws_assemble` (the taxonomy of a consistent ontology draws the inclusions between its classes).
-/

namespace ELOntology

namespace Taxonomy

variable {ix : Index} {w : Workspace} {a b x : ExprId} {p q : Nat}

/-! ### The nodes -/

/-- The places directly above each node of the layout. -/
def upward (ix : Index) (w : Workspace) : List (List Nat) :=
  (layoutOf ix w).chosen.zipIdx.map fun entry =>
    superPlaces (layoutOf ix w) (spot ix w .thing) (bottomOf ix w) entry.2 entry.1

/-- The places directly below a node of the layout, save for the bottom node. -/
def downward (ix : Index) (w : Workspace) (p : Nat) : List Nat := linkedTo p (upward ix w).zipIdx

/-- The node of a reduction. -/
def innerNode (ix : Index) (w : Workspace) (p : Nat) (r : Reduction) : TaxonomyNode where
  members := sortMembers (r.equivalents.map ix.iriOf)
  supers := superPlaces (layoutOf ix w) (spot ix w .thing) (bottomOf ix w) p r
  subs := if (downward ix w p).isEmpty then [bottomOf ix w] else downward ix w p

/-- The node of the unsatisfiable classes. -/
def bottomNode (ix : Index) (w : Workspace) : TaxonomyNode where
  members := bottomMembers ix (((ix.classes.map (summarize ix w)).filter fun s => !s.satisfiable).map (·.id))
  supers := ((List.range (bottomOf ix w)).map (downward ix w)).zipIdx.filterMap fun entry =>
    if entry.1.isEmpty then some entry.2 else none
  subs := []

/-- All nodes, the bottom node last. -/
def nodesOf (ix : Index) (w : Workspace) : List TaxonomyNode :=
  ((layoutOf ix w).chosen.zip ((upward ix w).zip ((List.range (bottomOf ix w)).map (downward ix w)))).map
    (fun entry => ⟨sortMembers (entry.1.equivalents.map ix.iriOf), entry.2.1,
      if entry.2.2.isEmpty then [bottomOf ix w] else entry.2.2⟩) ++ [bottomNode ix w]

theorem assemble_eq : assemble ix w =
    ⟨(nodesOf ix w).toArray, placesOf (nodesOf ix w), spot ix w .thing, bottomOf ix w⟩ := rfl

theorem getElem?_upward (ix : Index) (w : Workspace) (p : Nat) : (upward ix w)[p]? = (layoutOf ix w).chosen[p]?.map
    (superPlaces (layoutOf ix w) (spot ix w .thing) (bottomOf ix w) p) := by
  rw [upward, List.getElem?_map, List.getElem?_zipIdx, Option.map_map, Nat.zero_add]
  rfl

theorem length_nodesOf (ix : Index) (w : Workspace) : (nodesOf ix w).length = bottomOf ix w + 1 := by
  simp [nodesOf, upward, bottomOf]

theorem getElem?_nodesOf {r : Reduction} (hr : (layoutOf ix w).chosen[p]? = some r) :
    (nodesOf ix w)[p]? = some (innerNode ix w p r) := by
  have hlt : p < bottomOf ix w := (List.getElem?_eq_some_iff.1 hr).1
  have hup := getElem?_upward ix w p
  rw [hr, Option.map_some] at hup
  have hdown : ((List.range (bottomOf ix w)).map (downward ix w))[p]? = some (downward ix w p) := by
    rw [List.getElem?_map, List.getElem?_range hlt]
    rfl
  have hzip : ((layoutOf ix w).chosen.zip ((upward ix w).zip ((List.range (bottomOf ix w)).map (downward ix w))))[p]? =
      some (r, _, downward ix w p) :=
    List.getElem?_zip_eq_some.2 ⟨hr, List.getElem?_zip_eq_some.2 ⟨hup, hdown⟩⟩
  rw [nodesOf, List.getElem?_append_left, List.getElem?_map, hzip]
  · rfl
  · rw [List.length_map]
    exact (List.getElem?_eq_some_iff.1 hzip).1

theorem getElem?_nodesOf_bottom (ix : Index) (w : Workspace) : (nodesOf ix w)[bottomOf ix w]? = some (bottomNode ix w) := by
  have hlength : (((layoutOf ix w).chosen.zip ((upward ix w).zip ((List.range (bottomOf ix w)).map (downward ix w)))).map
      (fun entry => (⟨sortMembers (entry.1.equivalents.map ix.iriOf), entry.2.1,
        if entry.2.2.isEmpty then [bottomOf ix w] else entry.2.2⟩ : TaxonomyNode))).length = bottomOf ix w := by
    simp [upward, bottomOf]
  rw [nodesOf, List.getElem?_append_right (Nat.le_of_eq hlength), hlength, Nat.sub_self]
  rfl

theorem size_assemble (ix : Index) (w : Workspace) : (assemble ix w).size = bottomOf ix w + 1 := by
  rw [assemble_eq, size, List.size_toArray, length_nodesOf]

theorem node_assemble {node : TaxonomyNode} (h : (nodesOf ix w)[p]? = some node) :
    (assemble ix w).node p = node := by
  rw [assemble_eq, Taxonomy.node, Array.getD_eq_getD_getElem?, List.getElem?_toArray, h]
  rfl

/-! ### Members -/

theorem perm_sortMembers (names : List String) : (sortMembers names).Perm names := by
  unfold sortMembers
  dsimp only
  split <;> rename_i hthing
  · exact (List.perm_cons_erase hthing).symm.trans (sortBy_perm _ names)
  · exact sortBy_perm _ names

theorem mem_sortMembers {names : List String} {s : String} : s ∈ sortMembers names ↔ s ∈ names :=
  (perm_sortMembers names).mem_iff

theorem mem_bottomMembers {ids : List ExprId} {s : String} (hix : ix.Tidy) (hnothing : .nothing ∈ ids) :
    s ∈ bottomMembers ix ids ↔ ∃ id ∈ ids, ix.iriOf id = s := by
  have hname := hix.iriOf_nothing
  rw [bottomMembers, List.mem_cons, mem_sortTexts, List.mem_map]
  constructor
  · rintro (rfl | ⟨id, hid, rfl⟩)
    · exact ⟨.nothing, hnothing, hname⟩
    · exact ⟨id, (List.mem_filter.1 hid).1, rfl⟩
  · rintro ⟨id, hid, rfl⟩
    by_cases e : id = .nothing
    · exact .inl (e ▸ hname)
    · exact .inr ⟨id, List.mem_filter.2 ⟨hid, decide_eq_true e⟩, rfl⟩

theorem unsatisfiable_eq (h : Answers ix w) :
    ((ix.classes.map (summarize ix w)).filter fun s => !s.satisfiable).map (·.id) =
      ix.classes.filter fun a => w.isUnsatisfiable a := by
  have hid : (fun s : ClassSummary => s.id) ∘ summarize ix w = id := by
    funext a
    unfold summarize
    simp only [Function.comp_apply]
    split <;> rfl
  rw [List.filter_map, List.map_map, hid, List.map_id]
  refine List.filter_congr fun a ha => ?_
  rw [Function.comp_apply, satisfiable_summarize h ha, Bool.not_not]

theorem mem_unsatisfiable_iff (h : Answers ix w) :
    x ∈ ((ix.classes.map (summarize ix w)).filter fun s => !s.satisfiable).map (·.id) ↔
      x ∈ ix.classes ∧ w.isUnsatisfiable x = true := by
  rw [unsatisfiable_eq h, List.mem_filter]

/-- The members of a node are the names of the classes with its place as their spot. -/
theorem mem_members_iff (hix : ix.Tidy) (h : Answers ix w) (hp : p < (assemble ix w).size) {s : String} :
    s ∈ ((assemble ix w).node p).members ↔ ∃ a : ix.Class, spot ix w a = p ∧ a.iri = s := by
  rw [size_assemble] at hp
  by_cases hlt : p < bottomOf ix w
  · obtain ⟨r, hr⟩ : ∃ r, (layoutOf ix w).chosen[p]? = some r := ⟨_, List.getElem?_eq_getElem hlt⟩
    rw [node_assemble (getElem?_nodesOf hr)]
    obtain ⟨a, hsat, rfl, ha⟩ := exists_of_chosen h hr
    have hspot := ((place?_eq_some_iff h).1 ha).2
    have hmem : s ∈ (innerNode ix w p (reductionOf ix w a)).members ↔
        s ∈ (reductionOf ix w a).equivalents.map ix.iriOf := mem_sortMembers
    rw [hmem, List.mem_map]
    constructor
    · rintro ⟨x, hx, rfl⟩
      obtain ⟨hx, hax, hxa⟩ := (mem_equivalents_iff h a.2 hsat).1 hx
      exact ⟨⟨x, hx⟩, ((spot_eq_iff h (a := a) (b := ⟨x, hx⟩)).2 ⟨hax, hxa⟩).trans hspot, rfl⟩
    · rintro ⟨x, hx, rfl⟩
      exact ⟨x, (mem_equivalents_iff h a.2 hsat).2 ⟨x.2, (spot_eq_iff h).1 (hx.trans hspot.symm)⟩, rfl⟩
  · obtain rfl : p = bottomOf ix w := by omega
    have hnothing := (mem_unsatisfiable_iff h).2 ⟨hix.nothing_mem_classes, h.nothing⟩
    have hmem := mem_bottomMembers hix hnothing (s := s)
    rw [node_assemble (getElem?_nodesOf_bottom ix w)]
    refine hmem.trans ?_
    constructor
    · rintro ⟨x, hx, rfl⟩
      obtain ⟨hx, hempty⟩ := (mem_unsatisfiable_iff h).1 hx
      exact ⟨⟨x, hx⟩, (spot_eq_bottomOf_iff h (a := ⟨x, hx⟩)).2 hempty, rfl⟩
    · rintro ⟨x, hx, rfl⟩
      exact ⟨x, (mem_unsatisfiable_iff h).2 ⟨x.2, (spot_eq_bottomOf_iff h).1 hx⟩, rfl⟩

/-! ### Links -/

private theorem mem_found_iff (h : Answers ix w) {a : ix.Class} (hsat : w.isUnsatisfiable a = false) :
    q ∈ distinct (sortBy (fun a b => decide (a ≤ b))
      (((reductionOf ix w a).direct.filterMap (layoutOf ix w).place?).filter (· ≠ spot ix w a))) ↔
      ∃ b : ix.Class, Covers (Below ix w) a b ∧ spot ix w b = q := by
  rw [mem_distinct, mem_sortBy, List.mem_filter, List.mem_filterMap]
  constructor
  · rintro ⟨⟨x, hx, hq⟩, -⟩
    have hmem : x ∈ ix.classes := by
      rw [reductionOf, mem_reduce_direct, mem_supers_summarize h a.2] at hx
      exact hx.1.1
    exact ⟨⟨x, hmem⟩, (mem_direct_iff h (b := ⟨x, hmem⟩) hsat).1 hx, ((place?_eq_some_iff h (a := ⟨x, hmem⟩)).1 hq).2⟩
  · rintro ⟨b, hcover, rfl⟩
    have hsatb := h.satisfiable_of_includes a.2 b.2 hsat hcover.1.1
    refine ⟨⟨b, (mem_direct_iff h hsat).2 hcover, (place?_eq_some_iff h).2 ⟨hsatb, rfl⟩⟩, decide_eq_true fun e => ?_⟩
    exact hcover.1.2 ((spot_eq_iff h).1 e).2

/-- A satisfiable class other than the top class has something directly above it, so links lead where reductions say. -/
theorem mem_superPlaces_iff (hix : ix.Tidy) (h : Answers ix w) {a : ix.Class} (hsat : w.isUnsatisfiable a = false) :
    q ∈ superPlaces (layoutOf ix w) (spot ix w .thing) (bottomOf ix w) (spot ix w a) (reductionOf ix w a) ↔
      ∃ b : ix.Class, Covers (Below ix w) a b ∧ spot ix w b = q := by
  rw [← mem_found_iff h hsat]
  unfold superPlaces
  dsimp only
  split <;> rename_i hempty
  · -- nothing was found, so nothing is strictly above the class, which is equivalent to the top class
    simp only [Bool.and_eq_true, decide_eq_true_eq, List.isEmpty_iff] at hempty
    obtain ⟨⟨hnone, htop⟩, -⟩ := hempty
    exfalso
    have hbelow : Below ix w a ⟨.thing, hix.thing_mem_classes⟩ := h.includes_thing a.2
    by_cases hback : Below ix w ⟨.thing, hix.thing_mem_classes⟩ a
    · exact htop ((spot_eq_iff h).2 ⟨hback, hbelow⟩)
    · obtain ⟨b, hcover, -⟩ := exists_covers_le (below_trans h) (below_refl h) ⟨hbelow, hback⟩
      have hmem := (mem_found_iff h hsat).2 ⟨b, hcover, rfl⟩
      rw [hnone] at hmem
      cases hmem
  · exact Iff.rfl

/-- At the spot of a satisfiable class stands the reduction of an equivalent one. -/
theorem exists_chosen (h : Answers ix w) {a : ix.Class} (hsat : w.isUnsatisfiable a = false) :
    ∃ b : ix.Class, (layoutOf ix w).chosen[spot ix w a]? = some (reductionOf ix w b) ∧ w.isUnsatisfiable b = false ∧
      spot ix w b = spot ix w a := by
  have hplace := (place?_eq_some_iff h (a := a)).2 ⟨hsat, rfl⟩
  obtain ⟨r, hr⟩ : ∃ r, (layoutOf ix w).chosen[spot ix w a]? = some r :=
    ⟨_, List.getElem?_eq_getElem (lt_bottomOf hplace)⟩
  obtain ⟨b, hsatb, rfl, hb⟩ := exists_of_chosen h hr
  exact ⟨b, hr, hsatb, ((place?_eq_some_iff h).1 hb).2⟩

theorem covers_of_spot_eq (h : Answers ix w) {a a' b b' : ix.Class} (ha : spot ix w a = spot ix w a')
    (hb : spot ix w b = spot ix w b') (hcover : Covers (Below ix w) a b) : Covers (Below ix w) a' b' :=
  hcover.congr (below_trans h) ((spot_eq_iff h).1 ha.symm) ((spot_eq_iff h).1 hb.symm)

theorem mem_supers_inner_iff (hix : ix.Tidy) (h : Answers ix w) {a : ix.Class} (hsat : w.isUnsatisfiable a = false) :
    q ∈ ((assemble ix w).node (spot ix w a)).supers ↔ ∃ b : ix.Class, Covers (Below ix w) a b ∧ spot ix w b = q := by
  obtain ⟨a', hr, hsat', hspot⟩ := exists_chosen h hsat
  have hmem := mem_superPlaces_iff hix h (q := q) hsat'
  rw [hspot] at hmem
  rw [node_assemble (getElem?_nodesOf hr)]
  refine hmem.trans (exists_congr fun b => and_congr_left' ⟨?_, ?_⟩)
  · exact covers_of_spot_eq h hspot rfl
  · exact covers_of_spot_eq h hspot.symm rfl

/-- Below a node are the places from which a link leads up to it. -/
theorem mem_downward : p ∈ downward ix w q ↔ ∃ r, (layoutOf ix w).chosen[p]? = some r ∧
    q ∈ superPlaces (layoutOf ix w) (spot ix w .thing) (bottomOf ix w) p r := by
  rw [downward, linkedTo, List.mem_filterMap]
  constructor
  · rintro ⟨⟨above, i⟩, hmem, hif⟩
    dsimp only at hif
    split at hif <;> cases hif
    rename_i hq
    have hup := List.mk_mem_zipIdx_iff_getElem?.1 hmem
    rw [getElem?_upward, Option.map_eq_some_iff] at hup
    obtain ⟨r, hr, rfl⟩ := hup
    exact ⟨r, hr, hq⟩
  · rintro ⟨r, hr, hq⟩
    have hup := getElem?_upward ix w p
    rw [hr, Option.map_some] at hup
    exact ⟨(_, p), List.mk_mem_zipIdx_iff_getElem?.2 hup, if_pos hq⟩

/-- Below a node are, save for the bottom node, the satisfiable classes that it covers. -/
theorem mem_downward_iff (hix : ix.Tidy) (h : Answers ix w) {b : ix.Class} :
    p ∈ downward ix w (spot ix w b) ↔
      ∃ a : ix.Class, w.isUnsatisfiable a = false ∧ spot ix w a = p ∧ Covers (Below ix w) a b := by
  rw [mem_downward]
  constructor
  · rintro ⟨r, hr, hb⟩
    obtain ⟨a, hsat, rfl, ha⟩ := exists_of_chosen h hr
    obtain ⟨-, rfl⟩ := (place?_eq_some_iff h).1 ha
    obtain ⟨b', hcover, hb'⟩ := (mem_superPlaces_iff hix h hsat).1 hb
    exact ⟨a, hsat, rfl, covers_of_spot_eq h rfl hb' hcover⟩
  · rintro ⟨a, hsat, rfl, hcover⟩
    obtain ⟨a', hr, hsat', hspot⟩ := exists_chosen h hsat
    refine ⟨_, hr, ?_⟩
    rw [← hspot]
    exact (mem_superPlaces_iff hix h hsat').2 ⟨b, covers_of_spot_eq h hspot.symm rfl hcover, rfl⟩

/-- A leaf is what covers the unsatisfiable classes. -/
theorem downward_eq_nil_iff (hix : ix.Tidy) (h : Answers ix w) {a b : ix.Class} (hempty : w.isUnsatisfiable a = true)
    (hsat : w.isUnsatisfiable b = false) : downward ix w (spot ix w b) = [] ↔ Covers (Below ix w) a b := by
  have hstrict {c : ix.Class} (hc : w.isUnsatisfiable c = false) : Strict (Below ix w) a c :=
    ⟨.inl hempty, fun hca => by
      have := h.satisfiable_of_includes c.2 a.2 hc hca
      rw [hempty] at this
      cases this⟩
  rw [List.eq_nil_iff_forall_not_mem]
  constructor
  · refine fun hnone => ⟨hstrict hsat, fun c hac hcb => ?_⟩
    have hsatc : w.isUnsatisfiable c = false := Bool.eq_false_iff.2 fun hc => hac.2 (.inl hc)
    obtain ⟨d, hcd, hcover⟩ := exists_le_covers (below_trans h) (below_refl h) hcb
    have hsatd := h.satisfiable_of_includes c.2 d.2 hsatc hcd
    exact hnone _ ((mem_downward_iff hix h).2 ⟨d, hsatd, rfl, hcover⟩)
  · intro hcover p hp
    obtain ⟨c, hsatc, -, hcb⟩ := (mem_downward_iff hix h).1 hp
    exact hcover.2 c (hstrict hsatc) hcb.1

theorem mem_supers_bottom_iff : p ∈ (bottomNode ix w).supers ↔ p < bottomOf ix w ∧ downward ix w p = [] := by
  rw [bottomNode, List.mem_filterMap]
  constructor
  · rintro ⟨⟨below, i⟩, hmem, hif⟩
    dsimp only at hif
    split at hif <;> cases hif
    rename_i hnil
    have hget := List.mk_mem_zipIdx_iff_getElem?.1 hmem
    rw [List.getElem?_map, Option.map_eq_some_iff] at hget
    obtain ⟨j, hj, rfl⟩ := hget
    obtain ⟨hlt, e⟩ := List.getElem?_eq_some_iff.1 hj
    rw [List.getElem_range] at e
    rw [List.length_range] at hlt
    subst e
    exact ⟨hlt, List.isEmpty_iff.1 hnil⟩
  · rintro ⟨hlt, hnil⟩
    refine ⟨([], p), List.mk_mem_zipIdx_iff_getElem?.2 ?_, rfl⟩
    rw [List.getElem?_map, List.getElem?_range hlt, Option.map_some, hnil]

/-- A node lies directly below the nodes that cover it. -/
theorem mem_subs_iff (hix : ix.Tidy) (h : Answers ix w) {a b : ix.Class} :
    spot ix w a ∈ ((assemble ix w).node (spot ix w b)).subs ↔ Covers (Below ix w) a b := by
  by_cases hb : w.isUnsatisfiable b = true
  · rw [(spot_eq_bottomOf_iff h).2 hb, node_assemble (getElem?_nodesOf_bottom ix w)]
    exact ⟨fun hmem => absurd hmem List.not_mem_nil, fun hcover => absurd (.inl hb) hcover.1.2⟩
  · have hsatb := Bool.eq_false_iff.2 hb
    obtain ⟨b', hr, -, -⟩ := exists_chosen h hsatb
    have hsubs : ((assemble ix w).node (spot ix w b)).subs =
        if (downward ix w (spot ix w b)).isEmpty then [bottomOf ix w] else downward ix w (spot ix w b) := by
      rw [node_assemble (getElem?_nodesOf hr)]
      rfl
    rw [hsubs]
    by_cases ha : w.isUnsatisfiable a = true
    · have hspot := (spot_eq_bottomOf_iff h).2 ha
      rw [hspot, ← downward_eq_nil_iff hix h ha hsatb, ← List.isEmpty_iff]
      split <;> rename_i hempty
      · simp [hempty]
      -- no satisfiable class shares the bottom node
      · refine ⟨fun hmem => ?_, fun hempty' => absurd hempty' hempty⟩
        obtain ⟨c, hsatc, hc, -⟩ := (mem_downward_iff hix h).1 hmem
        rw [(spot_eq_bottomOf_iff h).1 hc] at hsatc
        cases hsatc
    · have hsata := Bool.eq_false_iff.2 ha
      have hmem : spot ix w a ∈ downward ix w (spot ix w b) ↔ Covers (Below ix w) a b := by
        rw [mem_downward_iff hix h]
        constructor
        · rintro ⟨c, -, hc, hcover⟩
          exact covers_of_spot_eq h hc rfl hcover
        · exact fun hcover => ⟨a, hsata, rfl, hcover⟩
      -- the bottom node stands in for missing links only, and no satisfiable class is in it
      split <;> rename_i hempty
      · rw [List.isEmpty_iff] at hempty
        rw [hempty] at hmem
        refine ⟨fun hbottom => ?_, fun hcover => absurd (hmem.2 hcover) List.not_mem_nil⟩
        exact absurd ((spot_eq_bottomOf_iff h).1 (List.mem_singleton.1 hbottom)) ha
      · exact hmem

/-- The nodes directly above a node are those that cover it. -/
theorem mem_supers_iff (hix : ix.Tidy) (h : Answers ix w) {a b : ix.Class} :
    spot ix w b ∈ ((assemble ix w).node (spot ix w a)).supers ↔ Covers (Below ix w) a b := by
  by_cases ha : w.isUnsatisfiable a = true
  · rw [(spot_eq_bottomOf_iff h).2 ha, node_assemble (getElem?_nodesOf_bottom ix w), mem_supers_bottom_iff]
    constructor
    · rintro ⟨hlt, hnil⟩
      have hsatb : w.isUnsatisfiable b = false := Bool.eq_false_iff.2 fun hb => by
        rw [(spot_eq_bottomOf_iff h).2 hb] at hlt
        omega
      exact (downward_eq_nil_iff hix h ha hsatb).1 hnil
    · intro hcover
      have hsatb : w.isUnsatisfiable b = false := Bool.eq_false_iff.2 fun hb => hcover.1.2 (.inl hb)
      have hplace := (place?_eq_some_iff h (a := b)).2 ⟨hsatb, rfl⟩
      exact ⟨lt_bottomOf hplace, (downward_eq_nil_iff hix h ha hsatb).2 hcover⟩
  · rw [mem_supers_inner_iff hix h (Bool.eq_false_iff.2 ha)]
    constructor
    · rintro ⟨b', hcover, hb'⟩
      exact covers_of_spot_eq h rfl hb' hcover
    · exact fun hcover => ⟨b, hcover, rfl⟩

/-- Links from a node lead to nodes. -/
theorem links_lt (hix : ix.Tidy) (h : Answers ix w) (hp : p < (assemble ix w).size) :
    (∀ q ∈ ((assemble ix w).node p).supers, q < (assemble ix w).size) ∧
      ∀ q ∈ ((assemble ix w).node p).subs, q < (assemble ix w).size := by
  rw [size_assemble] at hp ⊢
  have hdown {i : Nat} {b : ix.Class} (hi : i ∈ downward ix w (spot ix w b)) : i < bottomOf ix w + 1 := by
    obtain ⟨c, -, rfl, -⟩ := (mem_downward_iff hix h).1 hi
    exact Nat.lt_succ_of_le (spot_le h c)
  obtain ⟨a, rfl⟩ := exists_spot hix h (Nat.le_of_lt_succ hp)
  by_cases ha : w.isUnsatisfiable a = true
  · rw [(spot_eq_bottomOf_iff h).2 ha, node_assemble (getElem?_nodesOf_bottom ix w)]
    refine ⟨fun q hq => ?_, fun q hq => absurd hq List.not_mem_nil⟩
    have := (mem_supers_bottom_iff.1 hq).1
    omega
  · have hsat := Bool.eq_false_iff.2 ha
    constructor
    · intro q hq
      obtain ⟨b, -, rfl⟩ := (mem_supers_inner_iff hix h hsat).1 hq
      exact Nat.lt_succ_of_le (spot_le h b)
    · intro q hq
      obtain ⟨a', hr, -, -⟩ := exists_chosen h hsat
      rw [node_assemble (getElem?_nodesOf hr)] at hq
      unfold innerNode at hq
      dsimp only at hq
      split at hq
      · obtain rfl := List.mem_singleton.1 hq
        omega
      · exact hdown hq

/-- The places of some entries of a list. -/
private theorem nodup_filterMap_zipIdx {α : Type} (xs : List α) (keep : α → Bool) :
    (xs.zipIdx.filterMap fun entry => if keep entry.1 then some entry.2 else none).Nodup := by
  have hplaces : (xs.zipIdx.filterMap fun entry => if keep entry.1 then some entry.2 else none) =
      (xs.zipIdx.filter fun entry => keep entry.1).map (·.2) := by
    rw [← List.filterMap_eq_map, ← List.filterMap_eq_filter, List.filterMap_filterMap]
    refine List.filterMap_congr fun entry _ => ?_
    cases hkeep : keep entry.1 <;> simp [Option.guard, hkeep]
  rw [hplaces]
  refine (List.filter_sublist.map _).nodup ?_
  rw [List.zipIdx_map_snd]
  exact List.nodup_range'

private theorem nodup_linkedTo (links : List (List Nat)) : (linkedTo p links.zipIdx).Nodup := by
  have hlinks := nodup_filterMap_zipIdx links fun above => decide (p ∈ above)
  simp only [decide_eq_true_eq] at hlinks
  exact hlinks

/-- No link is there twice. -/
theorem nodup_links (hp : p < (assemble ix w).size) :
    ((assemble ix w).node p).supers.Nodup ∧ ((assemble ix w).node p).subs.Nodup := by
  rw [size_assemble] at hp
  rcases Nat.lt_succ_iff_lt_or_eq.1 hp with hlt | rfl
  · have hr : (layoutOf ix w).chosen[p]? = some (layoutOf ix w).chosen[p] := List.getElem?_eq_getElem hlt
    rw [node_assemble (getElem?_nodesOf hr)]
    constructor
    · unfold innerNode superPlaces
      dsimp only
      split
      · exact List.nodup_singleton _
      · exact nodup_distinct _
    · unfold innerNode
      dsimp only
      split
      · exact List.nodup_singleton _
      · exact nodup_linkedTo _
  · rw [node_assemble (getElem?_nodesOf_bottom ix w)]
    exact ⟨nodup_filterMap_zipIdx _ List.isEmpty, List.nodup_nil⟩

/-! ### The table of classes -/

theorem mem_placesOf {nodes : List TaxonomyNode} {s : String} :
    (s, p) ∈ placesOf nodes ↔ ∃ node, nodes[p]? = some node ∧ s ∈ node.members := by
  rw [placesOf, List.mem_reverse, List.mem_flatMap]
  constructor
  · rintro ⟨⟨node, i⟩, hmem, hs⟩
    obtain ⟨m, hm, e⟩ := List.mem_map.1 hs
    cases e
    exact ⟨node, List.mk_mem_zipIdx_iff_getElem?.1 hmem, hm⟩
  · rintro ⟨node, hget, hs⟩
    exact ⟨(node, p), List.mk_mem_zipIdx_iff_getElem?.2 hget, List.mem_map.2 ⟨s, hs, rfl⟩⟩

/-- Where no name has two places, a name is found at each place it has. -/
theorem place?_eq_some_iff_mem {t : Taxonomy} {s : String}
    (h : ∀ {p q : Nat}, (s, p) ∈ t.places → (s, q) ∈ t.places → p = q) : t.place? s = some p ↔ (s, p) ∈ t.places := by
  constructor
  · intro hplace
    obtain ⟨entry, hfind, rfl⟩ := Option.map_eq_some_iff.1 hplace
    obtain rfl : entry.1 = s := by simpa using List.find?_some hfind
    exact List.mem_of_find?_eq_some hfind
  · intro hmem
    have hsome : (t.places.find? fun entry => entry.1 = s).isSome :=
      List.find?_isSome.2 ⟨(s, p), hmem, decide_eq_true rfl⟩
    obtain ⟨entry, hfind⟩ := Option.isSome_iff_exists.1 hsome
    obtain rfl : entry.1 = s := by simpa using List.find?_some hfind
    rw [place?, hfind, Option.map_some, h (List.mem_of_find?_eq_some hfind) hmem]

/-- A class is found at its spot. -/
theorem place?_assemble_iff (hix : ix.Tidy) (h : Answers ix w) {s : String} :
    (assemble ix w).place? s = some p ↔ ∃ a : ix.Class, spot ix w a = p ∧ a.iri = s := by
  have hentry {s : String} {p : Nat} : (s, p) ∈ (assemble ix w).places ↔ ∃ a : ix.Class, spot ix w a = p ∧ a.iri = s := by
    rw [assemble_eq]
    refine mem_placesOf.trans ?_
    constructor
    · rintro ⟨node, hget, hs⟩
      have hlt := (List.getElem?_eq_some_iff.1 hget).1
      rw [length_nodesOf, ← size_assemble] at hlt
      rw [← node_assemble hget] at hs
      exact (mem_members_iff hix h hlt).1 hs
    · rintro ⟨a, rfl, rfl⟩
      have hlt : spot ix w a < (nodesOf ix w).length := by
        rw [length_nodesOf]
        exact Nat.lt_succ_of_le (spot_le h a)
      have hget := List.getElem?_eq_getElem hlt
      refine ⟨_, hget, ?_⟩
      rw [← node_assemble hget]
      rw [length_nodesOf, ← size_assemble] at hlt
      exact (mem_members_iff hix h hlt).2 ⟨a, rfl, rfl⟩
  refine (place?_eq_some_iff_mem fun hp hq => ?_).trans hentry
  obtain ⟨a, rfl, ha⟩ := hentry.1 hp
  obtain ⟨b, rfl, hb⟩ := hentry.1 hq
  rw [Index.ext_iri hix (ha.trans hb.symm)]

theorem place?_iri_iff (hix : ix.Tidy) (h : Answers ix w) {a : ix.Class} :
    (assemble ix w).place? a.iri = some p ↔ spot ix w a = p := by
  rw [place?_assemble_iff hix h]
  constructor
  · rintro ⟨b, hb, hiri⟩
    rwa [Index.ext_iri hix hiri] at hb
  · exact fun ha => ⟨a, ha, rfl⟩

/-! ### Order in a node -/

/-- Some names without the bottom class are arranged by sorting. -/
theorem arranged_sortMembers {names : List String} (hnodup : names.Nodup) (hne : names ≠ [])
    (hnothing : owlNothing ∉ names) : Arranged (sortMembers names) := by
  have hascending := pairwise_sortTexts hnodup
  have hsorted : (sortTexts names).Nodup := (sortBy_perm _ names).nodup_iff.2 hnodup
  unfold sortMembers
  dsimp only
  split <;> rename_i hthing
  · exact ⟨hascending.sublist List.erase_sublist, hsorted.not_mem_erase, .inl rfl⟩
  · cases hcons : sortTexts names with
    | nil => exact absurd (List.nil_perm.1 (hcons ▸ sortBy_perm _ names)) hne
    | cons first rest =>
      rw [hcons] at hascending hsorted hthing
      obtain ⟨hfirst, hrest⟩ := List.pairwise_cons.1 hascending
      have hmem {s : String} (hs : s ∈ rest) : s ∈ names := mem_sortTexts.1 (hcons ▸ List.mem_cons_of_mem _ hs)
      refine ⟨hrest, (List.nodup_cons.1 hsorted).1, .inr ⟨fun hin => hthing (List.mem_cons_of_mem _ hin), .inr ⟨?_, hfirst⟩⟩⟩
      exact fun hin => hnothing (hmem hin)

/-- Names of classes, the bottom class among them but not the top class, are arranged in the bottom node. -/
theorem arranged_bottomMembers (hix : ix.Tidy) {ids : List ExprId} (hnodup : ids.Nodup) (hids : ∀ id ∈ ids, id ∈ ix.classes)
    (hthing : .thing ∉ ids) : Arranged (bottomMembers ix ids) := by
  have hclasses : ∀ id ∈ ids.filter (· ≠ .nothing), id ∈ ix.classes := fun id hid => hids id (List.mem_filter.1 hid).1
  have hnames : ((ids.filter (· ≠ .nothing)).map ix.iriOf).Nodup :=
    (hnodup.filter _).map_on fun a ha b hb e => hix.iriOf_inj (hclasses a ha) (hclasses b hb) e
  refine ⟨pairwise_sortTexts hnames, fun hin => ?_, .inr ⟨fun hin => ?_, .inl rfl⟩⟩
  · obtain ⟨id, hid, e⟩ := List.mem_map.1 (mem_sortTexts.1 hin)
    have hne := of_decide_eq_true (List.mem_filter.1 hid).2
    exact hne (hix.iriOf_inj (hclasses id hid) hix.nothing_mem_classes (e.trans hix.iriOf_nothing.symm))
  · obtain ⟨id, hid, e⟩ := List.mem_map.1 (mem_sortTexts.1 hin)
    obtain rfl := hix.iriOf_inj (hclasses id hid) hix.thing_mem_classes (e.trans hix.iriOf_thing.symm)
    exact hthing (List.mem_filter.1 hid).1

theorem Arranged.nodup {members : List String} (h : Arranged members) : members.Nodup := by
  cases members with
  | nil => exact h.elim
  | cons first rest => exact List.nodup_cons.2 ⟨h.2.1, h.1.imp String.ne_of_lt⟩

/-- In a consistent ontology the members of every node are arranged. -/
theorem arranged_assemble (hix : ix.Tidy) (h : Answers ix w) (hsat : w.isUnsatisfiable .thing = false)
    (hp : p < (assemble ix w).size) : Arranged ((assemble ix w).node p).members := by
  rw [size_assemble] at hp
  by_cases hlt : p < bottomOf ix w
  · obtain ⟨r, hr⟩ : ∃ r, (layoutOf ix w).chosen[p]? = some r := ⟨_, List.getElem?_eq_getElem hlt⟩
    rw [node_assemble (getElem?_nodesOf hr)]
    obtain ⟨a, hsata, rfl, -⟩ := exists_of_chosen h hr
    have hmem {id : ExprId} (hid : id ∈ (reductionOf ix w a).equivalents) := (mem_equivalents_iff h a.2 hsata).1 hid
    have hnodup : ((reductionOf ix w a).equivalents.map ix.iriOf).Nodup :=
      (nodup_reduce_equivalents (nodup_supers_summarize h a.2)).map_on fun x hx y hy e =>
        hix.iriOf_inj (hmem hx).1 (hmem hy).1 e
    refine arranged_sortMembers hnodup (fun hnil => ?_) fun hin => ?_
    · have hself : a.1 ∈ (reductionOf ix w a).equivalents := mem_reduce_equivalents.2 (.inl rfl)
      rw [List.map_eq_nil_iff.1 hnil] at hself
      cases hself
    · obtain ⟨id, hid, e⟩ := List.mem_map.1 hin
      obtain rfl := hix.iriOf_inj (hmem hid).1 hix.nothing_mem_classes (e.trans hix.iriOf_nothing.symm)
      have := h.satisfiable_of_includes a.2 hix.nothing_mem_classes hsata (hmem hid).2.1
      rw [h.nothing] at this
      cases this
  · obtain rfl : p = bottomOf ix w := by omega
    rw [node_assemble (getElem?_nodesOf_bottom ix w)]
    unfold bottomNode
    rw [unsatisfiable_eq h]
    refine arranged_bottomMembers hix ((ix.nodup_ids.filter _).filter _) (fun id hid => (List.mem_filter.1 hid).1) fun hin => ?_
    have hempty := (List.mem_filter.1 hin).2
    rw [hsat] at hempty
    cases hempty

/-! ### The taxonomy -/

/-- The taxonomy of a consistent ontology draws the inclusions between its classes. -/
theorem draws_assemble (hix : ix.Tidy) (h : Answers ix w) (hsat : w.isUnsatisfiable .thing = false) :
    (assemble ix w).Draws Index.Class.iri (Below ix w) where
  refl := below_refl h
  trans := below_trans h
  place a := ⟨_, (place?_iri_iff hix h).2 rfl⟩
  named hplace := by
    obtain ⟨a, rfl, rfl⟩ := (place?_assemble_iff hix h).1 hplace
    rw [size_assemble]
    exact ⟨Nat.lt_succ_of_le (spot_le h a), a, rfl⟩
  mem_members hp := (mem_members_iff hix h hp).trans (place?_assemble_iff hix h).symm
  members_ne_nil hp hnil := by
    have harranged := arranged_assemble hix h hsat hp
    rw [hnil] at harranged
    exact harranged
  nodup hp := (arranged_assemble hix h hsat hp).nodup
  same ha := by
    obtain rfl := (place?_iri_iff hix h).1 ha
    exact (place?_iri_iff hix h).trans (spot_eq_iff h)
  nodup_supers hp := (nodup_links hp).1
  nodup_subs hp := (nodup_links hp).2
  supers_lt hp hq := (links_lt hix h hp).1 _ hq
  subs_lt hp hq := (links_lt hix h hp).2 _ hq
  supers ha hb := by
    obtain rfl := (place?_iri_iff hix h).1 ha
    obtain rfl := (place?_iri_iff hix h).1 hb
    exact mem_supers_iff hix h
  subs ha hb := by
    obtain rfl := (place?_iri_iff hix h).1 ha
    obtain rfl := (place?_iri_iff hix h).1 hb
    exact mem_subs_iff hix h
  top := (place?_assemble_iff hix h).2 ⟨⟨.thing, hix.thing_mem_classes⟩, rfl, hix.iriOf_thing⟩
  bottom := by
    refine (place?_assemble_iff hix h).2 ⟨⟨.nothing, hix.nothing_mem_classes⟩, ?_, hix.iriOf_nothing⟩
    exact (spot_eq_bottomOf_iff h).2 h.nothing

end Taxonomy

end ELOntology
