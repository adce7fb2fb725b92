import ELOntology.Role.Hierarchy
import ELOntology.Proofs.Graph.Reach

/-!
# The roles below and above a role

Key facts: `RoleHierarchy.mem_subRoles_build_iff` and `RoleHierarchy.mem_superRoles_build_iff` (below a role stands exactly
what a path of told inclusions leads up from, and above it what one leads up to), `RoleHierarchy.nodup_build` (each role
once) and `RoleHierarchy.subRoles_build_trans` (so being below is transitive).
-/

namespace ELOntology

namespace RoleHierarchy

variable {ix : Index} {sub sup : RoleId}

theorem mem_toldBelow {inclusions : List (RoleId × RoleId)} :
    sub ∈ toldBelow inclusions sup ↔ (sub, sup) ∈ inclusions := by
  rw [toldBelow, List.mem_filterMap]
  constructor
  · rintro ⟨⟨sub', sup'⟩, hmem, e⟩
    dsimp only at e
    split at e
    · rename_i hsup
      cases e
      exact hsup ▸ hmem
    · cases e
  · exact fun hmem => ⟨_, hmem, if_pos rfl⟩

/-- Whatever is found is the start of the search or the lower end of an inclusion. -/
private theorem closed_toldBelow (inclusions : List (RoleId × RoleId)) (sup : RoleId) :
    ∀ x ∈ sup :: inclusions.map Prod.fst, ∀ y, Leads (toldBelow inclusions) x y → y ∈ sup :: inclusions.map Prod.fst :=
  fun x _ y hy => List.mem_cons_of_mem _ (List.mem_map.2 ⟨(y, x), mem_toldBelow.1 hy, rfl⟩)

private theorem length_found_le (inclusions : List (RoleId × RoleId)) (sup : RoleId) :
    (sup :: inclusions.map Prod.fst).length ≤ 2 * inclusions.length + 1 := by
  rw [List.length_cons, List.length_map]
  omega

theorem mem_closure_toldBelow {inclusions : List (RoleId × RoleId)} :
    sub ∈ closure (toldBelow inclusions) inclusions sup ↔
      Relation.ReflTransGen (Leads (toldBelow inclusions)) sup sub :=
  mem_reach_iff _ (List.mem_cons_self ..) (closed_toldBelow inclusions sup) (length_found_le inclusions sup)

theorem nodup_closure_toldBelow (inclusions : List (RoleId × RoleId)) (sup : RoleId) :
    (closure (toldBelow inclusions) inclusions sup).Nodup :=
  nodup_reach _ (List.mem_cons_self ..) (closed_toldBelow inclusions sup) (length_found_le inclusions sup)

theorem subRoles_build : (build ix).subRoles sup =
    if sup.val < ix.roles.size then closure (toldBelow ix.toldInclusions) ix.toldInclusions sup else [] := by
  unfold subRoles build
  rw [Array.getD_eq_getD_getElem?]
  split <;> rename_i h <;> simp [h]

/-- Below a role of the index stand the roles that a path of told inclusions leads up from. -/
theorem mem_subRoles_build_iff : sub ∈ (build ix).subRoles sup ↔ sup.val < ix.roles.size ∧
    Relation.ReflTransGen (fun above below => (below, above) ∈ ix.toldInclusions) sup sub := by
  have hstep : Leads (toldBelow ix.toldInclusions) = fun above below => (below, above) ∈ ix.toldInclusions := by
    funext above below
    exact propext mem_toldBelow
  rw [subRoles_build, ← hstep]
  split <;> rename_i h
  · exact mem_closure_toldBelow.trans (by simp [h])
  · simp [h]

private theorem toldAbove_eq (inclusions : List (RoleId × RoleId)) :
    toldAbove inclusions = toldBelow (inclusions.map Prod.swap) := by
  funext role
  rw [toldAbove, toldBelow, List.filterMap_map]
  rfl

/-- Read from above to below, the inclusions lead up. -/
theorem superRoles_build : (build ix).superRoles sub = if sub.val < ix.roles.size then
    closure (toldBelow (ix.toldInclusions.map Prod.swap)) (ix.toldInclusions.map Prod.swap) sub else [] := by
  have hclosure : closure (toldBelow (ix.toldInclusions.map Prod.swap)) (ix.toldInclusions.map Prod.swap) sub =
      closure (toldAbove ix.toldInclusions) ix.toldInclusions sub := by
    rw [closure, closure, toldAbove_eq, List.length_map]
  rw [hclosure]
  unfold superRoles build
  rw [Array.getD_eq_getD_getElem?]
  split <;> rename_i h <;> simp [h]

/-- Above a role of the index stand the roles that a path of told inclusions leads up to. -/
theorem mem_superRoles_build_iff : sup ∈ (build ix).superRoles sub ↔ sub.val < ix.roles.size ∧
    Relation.ReflTransGen (fun below above => (below, above) ∈ ix.toldInclusions) sub sup := by
  have hstep : Leads (toldBelow (ix.toldInclusions.map Prod.swap)) = fun below above => (below, above) ∈ ix.toldInclusions := by
    funext below above
    refine propext (mem_toldBelow.trans (List.mem_map.trans ⟨?_, fun hmem => ⟨_, hmem, rfl⟩⟩))
    rintro ⟨⟨_, _⟩, hmem, e⟩
    cases e
    exact hmem
  rw [superRoles_build, ← hstep]
  split <;> rename_i h
  · exact mem_closure_toldBelow.trans (by simp [h])
  · simp [h]

/-- Neither below nor above a role does a role stand twice. -/
theorem nodup_build (ix : Index) (role : RoleId) :
    ((build ix).subRoles role).Nodup ∧ ((build ix).superRoles role).Nodup := by
  rw [subRoles_build, superRoles_build]
  split
  · exact ⟨nodup_closure_toldBelow _ role, nodup_closure_toldBelow _ role⟩
  · exact ⟨List.nodup_nil, List.nodup_nil⟩

theorem subRoles_build_refl (h : sup.val < ix.roles.size) : sup ∈ (build ix).subRoles sup :=
  mem_subRoles_build_iff.2 ⟨h, .refl⟩

theorem subRoles_build_trans {top middle bottom : RoleId} (hm : middle ∈ (build ix).subRoles top)
    (hb : bottom ∈ (build ix).subRoles middle) : bottom ∈ (build ix).subRoles top := by
  obtain ⟨hlt, hpath⟩ := mem_subRoles_build_iff.1 hm
  exact mem_subRoles_build_iff.2 ⟨hlt, hpath.trans (mem_subRoles_build_iff.1 hb).2⟩

end RoleHierarchy

end ELOntology
