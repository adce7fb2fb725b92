import ELOntology.Proofs.Index.Revision

/-!
# What a role hierarchy says

The hierarchy that is built from an index says what the index is told, closed under going up, and nothing else.  It tells
the same from below and from above, and in which order and how often the index was told does not matter.

Key facts: `RoleHierarchy.mem_superRoles_iff_mem_subRoles`, `RoleHierarchy.mem_compositions_build_iff` and
`RoleHierarchy.build_exact`, over every history of an index.
-/

namespace ELOntology

namespace Index

variable {ix : Index} {sub sup : RoleId}

/-- A path of told inclusions, possibly of no inclusion, leads from the first role up to the second. -/
def LeadsUp (ix : Index) : RoleId → RoleId → Prop :=
  Relation.ReflTransGen fun below above => (below, above) ∈ ix.toldInclusions

/-- What is told of roles speaks of numbered roles only. -/
structure RolesNumbered (ix : Index) : Prop where
  inclusion {sub sup : RoleId} : (sub, sup) ∈ ix.toldInclusions → sub.val < ix.roles.size ∧ sup.val < ix.roles.size
  composition {left right sup : RoleId} : (left, right, sup) ∈ ix.toldCompositions →
    left.val < ix.roles.size ∧ right.val < ix.roles.size

theorem Accounts.rolesNumbered (h : ix.Accounts) : ix.RolesNumbered where
  inclusion htold := by
    obtain ⟨_, _, hsub, hsup, -⟩ := h.said_of_mem_toldInclusions htold
    exact ⟨lt_size_of_role? hsub, lt_size_of_role? hsup⟩
  composition htold := by
    obtain ⟨_, _, _, hleft, hright, -, -⟩ := h.said_of_mem_toldCompositions htold
    exact ⟨lt_size_of_role? hleft, lt_size_of_role? hright⟩

/-- Either both ends of a path are numbered or neither is. -/
theorem LeadsUp.lt_size_iff (h : ix.RolesNumbered) (hpath : ix.LeadsUp sub sup) :
    sub.val < ix.roles.size ↔ sup.val < ix.roles.size := by
  induction hpath with
  | refl => exact Iff.rfl
  | tail _ htold ih =>
    obtain ⟨hbelow, habove⟩ := h.inclusion htold
    exact iff_of_true (ih.2 hbelow) habove

/-- Paths depend on the set of told inclusions alone. -/
theorem ToldAlike.leadsUp_iff {ix' : Index} (h : ix.ToldAlike ix') : ix'.LeadsUp sub sup ↔ ix.LeadsUp sub sup :=
  ⟨Relation.ReflTransGen.mono (fun _ _ => (h.inclusions _).1) _ _,
    Relation.ReflTransGen.mono (fun _ _ => (h.inclusions _).2) _ _⟩

end Index

namespace RoleHierarchy

/-- The two hierarchies say the same of all roles, in whatever order. -/
structure Alike (h h' : RoleHierarchy) : Prop where
  subRoles (role : RoleId) : (h'.subRoles role).Perm (h.subRoles role)
  superRoles (role : RoleId) : (h'.superRoles role).Perm (h.superRoles role)
  compositions (left right : RoleId) : (h'.compositions left right).Perm (h.compositions left right)
  isRightComposable (role : RoleId) : h'.isRightComposable role = h.isRightComposable role

variable {ix ix' : Index} {sub sup left right composed : RoleId}

theorem mem_subRoles_build_iff_leadsUp :
    sub ∈ (build ix).subRoles sup ↔ sup.val < ix.roles.size ∧ ix.LeadsUp sub sup :=
  mem_subRoles_build_iff.trans (and_congr_right fun _ => Relation.reflTransGen_swap)

/-- The search from below and the one from above agree. -/
theorem mem_superRoles_iff_mem_subRoles (h : ix.RolesNumbered) :
    sup ∈ (build ix).superRoles sub ↔ sub ∈ (build ix).subRoles sup := by
  rw [mem_superRoles_build_iff, mem_subRoles_build_iff_leadsUp]
  exact and_congr_left fun hpath => Index.LeadsUp.lt_size_iff h hpath

theorem nodup_compositions (h : RoleHierarchy) (left right : RoleId) : (h.compositions left right).Nodup :=
  nodup_distinct _

/-- Two roles compose to what the index is told of two roles above them. -/
theorem mem_compositions_build_iff (h : ix.RolesNumbered) : composed ∈ (build ix).compositions left right ↔
    ∃ l r, (l, r, composed) ∈ ix.toldCompositions ∧ ix.LeadsUp left l ∧ ix.LeadsUp right r := by
  rw [mem_compositions]
  refine exists_congr fun l => exists_congr fun r => and_congr_right fun htold => ?_
  obtain ⟨hl, hr⟩ := h.composition htold
  rw [mem_subRoles_build_iff_leadsUp, mem_subRoles_build_iff_leadsUp]
  exact and_congr (and_iff_right hl) (and_iff_right hr)

theorem isRightComposable_build_iff (h : ix.RolesNumbered) :
    (build ix).isRightComposable right = true ↔ ∃ left, (build ix).compositions left right ≠ [] := by
  constructor
  · intro hright
    obtain ⟨l, r, sup, htold, hr⟩ := isRightComposable_iff.1 hright
    -- the told left role itself composes with the given one
    refine ⟨l, List.ne_nil_of_mem ((mem_compositions_build_iff h).2 ⟨l, r, htold, .refl, ?_⟩)⟩
    exact (mem_subRoles_build_iff_leadsUp.1 hr).2
  · rintro ⟨left, hne⟩
    obtain ⟨composed, hmem⟩ := List.exists_mem_of_ne_nil _ hne
    exact isRightComposable_of_mem_compositions hmem

/-- Indices with as many roles that are told the same have hierarchies that say the same. -/
theorem alike_build (h : ix.ToldAlike ix') (hsize : ix'.roles.size = ix.roles.size) : (build ix).Alike (build ix') := by
  have hsub (sub sup : RoleId) : sub ∈ (build ix').subRoles sup ↔ sub ∈ (build ix).subRoles sup := by
    rw [mem_subRoles_build_iff_leadsUp, mem_subRoles_build_iff_leadsUp, hsize, h.leadsUp_iff]
  have hsuper (sub sup : RoleId) : sup ∈ (build ix').superRoles sub ↔ sup ∈ (build ix).superRoles sub := by
    rw [mem_superRoles_build_iff, mem_superRoles_build_iff, hsize]
    exact and_congr_right fun _ => h.leadsUp_iff
  have htold (composition : RoleId × RoleId × RoleId) : composition ∈ (build ix').told ↔ composition ∈ (build ix).told :=
    h.compositions composition
  constructor
  · intro role
    exact (List.perm_ext_iff_of_nodup (nodup_build ix' role).1 (nodup_build ix role).1).2 fun sub => hsub sub role
  · intro role
    exact (List.perm_ext_iff_of_nodup (nodup_build ix' role).2 (nodup_build ix role).2).2 fun sup => hsuper role sup
  · intro left right
    refine (List.perm_ext_iff_of_nodup (nodup_compositions _ left right) (nodup_compositions _ left right)).2 fun composed => ?_
    simp only [mem_compositions, htold, hsub]
  · intro role
    rw [Bool.eq_iff_iff, isRightComposable_iff, isRightComposable_iff]
    simp only [htold, hsub]

/-- The hierarchy that is built from an index is exact.  Below a numbered role it lists, each once, the roles from which a
path of told inclusions leads up to it, and it lists a role below another just if it lists the other above the first.  Two
roles compose to what the index is told of roles above them, listed once, and a role can stand on the right just if it
composes with some role.  None of this depends on the order in which the index was told, or on how often. -/
theorem build_exact (calls : List Index.Call) :
    (∀ sup, sup.val < (Index.after calls).roles.size → ((build (Index.after calls)).subRoles sup).Nodup ∧
      ∀ sub, sub ∈ (build (Index.after calls)).subRoles sup ↔ (Index.after calls).LeadsUp sub sup) ∧
    (∀ sub sup, sub ∈ (build (Index.after calls)).subRoles sup ↔ sup ∈ (build (Index.after calls)).superRoles sub) ∧
    (∀ left right, ((build (Index.after calls)).compositions left right).Nodup ∧
      ∀ composed, composed ∈ (build (Index.after calls)).compositions left right ↔
        ∃ l r, (l, r, composed) ∈ (Index.after calls).toldCompositions ∧ (Index.after calls).LeadsUp left l ∧
          (Index.after calls).LeadsUp right r) ∧
    (∀ right, (build (Index.after calls)).isRightComposable right = true ↔
      ∃ left, (build (Index.after calls)).compositions left right ≠ []) ∧
    ∀ ix, (Index.after calls).ToldAlike ix → ix.roles.size = (Index.after calls).roles.size →
      (build (Index.after calls)).Alike (build ix) := by
  have hnumbered := (Index.accounts_after calls).rolesNumbered
  refine ⟨fun sup hlt => ⟨(nodup_build _ sup).1, fun sub => ?_⟩, fun sub sup => (mem_superRoles_iff_mem_subRoles hnumbered).symm,
    fun left right => ⟨nodup_compositions _ left right, fun composed => mem_compositions_build_iff hnumbered⟩,
    fun right => isRightComposable_build_iff hnumbered, fun ix => alike_build⟩
  exact mem_subRoles_build_iff_leadsUp.trans (and_iff_right hlt)

/-- The case of a cycle of two roles, one of them transitive, of which an index is told twice as often, and in another
order. -/
theorem build_exact_cycle :
    let ix := Index.after [.assert (.subRoleOf (.role "r") "s"), .assert (.subRoleOf (.role "s") "r"),
      .assert (.transitiveRole "s")]
    let ix' := { ix with toldInclusions := ix.toldInclusions.reverse ++ ix.toldInclusions }
    (∀ sub, sub ∈ (build ix).subRoles ⟨0⟩ ↔ ix.LeadsUp sub ⟨0⟩) ∧ ix'.toldInclusions ≠ ix.toldInclusions ∧
      (build ix).Alike (build ix') := by
  intro ix ix'
  have hstate : 0 < ix.roles.size ∧ ix'.toldInclusions ≠ ix.toldInclusions := by decide +kernel
  obtain ⟨hbelow, -, -, -, halike⟩ := build_exact [.assert (.subRoleOf (.role "r") "s"), .assert (.subRoleOf (.role "s") "r"),
    .assert (.transitiveRole "s")]
  exact ⟨(hbelow ⟨0⟩ hstate.1).2, hstate.2, halike ix' ⟨fun p => by simp [ix', ix], fun p => Iff.rfl⟩ rfl⟩

end RoleHierarchy

end ELOntology
