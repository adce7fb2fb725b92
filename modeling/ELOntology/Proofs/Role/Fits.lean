import ELOntology.Proofs.Calculus.Agreement
import ELOntology.Proofs.Index.Revision

/-!
# Hierarchies that fit an index

A role hierarchy is not built again when roles are added that no role axiom speaks of.  It still fits its index: it has
the told inclusions and compositions right for the roles it knows, and it knows all roles that a rule speaks of.

Key facts: `Index.Accounts.fits_build` (a hierarchy that was just built fits), `RoleHierarchy.Fits.agree` (all hierarchies
that fit an index give the same calculus) and `Index.Names.agree` (so does an index that has grown).
-/

namespace ELOntology

/-- The hierarchy has what it is told right, as far as the rules in force make use of it. -/
structure RoleHierarchy.Fits (h : RoleHierarchy) (ix : Index) : Prop where
  told (composition : RoleId × RoleId × RoleId) : composition ∈ h.told ↔ composition ∈ ix.toldCompositions
  below {role : RoleId} : role.val < h.size → ∀ sub, sub ∈ h.subRoles role ↔
    Relation.ReflTransGen (fun above below => (below, above) ∈ ix.toldInclusions) role sub
  composed {left right sup : RoleId} : (left, right, sup) ∈ ix.toldCompositions →
    left.val < h.size ∧ right.val < h.size
  used {filler existential : ExprId} {role : RoleId} :
    .propagation filler role existential ∈ ix.contributionsOf filler → role.val < h.size

namespace RoleHierarchy

variable {h h' : RoleHierarchy} {ix ix' : Index}

theorem lt_size_of_mem_subRoles {role sub : RoleId} (hsub : sub ∈ h.subRoles role) : role.val < h.size := by
  by_contra hlt
  have hnone : h.below[role.val]? = none := Array.getElem?_eq_none (Nat.le_of_not_lt hlt)
  rw [subRoles, Array.getD_eq_getD_getElem?, hnone] at hsub
  cases hsub

theorem size_build (ix : Index) : (build ix).size = ix.roles.size := by simp [size, build]

namespace Fits

/-- Being below is transitive in a hierarchy that fits. -/
theorem subRoles_trans (hf : h.Fits ix) {top middle bottom : RoleId} (hm : middle ∈ h.subRoles top)
    (hb : bottom ∈ h.subRoles middle) : bottom ∈ h.subRoles top := by
  have htop := lt_size_of_mem_subRoles hm
  have hmiddle := lt_size_of_mem_subRoles hb
  rw [hf.below htop] at hm ⊢
  rw [hf.below hmiddle] at hb
  exact hm.trans hb

/-- The hierarchy fits every index that is told the same and whose rules use no other roles. -/
theorem congr (hf : h.Fits ix) (htold : ix.ToldAlike ix')
    (hused : ∀ {filler existential : ExprId} {role : RoleId},
      .propagation filler role existential ∈ ix'.contributionsOf filler → role.val < h.size) : h.Fits ix' where
  told composition := (hf.told composition).trans (htold.compositions composition).symm
  below hlt sub := by
    have hsame : (fun above below => (below, above) ∈ ix'.toldInclusions) =
        fun above below => (below, above) ∈ ix.toldInclusions := by
      funext above below
      exact propext (htold.inclusions (below, above))
    rw [hsame]
    exact hf.below hlt sub
  composed hc := hf.composed ((htold.compositions _).1 hc)
  used := hused

/-- The rules in force use the same roles. -/
theorem of_rulesOf (hf : h.Fits ix) (htold : ix.ToldAlike ix') (hrules : ∀ id, ix'.rulesOf id = ix.rulesOf id) :
    h.Fits ix' :=
  hf.congr htold fun hg => hf.used (by rwa [Index.contributionsOf, hrules] at hg)

private theorem mem_compositions_of (hf : h.Fits ix) (hf' : h'.Fits ix) {left right composed : RoleId}
    (hc : composed ∈ h.compositions left right) : composed ∈ h'.compositions left right := by
  obtain ⟨l, r, htold, hl, hr⟩ := mem_compositions.1 hc
  have hmem := (hf.told _).1 htold
  obtain ⟨hlt, hrt⟩ := hf.composed hmem
  obtain ⟨hlt', hrt'⟩ := hf'.composed hmem
  refine mem_compositions.2 ⟨l, r, (hf'.told _).2 hmem, ?_, ?_⟩
  · rwa [hf'.below hlt', ← hf.below hlt]
  · rwa [hf'.below hrt', ← hf.below hrt]

private theorem isRightComposable_of (hf : h.Fits ix) (hf' : h'.Fits ix) {role : RoleId}
    (hr : h.isRightComposable role = true) : h'.isRightComposable role = true := by
  obtain ⟨l, r, sup, htold, hbelow⟩ := isRightComposable_iff.1 hr
  have hmem := (hf.told _).1 htold
  obtain ⟨-, hrt⟩ := hf.composed hmem
  obtain ⟨-, hrt'⟩ := hf'.composed hmem
  exact isRightComposable_iff.2 ⟨l, r, sup, (hf'.told _).2 hmem, by rwa [hf'.below hrt', ← hf.below hrt]⟩

/-- All hierarchies that fit an index give the same calculus. -/
theorem agree (hf : h.Fits ix) (hf' : h'.Fits ix) (n : Nat) :
    (RuleBase.calculus ⟨ix, h⟩).Agree n (RuleBase.calculus ⟨ix, h'⟩) where
  shape? _ := rfl
  contributes _ := Iff.rfl
  subRoles hg sub := (hf'.below (hf'.used hg) sub).trans (hf.below (hf.used hg) sub).symm
  compositions _ _ _ := ⟨hf'.mem_compositions_of hf, hf.mem_compositions_of hf'⟩
  rightComposable _ := Bool.eq_iff_iff.2 ⟨hf'.isRightComposable_of hf, hf.isRightComposable_of hf'⟩

end Fits

end RoleHierarchy

namespace Index

variable {ix ix' : Index} {h : RoleHierarchy}

/-- A calculus over the same roles does not see that an index has grown. -/
theorem Names.agree (hnames : ix.Names ix') (hrules : ∀ id, ix'.rulesOf id = ix.rulesOf id) (h : RoleHierarchy) :
    (RuleBase.calculus ⟨ix, h⟩).Agree ix.nodes.size (RuleBase.calculus ⟨ix', h⟩) where
  shape? {expr} hlt := by
    obtain ⟨shape, hshape⟩ := exists_shape? hlt
    exact (hnames.shape? hshape).trans hshape.symm
  contributes g := by
    have hsame : ix'.contributionsOf g.premise = ix.contributionsOf g.premise := by
      rw [contributionsOf, contributionsOf, hrules]
    show g ∈ ix'.contributionsOf g.premise ↔ g ∈ ix.contributionsOf g.premise
    rw [hsame]
  subRoles _ _ := Iff.rfl
  compositions _ _ _ := Iff.rfl
  rightComposable _ := rfl

namespace Accounts

theorem role_lt_of_mem_contributionsOf (hix : ix.Accounts) {filler existential : ExprId} {role : RoleId}
    (hg : .propagation filler role existential ∈ ix.contributionsOf filler) : role.val < ix.roles.size :=
  (hix.tidy.filler (hix.coherent.propagation_shape hg)).2

theorem role_lt_of_mem_toldCompositions (hix : ix.Accounts) {left right sup : RoleId}
    (hc : (left, right, sup) ∈ ix.toldCompositions) : left.val < ix.roles.size ∧ right.val < ix.roles.size := by
  obtain ⟨entries, hledger, -⟩ := hix.exists_entries
  obtain ⟨hleft, hright, -⟩ := hledger.within (hledger.mem_toldCompositions_iff.1 hc)
  exact ⟨hleft, hright⟩

/-- The hierarchy that is built from an index fits it. -/
theorem fits_build (hix : ix.Accounts) : (RoleHierarchy.build ix).Fits ix where
  told _ := Iff.rfl
  below {role} hlt sub := by
    rw [RoleHierarchy.size_build] at hlt
    rw [RoleHierarchy.mem_subRoles_build_iff, and_iff_right hlt]
  composed hc := by
    rw [RoleHierarchy.size_build]
    exact hix.role_lt_of_mem_toldCompositions hc
  used hg := by
    rw [RoleHierarchy.size_build]
    exact hix.role_lt_of_mem_contributionsOf hg

/-- Over a hierarchy that fits, the calculus of an index is regular. -/
theorem regular_of_fits (hix : ix.Accounts) (hf : h.Fits ix) : (RuleBase.calculus ⟨ix, h⟩).Regular :=
  hix.coherent.regular hf.subRoles_trans

theorem within_of_fits (hix : ix.Accounts) (h : RoleHierarchy) : (RuleBase.calculus ⟨ix, h⟩).Within ix.nodes.size :=
  hix.coherent.calculus_within hix.tidy

/-- The calculus over a hierarchy that fits agrees with the one over the hierarchy built from the index. -/
theorem agree_of_fits (hix : ix.Accounts) (hf : h.Fits ix) (n : Nat) :
    ix.ruleBase.calculus.Agree n (RuleBase.calculus ⟨ix, h⟩) := hix.fits_build.agree hf n

/-- A hierarchy that has all roles of an index and fits the index before an edit fits it afterwards. -/
theorem fits_of_size_eq (hix' : ix'.Accounts) (hf : h.Fits ix) (htold : ix.ToldAlike ix')
    (hsize : ix'.roles.size = h.size) : h.Fits ix' :=
  hf.congr htold fun hg => hsize ▸ hix'.role_lt_of_mem_contributionsOf hg

/-- A hierarchy that knows the roles of what is pending fits the index after a commit. -/
theorem fits_commit (hix : ix.Accounts) (hf : h.Fits ix)
    (hpending : ∀ {filler existential : ExprId} {role : RoleId},
      .propagation filler role existential ∈ ix.pending.added → role.val < h.size) : h.Fits ix.commit.2 := by
  obtain ⟨entries, hledger, -⟩ := hix.exists_entries
  have hother := hledger.otherRules_commit hix.tidy
  refine hf.congr (.of_eq hother.toldInclusions hother.toldCompositions) fun {filler existential role} hg => ?_
  rcases (hix.revised_commit h).added (g := .propagation filler role existential) hg with hold | hnew
  · exact hf.used hold
  · exact hpending hnew

end Accounts

end Index

end ELOntology
