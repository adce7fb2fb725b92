import ELOntology.Proofs.Calculus.Derivation
import ELOntology.Proofs.Semantics.Models

/-!
# Soundness

Every conclusion says something about the instances of the root that it is derived for (`Conclusion.Holds`), and what is
derivable over the rules of an index is true in all models of the index (`Index.Accounts.sound`).
-/

namespace ELOntology

/-- The thing is an instance of what the node stands for. -/
def Interpretation.InstanceOf (I : Interpretation) (ix : Index) (id : ExprId) (x : I.Domain) : Prop :=
  ∃ t, ix.Denotes id t ∧ t.Holds I x

variable {I : Interpretation} {ix : Index}

namespace Index

theorem Denotes.instanceOf_iff {id : ExprId} {t : Term} (h : ix.Denotes id t) {x : I.Domain} :
    I.InstanceOf ix id x ↔ t.Holds I x :=
  ⟨fun ⟨_, hu, hx⟩ => h.term_unique hu ▸ hx, fun hx => ⟨t, h, hx⟩⟩

theorem Tidy.instanceOf_thing (h : ix.Tidy) (x : I.Domain) : I.InstanceOf ix .thing x :=
  h.denotes_thing.instanceOf_iff.2 (I.thing x)

theorem Tidy.not_instanceOf_nothing (h : ix.Tidy) (x : I.Domain) : ¬ I.InstanceOf ix .nothing x := fun hx =>
  I.nothing x (h.denotes_nothing.instanceOf_iff.1 hx)

theorem Tidy.instanceOf_conjunction (h : ix.Tidy) {id first second : ExprId}
    (hshape : ix.shape? id = some (.conjunction first second)) {x : I.Domain} :
    I.InstanceOf ix id x ↔ I.InstanceOf ix first x ∧ I.InstanceOf ix second x := by
  obtain ⟨hfirst, hsecond⟩ := h.shape_within hshape
  obtain ⟨t, ht⟩ := h.exists_denotes hfirst
  obtain ⟨u, hu⟩ := h.exists_denotes hsecond
  rw [(Denotes.conjunction hshape ht hu).instanceOf_iff, ht.instanceOf_iff, hu.instanceOf_iff]
  rfl

theorem Tidy.instanceOf_existential (h : ix.Tidy) {id filler : ExprId} {role : RoleId}
    (hshape : ix.shape? id = some (.existential role filler)) {x : I.Domain} :
    I.InstanceOf ix id x ↔ ∃ y, I.role (ix.roleName role) x y ∧ I.InstanceOf ix filler y := by
  obtain ⟨hrole, hfiller⟩ := h.shape_within hshape
  obtain ⟨name, hname⟩ := exists_role? hrole
  obtain ⟨t, ht⟩ := h.exists_denotes hfiller
  rw [(Denotes.existential hshape hname ht).instanceOf_iff, roleName_of_role? hname]
  simp only [ht.instanceOf_iff, Term.Holds]

end Index

/-- What a conclusion for a root says of instances. -/
def Conclusion.Holds (I : Interpretation) (ix : Index) (root : ExprId) : Conclusion → Prop
  | .subsumer expr _ => ∀ x, I.InstanceOf ix root x → I.InstanceOf ix expr x
  | .backwardLink source role => ∀ x, I.InstanceOf ix source x → ∃ y, I.role (ix.roleName role) x y ∧ I.InstanceOf ix root y
  | .forwardLink role target => ∀ x, I.InstanceOf ix root x → ∃ y, I.role (ix.roleName role) x y ∧ I.InstanceOf ix target y
  | .propagation role carry => ∀ x y, I.role (ix.roleName role) x y → I.InstanceOf ix root y → I.InstanceOf ix carry x
  | .disjointMember d member => .disjointness member d ∈ ix.contributionsOf member ∧
      ∀ x, I.InstanceOf ix root x → I.InstanceOf ix member x
  | .contradiction => ∀ x, ¬ I.InstanceOf ix root x
  | .init | .rulesChanged _ => True

namespace Index

/-- The members of a disjointness axiom have no instances in common. -/
private theorem pairwise_disjoint {ids : List ExprId} {ts : List Term} (hids : ix.DenoteAll ids ts)
    (hdisjoint : TermEntry.Satisfied I (.disjointness ts)) :
    ids.Pairwise fun a b => ∀ x, ¬ (I.InstanceOf ix a x ∧ I.InstanceOf ix b x) := by
  induction hids with
  | nil => exact .nil
  | @cons id t ids ts hid hids ih =>
    obtain ⟨hfirst, hrest⟩ := List.pairwise_cons.1 hdisjoint
    refine List.pairwise_cons.2 ⟨fun other hother x hx => ?_, ih hrest⟩
    obtain ⟨u, hu, hother⟩ := exists_right_of_mem hids hother
    exact hfirst u hu x ⟨hid.instanceOf_iff.1 hx.1, hother.instanceOf_iff.1 hx.2⟩

variable {entries : List IndexEntry}

/-- What holds below a role holds for the role. -/
private theorem roleIncluded_of_mem_subRoles (hI : I.Models ix) {below above : RoleId}
    (h : below ∈ (RoleHierarchy.build ix).subRoles above) : I.RoleIncluded (ix.roleName below) (ix.roleName above) := by
  obtain ⟨-, hpath⟩ := RoleHierarchy.mem_subRoles_build_iff.1 h
  clear h
  induction hpath with
  | refl => exact fun _ _ hxy => hxy
  | tail _ hstep ih => exact fun x y hxy => ih x y (hI.inclusions hstep x y hxy)

private theorem composes_of_mem_compositions (hI : I.Models ix) {left right composed : RoleId}
    (h : composed ∈ (RoleHierarchy.build ix).compositions left right) :
    I.Composes (ix.roleName left) (ix.roleName right) (ix.roleName composed) := by
  obtain ⟨l, r, htold, hl, hr⟩ := RoleHierarchy.mem_compositions.1 h
  intro x y z hxy hyz
  exact hI.compositions htold x y z (roleIncluded_of_mem_subRoles hI hl x y hxy) (roleIncluded_of_mem_subRoles hI hr y z hyz)

/-- A told inclusion in force holds in every model. -/
private theorem told_holds (h : ix.Accounts) (hpending : ix.pending = .empty) (hI : I.Models ix) {sub sup : ExprId}
    (hg : .toldSuper sub sup ∈ ix.contributionsOf sub) (x : I.Domain) (hx : I.InstanceOf ix sub x) :
    I.InstanceOf ix sup x := by
  obtain ⟨entries, hledger, hreads⟩ := h.exists_entries
  have hsaid := h.models_iff.1 hI
  cases (hledger.mem_contributionsOf_iff_due (g := .toldSuper sub sup) hpending).1 hg with
  | told hentry =>
    obtain ⟨entry, hentry', hread⟩ := exists_right_of_mem hreads hentry
    cases hread with
    | inclusion hsub hsup => exact hsup.instanceOf_iff.2 (hsaid _ hentry' x (hsub.instanceOf_iff.1 hx))
  | repeated hentry hcount =>
    obtain ⟨entry, hentry', hread⟩ := exists_right_of_mem hreads hentry
    cases hread with
    | disjointness hids =>
      -- a member that is listed twice is disjoint from itself
      have htwice := (pairwise_disjoint hids (hsaid _ hentry')).sublist (List.replicate_sublist_iff.2 hcount)
      have hself := List.rel_of_pairwise_cons htwice (List.mem_singleton_self sub)
      exact absurd ⟨hx, hx⟩ (hself x)

/-- Different members of a disjointness axiom in force have no instance in common. -/
private theorem member_disjoint (h : ix.Accounts) (hpending : ix.pending = .empty) (hI : I.Models ix) {m m' : ExprId}
    {d : DisjointnessId} (hm : .disjointness m d ∈ ix.contributionsOf m) (hm' : .disjointness m' d ∈ ix.contributionsOf m')
    (hne : m ≠ m') (x : I.Domain) : ¬ (I.InstanceOf ix m x ∧ I.InstanceOf ix m' x) := by
  obtain ⟨entries, hledger, hreads⟩ := h.exists_entries
  have hsaid := h.models_iff.1 hI
  cases (hledger.mem_contributionsOf_iff_due (g := .disjointness m d) hpending).1 hm with
  | @member ids _ _ set hset hmembers hentry hmember =>
    cases (hledger.mem_contributionsOf_iff_due (g := .disjointness m' d) hpending).1 hm' with
    | @member ids' _ _ set' hset' hmembers' _ hmember' =>
      obtain rfl : set = set' := Option.some.inj (hset.symm.trans hset')
      obtain ⟨entry, hentry', hread⟩ := exists_right_of_mem hreads hentry
      cases hread with
      | disjointness hids =>
        have hmem : m ∈ ids := List.count_pos_iff.1 (hmember ▸ Nat.one_pos)
        have hmem' : m' ∈ ids := by
          rw [← mem_sortIds, ← hmembers, hmembers', mem_sortIds]
          exact List.count_pos_iff.1 (hmember' ▸ Nat.one_pos)
        have hsymm : Std.Symm fun a b => ∀ x, ¬ (I.InstanceOf ix a x ∧ I.InstanceOf ix b x) :=
          ⟨fun a b hab x hx => hab x hx.symm⟩
        exact (pairwise_disjoint hids (hsaid _ hentry')).forall hmem hmem' hne x

/-- What is derivable over the rules of an index is true in every model.  By induction on the derivation. -/
theorem Accounts.sound (h : ix.Accounts) (hpending : ix.pending = .empty) (hI : I.Models ix) {root : ExprId}
    {c : Conclusion} (hd : ix.ruleBase.calculus.Derivable root c) : c.Holds I ix root := by
  induction hd with
  | self root => exact fun _ hx => hx
  | thing root => exact fun x _ => h.tidy.instanceOf_thing x
  | @unfold root expr target c _ _ hu ih =>
    cases hu with
    | first hshape => exact fun x hx => ((h.tidy.instanceOf_conjunction hshape).1 (ih x hx)).1
    | second hshape => exact fun x hx => ((h.tidy.instanceOf_conjunction hshape).1 (ih x hx)).2
    | link hshape => exact fun x hx => (h.tidy.instanceOf_existential hshape).1 (ih x hx)
  | @combine root target premises c _ _ hc ih =>
    cases hc with
    | apply hg hy =>
      cases hy with
      | told => exact fun x hx => told_holds h hpending hI hg x (ih _ (List.mem_singleton_self _) x hx)
      | @conjoin conjunct other both =>
        intro x hx
        have hconjunct := ih (.isA conjunct) (by simp) x hx
        have hother := ih (.isA other) (by simp) x hx
        -- a contribution is found under either conjunct, so the shape may have them the other way round
        rcases h.coherent.conjunction_shape hg with hshape | hshape
        · exact (h.tidy.instanceOf_conjunction hshape).2 ⟨hconjunct, hother⟩
        · exact (h.tidy.instanceOf_conjunction hshape).2 ⟨hother, hconjunct⟩
      | propagate hbelow =>
        intro x y hxy hy
        refine (h.tidy.instanceOf_existential (h.coherent.propagation_shape hg)).2 ⟨y, ?_, ?_⟩
        · exact roleIncluded_of_mem_subRoles hI hbelow x y hxy
        · exact ih _ (List.mem_singleton_self _) y hy
      | member => exact ⟨hg, ih _ (List.mem_singleton_self _)⟩
    | bottom => exact fun x hx => h.tidy.not_instanceOf_nothing x (ih _ (List.mem_singleton_self _) x hx)
    | @clash d m m' hne =>
      intro x hx
      obtain ⟨hm, hinstance⟩ := ih (.disjointMember d m) (by simp)
      obtain ⟨hm', hinstance'⟩ := ih (.disjointMember d m') (by simp)
      exact member_disjoint h hpending hI hm hm' hne x ⟨hinstance x hx, hinstance' x hx⟩
    | @carry _ existential role =>
      intro x hx
      obtain ⟨y, hxy, hy⟩ := ih (.backwardLink target role) (by simp) x hx
      exact ih (.propagation role existential) (by simp) x y hxy hy
    | @empty _ role =>
      intro x hx
      obtain ⟨y, -, hy⟩ := ih (.backwardLink target role) (by simp) x hx
      exact ih .contradiction (by simp) y hy
    | forward => exact ih _ (List.mem_singleton_self _)
    | @compose source _ left right composed hcomp =>
      intro x hx
      obtain ⟨y, hxy, hy⟩ := ih (.backwardLink source left) (by simp) x hx
      obtain ⟨z, hyz, hz⟩ := ih (.forwardLink right target) (by simp) y hy
      exact ⟨z, composes_of_mem_compositions hI hcomp x y z hxy hyz, hz⟩

end Index

end ELOntology
