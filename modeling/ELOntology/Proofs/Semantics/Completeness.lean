import Mathlib.Data.List.NodupEquivFin
import ELOntology.Proofs.Semantics.Soundness

/-!
# Completeness

The roots that are not derived to be empty make up the canonical model of an index: a root is an instance of the classes
that are derived for it, and a role relates it to the roots at which a link by this role or one below it is derived.  An
expression that is derived for a root holds of it there, and an expression that occurs on the left of some axiom holds of
those roots only for which it is derived.  So the canonical model satisfies all axioms, and what is not derivable fails in
it.

Key facts: `Index.Accounts.derivable_isA_iff` and `Index.Accounts.derivable_contradiction_iff` (what is derivable is what is
true in all models).
-/

namespace ELOntology

namespace Index

variable {ix : Index}

/-- What is derivable over the rules of an index. -/
abbrev Derivable (ix : Index) : ExprId → Conclusion → Prop := ix.ruleBase.calculus.Derivable

theorem isClass_iff {id : ExprId} : ix.isClass id = true ↔ ∃ iri, ix.shape? id = some (.named iri) := by
  unfold isClass
  split <;> simp_all

/-- The roots that are not derived to be empty. -/
abbrev Element (ix : Index) : Type := { root : ExprId // ¬ ix.Derivable root .contradiction }

namespace Derivable

variable {root target : ExprId} {a b c : Conclusion}

private theorem of_single (ha : ix.Derivable root a) (h : Combines ix.ruleBase.calculus root [a] target c) :
    ix.Derivable target c.unsigned :=
  .combine (fun _ _ => trivial) (List.forall_mem_singleton.2 ha) h

private theorem of_pair (ha : ix.Derivable root a) (hb : ix.Derivable root b)
    (h : Combines ix.ruleBase.calculus root [a, b] target c) : ix.Derivable target c.unsigned :=
  .combine (fun _ _ => trivial) (List.forall_mem_cons.2 ⟨ha, List.forall_mem_singleton.2 hb⟩) h

private theorem of_unfolds {expr : ExprId} (hd : ix.Derivable root (.isA expr))
    (h : Unfolds ix.ruleBase.calculus root expr target c) : ix.Derivable target c := .unfold trivial hd h

end Derivable

/-- The canonical model of an index in which some root is not derived to be empty. -/
def canonical (hix : ix.Tidy) (point : ix.Element) : Interpretation where
  Domain := ix.Element
  nonempty := ⟨point⟩
  named iri x := ∃ id, ix.shape? id = some (.named iri) ∧ ix.Derivable x (.isA id)
  nominal individual x := ∃ id, ix.shape? id = some (.nominal individual) ∧ ix.Derivable x (.isA id)
  data property space x := ∃ id, ix.shape? id = some (.data property space) ∧ ix.Derivable x (.isA id)
  role name x y := ∃ role under, ix.role? role = some name ∧ (RoleHierarchy.build ix).Under under role ∧
    ix.Derivable y (.backwardLink x under)
  thing x := ⟨.thing, hix.thing, .thing x⟩
  nothing x := by
    rintro ⟨id, hid, hd⟩
    obtain rfl := hix.shape_unique hid hix.nothing
    exact x.2 (Derivable.of_single hd .bottom)

variable {point : ix.Element}

/-- What is derived for a root holds of it in the canonical model. -/
theorem holds_of_derivable (hix : ix.Tidy) {id : ExprId} {t : Term} (hid : ix.Denotes id t) :
    ∀ x : ix.Element, ix.Derivable x (.isA id) → t.Holds (canonical hix point) x := by
  induction hid with
  | named h | nominal h | data h => exact fun x hd => ⟨_, h, hd⟩
  | conjunction h _ _ ih₁ ih₂ => exact fun x hd => ⟨ih₁ x (hd.of_unfolds (.first h)), ih₂ x (hd.of_unfolds (.second h))⟩
  | @existential id filler role name t h hrole _ ih =>
    intro x hd
    have hlink : ix.Derivable filler (.backwardLink x role) := hd.of_unfolds (.link h)
    have hfiller : ¬ ix.Derivable filler .contradiction := fun hempty => x.2 (hlink.of_pair hempty .empty)
    exact ⟨⟨filler, hfiller⟩, ⟨role, role, hrole, .inl rfl, hlink⟩, ih ⟨filler, hfiller⟩ (.self filler)⟩

/-- An expression that occurs on the left holds only of the roots for which it is derived. -/
theorem derivable_of_holds (h : ix.Accounts) (hpending : ix.pending = .empty) {id : ExprId} {t : Term}
    (hid : ix.Denotes id t) : .occurrence .negative t ∈ ix.said →
      ∀ x : ix.Element, t.Holds (canonical h.tidy point) x → ix.Derivable x (.isA id) := by
  obtain ⟨entries, hledger, hreads⟩ := h.exists_entries
  have entered {id : ExprId} {t : Term} (hid : ix.Denotes id t) (hsaid : .occurrence .negative t ∈ ix.said) :
      .occurrence .negative id ∈ entries := by
    obtain ⟨entry, hentry, hread⟩ := exists_left_of_mem hreads hsaid
    cases hread with
    | occurrence hid' => rwa [h.tidy.id_unique hid hid']
  induction hid with
  | named hshape | nominal hshape | data hshape =>
    rintro hsaid x ⟨id', hid', hd⟩
    rwa [h.tidy.shape_unique hshape hid']
  | @conjunction id first second t u hshape hfirst hsecond ih₁ ih₂ =>
    intro hsaid x hx
    have hd₁ := ih₁ (ix.complete_said _ hsaid _ .first) x hx.1
    have hd₂ := ih₂ (ix.complete_said _ hsaid _ .second) x hx.2
    have hg : .conjunction first second id ∈ ix.contributionsOf first :=
      (hledger.mem_contributionsOf_iff_due (g := .conjunction first second id) hpending).2
        (.first hshape (entered (.conjunction hshape hfirst hsecond) hsaid))
    exact Derivable.of_pair hd₁ hd₂ (.apply (g := .conjunction first second id) hg .conjoin)
  | @existential id filler role name t hshape hrole hfiller ih =>
    rintro hsaid x ⟨(y : ix.Element), ⟨role', under, hrole', hunder, hlink⟩, hy⟩
    obtain rfl : role = role' := h.tidy.role_unique hrole hrole'
    have hd := ih (ix.complete_said _ hsaid _ .filler) y hy
    have hg : .propagation filler role id ∈ ix.contributionsOf filler :=
      (hledger.mem_contributionsOf_iff_due (g := .propagation filler role id) hpending).2
        (.filler hshape (entered (.existential hshape hrole hfiller) hsaid))
    have hbelow : under ∈ (RoleHierarchy.build ix).subRoles role := by
      rcases hunder with rfl | hunder
      · exact RoleHierarchy.subRoles_build_refl (lt_size_of_role? hrole)
      · exact hunder
    have hprop : ix.Derivable y.1 (.propagation under id) :=
      Derivable.of_single hd (.apply (g := .propagation filler role id) hg (.propagate hbelow))
    exact Derivable.of_pair hlink hprop .carry

/-- No root that is not empty has two members of a disjointness axiom, or one that is listed twice. -/
private theorem not_derivable_members {entries : List IndexEntry} (hledger : ix.Ledger entries) (hpending : ix.pending = .empty)
    {ids : List ExprId} (hentry : .disjointness ids ∈ entries) {m m' : ExprId} (hm : m ∈ ids) (hm' : m' ∈ ids)
    (h : m = m' → 1 < ids.count m) (x : ix.Element) (hd : ix.Derivable x (.isA m)) (hd' : ix.Derivable x (.isA m')) :
    False := by
  have repeated {m : ExprId} (hcount : 1 < ids.count m) (hd : ix.Derivable x (.isA m)) : False := by
    have hg : .toldSuper m .nothing ∈ ix.contributionsOf m :=
      (hledger.mem_contributionsOf_iff_due (g := .toldSuper m .nothing) hpending).2 (.repeated hentry hcount)
    have hnothing : ix.Derivable x (.isA .nothing) :=
      Derivable.of_single hd (.apply (g := .toldSuper m .nothing) hg .told)
    exact x.2 (hnothing.of_single .bottom)
  obtain ⟨d, set, hset, hmembers⟩ := hledger.sets.exists_set hentry
  have member {m : ExprId} (hcount : ids.count m = 1) (hd : ix.Derivable x (.isA m)) :
      ix.Derivable x (.disjointMember ⟨d⟩ m) := by
    have hg : .disjointness m ⟨d⟩ ∈ ix.contributionsOf m :=
      (hledger.mem_contributionsOf_iff_due (g := .disjointness m ⟨d⟩) hpending).2 (.member hset hmembers hentry hcount)
    exact Derivable.of_single hd (.apply (g := .disjointness m ⟨d⟩) hg .member)
  have hpos := List.count_pos_iff.2 hm
  have hpos' := List.count_pos_iff.2 hm'
  -- a member that is listed twice is told to be empty, two different ones clash
  by_cases hcount : 1 < ids.count m
  · exact repeated hcount hd
  by_cases hcount' : 1 < ids.count m'
  · exact repeated hcount' hd'
  · have hne : m ≠ m' := fun e => hcount (h e)
    exact x.2 (Derivable.of_pair (member (by omega) hd) (member (by omega) hd') (.clash hne))

/-- The canonical model satisfies the axioms of the index. -/
theorem Accounts.canonical_models (h : ix.Accounts) (hpending : ix.pending = .empty) :
    (canonical h.tidy point).Models ix := by
  obtain ⟨entries, hledger, hreads⟩ := h.exists_entries
  refine h.models_iff.2 fun said hsaid => ?_
  obtain ⟨entry, hentry, hread⟩ := exists_left_of_mem hreads hsaid
  cases hread with
  | occurrence => trivial
  | @inclusion sub sup t u hsub hsup =>
    intro x hx
    have hd := derivable_of_holds h hpending hsub (ix.complete_said _ hsaid _ .inclusion) x hx
    have hg : .toldSuper sub sup ∈ ix.contributionsOf sub :=
      (hledger.mem_contributionsOf_iff_due (g := .toldSuper sub sup) hpending).2 (.told hentry)
    exact holds_of_derivable h.tidy hsup x (Derivable.of_single hd (.apply (g := .toldSuper sub sup) hg .told))
  | @disjointness ids ts hids =>
    refine List.pairwise_iff_getElem.2 fun i j hi hj hlt (x : ix.Element) hx => ?_
    obtain ⟨hlength, hget⟩ := List.forall₂_iff_get.1 hids
    have hi' : i < ids.length := by omega
    have hj' : j < ids.length := by omega
    have hderived {k : Nat} (hk : k < ids.length) (hk' : k < ts.length) (hx : ts[k].Holds (canonical h.tidy point) x) :
        ix.Derivable x.1 (.isA ids[k]) := by
      refine derivable_of_holds h hpending (hget k hk hk') (ix.complete_said _ hsaid _ (.member ?_)) x hx
      exact List.getElem_mem hk'
    refine not_derivable_members hledger hpending hentry (List.getElem_mem hi') (List.getElem_mem hj') (fun e => ?_) x
      (hderived hi' hi hx.1) (hderived hj' hj hx.2)
    refine List.duplicate_iff_two_le_count.1 (List.duplicate_iff_exists_distinct_get.2 ?_)
    exact ⟨⟨i, hi'⟩, ⟨j, hj'⟩, hlt, rfl, e⟩
  | @roleInclusion sub sup n m hsub hsup =>
    rintro x y ⟨role, under, hrole, hunder, hlink⟩
    obtain rfl := h.tidy.role_unique hrole hsub
    -- links of the canonical model are closed under the hierarchy, so an inclusion only renames the role
    have hbelow : role ∈ (RoleHierarchy.build ix).subRoles sup :=
      RoleHierarchy.mem_subRoles_build_iff.2 ⟨lt_size_of_role? hsup, .single (hledger.mem_toldInclusions_iff.2 hentry)⟩
    exact ⟨sup, under, hsup, .inr (h.regular.mem_subRoles_of_under hbelow hunder), hlink⟩
  | @composition left right sup l r s hleft hright hsup =>
    rintro (x : ix.Element) (y : ix.Element) (z : ix.Element) ⟨role, under, hrole, hunder, hlink⟩
      ⟨role', under', hrole', hunder', hlink'⟩
    obtain rfl := h.tidy.role_unique hrole hleft
    obtain rfl := h.tidy.role_unique hrole' hright
    have hcomp : sup ∈ (RoleHierarchy.build ix).compositions under under' := by
      refine h.regular.mem_compositions_of_under hunder hunder' (RoleHierarchy.mem_compositions.2 ?_)
      exact ⟨role, role', hledger.mem_toldCompositions_iff.2 hentry,
        RoleHierarchy.subRoles_build_refl (lt_size_of_role? hrole),
        RoleHierarchy.subRoles_build_refl (lt_size_of_role? hrole')⟩
    have hforward : ix.Derivable y.1 (.forwardLink under' z.1) :=
      Derivable.of_single hlink' (.forward (RoleHierarchy.isRightComposable_of_mem_compositions hcomp))
    exact ⟨sup, sup, hsup, .inl rfl, Derivable.of_pair hlink hforward (.compose hcomp)⟩

/-- It is derivable that a root is empty if and only if it is empty in all models. -/
theorem Accounts.derivable_contradiction_iff (h : ix.Accounts) (hpending : ix.pending = .empty) {root : ExprId}
    (hroot : root.val < ix.nodes.size) :
    ix.Derivable root .contradiction ↔ ∀ I : Interpretation, I.Models ix → ∀ x, ¬ I.InstanceOf ix root x := by
  refine ⟨fun hd I hI => h.sound hpending hI hd, fun hempty => ?_⟩
  by_contra hd
  obtain ⟨t, ht⟩ := h.tidy.exists_denotes hroot
  let point : ix.Element := ⟨root, hd⟩
  have hself : t.Holds (canonical h.tidy point) point := holds_of_derivable h.tidy ht point (.self root)
  exact hempty _ (h.canonical_models hpending) point ⟨t, ht, hself⟩

/-- A named class is derivable for a root, or the root is derivably empty, if and only if the root is included in the
class in all models. -/
theorem Accounts.derivable_isA_iff (h : ix.Accounts) (hpending : ix.pending = .empty) {root id : ExprId}
    (hroot : root.val < ix.nodes.size) (hid : ix.isClass id = true) :
    (ix.Derivable root .contradiction ∨ ix.Derivable root (.isA id)) ↔
      ∀ I : Interpretation, I.Models ix → ∀ x, I.InstanceOf ix root x → I.InstanceOf ix id x := by
  constructor
  · rintro (hd | hd) I hI x hx
    · exact absurd hx (h.sound hpending hI hd x)
    · exact h.sound hpending hI hd x hx
  · intro hincluded
    rw [Classical.or_iff_not_imp_left]
    intro hd
    obtain ⟨t, ht⟩ := h.tidy.exists_denotes hroot
    obtain ⟨iri, hiri⟩ := isClass_iff.1 hid
    let point : ix.Element := ⟨root, hd⟩
    have hself : t.Holds (canonical h.tidy point) point := holds_of_derivable h.tidy ht point (.self root)
    have hclass := hincluded _ (h.canonical_models hpending) point ⟨t, ht, hself⟩
    obtain ⟨id', hid', hderived⟩ := (Denotes.named hiri).instanceOf_iff.1 hclass
    rwa [h.tidy.shape_unique hiri hid']

end Index

end ELOntology
