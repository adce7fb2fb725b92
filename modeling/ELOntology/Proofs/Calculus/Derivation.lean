import ELOntology.Proofs.Calculus.Rules

/-!
# Derivations and saturated facts

`Derives K held` derives conclusions by the rules of a calculus, from conclusions that are both derived and held; where
everything is held this is the calculus itself (`Derivable`).  There a subsumer is always taken apart.  A run takes a
subsumer apart only if it came by a rule that calls for it, so which links it stores depends on the order of its work.

Key fact: what saturated facts store of subsumers and contradictions is what is derivable (`Saturated.stored_isA_iff`,
`Saturated.stored_contradiction_iff`), whichever links they store.
-/

namespace ELOntology

namespace RoleHierarchy

/-- A role is the given one or stands below it. -/
def Under (h : RoleHierarchy) (sub sup : RoleId) : Prop := sub = sup ∨ sub ∈ h.subRoles sup

theorem mem_compositions {h : RoleHierarchy} {left right composed : RoleId} :
    composed ∈ h.compositions left right ↔
      ∃ l r, (l, r, composed) ∈ h.told ∧ left ∈ h.subRoles l ∧ right ∈ h.subRoles r := by
  rw [compositions, mem_distinct, List.mem_filterMap]
  constructor
  · rintro ⟨⟨l, r, sup⟩, hmem, e⟩
    dsimp only at e
    split at e
    · rename_i hbelow
      cases e
      exact ⟨l, r, hmem, of_decide_eq_true hbelow.1, of_decide_eq_true hbelow.2⟩
    · cases e
  · rintro ⟨l, r, hmem, hl, hr⟩
    exact ⟨_, hmem, if_pos ⟨decide_eq_true hl, decide_eq_true hr⟩⟩

theorem isRightComposable_iff {h : RoleHierarchy} {role : RoleId} :
    h.isRightComposable role = true ↔ ∃ l r sup, (l, r, sup) ∈ h.told ∧ role ∈ h.subRoles r := by
  rw [isRightComposable, List.any_eq_true]
  constructor
  · rintro ⟨⟨l, r, sup⟩, hmem, hbelow⟩
    exact ⟨l, r, sup, hmem, of_decide_eq_true hbelow⟩
  · rintro ⟨l, r, sup, hmem, hr⟩
    exact ⟨_, hmem, decide_eq_true hr⟩

theorem isRightComposable_of_mem_compositions {h : RoleHierarchy} {left right composed : RoleId}
    (hc : composed ∈ h.compositions left right) : h.isRightComposable right = true := by
  obtain ⟨l, r, hmem, -, hr⟩ := mem_compositions.1 hc
  exact isRightComposable_iff.2 ⟨l, r, composed, hmem, hr⟩

end RoleHierarchy

namespace Calculus.Regular

variable {K : Calculus}

theorem mem_subRoles_of_under (hK : K.Regular) {top middle bottom : RoleId} (hm : middle ∈ K.roles.subRoles top)
    (hb : K.roles.Under bottom middle) : bottom ∈ K.roles.subRoles top := by
  rcases hb with rfl | hb
  · exact hm
  · exact hK.subRoles_trans hm hb

theorem mem_compositions_of_under (hK : K.Regular) {left right left' right' composed : RoleId}
    (hl : K.roles.Under left' left) (hr : K.roles.Under right' right)
    (h : composed ∈ K.roles.compositions left right) : composed ∈ K.roles.compositions left' right' := by
  obtain ⟨l, r, hmem, hleft, hright⟩ := RoleHierarchy.mem_compositions.1 h
  exact RoleHierarchy.mem_compositions.2
    ⟨l, r, hmem, hK.mem_subRoles_of_under hleft hl, hK.mem_subRoles_of_under hright hr⟩

end Calculus.Regular

/-! ### Derivations -/

/-- What follows for which root, by rules whose premises are derived and held. -/
inductive Derives (K : Calculus) (held : ExprId → Conclusion → Prop) : ExprId → Conclusion → Prop
  | self (root : ExprId) : Derives K held root (.isA root)
  | thing (root : ExprId) : Derives K held root (.isA .thing)
  | unfold {root expr target : ExprId} {c : Conclusion} (hheld : held root (.isA expr))
      (hd : Derives K held root (.isA expr)) (h : Unfolds K root expr target c) : Derives K held target c
  | combine {root target : ExprId} {premises : List Conclusion} {c : Conclusion} (hheld : ∀ p ∈ premises, held root p)
      (hd : ∀ p ∈ premises, Derives K held root p) (h : Combines K root premises target c) :
      Derives K held target c.unsigned

/-- What follows for which root by the rules of the calculus. -/
def Calculus.Derivable (K : Calculus) : ExprId → Conclusion → Prop := Derives K fun _ _ => True

/-- One calculus has all that another one has. -/
structure Calculus.Extends (K K' : Calculus) : Prop where
  shape? {expr : ExprId} {shape : Shape} : K'.shape? expr = some shape → K.shape? expr = some shape
  contributes {g : Contribution} : K'.contributes g → K.contributes g
  subRoles {top bottom : RoleId} : bottom ∈ K'.roles.subRoles top → bottom ∈ K.roles.subRoles top
  told {composition : RoleId × RoleId × RoleId} : composition ∈ K'.roles.told → composition ∈ K.roles.told

namespace Calculus.Extends

variable {K K' : Calculus}

theorem refl (K : Calculus) : K.Extends K := ⟨id, id, id, id⟩

theorem unfolds (h : K.Extends K') {root expr target : ExprId} {c : Conclusion} (hu : Unfolds K' root expr target c) :
    Unfolds K root expr target c := by
  cases hu with
  | first hs => exact .first (h.shape? hs)
  | second hs => exact .second (h.shape? hs)
  | link hs => exact .link (h.shape? hs)

theorem yields (h : K.Extends K') {g : Contribution} {premises : List Conclusion} {c : Conclusion}
    (hy : g.Yields K'.roles premises c) : g.Yields K.roles premises c := by
  cases hy with
  | told => exact .told
  | conjoin => exact .conjoin
  | propagate hs => exact .propagate (h.subRoles hs)
  | member => exact .member

theorem combines (h : K.Extends K') {root target : ExprId} {premises : List Conclusion} {c : Conclusion}
    (hc : Combines K' root premises target c) : Combines K root premises target c := by
  cases hc with
  | apply hg hy => exact .apply (h.contributes hg) (h.yields hy)
  | bottom => exact .bottom
  | clash hne => exact .clash hne
  | carry => exact .carry
  | empty => exact .empty
  | forward hr =>
    obtain ⟨l, r, sup, hmem, hrole⟩ := RoleHierarchy.isRightComposable_iff.1 hr
    exact .forward (RoleHierarchy.isRightComposable_iff.2 ⟨l, r, sup, h.told hmem, h.subRoles hrole⟩)
  | compose hcomp =>
    obtain ⟨l, r, hmem, hl, hr⟩ := RoleHierarchy.mem_compositions.1 hcomp
    exact .compose (RoleHierarchy.mem_compositions.2 ⟨l, r, h.told hmem, h.subRoles hl, h.subRoles hr⟩)

end Calculus.Extends

theorem Derives.mono {K K' : Calculus} {held held' : ExprId → Conclusion → Prop} (hK : K.Extends K')
    (hheld : ∀ root c, held' root c → held root c) {root : ExprId} {c : Conclusion} (h : Derives K' held' root c) :
    Derives K held root c := by
  induction h with
  | self root => exact .self root
  | thing root => exact .thing root
  | unfold hp _ hu ih => exact .unfold (hheld _ _ hp) ih (hK.unfolds hu)
  | combine hp _ hc ih => exact .combine (fun p hmem => hheld _ _ (hp p hmem)) ih (hK.combines hc)

theorem Derives.derivable {K : Calculus} {held : ExprId → Conclusion → Prop} {root : ExprId} {c : Conclusion}
    (h : Derives K held root c) : K.Derivable root c := h.mono (.refl K) fun _ _ _ => trivial

/-- A propagation comes from a contribution to a filler that holds. -/
theorem Derives.exists_filler {K : Calculus} {held : ExprId → Conclusion → Prop} {root existential : ExprId}
    {role : RoleId} (h : Derives K held root (.propagation role existential)) :
    ∃ filler top, K.contributes (.propagation filler top existential) ∧ role ∈ K.roles.subRoles top ∧
      held root (.isA filler) := by
  generalize e : Conclusion.propagation role existential = c at h
  cases h with
  | self | thing => cases e
  | unfold _ _ hu => cases hu <;> cases e
  | combine hp _ hc =>
    cases hc with
    | apply hg hy =>
      cases hy with
      | told | conjoin | member => cases e
      | propagate hs =>
        cases e
        exact ⟨_, _, hg, hs, hp _ (List.mem_singleton_self _)⟩
    | bottom | clash | carry | empty | forward | compose => cases e

/-- A link that is derived for the root it leads to starts where something is held. -/
theorem Derives.exists_held_source {K : Calculus} {held : ExprId → Conclusion → Prop} {root source : ExprId}
    {role : RoleId} (h : Derives K held root (.backwardLink source role)) : ∃ c, held source c := by
  generalize e : Conclusion.backwardLink source role = c at h
  induction h generalizing role with
  | self | thing => cases e
  | unfold hp _ hu =>
    cases hu with
    | first | second => cases e
    | link =>
      cases e
      exact ⟨_, hp⟩
  | combine hp _ hc ih =>
    cases hc with
    | apply _ hy => cases hy <;> cases e
    | bottom | clash | carry | empty | forward => cases e
    | @compose _ _ left =>
      cases e
      exact ih (.backwardLink source left) (List.mem_cons_self ..) rfl

/-- A link that is derived for the root it starts from leads to where something is held. -/
theorem Derives.exists_held_target {K : Calculus} {held : ExprId → Conclusion → Prop} {root target : ExprId}
    {role : RoleId} (h : Derives K held root (.forwardLink role target)) : ∃ c, held target c := by
  generalize e : Conclusion.forwardLink role target = c at h
  cases h with
  | self | thing => cases e
  | unfold _ _ hu => cases hu <;> cases e
  | combine hp _ hc =>
    cases hc with
    | apply _ hy => cases hy <;> cases e
    | bottom | clash | carry | empty | compose => cases e
    | forward =>
      cases e
      exact ⟨_, hp _ (List.mem_singleton_self _)⟩

/-! ### Saturated facts -/

/-- An expression that holds for a root without being taken apart: a rule with stored premises concludes it. -/
def Assembled (K : Calculus) (stored : ExprId → Conclusion → Prop) (root expr : ExprId) : Prop :=
  ∃ source premises, (∀ p ∈ premises, stored source p) ∧ Combines K source premises root (.subsumer expr .negative)

/-- Nothing is left to derive: the facts of all contexts are closed under the rules, save that an expression need not be
taken apart if it is assembled, and each of them is derived from stored ones. -/
structure Saturated (K : Calculus) (stored : ExprId → Conclusion → Prop) : Prop where
  self {root : ExprId} {c : Conclusion} : stored root c → stored root (.isA root)
  thing {root : ExprId} {c : Conclusion} : stored root c → stored root (.isA .thing)
  combined {root target : ExprId} {premises : List Conclusion} {c : Conclusion} :
    (∀ p ∈ premises, stored root p) → Combines K root premises target c → stored target c.unsigned
  explained {root expr : ExprId} : stored root (.isA expr) →
    (∀ target c, Unfolds K root expr target c → stored target c) ∨ Assembled K stored root expr
  derived {root : ExprId} {c : Conclusion} : stored root c → Derives K stored root c.unsigned

/-- A link from a root to where an expression holds, by a role or one below it. -/
def LinkedTo (K : Calculus) (stored : ExprId → Conclusion → Prop) (root : ExprId) (role : RoleId) (expr : ExprId) :
    Prop :=
  ∃ target under, K.roles.Under under role ∧ stored target (.backwardLink root under) ∧ stored target (.isA expr)

/-- How a conclusion about `root` shows at every context that stores `root` as a subsumer. -/
def Mirrored (K : Calculus) (stored : ExprId → Conclusion → Prop) (root : ExprId) : Conclusion → Prop
  | .subsumer expr _ => ∀ at', stored at' (.isA root) → stored at' (.isA expr)
  | .backwardLink source role => ∀ at', stored at' (.isA source) → LinkedTo K stored at' role root
  | .forwardLink role target => ∀ at', stored at' (.isA root) → LinkedTo K stored at' role target
  | .propagation role carry => ∀ at', stored at' (.isA root) →
      ∀ under, K.roles.Under under role → stored at' (.propagation under carry)
  | .disjointMember d member => ∀ at', stored at' (.isA root) → stored at' (.disjointMember d member)
  | .contradiction => ∀ at', stored at' (.isA root) → stored at' .contradiction
  | .init | .rulesChanged _ => True

namespace Saturated

variable {K : Calculus} {stored : ExprId → Conclusion → Prop}

theorem stored_pair {root target : ExprId} {a b c : Conclusion} (h : Saturated K stored) (ha : stored root a)
    (hb : stored root b) (hc : Combines K root [a, b] target c) : stored target c.unsigned :=
  h.combined (List.forall_mem_cons.2 ⟨ha, List.forall_mem_singleton.2 hb⟩) hc

theorem stored_single {root target : ExprId} {a c : Conclusion} (h : Saturated K stored) (ha : stored root a)
    (hc : Combines K root [a] target c) : stored target c.unsigned :=
  h.combined (List.forall_mem_singleton.2 ha) hc

/-- An expression is assembled in two ways: a conjunction of its parts, and an existential along a link, perhaps by a lower
role, to where its filler holds. -/
private theorem assembled_cases (hK : K.Regular) (h : Saturated K stored) {root expr : ExprId}
    (hassembled : Assembled K stored root expr) :
    (∃ first second, K.shape? expr = some (.conjunction first second) ∧ stored root (.isA first) ∧
      stored root (.isA second)) ∨
    ∃ role filler, K.shape? expr = some (.existential role filler) ∧ LinkedTo K stored root role filler := by
  obtain ⟨source, premises, hp, hcomb⟩ := hassembled
  generalize e : Conclusion.subsumer expr .negative = d at hcomb
  cases hcomb with
  | apply hg hy =>
    cases hy with
    | told | propagate | member => cases e
    | conjoin =>
      cases e
      have hfirst := hp _ (List.mem_cons_self ..)
      have hsecond := hp _ (List.mem_cons_of_mem _ (List.mem_singleton_self _))
      rcases hK.conjunction_shape hg with hshape | hshape
      · exact .inl ⟨_, _, hshape, hfirst, hsecond⟩
      · exact .inl ⟨_, _, hshape, hsecond, hfirst⟩
  | bottom | clash | empty | forward | compose => cases e
  | @carry _ _ under =>
    cases e
    have hlink := hp _ (List.mem_cons_self ..)
    have hprop := hp _ (List.mem_cons_of_mem _ (List.mem_singleton_self _))
    obtain ⟨filler, top, hg, hunder, hfiller⟩ := (h.derived hprop).exists_filler
    exact .inr ⟨top, filler, hK.propagation_shape hg, source, under, .inr hunder, hlink, hfiller⟩

/-- What a stored expression consists of shows, whether it was taken apart or assembled. -/
private theorem mirrored_of_unfolds (hK : K.Regular) (h : Saturated K stored) {root expr target : ExprId}
    {c : Conclusion} (hexpr : Mirrored K stored root (.isA expr)) (hu : Unfolds K root expr target c) :
    Mirrored K stored target c := by
  have conjunct {at' first second : ExprId} (hshape : K.shape? expr = some (.conjunction first second))
      (hat : stored at' (.isA expr)) : stored at' (.isA first) ∧ stored at' (.isA second) := by
    rcases h.explained hat with hunfold | hassembled
    · exact ⟨hunfold _ _ (.first hshape), hunfold _ _ (.second hshape)⟩
    · rcases assembled_cases hK h hassembled with ⟨first', second', hshape', hparts⟩ | ⟨role, filler, hshape', -⟩ <;>
        rw [hshape] at hshape' <;> cases hshape'
      exact hparts
  cases hu with
  | first hshape => exact fun at' hat => (conjunct hshape (hexpr at' hat)).1
  | second hshape => exact fun at' hat => (conjunct hshape (hexpr at' hat)).2
  | @link role _ hshape =>
    intro at' hat
    rcases h.explained (hexpr at' hat) with hunfold | hassembled
    · have hlink := hunfold _ _ (.link hshape)
      exact ⟨target, role, .inl rfl, hlink, h.self hlink⟩
    · rcases assembled_cases hK h hassembled with ⟨first, second, hshape', -⟩ | ⟨role', filler, hshape', hlinked⟩ <;>
        rw [hshape] at hshape' <;> cases hshape'
      exact hlinked

/-- Whatever is derivable for a root shows at every context that stores the root as a subsumer.  By induction on the
derivation; a link may show as one by a lower role, to a context where its target holds. -/
theorem mirrored (hK : K.Regular) (h : Saturated K stored) {root : ExprId} {c : Conclusion}
    (hd : K.Derivable root c) : Mirrored K stored root c := by
  induction hd with
  | self root => exact fun _ hat => hat
  | thing root => exact fun _ hat => h.thing hat
  | unfold _ _ hu ih => exact mirrored_of_unfolds hK h ih hu
  | @combine root target premises c _ _ hc ih =>
    cases hc with
    | apply hg hy =>
      cases hy with
      | told => exact fun at' hat => h.stored_single (ih _ (List.mem_singleton_self _) at' hat) (.apply hg .told)
      | conjoin =>
        intro at' hat
        exact h.stored_pair (ih _ (List.mem_cons_self ..) at' hat)
          (ih _ (List.mem_cons_of_mem _ (List.mem_singleton_self _)) at' hat) (.apply hg .conjoin)
      | propagate hs =>
        intro at' hat under hunder
        exact h.stored_single (ih _ (List.mem_singleton_self _) at' hat)
          (.apply hg (.propagate (hK.mem_subRoles_of_under hs hunder)))
      | member => exact fun at' hat => h.stored_single (ih _ (List.mem_singleton_self _) at' hat) (.apply hg .member)
    | bottom => exact fun at' hat => h.stored_single (ih _ (List.mem_singleton_self _) at' hat) .bottom
    | clash hne =>
      intro at' hat
      exact h.stored_pair (ih _ (List.mem_cons_self ..) at' hat)
        (ih _ (List.mem_cons_of_mem _ (List.mem_singleton_self _)) at' hat) (.clash hne)
    | carry =>
      intro at' hat
      obtain ⟨middle, under, hunder, hlink, hmiddle⟩ := ih _ (List.mem_cons_self ..) at' hat
      have hprop := ih _ (List.mem_cons_of_mem _ (List.mem_singleton_self _)) middle hmiddle under hunder
      exact h.stored_pair hlink hprop .carry
    | empty =>
      intro at' hat
      obtain ⟨middle, under, -, hlink, hmiddle⟩ := ih _ (List.mem_cons_self ..) at' hat
      exact h.stored_pair hlink (ih _ (List.mem_cons_of_mem _ (List.mem_singleton_self _)) middle hmiddle) .empty
    | forward => exact ih _ (List.mem_singleton_self _)
    | compose hcomp =>
      intro at' hat
      obtain ⟨middle, under, hunder, hlink, hmiddle⟩ := ih _ (List.mem_cons_self ..) at' hat
      obtain ⟨last, under', hunder', hlink', hlast⟩ :=
        ih _ (List.mem_cons_of_mem _ (List.mem_singleton_self _)) middle hmiddle
      have hcomp' := hK.mem_compositions_of_under hunder hunder' hcomp
      have hforward := h.stored_single hlink' (.forward (RoleHierarchy.isRightComposable_of_mem_compositions hcomp'))
      exact ⟨last, _, .inl rfl, h.stored_pair hlink hforward (.compose hcomp'), hlast⟩

/-- The subsumers of a context are those that are derivable for its root. -/
theorem stored_isA_iff (hK : K.Regular) (h : Saturated K stored) {root expr : ExprId} (hroot : stored root (.isA root)) :
    stored root (.isA expr) ↔ K.Derivable root (.isA expr) :=
  ⟨fun hexpr => (h.derived hexpr).derivable, fun hd => h.mirrored hK hd root hroot⟩

/-- A context has found its root to be empty if and only if this is derivable. -/
theorem stored_contradiction_iff (hK : K.Regular) (h : Saturated K stored) {root : ExprId}
    (hroot : stored root (.isA root)) : stored root .contradiction ↔ K.Derivable root .contradiction :=
  ⟨fun hc => (h.derived hc).derivable, fun hd => h.mirrored hK hd root hroot⟩

end Saturated

end ELOntology
