import Mathlib.Algebra.Ring.Nat
import Mathlib.Data.List.Nodup
import Mathlib.Data.List.Perm.Subperm
import ELOntology.Saturation.Bound
import ELOntology.Proofs.Calculus.Rules

/-!
# How much a context stores and produces

Key facts: `Facts.length_stored_insert` and `Facts.length_stored_erase` (a conclusion is stored once), and
`RuleBase.length_productions_le` (a bound on the productions of one conclusion, by how much the context stores).
-/

namespace ELOntology

namespace Facts

variable {facts : Facts} {c : Conclusion}

/-! ### How much is stored -/

theorem nodup_exprsOf (s : NatSet) : (exprsOf s).Nodup := by
  rw [exprsOf, List.Nodup, List.pairwise_map]
  exact s.ascending.imp fun h e => Nat.ne_of_lt h (ExprId.mk.inj e)

private theorem kind_of_mem_conclusionsOf {κ : Type} {key : Nat → κ} {conclude : κ → ExprId → Conclusion}
    {r : NatRelation} (kind : ConclusionKind) (hkind : ∀ k x, (conclude k x).kind = kind) :
    ∀ c ∈ conclusionsOf key conclude r, c.kind = kind := by
  intro c hc
  obtain ⟨i, x, -, rfl⟩ := mem_conclusionsOf.1 hc
  exact hkind _ _

private theorem nodup_conclusionsOf {κ : Type} (key : Nat → κ) (conclude : κ → ExprId → Conclusion) (r : NatRelation)
    (hinj : ∀ i j x y, conclude (key i) x = conclude (key j) y → i = j ∧ x = y) :
    (conclusionsOf key conclude r).Nodup := by
  rw [conclusionsOf, List.nodup_flatMap]
  constructor
  · intro row hrow
    obtain ⟨⟨i, s⟩, -, rfl⟩ := List.mem_map.1 hrow
    exact (nodup_exprsOf s).map fun x y e => (hinj i i x y e).2
  · rw [rowsOf, List.pairwise_map]
    refine r.ascending.imp fun {row row'} hlt => ?_
    simp only [Function.onFun, List.disjoint_left, List.mem_map]
    rintro _ ⟨x, -, rfl⟩ ⟨y, -, e⟩
    exact Nat.ne_of_lt hlt (hinj _ _ _ _ e).1.symm

/-- Lists of conclusions of other kinds. -/
private theorem nodup_append_of_kinds {xs ys : List Conclusion} {kinds : List ConclusionKind} (kind : ConclusionKind)
    (hxs : xs.Nodup ∧ ∀ c ∈ xs, c.kind ∈ kinds) (hys : ys.Nodup) (hkind : ∀ c ∈ ys, c.kind = kind) (hne : kind ∉ kinds) :
    (xs ++ ys).Nodup ∧ ∀ c ∈ xs ++ ys, c.kind ∈ kind :: kinds := by
  refine ⟨List.nodup_append.2 ⟨hxs.1, hys, fun a ha b hb e => hne ?_⟩, fun c hc => ?_⟩
  · rw [← hkind b hb, ← e]
    exact hxs.2 a ha
  · rcases List.mem_append.1 hc with hc | hc
    · exact List.mem_cons_of_mem _ (hxs.2 c hc)
    · rw [hkind c hc]
      exact List.mem_cons_self ..

/-- No conclusion is stored twice. -/
theorem nodup_stored (facts : Facts) : facts.stored.Nodup := by
  have hsub : (facts.subsumers.map (Conclusion.subsumer · .positive)).Nodup ∧
      ∀ c ∈ facts.subsumers.map (Conclusion.subsumer · .positive), c.kind ∈ [ConclusionKind.subsumer] := by
    constructor
    · rw [List.Nodup, List.pairwise_map]
      exact (nodup_exprsOf facts.subsumerSet).imp fun hne e => hne (Conclusion.subsumer.inj e).1
    · intro c hc
      obtain ⟨expr, -, rfl⟩ := List.mem_map.1 hc
      exact List.mem_singleton_self _
  have hback := nodup_append_of_kinds .backwardLink hsub
    (nodup_conclusionsOf RoleId.mk (fun role source => .backwardLink source role) facts.backwardLinks
      fun i j x y e => by simp_all)
    (kind_of_mem_conclusionsOf .backwardLink fun _ _ => rfl) (by simp)
  have hforward := nodup_append_of_kinds .forwardLink hback
    (nodup_conclusionsOf RoleId.mk .forwardLink facts.forwardLinks fun i j x y e => by simp_all)
    (kind_of_mem_conclusionsOf .forwardLink fun _ _ => rfl) (by simp)
  have hprop := nodup_append_of_kinds .propagation hforward
    (nodup_conclusionsOf RoleId.mk .propagation facts.propagations fun i j x y e => by simp_all)
    (kind_of_mem_conclusionsOf .propagation fun _ _ => rfl) (by simp)
  have hmember := nodup_append_of_kinds .disjointMember hprop
    (nodup_conclusionsOf DisjointnessId.mk .disjointMember facts.memberships fun i j x y e => by simp_all)
    (kind_of_mem_conclusionsOf .disjointMember fun _ _ => rfl) (by simp)
  refine (nodup_append_of_kinds .contradiction hmember ?_ ?_ (by simp)).1
  · split
    · exact List.pairwise_singleton _ _
    · exact List.Pairwise.nil
  · intro c hc
    split at hc
    · rw [List.mem_singleton.1 hc]
      rfl
    · cases hc

/-- What is stored after an insertion: one conclusion more. -/
theorem length_stored_insert (hc : c.isStorable = true) (hnew : facts.contains c = false) :
    (facts.insert c).stored.length = facts.stored.length + 1 := by
  have hperm : (facts.insert c).stored.Perm (c.unsigned :: facts.stored) := by
    refine (List.perm_ext_iff_of_nodup (nodup_stored _) ?_).2 fun d => ?_
    · refine List.nodup_cons.2 ⟨fun hmem => ?_, nodup_stored _⟩
      rw [mem_stored, contains_unsigned, hnew] at hmem
      exact Bool.false_ne_true hmem.2
    · rw [List.mem_cons, mem_stored, mem_stored, contains_insert]
      constructor
      · rintro ⟨hd, h⟩
        rcases (Bool.or_eq_true _ _).mp h with h | h
        · exact .inl (hd.symm.trans (of_decide_eq_true h).2)
        · exact .inr ⟨hd, h⟩
      · rintro (rfl | ⟨hd, h⟩)
        · simp [hc]
        · simp [hd, h]
  exact hperm.length_eq

/-- What is stored after a conclusion has been taken back: one conclusion less. -/
theorem length_stored_erase (hc : facts.contains c = true) :
    (facts.erase c).stored.length + 1 = facts.stored.length := by
  have hperm : facts.stored.Perm (c.unsigned :: (facts.erase c).stored) := by
    refine (List.perm_ext_iff_of_nodup (nodup_stored _) ?_).2 fun d => ?_
    · refine List.nodup_cons.2 ⟨fun hmem => ?_, nodup_stored _⟩
      rw [mem_stored, contains_erase] at hmem
      simp at hmem
    · rw [List.mem_cons, mem_stored, mem_stored, contains_erase]
      by_cases e : d.unsigned = c.unsigned
      · constructor
        · rintro ⟨hd, -⟩
          exact .inl (hd.symm.trans e)
        · rintro (rfl | ⟨-, h⟩)
          · simp [hc]
          · simp [e] at h
      · constructor
        · rintro ⟨hd, h⟩
          exact .inr ⟨hd, by simp [e, h]⟩
        · rintro (rfl | ⟨hd, h⟩)
          · simp at e
          · simp only [Bool.and_eq_true] at h
            exact ⟨hd, h.2⟩
  exact hperm.length_eq.symm

theorem insert_of_not_isStorable (hc : c.isStorable = false) : facts.insert c = facts := by
  cases c <;> first | rfl | cases hc

/-! ### Parts of what is stored -/

theorem length_le_stored {cs : List Conclusion} (hcs : cs.Nodup) (hmem : ∀ c ∈ cs, c ∈ facts.stored) :
    cs.length ≤ facts.stored.length := (hcs.subperm hmem).length_le

theorem length_sourcesBy_le (facts : Facts) (role : RoleId) : (facts.sourcesBy role).length ≤ facts.stored.length := by
  rw [← List.length_map (f := fun source => Conclusion.backwardLink source role)]
  refine length_le_stored ?_ fun c hc => ?_
  · rw [List.Nodup, List.pairwise_map]
    exact (nodup_exprsOf _).imp fun hne e => hne (Conclusion.backwardLink.inj e).1
  · obtain ⟨source, hsource, rfl⟩ := List.mem_map.1 hc
    exact mem_stored.2 ⟨rfl, mem_sourcesBy.1 hsource⟩

theorem length_carriedBy_le (facts : Facts) (role : RoleId) : (facts.carriedBy role).length ≤ facts.stored.length := by
  rw [← List.length_map (f := fun carry => Conclusion.propagation role carry)]
  refine length_le_stored ?_ fun c hc => ?_
  · rw [List.Nodup, List.pairwise_map]
    exact (nodup_exprsOf _).imp fun hne e => hne (Conclusion.propagation.inj e).2
  · obtain ⟨carry, hcarry, rfl⟩ := List.mem_map.1 hc
    exact mem_stored.2 ⟨rfl, mem_carriedBy.1 hcarry⟩

private theorem length_conclusionsOf {κ : Type} (key : Nat → κ) (conclude : κ → ExprId → Conclusion) (r : NatRelation) :
    (conclusionsOf key conclude r).length = ((rowsOf key r).map fun row => row.2.length).sum := by
  rw [conclusionsOf, List.length_flatMap]
  simp

theorem sum_backward_le (facts : Facts) : (facts.backward.map fun row => row.2.length).sum ≤ facts.stored.length := by
  have h := length_conclusionsOf RoleId.mk (fun role source => .backwardLink source role) facts.backwardLinks
  rw [backward, ← h, stored]
  simp only [List.length_append]
  omega

theorem sum_forward_le (facts : Facts) : (facts.forward.map fun row => row.2.length).sum ≤ facts.stored.length := by
  have h := length_conclusionsOf RoleId.mk .forwardLink facts.forwardLinks
  rw [forward, ← h, stored]
  simp only [List.length_append]
  omega

end Facts

namespace RuleBase

variable {rb : RuleBase} {facts : Facts} {n : Nat}

/-! ### How much is produced -/

private theorem length_distinct_le {α : Type} [DecidableEq α] (xs : List α) : (distinct xs).length ≤ xs.length := by
  induction xs with
  | nil => exact Nat.le_refl 0
  | cons x xs ih => exact Nat.succ_le_succ (Nat.le_trans (List.length_filter_le ..) ih)

private theorem length_compositions_le (left right : RoleId) :
    (rb.roles.compositions left right).length ≤ rb.roles.told.length :=
  Nat.le_trans (length_distinct_le _) (List.length_filterMap_le ..)

/-- Compositions with the links of a table of links. -/
private theorem length_composed_le {rows : List (RoleId × List ExprId)} (compose : RoleId → List RoleId)
    (conclude : RoleId → ExprId → Production) {told : Nat} (hcompose : ∀ role, (compose role).length ≤ told)
    (hrows : (rows.map fun row => row.2.length).sum ≤ n) :
    (rows.flatMap fun row => (compose row.1).flatMap fun composed => row.2.map (conclude composed)).length ≤ n * told := by
  refine Nat.le_trans ?_ (Nat.mul_le_mul_right told hrows)
  clear hrows
  induction rows with
  | nil => exact Nat.zero_le _
  | cons row rows ih =>
    have hrow : ((compose row.1).flatMap fun composed => row.2.map (conclude composed)).length =
        row.2.length * (compose row.1).length := by
      simp [List.length_flatMap, Nat.mul_comm]
    rw [List.flatMap_cons, List.length_append, hrow, List.map_cons, List.sum_cons, Nat.add_mul]
    exact Nat.add_le_add (Nat.mul_le_mul_left _ (hcompose row.1)) ih

private theorem le_foldl_max (init : Nat) (xs : List Nat) : init ≤ xs.foldl max init ∧ ∀ x ∈ xs, x ≤ xs.foldl max init := by
  induction xs generalizing init with
  | nil => exact ⟨Nat.le_refl init, fun x hx => absurd hx List.not_mem_nil⟩
  | cons y ys ih =>
    obtain ⟨hinit, hmem⟩ := ih (max init y)
    rw [List.foldl_cons]
    refine ⟨Nat.le_trans (Nat.le_max_left ..) hinit, fun x hx => ?_⟩
    rcases List.mem_cons.1 hx with rfl | hx
    · exact Nat.le_trans (Nat.le_max_right ..) hinit
    · exact hmem x hx

private theorem length_subRoles_le (role : RoleId) :
    (rb.roles.subRoles role).length ≤ (rb.roles.below.toList.map List.length).foldl max 1 := by
  unfold RoleHierarchy.subRoles
  rw [Array.getD_eq_getD_getElem?]
  cases hrow : rb.roles.below[role.val]? with
  | none => exact Nat.zero_le _
  | some row =>
    have hmem : row ∈ rb.roles.below.toList := Array.mem_toList_iff.2 (Array.mem_of_getElem? hrow)
    exact (le_foldl_max 1 _).2 _ (List.mem_map_of_mem hmem)

private theorem length_flatMap_le {α β : Type} {f : α → List β} {k : Nat} (hf : ∀ x, (f x).length ≤ k) (xs : List α) :
    (xs.flatMap f).length ≤ xs.length * k := by
  induction xs with
  | nil => exact Nat.zero_le _
  | cons x xs ih =>
    rw [List.flatMap_cons, List.length_append, List.length_cons, Nat.succ_mul, Nat.add_comm]
    exact Nat.add_le_add ih (hf x)

private theorem length_ruleConclusions_le (premise : ExprId) (rule : Rule) :
    (rb.ruleConclusions facts premise rule).length ≤ rb.ruleWidth rule := by
  have hone := (le_foldl_max 1 (rb.roles.below.toList.map List.length)).1
  have hwidth {k : Nat} (hk : k ≤ rule.size) : k ≤ rb.ruleWidth rule :=
    Nat.le_trans hk (Nat.le_mul_of_pos_right _ hone)
  cases rule with
  | toldSupers supers => exact hwidth (by simp [ruleConclusions, Rule.size])
  | conjunctions pairs =>
    refine hwidth ?_
    simp only [ruleConclusions, Rule.size, List.length_map]
    exact List.length_filter_le ..
  | propagations pairs =>
    refine length_flatMap_le (fun pair => ?_) pairs
    rw [List.length_map]
    exact length_subRoles_le pair.1
  | disjointness memberships => exact hwidth (by simp [ruleConclusions, Rule.size])

/-- The width of all rules of an index. -/
private def rulesWidth (rb : RuleBase) : Nat := rb.index.nodes.toList.foldr (fun node n => rb.nodeWidth node + n) 0

private theorem le_foldr_add {α : Type} {f : α → Nat} {x : α} {xs : List α} (hx : x ∈ xs) :
    f x ≤ xs.foldr (fun x n => f x + n) 0 := by
  induction xs with
  | nil => cases hx
  | cons y ys ih =>
    rw [List.foldr_cons]
    rcases List.mem_cons.1 hx with rfl | hx
    · exact Nat.le_add_right ..
    · exact Nat.le_trans (ih hx) (Nat.le_add_left ..)

private theorem length_compose_le (premise : ExprId) : (rb.compose facts premise).length ≤ rb.rulesWidth := by
  have hrules (rules : RuleChain) : (rules.flatMap (rb.ruleConclusions facts premise)).length ≤
      rules.foldr (fun rule n => rb.ruleWidth rule + n) 0 := by
    induction rules with
    | nil => exact Nat.zero_le _
    | cons rule rules ih =>
      rw [List.flatMap_cons, List.length_append, List.foldr_cons]
      exact Nat.add_le_add (length_ruleConclusions_le premise rule) ih
  unfold compose Index.rulesOf
  cases hnode : rb.index.node? premise with
  | none => exact Nat.zero_le _
  | some node =>
    have hmem : node ∈ rb.index.nodes.toList := Array.mem_toList_iff.2 (Array.mem_of_getElem? hnode)
    exact Nat.le_trans (hrules node.rules) (le_foldr_add (f := rb.nodeWidth) hmem)

/-- A conclusion has no more productions than `widthBound` says for what the context stores. -/
theorem length_productions_le (mode : Mode) (root : ExprId) (c : Conclusion) (hfacts : facts.stored.length ≤ n) :
    (rb.productions mode root facts c).length ≤ rb.widthBound n := by
  have hwidth : rb.widthBound n = 4 + n * (rb.roles.told.length + 1) + rb.rulesWidth := rfl
  -- the three summands: a fixed part, one conclusion for each fact and role, and the rules of one premise
  have hcompose (premise : ExprId) : ((rb.compose facts premise).map (root, ·)).length ≤ rb.rulesWidth := by
    rw [List.length_map]
    exact length_compose_le premise
  have hsucc : n * (rb.roles.told.length + 1) = n * rb.roles.told.length + n := Nat.mul_succ ..
  cases c with
  | init =>
    simp only [productions, List.length_cons, List.length_nil]
    omega
  | subsumer expr polarity =>
    have hdecompose : (rb.decompose root expr).length ≤ 2 := by
      unfold decompose
      split <;> simp
    have hrules := hcompose expr
    simp only [productions, List.length_append]
    split <;> split <;> simp only [List.length_singleton, List.length_nil] <;> omega
  | backwardLink source role =>
    have hcarried := Nat.le_trans (facts.length_carriedBy_le role) hfacts
    have hcomposed : (rb.composeForward facts source role).length ≤ n * rb.roles.told.length :=
      length_composed_le (fun right => rb.roles.compositions role right)
        (fun composed target => (target, .backwardLink source composed))
        (fun right => length_compositions_le role right) (Nat.le_trans facts.sum_forward_le hfacts)
    simp only [productions, List.length_append, List.length_map]
    split <;> split <;> simp only [List.length_singleton, List.length_nil] <;> omega
  | forwardLink role target =>
    have hcomposed : (rb.composeBackward facts role target).length ≤ n * rb.roles.told.length :=
      length_composed_le (fun left => rb.roles.compositions left role)
        (fun composed source => (target, .backwardLink source composed))
        (fun left => length_compositions_le left role) (Nat.le_trans facts.sum_backward_le hfacts)
    simp only [productions]
    omega
  | propagation role carry =>
    have hsources := Nat.le_trans (facts.length_sourcesBy_le role) hfacts
    simp only [productions, List.length_map]
    omega
  | disjointMember d member =>
    simp only [productions]
    split <;> simp only [List.length_singleton, List.length_nil] <;> omega
  | contradiction =>
    have hsources : (rb.productions mode root facts .contradiction).length =
        (facts.backward.map fun row => row.2.length).sum := by
      simp [productions, List.length_flatMap]
    have hle := Nat.le_trans facts.sum_backward_le hfacts
    omega
  | rulesChanged premise =>
    have hrules := hcompose premise
    simp only [productions]
    split
    · omega
    · simp only [List.length_nil]
      omega

end RuleBase

end ELOntology
