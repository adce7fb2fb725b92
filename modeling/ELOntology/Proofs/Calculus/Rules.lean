import ELOntology.Saturation.Maintenance

/-!
# The rules as inferences

`RuleBase.productions` is a function of the facts of one context.  Here the same rules are relations between premises and
a conclusion: `Unfolds` takes a stored expression apart, `Contribution.Yields` is what a single contribution concludes,
and `Combines` gathers the contributions and the rules that need none.  All premises of a rule are facts of one context.

Key facts: `mem_productions` (a production is an instance of a rule with stored premises) and `mem_productions_of_unfolds`,
`mem_productions_of_combines` (every instance with stored premises is produced when one of its premises is processed).
-/

namespace ELOntology

/-- The root is included in `expr`; what a context stores of a subsumer. -/
abbrev Conclusion.isA (expr : ExprId) : Conclusion := .subsumer expr .positive

/-- The contributions that a rule of the given premise gathers. -/
def Rule.contributions (premise : ExprId) : Rule → List Contribution
  | .toldSupers supers => supers.map fun sup => .toldSuper premise sup
  | .conjunctions pairs => pairs.map fun (other, both) => .conjunction premise other both
  | .propagations pairs => pairs.map fun (role, existential) => .propagation premise role existential
  | .disjointness memberships => memberships.map fun d => .disjointness premise d

def RuleChain.contributions (premise : ExprId) (chain : RuleChain) : List Contribution :=
  List.flatMap (fun rule => rule.contributions premise) chain

/-- The contributions in force for a premise. -/
def Index.contributionsOf (ix : Index) (premise : ExprId) : List Contribution :=
  (ix.rulesOf premise).contributions premise

/-- What the rules are read from, as far as they depend on it. -/
structure Calculus where
  shape? : ExprId → Option Shape
  contributes : Contribution → Prop
  roles : RoleHierarchy

def RuleBase.calculus (rb : RuleBase) : Calculus where
  shape? := rb.index.shape?
  contributes g := g ∈ rb.index.contributionsOf g.premise
  roles := rb.roles

/-- What the root of a context where `expr` holds is told by the parts of `expr`. -/
inductive Unfolds (K : Calculus) (root expr : ExprId) : ExprId → Conclusion → Prop
  | first {first second : ExprId} (h : K.shape? expr = some (.conjunction first second)) :
      Unfolds K root expr root (.isA first)
  | second {first second : ExprId} (h : K.shape? expr = some (.conjunction first second)) :
      Unfolds K root expr root (.isA second)
  | link {role : RoleId} {filler : ExprId} (h : K.shape? expr = some (.existential role filler)) :
      Unfolds K root expr filler (.backwardLink root role)

/-- What a contribution concludes from premises, which are all in the context of the conclusion. -/
inductive Contribution.Yields (roles : RoleHierarchy) : Contribution → List Conclusion → Conclusion → Prop
  | told {sub sup : ExprId} : Yields roles (.toldSuper sub sup) [.isA sub] (.isA sup)
  | conjoin {conjunct other both : ExprId} :
      Yields roles (.conjunction conjunct other both) [.isA conjunct, .isA other] (.subsumer both .negative)
  | propagate {filler existential : ExprId} {role below : RoleId} (h : below ∈ roles.subRoles role) :
      Yields roles (.propagation filler role existential) [.isA filler] (.propagation below existential)
  | member {member : ExprId} {d : DisjointnessId} :
      Yields roles (.disjointness member d) [.isA member] (.disjointMember d member)

/-- The rules with premises, except for taking expressions apart: what follows for which context. -/
inductive Combines (K : Calculus) (root : ExprId) : List Conclusion → ExprId → Conclusion → Prop
  | apply {g : Contribution} {premises : List Conclusion} {c : Conclusion} (hg : K.contributes g)
      (h : g.Yields K.roles premises c) : Combines K root premises root c
  | bottom : Combines K root [.isA .nothing] root .contradiction
  | clash {d : DisjointnessId} {m m' : ExprId} (h : m ≠ m') :
      Combines K root [.disjointMember d m, .disjointMember d m'] root .contradiction
  | carry {source existential : ExprId} {role : RoleId} :
      Combines K root [.backwardLink source role, .propagation role existential] source
        (.subsumer existential .negative)
  | empty {source : ExprId} {role : RoleId} :
      Combines K root [.backwardLink source role, .contradiction] source .contradiction
  | forward {source : ExprId} {role : RoleId} (h : K.roles.isRightComposable role = true) :
      Combines K root [.backwardLink source role] source (.forwardLink role root)
  | compose {source target : ExprId} {left right composed : RoleId} (h : composed ∈ K.roles.compositions left right) :
      Combines K root [.backwardLink source left, .forwardLink right target] target (.backwardLink source composed)

/-- A conjunction is concluded from both sides. -/
def Calculus.Symmetric (K : Calculus) : Prop := ∀ ⦃conjunct other both : ExprId⦄,
  K.contributes (.conjunction conjunct other both) → K.contributes (.conjunction other conjunct both)

/-- What is needed of a calculus besides its rules: a conjunction is concluded from both sides, contributions agree with
the shapes of what they conclude, and being below a role is transitive. -/
structure Calculus.Regular (K : Calculus) : Prop where
  symmetric {conjunct other both : ExprId} :
    K.contributes (.conjunction conjunct other both) → K.contributes (.conjunction other conjunct both)
  conjunction_shape {conjunct other both : ExprId} : K.contributes (.conjunction conjunct other both) →
    K.shape? both = some (.conjunction conjunct other) ∨ K.shape? both = some (.conjunction other conjunct)
  propagation_shape {filler existential : ExprId} {role : RoleId} :
    K.contributes (.propagation filler role existential) → K.shape? existential = some (.existential role filler)
  subRoles_trans {top middle bottom : RoleId} :
    middle ∈ K.roles.subRoles top → bottom ∈ K.roles.subRoles middle → bottom ∈ K.roles.subRoles top

theorem Calculus.Regular.isSymmetric {K : Calculus} (hK : K.Regular) : K.Symmetric := fun _ _ _ => hK.symmetric

/-! ### Ranges -/

/-- The expressions that the conclusion mentions have numbers below `n`. -/
def Conclusion.Within (n : Nat) : Conclusion → Prop
  | .subsumer expr _ | .backwardLink expr _ | .forwardLink _ expr | .propagation _ expr | .disjointMember _ expr =>
    expr.val < n
  | .init | .contradiction | .rulesChanged _ => True

/-- What the contribution concludes mentions expressions with numbers below `n`. -/
def Contribution.Within (n : Nat) : Contribution → Prop
  | .toldSuper _ expr | .conjunction _ _ expr | .propagation _ _ expr | .disjointness expr _ => expr.val < n

/-- The rules lead to no expressions with numbers from `n` on. -/
structure Calculus.Within (K : Calculus) (n : Nat) : Prop where
  thing : ExprId.thing.val < n
  conjuncts {expr first second : ExprId} :
    K.shape? expr = some (.conjunction first second) → first.val < n ∧ second.val < n
  filler {expr filler : ExprId} {role : RoleId} : K.shape? expr = some (.existential role filler) → filler.val < n
  contributes {g : Contribution} : K.contributes g → g.Within n

theorem Conclusion.within_unsigned {n : Nat} {c : Conclusion} : c.unsigned.Within n ↔ c.Within n := by
  cases c <;> exact Iff.rfl

namespace Unfolds

variable {K : Calculus} {root expr target : ExprId} {c : Conclusion}

theorem isStorable (h : Unfolds K root expr target c) : c.isStorable = true := by
  cases h <;> rfl

theorem unsigned_eq (h : Unfolds K root expr target c) : c.unsigned = c := by
  cases h <;> rfl

theorem within {n : Nat} (hK : K.Within n) (hroot : root.val < n) (h : Unfolds K root expr target c) :
    target.val < n ∧ c.Within n := by
  cases h with
  | first h => exact ⟨hroot, (hK.conjuncts h).1⟩
  | second h => exact ⟨hroot, (hK.conjuncts h).2⟩
  | link h => exact ⟨hK.filler h, hroot⟩

end Unfolds

namespace Combines

variable {K : Calculus} {root target : ExprId} {premises : List Conclusion} {c : Conclusion}

theorem isStorable (h : Combines K root premises target c) : c.isStorable = true := by
  cases h with
  | apply _ h => cases h <;> rfl
  | _ => rfl

theorem exists_premise (h : Combines K root premises target c) : ∃ p, p ∈ premises := by
  cases h with
  | apply _ h => cases h <;> exact ⟨_, List.mem_cons_self ..⟩
  | _ => exact ⟨_, List.mem_cons_self ..⟩

/-- The premises of a rule are conclusions as they are stored. -/
theorem premise_unsigned (h : Combines K root premises target c) {p : Conclusion} (hp : p ∈ premises) :
    p.unsigned = p := by
  cases h with
  | apply _ h => cases h <;> simp only [List.mem_cons, List.not_mem_nil, or_false] at hp <;> rcases hp with rfl | rfl <;> rfl
  | _ => simp only [List.mem_cons, List.not_mem_nil, or_false] at hp; rcases hp with rfl | rfl <;> rfl

theorem within {n : Nat} (hK : K.Within n) (hroot : root.val < n) (hp : ∀ p ∈ premises, p.Within n)
    (h : Combines K root premises target c) : target.val < n ∧ c.Within n := by
  cases h with
  | apply hg h =>
    refine ⟨hroot, ?_⟩
    have hg := hK.contributes hg
    cases h <;> exact hg
  | bottom | clash => exact ⟨hroot, trivial⟩
  | @carry _ existential role =>
    exact ⟨hp (.backwardLink target role) (by simp), hp (.propagation role existential) (by simp)⟩
  | empty => exact ⟨hp _ (List.mem_cons_self ..), trivial⟩
  | forward => exact ⟨hp _ (List.mem_cons_self ..), hroot⟩
  | @compose source _ left right =>
    exact ⟨hp (.forwardLink right target) (by simp), hp (.backwardLink source left) (by simp)⟩

end Combines

/-! ### Stored conclusions -/

@[simp] theorem Conclusion.unsigned_unsigned (c : Conclusion) : c.unsigned.unsigned = c.unsigned := by cases c <;> rfl

@[simp] theorem Conclusion.isStorable_unsigned (c : Conclusion) : c.unsigned.isStorable = c.isStorable := by
  cases c <;> rfl

@[simp] theorem Facts.contains_unsigned (facts : Facts) (c : Conclusion) :
    facts.contains c.unsigned = facts.contains c := by
  cases c <;> rfl

theorem Facts.isStorable_of_contains {facts : Facts} {c : Conclusion} (h : facts.contains c = true) :
    c.isStorable = true := by
  cases c <;> first | rfl | exact absurd h Bool.false_ne_true

namespace Facts

variable {facts : Facts}

theorem hasSubsumer_iff {expr : ExprId} : facts.hasSubsumer expr = true ↔ facts.contains (.isA expr) = true := Iff.rfl

theorem mem_sourcesBy {source : ExprId} {role : RoleId} :
    source ∈ facts.sourcesBy role ↔ facts.contains (.backwardLink source role) = true := mem_exprsOf

theorem mem_carriedBy {carry : ExprId} {role : RoleId} :
    carry ∈ facts.carriedBy role ↔ facts.contains (.propagation role carry) = true := mem_exprsOf

theorem mem_disjointMembers {member : ExprId} {d : DisjointnessId} :
    member ∈ facts.disjointMembers d ↔ facts.contains (.disjointMember d member) = true := mem_exprsOf

private theorem mem_rowsOf {κ : Type} {key : Nat → κ} {r : NatRelation} {k : κ} {x : ExprId} (hkey : ∀ k, ∃ i, key i = k)
    (hinj : ∀ i j, key i = key j → i = j) :
    (∃ xs, (k, xs) ∈ rowsOf key r ∧ x ∈ xs) ↔ ∀ i, key i = k → r.holds i x.val = true := by
  obtain ⟨i, rfl⟩ := hkey k
  constructor
  · rintro ⟨xs, hrow, hx⟩ j hj
    obtain ⟨⟨i', s⟩, hs, e⟩ := List.mem_map.1 hrow
    obtain ⟨e₁, rfl⟩ := Prod.mk.inj e
    obtain rfl := hinj _ _ hj
    obtain rfl := hinj _ _ e₁
    exact NatRelation.holds_iff.2 ⟨s, hs, mem_exprsOf.1 hx⟩
  · intro h
    obtain ⟨s, hs, hx⟩ := NatRelation.holds_iff.1 (h i rfl)
    exact ⟨_, List.mem_map.2 ⟨_, hs, rfl⟩, mem_exprsOf.2 hx⟩

theorem mem_backward {source : ExprId} {role : RoleId} :
    (∃ sources, (role, sources) ∈ facts.backward ∧ source ∈ sources) ↔
      facts.contains (.backwardLink source role) = true := by
  rw [backward, mem_rowsOf (fun k => ⟨k.val, rfl⟩) fun _ _ e => congrArg RoleId.val e]
  exact ⟨fun h => h role.val rfl, fun h i e => by subst e; exact h⟩

theorem mem_forward {target : ExprId} {role : RoleId} :
    (∃ targets, (role, targets) ∈ facts.forward ∧ target ∈ targets) ↔
      facts.contains (.forwardLink role target) = true := by
  rw [forward, mem_rowsOf (fun k => ⟨k.val, rfl⟩) fun _ _ e => congrArg RoleId.val e]
  exact ⟨fun h => h role.val rfl, fun h i e => by subst e; exact h⟩

end Facts

/-! ### Contributions -/

namespace Contribution

/-- In a context where the premise of a contribution holds, its conclusions are those that it yields from stored
premises. -/
theorem mem_conclusions {facts : Facts} {roles : RoleHierarchy} {g : Contribution} {c : Conclusion}
    (hg : facts.hasSubsumer g.premise = true) :
    c ∈ g.conclusions facts roles ↔ ∃ premises, g.Yields roles premises c ∧ ∀ p ∈ premises, facts.contains p = true := by
  rw [Facts.hasSubsumer_iff] at hg
  cases g with
  | toldSuper sub sup =>
    rw [conclusions, List.mem_singleton]
    constructor
    · rintro rfl
      exact ⟨_, .told, List.forall_mem_singleton.2 hg⟩
    · rintro ⟨_, h, _⟩
      cases h
      rfl
  | conjunction conjunct other both =>
    rw [conclusions]
    constructor
    · intro h
      split at h
      · rename_i hother
        obtain rfl := List.mem_singleton.1 h
        exact ⟨_, .conjoin, List.forall_mem_cons.2 ⟨hg, List.forall_mem_singleton.2 hother⟩⟩
      · cases h
    · rintro ⟨_, h, hp⟩
      cases h
      rw [if_pos (show facts.hasSubsumer other = true from hp (.isA other) (by simp))]
      exact List.mem_singleton_self _
  | propagation filler role existential =>
    rw [conclusions, List.mem_map]
    constructor
    · rintro ⟨below, hbelow, rfl⟩
      exact ⟨_, .propagate hbelow, List.forall_mem_singleton.2 hg⟩
    · rintro ⟨_, h, _⟩
      cases h with
      | propagate hbelow => exact ⟨_, hbelow, rfl⟩
  | disjointness member d =>
    rw [conclusions, List.mem_singleton]
    constructor
    · rintro rfl
      exact ⟨_, .member, List.forall_mem_singleton.2 hg⟩
    · rintro ⟨_, h, _⟩
      cases h
      rfl

/-- The premise of a contribution is among the premises that it concludes from. -/
theorem Yields.premise_mem {roles : RoleHierarchy} {g : Contribution} {premises : List Conclusion} {c : Conclusion}
    (h : g.Yields roles premises c) : .isA g.premise ∈ premises := by
  cases h <;> simp [premise]

end Contribution

theorem Rule.premise_of_mem_contributions {premise : ExprId} {rule : Rule} {g : Contribution}
    (h : g ∈ rule.contributions premise) : g.premise = premise := by
  cases rule <;> simp only [contributions, List.mem_map] at h <;> obtain ⟨_, _, rfl⟩ := h <;> rfl

theorem Index.premise_of_mem_contributionsOf {ix : Index} {premise : ExprId} {g : Contribution}
    (h : g ∈ ix.contributionsOf premise) : g.premise = premise := by
  obtain ⟨rule, _, hg⟩ := List.mem_flatMap.1 h
  exact Rule.premise_of_mem_contributions hg

namespace RuleBase

variable {rb : RuleBase} {facts : Facts}

/-- A rule concludes what the contributions that it gathers conclude. -/
theorem ruleConclusions_eq (premise : ExprId) (rule : Rule) : rb.ruleConclusions facts premise rule =
    (rule.contributions premise).flatMap fun g => g.conclusions facts rb.roles := by
  cases rule with
  | toldSupers supers =>
    simp only [ruleConclusions, Rule.contributions, List.flatMap_map, Contribution.conclusions]
    exact List.map_eq_flatMap
  | conjunctions pairs =>
    simp only [ruleConclusions, Rule.contributions, List.flatMap_map]
    induction pairs with
    | nil => rfl
    | cons pair pairs ih =>
      rw [List.flatMap_cons, ← ih, List.filter_cons, Contribution.conclusions]
      cases facts.hasSubsumer pair.1 <;> rfl
  | propagations pairs =>
    simp only [ruleConclusions, Rule.contributions, List.flatMap_map, Contribution.conclusions]
  | disjointness memberships =>
    simp only [ruleConclusions, Rule.contributions, List.flatMap_map, Contribution.conclusions]
    exact List.map_eq_flatMap

theorem compose_eq (premise : ExprId) :
    rb.compose facts premise = (rb.index.contributionsOf premise).flatMap fun g => g.conclusions facts rb.roles := by
  rw [compose, Index.contributionsOf, RuleChain.contributions, List.flatMap_assoc]
  exact congrArg (List.flatMap · _) (funext fun rule => ruleConclusions_eq premise rule)

/-- What the rules of a stored premise conclude is what its contributions yield from stored premises. -/
theorem mem_compose {premise : ExprId} {c : Conclusion} (h : facts.hasSubsumer premise = true) :
    c ∈ rb.compose facts premise ↔ ∃ g, rb.calculus.contributes g ∧ g.premise = premise ∧
      ∃ premises, g.Yields rb.roles premises c ∧ ∀ p ∈ premises, facts.contains p = true := by
  rw [compose_eq, List.mem_flatMap]
  constructor
  · rintro ⟨g, hg, hc⟩
    have hpremise := Index.premise_of_mem_contributionsOf hg
    subst hpremise
    exact ⟨g, hg, rfl, (Contribution.mem_conclusions h).1 hc⟩
  · rintro ⟨g, hg, rfl, hc⟩
    exact ⟨g, hg, (Contribution.mem_conclusions h).2 hc⟩

theorem mem_decompose {root expr target : ExprId} {c : Conclusion} :
    (target, c) ∈ rb.decompose root expr ↔ Unfolds rb.calculus root expr target c := by
  unfold decompose
  constructor
  · intro h
    split at h
    · rename_i hshape
      simp only [List.mem_cons, Prod.mk.injEq, List.not_mem_nil, or_false] at h
      rcases h with ⟨rfl, rfl⟩ | ⟨rfl, rfl⟩
      · exact .first hshape
      · exact .second hshape
    · rename_i hshape
      simp only [List.mem_singleton, Prod.mk.injEq] at h
      obtain ⟨rfl, rfl⟩ := h
      exact .link hshape
    · cases h
  · intro h
    cases h with
    | first h | second h | link h =>
      rw [show rb.index.shape? expr = _ from h]
      simp

theorem mem_composeForward {source target : ExprId} {left : RoleId} {c : Conclusion} :
    (target, c) ∈ rb.composeForward facts source left ↔ ∃ right composed,
      facts.contains (.forwardLink right target) = true ∧ composed ∈ rb.roles.compositions left right ∧
        c = .backwardLink source composed := by
  simp only [composeForward, List.mem_flatMap, List.mem_map, Prod.mk.injEq, Prod.exists]
  constructor
  · rintro ⟨right, targets, hrow, composed, hcomposed, target', htarget, rfl, rfl⟩
    exact ⟨right, composed, Facts.mem_forward.1 ⟨targets, hrow, htarget⟩, hcomposed, rfl⟩
  · rintro ⟨right, composed, hlink, hcomposed, rfl⟩
    obtain ⟨targets, hrow, htarget⟩ := Facts.mem_forward.2 hlink
    exact ⟨right, targets, hrow, composed, hcomposed, target, htarget, rfl, rfl⟩

theorem mem_composeBackward {target target' : ExprId} {right : RoleId} {c : Conclusion} :
    (target', c) ∈ rb.composeBackward facts right target ↔ ∃ source left composed,
      facts.contains (.backwardLink source left) = true ∧ composed ∈ rb.roles.compositions left right ∧
        target' = target ∧ c = .backwardLink source composed := by
  simp only [composeBackward, List.mem_flatMap, List.mem_map, Prod.mk.injEq, Prod.exists]
  constructor
  · rintro ⟨left, sources, hrow, composed, hcomposed, source, hsource, rfl, rfl⟩
    exact ⟨source, left, composed, Facts.mem_backward.1 ⟨sources, hrow, hsource⟩, hcomposed, rfl, rfl⟩
  · rintro ⟨source, left, composed, hlink, hcomposed, rfl, rfl⟩
    obtain ⟨sources, hrow, hsource⟩ := Facts.mem_backward.2 hlink
    exact ⟨left, sources, hrow, composed, hcomposed, source, hsource, rfl, rfl⟩

/-! ### Productions -/

/-- What a production can be: the start of a context, a part of an expression, or an instance of a rule whose premises
are stored. -/
inductive Produced (K : Calculus) (mode : Mode) (root : ExprId) (facts : Facts) :
    Conclusion → ExprId → Conclusion → Prop
  | self : Produced K mode root facts .init root (.isA root)
  | thing : Produced K mode root facts .init root (.isA .thing)
  | unfold {expr target : ExprId} {polarity : Polarity} {c : Conclusion} (hmode : polarity = .positive ∨ mode = .retract)
      (h : Unfolds K root expr target c) : Produced K mode root facts (.subsumer expr polarity) target c
  | combine {processed c : Conclusion} {target : ExprId} {premises : List Conclusion}
      (hp : ∀ p ∈ premises, facts.contains p = true) (h : Combines K root premises target c) :
      Produced K mode root facts processed target c

/-- What a production of a stored conclusion rests on: the conclusion is taken apart, or it is one of the premises of a rule,
all of which are stored. -/
inductive Leads (K : Calculus) (mode : Mode) (root : ExprId) (stored : Conclusion → Prop) :
    Conclusion → ExprId → Conclusion → Prop
  | unfold {expr target : ExprId} {polarity : Polarity} {c : Conclusion} (hmode : polarity = .positive ∨ mode = .retract)
      (h : Unfolds K root expr target c) : Leads K mode root stored (.subsumer expr polarity) target c
  | combine {processed c : Conclusion} {target : ExprId} {premises : List Conclusion} (hp : ∀ p ∈ premises, stored p)
      (hmem : processed.unsigned ∈ premises) (h : Combines K root premises target c) :
      Leads K mode root stored processed target c

namespace Leads

variable {K : Calculus} {mode : Mode} {root target : ExprId} {p q processed c : Conclusion}

theorem of_single (hp : facts.contains p = true) (hmem : processed.unsigned = p) (h : Combines K root [p] target c) :
    Leads K mode root (facts.contains · = true) processed target c :=
  .combine (List.forall_mem_singleton.2 hp) (List.mem_singleton.2 hmem) h

theorem of_pair (hp : facts.contains p = true) (hq : facts.contains q = true)
    (hmem : processed.unsigned = p ∨ processed.unsigned = q) (h : Combines K root [p, q] target c) :
    Leads K mode root (facts.contains · = true) processed target c :=
  .combine (List.forall_mem_cons.2 ⟨hp, List.forall_mem_singleton.2 hq⟩) (by simpa using hmem) h

theorem produced (h : Leads K mode root (facts.contains · = true) processed target c) :
    Produced K mode root facts processed target c := by
  cases h with
  | unfold hmode hu => exact .unfold hmode hu
  | combine hp _ h => exact .combine hp h

end Leads

/-- A stored conclusion is a premise of each of its productions. -/
theorem leads_of_mem_productions {mode : Mode} {root target : ExprId} {c d : Conclusion} (hc : facts.contains c = true)
    (h : (target, d) ∈ rb.productions mode root facts c) :
    Leads rb.calculus mode root (facts.contains · = true) c target d := by
  cases c with
  | init | rulesChanged => cases hc
  | subsumer expr polarity =>
    have hexpr : facts.contains (.isA expr) = true := hc
    simp only [productions, List.mem_append] at h
    rcases h with (h | h) | h
    · split at h
      · rename_i hnothing
        subst hnothing
        obtain ⟨rfl, rfl⟩ := Prod.mk.inj (List.mem_singleton.1 h)
        exact .of_single hexpr rfl .bottom
      · cases h
    · split at h
      · rename_i hmode
        exact .unfold hmode (mem_decompose.1 h)
      · cases h
    · obtain ⟨d, hd, e⟩ := List.mem_map.1 h
      obtain ⟨rfl, rfl⟩ := Prod.mk.inj e
      obtain ⟨g, hg, rfl, premises, hy, hp⟩ := (mem_compose hexpr).1 hd
      exact .combine hp hy.premise_mem (.apply hg hy)
  | backwardLink source role =>
    simp only [productions, List.mem_append] at h
    rcases h with ((h | h) | h) | h
    · split at h
      · rename_i hcontradictory
        obtain ⟨rfl, rfl⟩ := Prod.mk.inj (List.mem_singleton.1 h)
        exact .of_pair hc (show facts.contains .contradiction = true from hcontradictory) (.inl rfl) .empty
      · cases h
    · obtain ⟨carry, hcarry, e⟩ := List.mem_map.1 h
      obtain ⟨rfl, rfl⟩ := Prod.mk.inj e
      exact .of_pair hc (Facts.mem_carriedBy.1 hcarry) (.inl rfl) .carry
    · split at h
      · rename_i hright
        obtain ⟨rfl, rfl⟩ := Prod.mk.inj (List.mem_singleton.1 h)
        exact .of_single hc rfl (.forward hright)
      · cases h
    · obtain ⟨right, composed, hforward, hcomposed, rfl⟩ := mem_composeForward.1 h
      exact .of_pair hc hforward (.inl rfl) (.compose hcomposed)
  | forwardLink role target' =>
    obtain ⟨source, left, composed, hback, hcomposed, rfl, rfl⟩ := mem_composeBackward.1 h
    exact .of_pair hback hc (.inr rfl) (.compose hcomposed)
  | propagation role carry =>
    obtain ⟨source, hsource, e⟩ := List.mem_map.1 h
    obtain ⟨rfl, rfl⟩ := Prod.mk.inj e
    exact .of_pair (Facts.mem_sourcesBy.1 hsource) hc (.inr rfl) .carry
  | disjointMember d' member =>
    simp only [productions] at h
    split at h
    · rename_i hother
      obtain ⟨rfl, rfl⟩ := Prod.mk.inj (List.mem_singleton.1 h)
      obtain ⟨other, hother, hne⟩ := List.any_eq_true.1 hother
      exact .of_pair (Facts.mem_disjointMembers.1 hother) hc (.inr rfl) (.clash (of_decide_eq_true hne))
    · cases h
  | contradiction =>
    obtain ⟨⟨role, sources⟩, hrow, h⟩ := List.mem_flatMap.1 h
    obtain ⟨source, hsource, e⟩ := List.mem_map.1 h
    obtain ⟨rfl, rfl⟩ := Prod.mk.inj e
    exact .of_pair (Facts.mem_backward.1 ⟨sources, hrow, hsource⟩) hc (.inr rfl) .empty

theorem produced_of_mem_productions {mode : Mode} {root target : ExprId} {c d : Conclusion}
    (hc : c.isStorable = true → facts.contains c = true) (h : (target, d) ∈ rb.productions mode root facts c) :
    Produced rb.calculus mode root facts c target d := by
  by_cases hstorable : c.isStorable = true
  · exact (leads_of_mem_productions (hc hstorable) h).produced
  -- the two kinds that are commands
  cases c with
  | init =>
    simp only [productions, List.mem_cons, Prod.mk.injEq, List.not_mem_nil, or_false] at h
    rcases h with ⟨rfl, rfl⟩ | ⟨rfl, rfl⟩
    · exact .self
    · exact .thing
  | rulesChanged premise =>
    simp only [productions] at h
    split at h
    · rename_i hpremise
      obtain ⟨d, hd, e⟩ := List.mem_map.1 h
      obtain ⟨rfl, rfl⟩ := Prod.mk.inj e
      obtain ⟨g, hg, -, premises, hy, hp⟩ := (mem_compose hpremise).1 hd
      exact .combine hp (.apply hg hy)
    · cases h
  | _ => exact absurd rfl hstorable

theorem mem_productions_of_unfolds {mode : Mode} {root expr target : ExprId} {polarity : Polarity} {d : Conclusion}
    (hmode : polarity = .positive ∨ mode = .retract) (h : Unfolds rb.calculus root expr target d) :
    (target, d) ∈ rb.productions mode root facts (.subsumer expr polarity) := by
  simp only [productions, List.mem_append]
  rw [if_pos hmode]
  exact .inl (.inr (mem_decompose.2 h))

/-- When an expression is given up, whatever its polarity, its parts are given up too. -/
theorem mem_productions_retract_of_unfolds {root expr target : ExprId} {c d : Conclusion} (hc : c.unsigned = .isA expr)
    (h : Unfolds rb.calculus root expr target d) : (target, d) ∈ rb.productions .retract root facts c := by
  cases c with
  | subsumer expr' polarity =>
    cases hc
    exact mem_productions_of_unfolds (.inr rfl) h
  | _ => cases hc

/-- Looking again at the rules of a premise repeats what its contributions yield. -/
theorem mem_productions_rulesChanged {mode : Mode} {root : ExprId} {g : Contribution} {premises : List Conclusion}
    {d : Conclusion} (hg : rb.calculus.contributes g) (h : g.Yields rb.roles premises d)
    (hp : ∀ p ∈ premises, facts.contains p = true) :
    (root, d) ∈ rb.productions mode root facts (.rulesChanged g.premise) := by
  have hpremise : facts.hasSubsumer g.premise = true := hp _ h.premise_mem
  simp only [productions]
  rw [if_pos hpremise]
  exact List.mem_map.2 ⟨d, (mem_compose hpremise).2 ⟨g, hg, rfl, premises, h, hp⟩, rfl⟩

/-- Of a contribution that yields a conclusion from an expression, the expression may be taken for the premise. -/
private theorem exists_contributes_premise {g : Contribution} {premises : List Conclusion} {d : Conclusion}
    {expr : ExprId} (hK : rb.calculus.Symmetric) (hg : rb.calculus.contributes g) (h : g.Yields rb.roles premises d)
    (hexpr : .isA expr ∈ premises) (hp : ∀ p ∈ premises, facts.contains p = true) :
    d ∈ rb.compose facts expr := by
  have of_premise {g : Contribution} {premises : List Conclusion} (hg : rb.calculus.contributes g)
      (h : g.Yields rb.roles premises d) (hp : ∀ p ∈ premises, facts.contains p = true) :
      d ∈ rb.compose facts g.premise :=
    (mem_compose (hp _ h.premise_mem)).2 ⟨g, hg, rfl, premises, h, hp⟩
  cases h with
  | told | propagate h | member =>
    cases List.mem_singleton.1 hexpr
    exact of_premise hg (by constructor <;> assumption) hp
  | @conjoin conjunct other both =>
    simp only [List.mem_cons, Conclusion.subsumer.injEq, and_true, List.not_mem_nil, or_false] at hexpr
    rcases hexpr with rfl | rfl
    · exact of_premise hg .conjoin hp
    · exact of_premise (hK hg) .conjoin fun p hmem => hp p (by simpa [or_comm] using hmem)

/-- An instance of a rule with stored premises is produced when one of them is processed.  That a conjunction is concluded
from both sides matters to what a context concludes for itself. -/
theorem mem_productions_of_combines {mode : Mode} {root target : ExprId} {c d : Conclusion} {premises : List Conclusion}
    (hK : target = root → rb.calculus.Symmetric) (h : Combines rb.calculus root premises target d)
    (hp : ∀ p ∈ premises, facts.contains p = true) (hc : c.unsigned ∈ premises) :
    (target, d) ∈ rb.productions mode root facts c := by
  cases h with
  | @apply g _ _ hg hy =>
    -- all premises of a contribution are subsumers, and either one of a conjunction may be the last to arrive
    have processed {expr : ExprId} {polarity : Polarity} (hexpr : .isA expr ∈ premises) :
        (root, d) ∈ rb.productions mode root facts (.subsumer expr polarity) := by
      simp only [productions, List.mem_append]
      exact .inr (List.mem_map.2 ⟨d, exists_contributes_premise (hK rfl) hg hy hexpr hp, rfl⟩)
    have hsubsumer : ∀ p ∈ premises, ∃ expr, p = .isA expr := by
      cases hy <;> simp
    obtain ⟨expr, hexpr⟩ := hsubsumer _ hc
    cases c with
    | subsumer expr' polarity => exact processed hc
    | _ => cases hexpr
  | bottom =>
    have hc : c.unsigned = .isA .nothing := List.mem_singleton.1 hc
    cases c with
    | subsumer expr polarity =>
      cases hc
      simp [productions]
    | _ => cases hc
  | @clash d m m' hne =>
    have hm : m ∈ facts.disjointMembers d := Facts.mem_disjointMembers.2 (hp _ (by simp))
    have hm' : m' ∈ facts.disjointMembers d := Facts.mem_disjointMembers.2 (hp _ (by simp))
    have found {x y : ExprId} (hy : y ∈ facts.disjointMembers d) (hne : y ≠ x) :
        (root, .contradiction) ∈ rb.productions mode root facts (.disjointMember d x) := by
      simp only [productions]
      rw [if_pos (List.any_eq_true.2 ⟨y, hy, decide_eq_true hne⟩)]
      exact List.mem_singleton_self _
    simp only [List.mem_cons, List.not_mem_nil, or_false] at hc
    rcases hc with hc | hc <;> cases c <;> cases hc
    · exact found hm' hne.symm
    · exact found hm hne
  | @carry _ existential role =>
    have hlink : facts.contains (.backwardLink target role) = true := hp _ (by simp)
    have hprop : facts.contains (.propagation role existential) = true := hp _ (by simp)
    simp only [List.mem_cons, List.not_mem_nil, or_false] at hc
    -- either the link or the propagation was there first
    rcases hc with hc | hc <;> cases c <;> cases hc
    · simp only [productions, List.mem_append]
      exact .inl (.inl (.inr (List.mem_map.2 ⟨existential, Facts.mem_carriedBy.2 hprop, rfl⟩)))
    · exact List.mem_map.2 ⟨target, Facts.mem_sourcesBy.2 hlink, rfl⟩
  | @empty _ role =>
    have hlink : facts.contains (.backwardLink target role) = true := hp _ (by simp)
    have hcontradictory : facts.contradictory = true := hp .contradiction (by simp)
    simp only [List.mem_cons, List.not_mem_nil, or_false] at hc
    rcases hc with hc | hc <;> cases c <;> cases hc
    · simp only [productions, List.mem_append]
      rw [if_pos hcontradictory]
      exact .inl (.inl (.inl (List.mem_singleton_self _)))
    · obtain ⟨sources, hrow, hsource⟩ := Facts.mem_backward.2 hlink
      exact List.mem_flatMap.2 ⟨_, hrow, List.mem_map.2 ⟨target, hsource, rfl⟩⟩
  | @forward _ role hright =>
    have hc : c.unsigned = .backwardLink target role := List.mem_singleton.1 hc
    cases c <;> cases hc
    simp only [productions, List.mem_append]
    rw [if_pos (show rb.roles.isRightComposable role = true from hright)]
    exact .inl (.inr (List.mem_singleton_self _))
  | @compose source _ left right composed hcomposed =>
    have hback : facts.contains (.backwardLink source left) = true := hp _ (by simp)
    have hforward : facts.contains (.forwardLink right target) = true := hp _ (by simp)
    simp only [List.mem_cons, List.not_mem_nil, or_false] at hc
    rcases hc with hc | hc <;> cases c <;> cases hc
    · simp only [productions, List.mem_append]
      exact .inr (mem_composeForward.2 ⟨right, composed, hforward, hcomposed, rfl⟩)
    · exact mem_composeBackward.2 ⟨source, left, composed, hback, hcomposed, rfl, rfl⟩

end RuleBase

end ELOntology
