import ELOntology.Proofs.Saturation.Seeding

/-!
# From retraction back to derivation

When a retraction has come to its end, the index commits, the cleaned contexts start again, the others send them what
the rules conclude there, and look at the added contributions.  Then the invariant of derivation holds for the new
rules: what the intact contexts store is supported without the removed contributions, and whatever follows from it and
is not stored waits.

Key facts: `RuleBase.mem_contributionsTo_iff` (replay agrees with the rules) and `Retracting.renew`.
-/

namespace ELOntology

/-- Rules with some contributions removed and some added. -/
structure Calculus.Revised (K : Calculus) (removed added : List Contribution) (K' : Calculus) : Prop where
  shape? : K'.shape? = K.shape?
  roles : K'.roles = K.roles
  kept {g : Contribution} : K.contributes g → g ∉ removed → K'.contributes g
  added {g : Contribution} : K'.contributes g → K.contributes g ∨ g ∈ added

namespace Calculus.Revised

variable {K K' : Calculus} {removed added : List Contribution} {root target expr : ExprId} {premises : List Conclusion}
  {c : Conclusion}

theorem unfolds_iff (h : K.Revised removed added K') : Unfolds K' root expr target c ↔ Unfolds K root expr target c := by
  constructor
  · rintro (hs | hs | hs) <;> rw [h.shape?] at hs
    · exact .first hs
    · exact .second hs
    · exact .link hs
  · rintro (hs | hs | hs) <;> rw [← h.shape?] at hs
    · exact .first hs
    · exact .second hs
    · exact .link hs

/-- A rule that rests on no removed contribution stays. -/
theorem combines (h : K.Revised removed added K') (hc : Combines K root premises target c)
    (hg : ∀ g, g.Yields K.roles premises c → target = root → g ∉ removed) : Combines K' root premises target c := by
  cases hc with
  | apply hcontributes hy => exact .apply (h.kept hcontributes (hg _ hy rfl)) (h.roles.symm ▸ hy)
  | bottom => exact .bottom
  | clash hne => exact .clash hne
  | carry => exact .carry
  | empty => exact .empty
  | forward hr => exact .forward (h.roles.symm ▸ hr)
  | compose hcomp => exact .compose (h.roles.symm ▸ hcomp)

/-- A rule is an old one or rests on an added contribution. -/
theorem combines_or (h : K.Revised removed added K') (hc : Combines K' root premises target c) :
    Combines K root premises target c ∨
      target = root ∧ ∃ g ∈ added, K'.contributes g ∧ g.Yields K'.roles premises c := by
  cases hc with
  | apply hcontributes hy =>
    rcases h.added hcontributes with hold | hnew
    · exact .inl (.apply hold (h.roles ▸ hy))
    · exact .inr ⟨rfl, _, hnew, hcontributes, hy⟩
  | bottom => exact .inl .bottom
  | clash hne => exact .inl (.clash hne)
  | carry => exact .inl .carry
  | empty => exact .inl .empty
  | forward hr => exact .inl (.forward (h.roles ▸ hr))
  | compose hcomp => exact .inl (.compose (h.roles ▸ hcomp))

end Calculus.Revised

/-! ### Replay -/

namespace RuleBase

variable {rb : RuleBase} {facts : Facts} {cleaned : List ExprId} {root target : ExprId} {c : Conclusion}

/-- What a context contributes to the cleaned ones is what the rules conclude for them from its facts. -/
private theorem concluded_of_mem_contributionsTo (h : (target, c) ∈ rb.contributionsTo cleaned root facts) :
    target ∈ cleaned ∧ ((∃ expr, facts.contains (.isA expr) = true ∧ Unfolds rb.calculus root expr target c) ∨
      ∃ premises, (∀ p ∈ premises, facts.contains p = true) ∧ Combines rb.calculus root premises target c) := by
  have of_pair {p q : Conclusion} (hp : facts.contains p = true) (hq : facts.contains q = true)
      (hc : Combines rb.calculus root [p, q] target c) :
      ∃ premises, (∀ p ∈ premises, facts.contains p = true) ∧ Combines rb.calculus root premises target c :=
    ⟨_, List.forall_mem_cons.2 ⟨hp, List.forall_mem_singleton.2 hq⟩, hc⟩
  simp only [contributionsTo, List.mem_append, List.mem_flatMap] at h
  rcases h with (⟨expr, hexpr, h⟩ | ⟨⟨role, sources⟩, hrow, source, hsource, (h | h) | h⟩) |
    ⟨⟨left, sources⟩, hback, ⟨right, targets⟩, hforward, composed, hcomposed, source, hsource, h⟩
  · split at h
    · rename_i role filler hshape
      split at h
      · rename_i hfiller
        obtain ⟨rfl, rfl⟩ := Prod.mk.inj (List.mem_singleton.1 h)
        exact ⟨hfiller, .inl ⟨expr, Facts.mem_exprsOf.1 hexpr, .link hshape⟩⟩
      · cases h
    · cases h
  · obtain ⟨hsource, hcleaned⟩ := List.mem_filter.1 hsource
    have hlink := Facts.mem_backward.1 ⟨sources, hrow, hsource⟩
    split at h
    · rename_i hempty
      obtain ⟨rfl, rfl⟩ := Prod.mk.inj (List.mem_singleton.1 h)
      have hempty : facts.contains .contradiction = true := hempty
      exact ⟨of_decide_eq_true hcleaned, .inr (of_pair hlink hempty .empty)⟩
    · cases h
  · obtain ⟨hsource, hcleaned⟩ := List.mem_filter.1 hsource
    have hlink := Facts.mem_backward.1 ⟨sources, hrow, hsource⟩
    obtain ⟨carry, hcarry, e⟩ := List.mem_map.1 h
    obtain ⟨rfl, rfl⟩ := Prod.mk.inj e
    exact ⟨of_decide_eq_true hcleaned, .inr (of_pair hlink (Facts.mem_carriedBy.1 hcarry) .carry)⟩
  · obtain ⟨hsource, hcleaned⟩ := List.mem_filter.1 hsource
    have hlink := Facts.mem_backward.1 ⟨sources, hrow, hsource⟩
    split at h
    · rename_i hright
      obtain ⟨rfl, rfl⟩ := Prod.mk.inj (List.mem_singleton.1 h)
      exact ⟨of_decide_eq_true hcleaned, .inr ⟨_, List.forall_mem_singleton.2 hlink, .forward hright⟩⟩
    · cases h
  · obtain ⟨target', htarget, e⟩ := List.mem_map.1 h
    obtain ⟨rfl, rfl⟩ := Prod.mk.inj e
    obtain ⟨htarget, hcleaned⟩ := List.mem_filter.1 htarget
    exact ⟨of_decide_eq_true hcleaned, .inr (of_pair (Facts.mem_backward.1 ⟨sources, hback, hsource⟩)
      (Facts.mem_forward.1 ⟨targets, hforward, htarget⟩) (.compose hcomposed))⟩

/-- A part of an expression that belongs to another context has been contributed. -/
private theorem mem_contributionsTo_of_unfolds {expr : ExprId} (hroot : root ∉ cleaned) (htarget : target ∈ cleaned)
    (hexpr : facts.contains (.isA expr) = true) (hu : Unfolds rb.calculus root expr target c) :
    (target, c) ∈ rb.contributionsTo cleaned root facts := by
  simp only [contributionsTo, List.mem_append, List.mem_flatMap]
  cases hu with
  | first | second => exact absurd htarget hroot
  | @link role _ hshape =>
    refine .inl (.inl ⟨expr, Facts.mem_exprsOf.2 hexpr, ?_⟩)
    rw [show rb.index.shape? expr = some (.existential role target) from hshape]
    dsimp only
    rw [if_pos htarget]
    exact List.mem_singleton_self _

/-- A conclusion of a rule that belongs to another context has been contributed. -/
private theorem mem_contributionsTo_of_combines {premises : List Conclusion} (hroot : root ∉ cleaned)
    (htarget : target ∈ cleaned) (hp : ∀ p ∈ premises, facts.contains p = true)
    (hc : Combines rb.calculus root premises target c) : (target, c) ∈ rb.contributionsTo cleaned root facts := by
  simp only [contributionsTo, List.mem_append, List.mem_flatMap]
  have hcleaned : decide (target ∈ cleaned) = true := decide_eq_true htarget
  cases hc with
  | apply | bottom | clash => exact absurd htarget hroot
  | @carry _ existential role =>
    obtain ⟨sources, hrow, hsource⟩ := Facts.mem_backward.2 (hp (.backwardLink target role) (by simp))
    refine .inl (.inr ⟨_, hrow, target, List.mem_filter.2 ⟨hsource, hcleaned⟩, .inl (.inr ?_)⟩)
    have hcarry := Facts.mem_carriedBy.2 (hp (.propagation role existential) (by simp))
    exact List.mem_map.2 ⟨existential, hcarry, rfl⟩
  | @empty _ role =>
    obtain ⟨sources, hrow, hsource⟩ := Facts.mem_backward.2 (hp (.backwardLink target role) (by simp))
    refine .inl (.inr ⟨_, hrow, target, List.mem_filter.2 ⟨hsource, hcleaned⟩, .inl (.inl ?_)⟩)
    rw [if_pos (show facts.contradictory = true from hp .contradiction (by simp))]
    exact List.mem_singleton_self _
  | @forward _ role hright =>
    obtain ⟨sources, hrow, hsource⟩ := Facts.mem_backward.2 (hp (.backwardLink target role) (by simp))
    refine .inl (.inr ⟨_, hrow, target, List.mem_filter.2 ⟨hsource, hcleaned⟩, .inr ?_⟩)
    rw [if_pos (show rb.roles.isRightComposable role = true from hright)]
    exact List.mem_singleton_self _
  | @compose source _ left right composed hcomposed =>
    obtain ⟨sources, hback, hsource⟩ := Facts.mem_backward.2 (hp (.backwardLink source left) (by simp))
    obtain ⟨targets, hforward, htarget'⟩ := Facts.mem_forward.2 (hp (.forwardLink right target) (by simp))
    refine .inr ⟨_, hback, _, hforward, composed, hcomposed, source, hsource, ?_⟩
    exact List.mem_map.2 ⟨target, List.mem_filter.2 ⟨htarget', hcleaned⟩, rfl⟩

/-- What a context that was not cleaned contributes to the cleaned ones is exactly what the rules conclude for them from
its facts. -/
theorem mem_contributionsTo_iff (hroot : root ∉ cleaned) : (target, c) ∈ rb.contributionsTo cleaned root facts ↔
    target ∈ cleaned ∧ ((∃ expr, facts.contains (.isA expr) = true ∧ Unfolds rb.calculus root expr target c) ∨
      ∃ premises, (∀ p ∈ premises, facts.contains p = true) ∧ Combines rb.calculus root premises target c) := by
  refine ⟨concluded_of_mem_contributionsTo, ?_⟩
  rintro ⟨htarget, ⟨expr, hexpr, hu⟩ | ⟨premises, hp, hc⟩⟩
  · exact mem_contributionsTo_of_unfolds hroot htarget hexpr hu
  · exact mem_contributionsTo_of_combines hroot htarget hp hc

end RuleBase

/-- After a replay there waits, besides what has waited, what the rules conclude for cleaned contexts from what the
others store. -/
theorem Workspace.waits_replay_iff {w : Workspace} {rb : RuleBase} {cleaned : List ExprId} {root : ExprId} {c : Conclusion} :
    (rb.replay cleaned w).Waits root c ↔ w.Waits root c ∨ root ∈ cleaned ∧ w.Has root ∧ ∃ source ∉ cleaned,
      (∃ expr, w.Stores source (.isA expr) ∧ Unfolds rb.calculus source expr root c) ∨
        ∃ premises, (∀ p ∈ premises, w.Stores source p) ∧ Combines rb.calculus source premises root c := by
  rw [waits_replay]
  refine or_congr_right ?_
  constructor
  · rintro ⟨⟨source, ctx, hsource, hctx, hc⟩, hhas⟩
    obtain ⟨hroot, hc⟩ := (RuleBase.mem_contributionsTo_iff hsource).1 hc
    simp only [← stores_of_context? hctx] at hc
    exact ⟨hroot, hhas, source, hsource, hc⟩
  · rintro ⟨hroot, hhas, source, hsource, hc⟩
    obtain ⟨ctx, hctx⟩ : w.Has source := by
      rcases hc with ⟨expr, hexpr, -⟩ | ⟨premises, hp, hc⟩
      · exact hexpr.has
      · obtain ⟨p, hmem⟩ := hc.exists_premise
        exact (hp p hmem).has
    simp only [stores_of_context? hctx] at hc
    exact ⟨⟨source, ctx, hsource, hctx, (RuleBase.mem_contributionsTo_iff hsource).2 ⟨hroot, hc⟩⟩, hhas⟩

/-! ### Starting again -/

namespace Workspace

variable {w : Workspace} {root other : ExprId} {c d : Conclusion}

private def begin (w : Workspace) (root : ExprId) : Workspace := (w.clearContext root).enqueue root .init

private theorem restart_eq (cleaned : List ExprId) : w.restart cleaned = cleaned.foldl begin w := rfl

@[simp] theorem size_restart (cleaned : List ExprId) : (w.restart cleaned).contexts.size = w.contexts.size := by
  rw [restart_eq]
  induction cleaned generalizing w with
  | nil => rfl
  | cons root cleaned ih => exact ih.trans (size_enqueue.trans (size_update _))

theorem has_restart (cleaned : List ExprId) : (w.restart cleaned).Has other ↔ w.Has other := by
  rw [restart_eq]
  induction cleaned generalizing w with
  | nil => rfl
  | cons root cleaned ih => exact ih.trans (has_enqueue.trans (has_update _))

@[simp] theorem modified_restart (cleaned : List ExprId) : (w.restart cleaned).modified = w.modified := by
  rw [restart_eq]
  induction cleaned generalizing w with
  | nil => rfl
  | cons root cleaned ih => exact ih.trans (modified_enqueue.trans (modified_update _))

private theorem context?_clearContext : (w.clearContext root).context? other =
    if other = root then (w.context? root).map fun ctx =>
      { ctx with facts := .empty, todo := .empty, saturated := false, modified := false }
    else w.context? other := context?_update _

/-- A context that starts again stores nothing. -/
theorem stores_restart (cleaned : List ExprId) :
    (w.restart cleaned).Stores other d ↔ w.Stores other d ∧ other ∉ cleaned := by
  have hbegin (w : Workspace) (root : ExprId) : (w.begin root).Stores other d ↔ w.Stores other d ∧ other ≠ root := by
    rw [begin, stores_enqueue, Stores, context?_clearContext]
    split <;> rename_i e
    · simp [e]
    · simp [e, Stores]
  rw [restart_eq]
  induction cleaned generalizing w with
  | nil => simp
  | cons root cleaned ih =>
    refine ih.trans ?_
    rw [hbegin, List.mem_cons, not_or, and_assoc]

/-- A context that starts again has nothing else to do. -/
theorem waits_restart (cleaned : List ExprId) : (w.restart cleaned).Waits other d ↔
    w.Waits other d ∧ other ∉ cleaned ∨ other ∈ cleaned ∧ d = .init ∧ w.Has other := by
  have hbegin (w : Workspace) (root : ExprId) : (w.begin root).Waits other d ↔
      w.Waits other d ∧ other ≠ root ∨ other = root ∧ d = .init ∧ w.Has other := by
    rw [begin, waits_enqueue, Waits, context?_clearContext, clearContext, has_update]
    split <;> rename_i e
    · simp [e]
    · simp [e, Waits]
  have hhas (w : Workspace) (root : ExprId) : (w.begin root).Has other ↔ w.Has other :=
    has_enqueue.trans (has_update _)
  rw [restart_eq]
  induction cleaned generalizing w with
  | nil => simp
  | cons root cleaned ih =>
    refine ih.trans ?_
    rw [hbegin, hhas, List.mem_cons]
    by_cases e : other = root
    · subst e
      by_cases hmem : other ∈ cleaned <;> simp [hmem]
    · simp [e]

theorem Marked.restart (h : w.Marked) (hmodified : w.modified.toList = []) (cleaned : List ExprId) :
    (w.restart cleaned).Marked := by
  have hbegin (w : Workspace) (root : ExprId) (hnone : ∀ other, w.mark? other ≠ some true) (other : ExprId) :
      (w.begin root).mark? other ≠ some true := by
    rw [begin, mark?_enqueue, mark?, context?_clearContext]
    split
    · cases w.context? root <;> simp
    · exact hnone other
  have hall (cleaned : List ExprId) : ∀ w : Workspace, (∀ other, w.mark? other ≠ some true) →
      ∀ other, (cleaned.foldl begin w).mark? other ≠ some true := by
    induction cleaned with
    | nil => exact fun _ h => h
    | cons root cleaned ih => exact fun w h => ih _ (hbegin w root h)
  have hnone (other : ExprId) : w.mark? other ≠ some true := fun e => by
    have hmem := (h.flagged other).1 e
    rw [hmodified] at hmem
    cases hmem
  refine ⟨fun other => ?_, ?_⟩
  · rw [modified_restart, hmodified]
    exact ⟨fun e => absurd e (hall cleaned w hnone other), fun hmem => absurd hmem List.not_mem_nil⟩
  · rw [modified_restart]
    exact h.nodup

end Workspace

/-! ### Renewal -/

/-- `w'` is `w` after the cleaned contexts have started again and the others have sent them what the rules conclude there
and have looked at the added contributions. -/
structure Renewed (K : Calculus) (added : List Contribution) (cleaned : List ExprId) (w w' : Workspace) : Prop where
  size : w'.contexts.size = w.contexts.size
  has (root : ExprId) : w'.Has root ↔ w.Has root
  stores (root : ExprId) (c : Conclusion) : w'.Stores root c ↔ w.Stores root c ∧ root ∉ cleaned
  init {root : ExprId} : root ∈ cleaned → w.Has root → w'.Waits root .init
  unfolded {root expr target : ExprId} {c : Conclusion} : w'.Stores root (.isA expr) → Unfolds K root expr target c →
    target ∈ cleaned → w.Has target → w'.Waits target c
  combined {root target : ExprId} {premises : List Conclusion} {c : Conclusion} : (∀ p ∈ premises, w'.Stores root p) →
    Combines K root premises target c → target ∈ cleaned → w.Has target → w'.Waits target c
  changed {root : ExprId} {g : Contribution} : g ∈ added → w'.Stores root (.isA g.premise) →
    w'.Waits root (.rulesChanged g.premise)
  waits {root : ExprId} {c : Conclusion} : w'.Waits root c → c = .init ∨ (∃ premise, c = .rulesChanged premise) ∨
    (∃ source expr, w'.Stores source (.isA expr) ∧ Unfolds K source expr root c) ∨
    ∃ source premises, (∀ p ∈ premises, w'.Stores source p) ∧ Combines K source premises root c

/-- The steps from retraction back to derivation, when nothing waits. -/
theorem renewed (rb : RuleBase) (added : List Contribution) (cleaned : List ExprId) {w : Workspace} (hw : w.Quiet) :
    Renewed rb.calculus added cleaned w ((rb.replay cleaned (w.restart cleaned)).seedAdded added cleaned) := by
  have hreplay := (w.restart cleaned).sends_replay rb cleaned
  have hseed := (rb.replay cleaned (w.restart cleaned)).sends_seedAdded added cleaned
  -- sending stores nothing, so only starting again changes what is stored
  have hreplayed (root : ExprId) (c : Conclusion) :
      (rb.replay cleaned (w.restart cleaned)).Stores root c ↔ w.Stores root c ∧ root ∉ cleaned :=
    hreplay.stores.trans (Workspace.stores_restart cleaned)
  have hstores (root : ExprId) (c : Conclusion) :
      ((rb.replay cleaned (w.restart cleaned)).seedAdded added cleaned).Stores root c ↔
        w.Stores root c ∧ root ∉ cleaned := hseed.stores.trans (hreplayed root c)
  have hwaits {root : ExprId} {c : Conclusion} (hc : (rb.replay cleaned (w.restart cleaned)).Waits root c) :
      ((rb.replay cleaned (w.restart cleaned)).seedAdded added cleaned).Waits root c :=
    (Workspace.waits_seedAdded added cleaned).2 (.inl hc)
  constructor
  · rw [hseed.size, hreplay.size, Workspace.size_restart]
  · exact fun root => hseed.has.trans (hreplay.has.trans (Workspace.has_restart cleaned))
  · exact hstores
  · intro root hroot hhas
    exact hwaits (Workspace.waits_replay_iff.2 (.inl ((Workspace.waits_restart cleaned).2 (.inr ⟨hroot, rfl, hhas⟩))))
  · intro root expr target c hexpr hu htarget hhas
    obtain ⟨hexpr, hroot⟩ := (hstores _ _).1 hexpr
    refine hwaits (Workspace.waits_replay_iff.2 (.inr ⟨htarget, (Workspace.has_restart cleaned).2 hhas, root, hroot, ?_⟩))
    exact .inl ⟨expr, (Workspace.stores_restart cleaned).2 ⟨hexpr, hroot⟩, hu⟩
  · intro root target premises c hp hc htarget hhas
    obtain ⟨p, hmem⟩ := hc.exists_premise
    obtain ⟨-, hroot⟩ := (hstores _ _).1 (hp p hmem)
    refine hwaits (Workspace.waits_replay_iff.2 (.inr ⟨htarget, (Workspace.has_restart cleaned).2 hhas, root, hroot, ?_⟩))
    exact .inr ⟨premises, fun p hmem => (Workspace.stores_restart cleaned).2 ((hstores _ _).1 (hp p hmem)), hc⟩
  · intro root g hg hpremise
    obtain ⟨-, hroot⟩ := (hstores _ _).1 hpremise
    refine (Workspace.waits_seedAdded added cleaned).2 (.inr ⟨hroot, g, hg, ?_, rfl⟩)
    exact (hreplayed _ _).2 ((hstores _ _).1 hpremise)
  · intro root c hc
    rcases (Workspace.waits_seedAdded added cleaned).1 hc with hc | ⟨-, g, -, -, rfl⟩
    · rcases Workspace.waits_replay_iff.1 hc with hc | ⟨-, -, source, hsource, ⟨expr, hexpr, hu⟩ | ⟨premises, hp, hc⟩⟩
      · rcases (Workspace.waits_restart cleaned).1 hc with ⟨hc, -⟩ | ⟨-, rfl, -⟩
        · exact absurd hc (hw _ _)
        · exact .inl rfl
      · refine .inr (.inr (.inl ⟨source, expr, (hstores _ _).2 ((Workspace.stores_restart cleaned).1 hexpr), hu⟩))
      · refine .inr (.inr (.inr ⟨source, premises, fun p hmem => ?_, hc⟩))
        exact (hstores _ _).2 ((Workspace.stores_restart cleaned).1 (hp p hmem))
    · exact .inr (.inl ⟨_, rfl⟩)

namespace Retracting

variable {K K' : Calculus} {removed added : List Contribution} {base : ExprId → Conclusion → Prop}
  {cleaned : List ExprId} {w w' : Workspace}

private theorem stores_renewed (h : Retracting K removed base cleaned w) (hw : w.Quiet)
    (hmodified : w.modified.toList = []) (hnew : Renewed K' added cleaned w w') {root : ExprId} {c : Conclusion} :
    w'.Stores root c ↔ base root c ∧ root ∉ cleaned := by
  rw [hnew.stores, h.stores_iff hw hmodified]
  exact and_iff_left_of_imp And.right

/-- What was stored is stored still, or its context is cleaned and gets it anew. -/
private theorem covers_renewed (h : Retracting K removed base cleaned w) (hw : w.Quiet)
    (hmodified : w.modified.toList = []) (hnew : Renewed K' added cleaned w w') {target : ExprId} {c : Conclusion}
    (hc : base target c.unsigned) (hsent : target ∈ cleaned → w.Has target → w'.Waits target c) : w'.Covers target c := by
  by_cases htarget : target ∈ cleaned
  · exact .inr ⟨c, hsent htarget (h.has hc), rfl⟩
  · exact .inl (Workspace.stores_unsigned.1 ((stores_renewed h hw hmodified hnew).2 ⟨hc, htarget⟩))

/-- When a retraction has come to its end and the contexts are made ready for the new rules, the invariant of derivation
holds for these. -/
theorem renew (h : Retracting K removed base cleaned w) (hw : w.Quiet) (hmodified : w.modified.toList = [])
    (hrules : K.Revised removed added K') (hn : K'.Within w.contexts.size) (hnew : Renewed K' added cleaned w w') :
    Deriving K' w' := by
  have hstored {root : ExprId} {c : Conclusion} : w'.Stores root c ↔ base root c ∧ root ∉ cleaned :=
    stores_renewed h hw hmodified hnew
  have hcovers {target : ExprId} {c : Conclusion} (hc : base target c.unsigned)
      (hsent : target ∈ cleaned → w.Has target → w'.Waits target c) : w'.Covers target c :=
    covers_renewed h hw hmodified hnew hc hsent
  -- the contexts that were cleaned are empty at the end of a retraction, so starting again loses nothing
  have hsame : w'.Stores = w.Stores := by
    funext root c
    rw [hnew.stores]
    exact propext (and_iff_left_of_imp fun hc => ((h.stores_iff hw hmodified).1 hc).2)
  have hsupported {root : ExprId} {c : Conclusion} (hc : w'.Stores root c) : Derives K' w'.Stores root c.unsigned := by
    rw [hsame] at hc ⊢
    exact h.supported hw hrules.unfolds_iff.2 (fun hc hg => hrules.combines hc hg) hc
  have hroot_lt {root : ExprId} {c : Conclusion} (hc : w'.Stores root c) : root.val < w.contexts.size :=
    ((hnew.has root).1 hc.has).lt_size
  have hwithin {root : ExprId} {c : Conclusion} (hc : w'.Stores root c) : c.Within w.contexts.size :=
    h.within (hstored.1 hc).1
  constructor
  · exact fun hc => hnew.size ▸ hwithin hc
  · intro root c hc
    rw [hnew.size]
    rcases hnew.waits hc with rfl | ⟨premise, rfl⟩ | ⟨source, expr, hexpr, hu⟩ | ⟨source, premises, hp, hc⟩
    · trivial
    · trivial
    · exact (hu.within hn (hroot_lt hexpr)).2
    · obtain ⟨p, hmem⟩ := hc.exists_premise
      exact (hc.within hn (hroot_lt (hp p hmem)) fun p hmem => hwithin (hp p hmem)).2
  · intro root hroot
    have hroot := (hnew.has root).1 hroot
    by_cases hcleaned : root ∈ cleaned
    · exact .inl (hnew.init hcleaned hroot)
    · have hself := h.rooted hroot
      exact .inr ⟨.inl (hstored.2 ⟨hself, hcleaned⟩), .inl (hstored.2 ⟨h.saturated.thing hself, hcleaned⟩)⟩
  · intro root target premises c hp hc
    rcases hrules.combines_or hc with hold | ⟨rfl, g, hg, hcontributes, hy⟩
    · have hbase := h.saturated.combined (fun p hmem => (hstored.1 (hp p hmem)).1) hold
      exact .inl (hcovers hbase fun htarget hhas => hnew.combined hp hc htarget hhas)
    · exact .inr ⟨rfl, g, hcontributes, hy, hnew.changed hg (hp _ hy.premise_mem)⟩
  · intro root expr hexpr
    rcases h.saturated.explained (hstored.1 hexpr).1 with hunfold | ⟨source, premises, hp, hc⟩
    · refine .inl fun target c hu => hcovers ?_ fun htarget hhas => hnew.unfolded hexpr hu htarget hhas
      rw [hu.unsigned_eq]
      exact hunfold _ _ (hrules.unfolds_iff.1 hu)
    · have hexpr : w.Stores root (.subsumer expr .negative) := hsame ▸ hexpr
      obtain ⟨hp, hg⟩ := h.stored_premises hw hp hc hexpr
      exact .inr ⟨source, premises, fun p hmem => hsame ▸ hp p hmem, hrules.combines hc hg⟩
  · intro root expr hexpr
    rcases hnew.waits hexpr with e | ⟨premise, e⟩ | ⟨source, expr', -, hu⟩ | ⟨source, premises, hp, hc⟩
    · cases e
    · cases e
    · cases hu
    · exact ⟨source, premises, hp, hc⟩
  · exact hsupported
  · intro root c hc hstorable
    rcases hnew.waits hc with rfl | ⟨premise, rfl⟩ | ⟨source, expr, hexpr, hu⟩ | ⟨source, premises, hp, hc⟩
    · cases hstorable
    · cases hstorable
    · rw [hu.unsigned_eq]
      exact .unfold hexpr (hsupported hexpr) hu
    · exact .combine hp (fun p hmem => hc.premise_unsigned hmem ▸ hsupported (hp p hmem)) hc

end Retracting

end ELOntology
