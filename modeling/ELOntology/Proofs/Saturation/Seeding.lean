import ELOntology.Proofs.Saturation.Retracting
import ELOntology.Proofs.Saturation.Schedule
import ELOntology.Proofs.Saturation.Stored

/-!
# Seeding

The steps between two runs of maintenance let contexts send conclusions that depend on their facts, to contexts that
exist.  Whatever the order, this is one sending of all of them (`tellAll_eq`).

Key facts: `waits_seedRemoved`, `waits_seedCleaning`, `waits_replay`, `waits_seedAdded` (what waits after each of the
steps), and `Retracting.start`, `Retracting.clean` (a retraction starts, and goes on with more contexts to clean).
-/

namespace ELOntology

namespace Workspace

variable {w w' : Workspace} {root other : ExprId} {c d : Conclusion}

/-! ### Sending to contexts that exist -/

/-- The second workspace is the first one after something was sent to contexts that exist. -/
def Sends (w w' : Workspace) : Prop := ∃ productions, w' = RuleBase.sendAll .retract productions w

namespace Sends

theorem size (h : w.Sends w') : w'.contexts.size = w.contexts.size := by
  obtain ⟨productions, rfl⟩ := h
  exact size_sendAll .retract productions

theorem has (h : w.Sends w') : w'.Has root ↔ w.Has root := by
  obtain ⟨productions, rfl⟩ := h
  exact has_sendAll_retract productions

theorem stores (h : w.Sends w') : w'.Stores root c ↔ w.Stores root c := by
  obtain ⟨productions, rfl⟩ := h
  exact stores_sendAll .retract productions

theorem modified (h : w.Sends w') : w'.modified = w.modified := by
  obtain ⟨productions, rfl⟩ := h
  exact modified_sendAll .retract productions

theorem marked (h : w.Sends w') (hw : w.Marked) : w'.Marked := by
  obtain ⟨productions, rfl⟩ := h
  exact hw.sendAll .retract productions

end Sends

/-- What the context of a root has to send, depending on its facts. -/
def told (w : Workspace) (given : ExprId → Facts → List Production) (root : ExprId) : List Production :=
  match w.context? root with
  | some ctx => given root ctx.facts
  | none => []

theorem mem_told {given : ExprId → Facts → List Production} {p : Production} :
    p ∈ w.told given root ↔ ∃ ctx, w.context? root = some ctx ∧ p ∈ given root ctx.facts := by
  unfold told
  cases w.context? root <;> simp

private theorem told_sendAll (given : ExprId → Facts → List Production) (productions : List Production) (root : ExprId) :
    (RuleBase.sendAll .retract productions w).told given root = w.told given root := by
  unfold told
  cases hctx : w.context? root with
  | none =>
    have hnone : ¬ (RuleBase.sendAll .retract productions w).Has root := by
      rw [has_sendAll_retract, not_has_iff, hctx]
    rw [not_has_iff.1 hnone]
  | some ctx =>
    obtain ⟨ctx', hctx', hfacts⟩ := exists_context_sendAll_retract hctx productions
    rw [hctx']
    exact congrArg (given root) hfacts

/-- Have the context of a root send what it has to send. -/
def tell (given : ExprId → Facts → List Production) (w : Workspace) (root : ExprId) : Workspace :=
  RuleBase.sendAll .retract (w.told given root) w

/-- Contexts that send one after the other send what they would send at once. -/
theorem tellAll_eq (given : ExprId → Facts → List Production) (roots : List ExprId) :
    roots.foldl (tell given) w = RuleBase.sendAll .retract (roots.flatMap (w.told given)) w := by
  induction roots generalizing w with
  | nil => rfl
  | cons root roots ih =>
    have htold : (w.tell given root).told given = w.told given := funext fun _ => told_sendAll given _ _
    rw [List.foldl_cons, ih, htold, List.flatMap_cons]
    exact (List.foldl_append ..).symm

theorem mem_roots : root ∈ w.roots ↔ w.Has root := by
  simp only [roots, List.mem_filter, List.mem_map, List.mem_range]
  constructor
  · rintro ⟨-, h⟩
    exact Option.isSome_iff_exists.1 h
  · exact fun h => ⟨⟨root.val, h.lt_size, rfl⟩, Option.isSome_iff_exists.2 h⟩

private theorem sendAll_map (root : ExprId) (conclusions : List Conclusion) :
    conclusions.foldl (fun w c => w.enqueue root c) w = RuleBase.sendAll .retract (conclusions.map (root, ·)) w := by
  rw [RuleBase.sendAll, List.foldl_map]
  rfl

private theorem seed_eq (conclusions : ExprId → Facts → List Conclusion) : w.seed conclusions =
    RuleBase.sendAll .retract
      (w.roots.flatMap (w.told fun root facts => (conclusions root facts).map (root, ·))) w := by
  rw [← tellAll_eq]
  refine congrArg (List.foldl · w _) (funext fun w => funext fun root => ?_)
  unfold tell told
  cases w.context? root with
  | none => rfl
  | some ctx => exact sendAll_map root _

theorem waits_seed (conclusions : ExprId → Facts → List Conclusion) : (w.seed conclusions).Waits root c ↔
    w.Waits root c ∨ ∃ ctx, w.context? root = some ctx ∧ c ∈ conclusions root ctx.facts := by
  rw [seed_eq, waits_sendAll_retract]
  simp only [List.mem_flatMap, mem_told, List.mem_map, Prod.mk.injEq]
  constructor
  · rintro (h | ⟨⟨_, -, ctx, hctx, _, hc, rfl, rfl⟩, -⟩)
    · exact .inl h
    · exact .inr ⟨ctx, hctx, hc⟩
  · rintro (h | ⟨ctx, hctx, hc⟩)
    · exact .inl h
    · exact .inr ⟨⟨root, mem_roots.2 ⟨ctx, hctx⟩, ctx, hctx, c, hc, rfl, rfl⟩, ctx, hctx⟩

private theorem sends_seed (w : Workspace) (conclusions : ExprId → Facts → List Conclusion) :
    w.Sends (w.seed conclusions) := ⟨_, seed_eq conclusions⟩

theorem sends_seedRemoved (w : Workspace) (roles : RoleHierarchy) (removed : List Contribution) :
    w.Sends (w.seedRemoved roles removed) := sends_seed w _

theorem waits_seedRemoved (roles : RoleHierarchy) (removed : List Contribution) :
    (w.seedRemoved roles removed).Waits root c ↔ w.Waits root c ∨
      ∃ g ∈ removed, ∃ premises, g.Yields roles premises c ∧ ∀ p ∈ premises, w.Stores root p := by
  rw [seedRemoved, waits_seed]
  refine or_congr_right ?_
  constructor
  · rintro ⟨ctx, hctx, hc⟩
    obtain ⟨g, hg, hc⟩ := List.mem_flatMap.1 hc
    obtain ⟨hg, hpremise⟩ := List.mem_filter.1 hg
    obtain ⟨premises, hy, hp⟩ := (Contribution.mem_conclusions hpremise).1 hc
    exact ⟨g, hg, premises, hy, fun p hmem => ⟨ctx, hctx, hp p hmem⟩⟩
  · rintro ⟨g, hg, premises, hy, hp⟩
    obtain ⟨ctx, hctx, hpremise⟩ := hp _ hy.premise_mem
    refine ⟨ctx, hctx, List.mem_flatMap.2 ⟨g, List.mem_filter.2 ⟨hg, hpremise⟩, ?_⟩⟩
    exact (Contribution.mem_conclusions hpremise).2 ⟨premises, hy, fun p hmem => (stores_of_context? hctx).1 (hp p hmem)⟩

private theorem seedCleaning_eq (roots : List ExprId) : w.seedCleaning roots =
    RuleBase.sendAll .retract (roots.flatMap (w.told fun root facts => facts.stored.map (root, ·))) w := by
  rw [← tellAll_eq]
  refine congrArg (List.foldl · w _) (funext fun w => funext fun root => ?_)
  unfold tell told
  cases w.context? root with
  | none => rfl
  | some ctx => exact sendAll_map root _

theorem waits_seedCleaning (roots : List ExprId) : (w.seedCleaning roots).Waits root c ↔
    w.Waits root c ∨ root ∈ roots ∧ w.Stores root c ∧ c.unsigned = c := by
  rw [seedCleaning_eq, waits_sendAll_retract]
  simp only [List.mem_flatMap, mem_told, List.mem_map, Prod.mk.injEq]
  constructor
  · rintro (h | ⟨⟨_, hroot, ctx, hctx, _, hc, rfl, rfl⟩, -⟩)
    · exact .inl h
    · obtain ⟨hunsigned, hc⟩ := Facts.mem_stored.1 hc
      exact .inr ⟨hroot, ⟨ctx, hctx, hc⟩, hunsigned⟩
  · rintro (h | ⟨hroot, ⟨ctx, hctx, hc⟩, hunsigned⟩)
    · exact .inl h
    · exact .inr ⟨⟨root, hroot, ctx, hctx, c, Facts.mem_stored.2 ⟨hunsigned, hc⟩, rfl, rfl⟩, ctx, hctx⟩

theorem sends_seedCleaning (w : Workspace) (roots : List ExprId) : w.Sends (w.seedCleaning roots) :=
  ⟨_, seedCleaning_eq roots⟩

/-- What the contexts that were not cleaned send in a replay. -/
def replayed (w : Workspace) (rb : RuleBase) (cleaned : List ExprId) : List Production :=
  (w.roots.filter (· ∉ cleaned)).flatMap (w.told (rb.contributionsTo cleaned))

theorem replay_eq (rb : RuleBase) (cleaned : List ExprId) :
    rb.replay cleaned w = RuleBase.sendAll .retract (w.replayed rb cleaned) w := by
  rw [replayed, ← tellAll_eq]
  refine congrArg (List.foldl · w _) (funext fun w => funext fun root => ?_)
  unfold tell told
  cases w.context? root <;> rfl

theorem mem_replayed {rb : RuleBase} {cleaned : List ExprId} {p : Production} : p ∈ w.replayed rb cleaned ↔
    ∃ source ctx, source ∉ cleaned ∧ w.context? source = some ctx ∧ p ∈ rb.contributionsTo cleaned source ctx.facts := by
  simp only [replayed, List.mem_flatMap, mem_told, List.mem_filter, decide_eq_true_eq]
  constructor
  · rintro ⟨source, ⟨-, hsource⟩, ctx, hctx, hp⟩
    exact ⟨source, ctx, hsource, hctx, hp⟩
  · rintro ⟨source, ctx, hsource, hctx, hp⟩
    exact ⟨source, ⟨mem_roots.2 ⟨ctx, hctx⟩, hsource⟩, ctx, hctx, hp⟩

theorem waits_replay (rb : RuleBase) (cleaned : List ExprId) : (rb.replay cleaned w).Waits root c ↔
    w.Waits root c ∨ (∃ source ctx, source ∉ cleaned ∧ w.context? source = some ctx ∧
      (root, c) ∈ rb.contributionsTo cleaned source ctx.facts) ∧ w.Has root := by
  rw [replay_eq, waits_sendAll_retract, mem_replayed]

theorem sends_replay (w : Workspace) (rb : RuleBase) (cleaned : List ExprId) : w.Sends (rb.replay cleaned w) :=
  ⟨_, replay_eq rb cleaned⟩

theorem waits_seedAdded (added : List Contribution) (cleaned : List ExprId) :
    (w.seedAdded added cleaned).Waits root c ↔ w.Waits root c ∨
      root ∉ cleaned ∧ ∃ g ∈ added, w.Stores root (.isA g.premise) ∧ c = .rulesChanged g.premise := by
  rw [seedAdded, waits_seed]
  refine or_congr_right ?_
  constructor
  · rintro ⟨ctx, hctx, hc⟩
    split at hc
    · cases hc
    · rename_i hroot
      obtain ⟨premise, hpremise, rfl⟩ := List.mem_map.1 hc
      obtain ⟨hpremise, hholds⟩ := List.mem_filter.1 hpremise
      obtain ⟨g, hg, rfl⟩ := List.mem_map.1 (mem_distinct.1 hpremise)
      exact ⟨hroot, g, hg, ⟨ctx, hctx, hholds⟩, rfl⟩
  · rintro ⟨hroot, g, hg, ⟨ctx, hctx, hholds⟩, rfl⟩
    refine ⟨ctx, hctx, ?_⟩
    rw [if_neg hroot]
    refine List.mem_map_of_mem (List.mem_filter.2 ⟨mem_distinct.2 (List.mem_map_of_mem hg), hholds⟩)

theorem sends_seedAdded (w : Workspace) (added : List Contribution) (cleaned : List ExprId) :
    w.Sends (w.seedAdded added cleaned) := by
  rw [seedAdded]
  exact sends_seed w _

/-! ### Taking the modified contexts -/

private def unmark (w : Workspace) (root : ExprId) : Workspace := w.update root fun ctx => { ctx with modified := false }

private theorem size_unmarkAll (roots : List ExprId) : (roots.foldl unmark w).contexts.size = w.contexts.size := by
  induction roots generalizing w with
  | nil => rfl
  | cons root roots ih => exact ih.trans (size_update _)

private theorem has_unmarkAll (roots : List ExprId) : (roots.foldl unmark w).Has other ↔ w.Has other := by
  induction roots generalizing w with
  | nil => rfl
  | cons root roots ih => exact ih.trans (has_update _)

private theorem stores_unmarkAll (roots : List ExprId) : (roots.foldl unmark w).Stores other d ↔ w.Stores other d := by
  induction roots generalizing w with
  | nil => rfl
  | cons root roots ih => exact ih.trans (stores_update _ fun _ => rfl)

private theorem waits_unmarkAll (roots : List ExprId) : (roots.foldl unmark w).Waits other d ↔ w.Waits other d := by
  induction roots generalizing w with
  | nil => rfl
  | cons root roots ih => exact ih.trans (waits_update _ fun _ => rfl)

private theorem mark?_unmark : (w.unmark root).mark? other = some true ↔ w.mark? other = some true ∧ other ≠ root := by
  unfold unmark mark?
  rw [context?_update]
  split <;> rename_i e
  · simp [e]
  · simp [e]

private theorem mark?_unmarkAll (roots : List ExprId) :
    (roots.foldl unmark w).mark? other = some true ↔ w.mark? other = some true ∧ other ∉ roots := by
  induction roots generalizing w with
  | nil => simp
  | cons root roots ih => rw [List.foldl_cons, ih, mark?_unmark, List.mem_cons, not_or, and_assoc]

@[simp] theorem size_takeModified : w.takeModified.2.contexts.size = w.contexts.size := size_unmarkAll _

theorem has_takeModified : w.takeModified.2.Has other ↔ w.Has other := has_unmarkAll w.modified.toList

theorem stores_takeModified : w.takeModified.2.Stores other d ↔ w.Stores other d := stores_unmarkAll w.modified.toList

theorem waits_takeModified : w.takeModified.2.Waits other d ↔ w.Waits other d := waits_unmarkAll w.modified.toList

/-- No context is marked any more. -/
theorem Marked.takeModified (h : w.Marked) : w.takeModified.2.Marked := by
  refine ⟨fun root => ?_, List.nodup_nil⟩
  have hmark : w.takeModified.2.mark? root = (w.modified.toList.foldl unmark w).mark? root := rfl
  rw [hmark, mark?_unmarkAll, h.flagged]
  exact ⟨fun hroot => absurd hroot.1 hroot.2, fun hroot => absurd hroot List.not_mem_nil⟩

end Workspace

/-! ### From seed to seed -/

namespace Retracting

variable {K : Calculus} {removed : List Contribution} {base : ExprId → Conclusion → Prop} {cleaned : List ExprId}
  {w : Workspace}

/-- Where derivation has come to its end, a retraction starts. -/
theorem start (h : Deriving K w) (hw : w.Quiet) (hmarked : w.Marked) (removed : List Contribution) :
    Retracting K removed w.Stores [] (w.seedRemoved K.roles removed) := by
  have hsent := w.sends_seedRemoved K.roles removed
  have hstores (root : ExprId) (c : Conclusion) : (w.seedRemoved K.roles removed).Stores root c ↔ w.Stores root c :=
    hsent.stores
  constructor
  · exact h.saturated hw
  · intro root c hc
    rw [hsent.size]
    exact h.within_stores hc
  · intro root hroot
    exact (h.stores_self hw (hsent.has.1 hroot)).1
  · exact fun hc => hsent.has.2 hc.has
  · exact fun hc => (hstores _ _).1 hc
  · exact fun hexpr hgone => absurd ((hstores _ _).2 hexpr) hgone
  · rintro root target premises c hp - ⟨p, hmem, hgone⟩
    exact absurd ((hstores _ _).2 (hp p hmem)) hgone
  · intro root g premises c hp hg hy hs
    exact ⟨c, (Workspace.waits_seedRemoved K.roles removed).2 (.inr ⟨g, hg, premises, hy, hp⟩), rfl⟩
  · exact fun hroot => absurd hroot List.not_mem_nil
  · exact fun hc hgone => absurd ((hstores _ _).2 hc) hgone
  · exact hsent.marked hmarked

/-- The marked contexts that are not cleaned yet are cleaned next. -/
theorem clean (h : Retracting K removed base cleaned w) :
    let fresh := w.takeModified.1.filter (· ∉ cleaned)
    Retracting K removed base (cleaned ++ fresh) (w.takeModified.2.seedCleaning fresh) := by
  intro fresh
  have hsent := w.takeModified.2.sends_seedCleaning fresh
  have hstores (root : ExprId) (c : Conclusion) :
      (w.takeModified.2.seedCleaning fresh).Stores root c ↔ w.Stores root c :=
    hsent.stores.trans Workspace.stores_takeModified
  have hwaits {root : ExprId} {c : Conclusion} (hc : w.Waits root c) :
      (w.takeModified.2.seedCleaning fresh).Waits root c :=
    (Workspace.waits_seedCleaning fresh).2 (.inl (Workspace.waits_takeModified.2 hc))
  have hdoomed {root : ExprId} {c : Conclusion} (hc : w.Doomed root c) :
      (w.takeModified.2.seedCleaning fresh).Doomed root c := fun hs => by
    obtain ⟨d, hd, e⟩ := hc ((hstores root c).1 hs)
    exact ⟨d, hwaits hd, e⟩
  constructor
  · exact h.saturated
  · intro root c hc
    rw [hsent.size, Workspace.size_takeModified]
    exact h.within hc
  · exact fun hroot => h.rooted (Workspace.has_takeModified.1 (hsent.has.1 hroot))
  · exact fun hc => hsent.has.2 (Workspace.has_takeModified.2 (h.has hc))
  · exact fun hc => h.kept ((hstores _ _).1 hc)
  · intro root expr target c hexpr hgone hu
    exact hdoomed (h.unfolded hexpr (fun hs => hgone ((hstores _ _).2 hs)) hu)
  · rintro root target premises c hp hc ⟨p, hmem, hgone⟩
    exact hdoomed (h.combined hp hc ⟨p, hmem, fun hs => hgone ((hstores _ _).2 hs)⟩)
  · exact fun hp hg hy => hdoomed (h.seeded hp hg hy)
  -- all that a newly cleaned context stores has been sent to it for retraction
  · intro root c hroot
    rcases List.mem_append.1 hroot with hroot | hroot
    · exact hdoomed (h.emptied hroot)
    · intro hs
      have hstored := Workspace.stores_takeModified.2 ((hstores root c).1 hs)
      refine ⟨c.unsigned, (Workspace.waits_seedCleaning fresh).2 (.inr ⟨hroot, ?_, ?_⟩), ?_⟩
      · exact Workspace.stores_unsigned.2 hstored
      · exact Conclusion.unsigned_unsigned c
      · exact Conclusion.unsigned_unsigned c
  -- no mark is left: a context that lost something is cleaned by now
  · intro root c hc hgone
    refine .inr (List.mem_append.2 ?_)
    by_cases hroot : root ∈ cleaned
    · exact .inl hroot
    · have hmem := (h.noted hc fun hs => hgone ((hstores _ _).2 hs)).resolve_right hroot
      exact .inr (List.mem_filter.2 ⟨hmem, decide_eq_true hroot⟩)
  · exact hsent.marked h.marked.takeModified

end Retracting

end ELOntology
