import ELOntology.Proofs.Saturation.Renewal

/-!
# Replay and the rules

`RuleBase.contributionsTo` lists what a context contributes to cleaned ones with loops of its own, which filter early.
Here it is compared with `RuleBase.productions`, run on all that the context stores: both go through the rules as
relations, where a rule whose conclusion belongs to another context is found from each of its premises.

Key facts: `RuleBase.mem_contributionsTo_iff_productions` (for one context) and `replay_queues_productions` (for all).
-/

namespace ELOntology

/-- What a context that was not cleaned contributes to the cleaned ones are the productions for them of all that it
stores. -/
theorem RuleBase.mem_contributionsTo_iff_productions {rb : RuleBase} {facts : Facts} {cleaned : List ExprId}
    {root target : ExprId} {c : Conclusion} (hroot : root ∉ cleaned) :
    (target, c) ∈ rb.contributionsTo cleaned root facts ↔
      target ∈ cleaned ∧ ∃ p ∈ facts.stored, (target, c) ∈ rb.productions .derive root facts p := by
  rw [mem_contributionsTo_iff hroot]
  refine and_congr_right fun htarget => ?_
  have hne : target ≠ root := fun e => hroot (e ▸ htarget)
  constructor
  · rintro (⟨expr, hexpr, hu⟩ | ⟨premises, hp, hc⟩)
    · exact ⟨.isA expr, Facts.mem_stored.2 ⟨rfl, hexpr⟩, mem_productions_of_unfolds (.inl rfl) hu⟩
    · -- any premise will do, since all of them are stored and the conclusion is for another context
      obtain ⟨p, hmem⟩ := hc.exists_premise
      have hunsigned := hc.premise_unsigned hmem
      exact ⟨p, Facts.mem_stored.2 ⟨hunsigned, hp p hmem⟩,
        mem_productions_of_combines (fun e => absurd e hne) hc hp (hunsigned.symm ▸ hmem)⟩
  · rintro ⟨p, hp, hc⟩
    obtain ⟨hunsigned, hp⟩ := Facts.mem_stored.1 hp
    cases leads_of_mem_productions hp hc with
    | unfold _ hu => exact .inl ⟨_, hp, hu⟩
    | combine hpremises _ hc => exact .inr ⟨_, hpremises, hc⟩

/-- The conclusions among productions that are for the given root, in order. -/
def conclusionsFor (root : ExprId) (productions : List Production) : List Conclusion :=
  productions.filterMap fun p => if p.1 = root then some p.2 else none

namespace Workspace

variable {w : Workspace} {root : ExprId}

/-- The conclusions that wait in the context of a root, the oldest first. -/
def pending (w : Workspace) (root : ExprId) : List Conclusion :=
  match w.context? root with
  | some ctx => ctx.todo.toList
  | none => []

private theorem pending_enqueue {target : ExprId} {c : Conclusion} :
    (w.enqueue target c).pending root =
      w.pending root ++ conclusionsFor root (if (w.context? target).isSome then [(target, c)] else []) := by
  unfold pending
  rw [context?_enqueue]
  by_cases e : root = target
  · subst e
    cases w.context? root <;> simp [conclusionsFor]
  · rw [if_neg e]
    split <;> simp [conclusionsFor, Ne.symm e]

private theorem isSome_context?_enqueue {other target : ExprId} {c : Conclusion} :
    ((w.enqueue target c).context? other).isSome = (w.context? other).isSome := by
  rw [Bool.eq_iff_iff, Option.isSome_iff_exists, Option.isSome_iff_exists]
  exact has_enqueue

/-- What is sent to a context that exists is put at the end of what waits there; the rest is dropped. -/
theorem pending_sendAll_retract (productions : List Production) :
    (RuleBase.sendAll .retract productions w).pending root =
      w.pending root ++ conclusionsFor root (productions.filter fun p => (w.context? p.1).isSome) := by
  induction productions generalizing w with
  | nil => simp [RuleBase.sendAll, conclusionsFor]
  | cons p ps ih =>
    rw [sendAll_cons, ih, send, pending_enqueue]
    simp only [isSome_context?_enqueue, List.append_assoc, conclusionsFor, ← List.filterMap_append]
    rw [List.filter_cons]
    split <;> rfl

end Workspace

/-- Replay agrees with the rules: what it queues for a cleaned context are the productions for that context of all that
the contexts that were not cleaned store. -/
theorem replay_queues_productions (rb : RuleBase) (w : Workspace) (cleaned : List ExprId) :
    ∃ queued : List Production,
      (∀ root, (rb.replay cleaned w).pending root = w.pending root ++ conclusionsFor root queued) ∧
      ∀ target c, (target, c) ∈ queued ↔ (target ∈ cleaned ∧ w.Has target) ∧
        ∃ source ctx, source ∉ cleaned ∧ w.context? source = some ctx ∧
          ∃ p ∈ ctx.facts.stored, (target, c) ∈ rb.productions .derive source ctx.facts p := by
  refine ⟨(w.replayed rb cleaned).filter fun p => (w.context? p.1).isSome, fun root => ?_, fun target c => ?_⟩
  · rw [Workspace.replay_eq]
    exact Workspace.pending_sendAll_retract _
  · rw [List.mem_filter, Workspace.mem_replayed, Option.isSome_iff_exists]
    constructor
    · rintro ⟨⟨source, ctx, hsource, hctx, hc⟩, hhas⟩
      obtain ⟨htarget, hc⟩ := (RuleBase.mem_contributionsTo_iff_productions hsource).1 hc
      exact ⟨⟨htarget, hhas⟩, source, ctx, hsource, hctx, hc⟩
    · rintro ⟨⟨htarget, hhas⟩, source, ctx, hsource, hctx, hc⟩
      exact ⟨⟨source, ctx, hsource, hctx, (RuleBase.mem_contributionsTo_iff_productions hsource).2 ⟨htarget, hc⟩⟩, hhas⟩

end ELOntology
