import ELOntology.Proofs.Reasoner.History

/-!
# What cleaning leaves

Maintenance retracts more than it has to: a context that has lost any conclusion is cleaned, which means that it loses
all of them.  When cleaning has come to its end the contexts fall in two parts.  The cleaned ones are empty, and the others
are intact: whatever they store has a derivation that uses neither a cleaned context nor a contribution that is to go.

Key fact: `cleaning_separates`.
-/

namespace ELOntology

namespace Reasoner

variable {r : Reasoner}

/-- There is a context that has not been cleaned. -/
def Intact (r : Reasoner) (root : ExprId) : Prop := r.workspace.Has root ∧ root ∉ r.progress.cleaned

/-- The rules in force without the contributions that are to go.  Of equal contributions none is left if one is to go. -/
def spared (r : Reasoner) : Calculus :=
  { r.calculus with contributes := fun g => r.calculus.contributes g ∧ g ∉ r.index.pending.removed }

/-- An instance of a rule that rests on no contribution that is to go. -/
private theorem combines_spared {root target : ExprId} {premises : List Conclusion} {c : Conclusion}
    (hc : Combines r.calculus root premises target c)
    (hg : ∀ g, g.Yields r.calculus.roles premises c → target = root → g ∉ r.index.pending.removed) :
    Combines r.spared root premises target c := by
  cases hc with
  | apply hcontributes hy => exact .apply ⟨hcontributes, hg _ hy rfl⟩ hy
  | bottom => exact .bottom
  | clash hne => exact .clash hne
  | carry => exact .carry
  | empty => exact .empty
  | forward hright => exact .forward hright
  | compose hcomposed => exact .compose hcomposed

private theorem unfolds_spared {root expr target : ExprId} {c : Conclusion} (hu : Unfolds r.calculus root expr target c) :
    Unfolds r.spared root expr target c := by
  cases hu with
  | first h => exact .first h
  | second h => exact .second h
  | link h => exact .link h

namespace Retracts

variable {base : ExprId → Conclusion → Prop} {root : ExprId} {c : Conclusion}

/-- When nothing is left to retract or to clean, only intact contexts store anything. -/
theorem intact_of_stores (h : r.Retracts base) (hquiet : r.workspace.Quiet) (hmodified : r.workspace.modified.toList = [])
    (hc : r.workspace.Stores root c) : r.Intact root :=
  ⟨hc.has, ((h.retracting.stores_iff hquiet hmodified).1 hc).2⟩

/-- What is stored then is derived, from what is stored then, by the rules without the contributions that are to go. -/
theorem derives_spared (h : r.Retracts base) (hquiet : r.workspace.Quiet) (hc : r.workspace.Stores root c) :
    Derives r.spared r.workspace.Stores root c.unsigned :=
  h.retracting.supported hquiet unfolds_spared combines_spared hc

end Retracts

/-- A run of the cleaning stage, on the way to any stage and after any history, leaves the contexts in two parts if it comes
to its end.  The cleaned contexts are empty and have nothing to do.  What the intact ones store is derived by the rules that
are spared from what starts intact contexts, with premises in intact contexts only.  No link leads from one part to the
other. -/
theorem cleaning_separates {config : Config} {r₀ : Reasoner} (hr : Reasoner.new config = .ok r₀) (calls : List Call)
    {target : Stage} {before after : Reasoner}
    (hruns : Request.runner.Runs target (r₀.after calls) .cleaning before after) :
    (∀ root ∈ after.progress.cleaned, ∃ ctx, after.workspace.context? root = some ctx ∧ ctx.facts = .empty ∧
      ctx.todo.isEmpty = true) ∧
    ∀ root ctx, after.workspace.context? root = some ctx → root ∉ after.progress.cleaned →
      (∀ c, ctx.facts.contains c = true → Derives after.spared (fun held _ => after.Intact held) root c.unsigned) ∧
      (∀ source role, ctx.facts.contains (.backwardLink source role) = true → source ∉ after.progress.cleaned) ∧
      ∀ role target, ctx.facts.contains (.forwardLink role target) = true → target ∉ after.progress.cleaned := by
  have hsound : (r₀.after calls).Sound := (undisturbed_after hr calls).sound
  obtain ⟨hbefore, hnot, hneeded, hrun⟩ := hruns.spec (fun _ _ => rfl)
    (fun stage s hs hnot hneeded => (hs.runStage stage hnot hneeded).imp (fun _ s' hs' => ⟨hs'.1.stages, by
      have hfinished := hs'.1.sound
      rwa [Reasoner.finish, hs'.1.stages] at hfinished⟩) fun _ _ _ => trivial) hsound
  have hcleaned := hbefore.runCleaning hnot (hneeded .deletion (by decide))
  rw [show Request.runCleaning before = (.ok (), after) from hrun] at hcleaned
  cases hcleaned with
  | ok hcleaned =>
  obtain ⟨-, base, hretracts, hquiet, hmodified⟩ := hcleaned
  have hintact {root : ExprId} {c : Conclusion} (hc : after.workspace.Stores root c) : after.Intact root :=
    hretracts.intact_of_stores hquiet hmodified hc
  refine ⟨fun root hroot => ?_, fun root ctx hctx _ => ?_⟩
  · obtain ⟨ctx, hctx⟩ := hretracts.has hroot
    refine ⟨ctx, hctx, Facts.ext fun c => ?_, Queue.isEmpty_iff.2 (List.eq_nil_iff_forall_not_mem.2 fun c hc => ?_)⟩
    · rw [Facts.contains_empty]
      exact Bool.eq_false_iff.2 fun hc => (hintact ⟨ctx, hctx, hc⟩).2 hroot
    · exact hquiet root c ⟨ctx, hctx, hc⟩
  · have hderives {c : Conclusion} (hc : ctx.facts.contains c = true) :
        Derives after.spared after.workspace.Stores root c.unsigned := hretracts.derives_spared hquiet ⟨ctx, hctx, hc⟩
    refine ⟨fun c hc => (hderives hc).mono (.refl _) fun _ _ => hintact, fun source role hc => ?_, fun role target hc => ?_⟩
    · obtain ⟨d, hd⟩ := (hderives hc).exists_held_source
      exact (hintact hd).2
    · obtain ⟨d, hd⟩ := (hderives hc).exists_held_target
      exact (hintact hd).2

/-- Of two axioms alike one is retracted.  The contexts of its two classes are cleaned on the way to saturation, and those of
the other one stay linked. -/
theorem cleaning_separates_linked : ∃ r₀ before after, Reasoner.new (.standard 1) = .ok r₀ ∧
    Request.runner.Runs .saturation (r₀.after [.add (.subClassOf (.named "A") (.someValues "r" (.named "C"))),
      .add (.subClassOf (.named "B") (.someValues "r" (.named "D"))), .ask .classify,
      .remove (.subClassOf (.named "A") (.someValues "r" (.named "C")))]) .cleaning before after ∧
    after.progress.cleaned = [⟨2⟩, ⟨3⟩] ∧
    (∃ ctx, after.workspace.context? ⟨3⟩ = some ctx ∧ ctx.facts = .empty ∧ ctx.todo.isEmpty = true) ∧
    after.Intact ⟨5⟩ ∧ Derives after.spared (fun held _ => after.Intact held) ⟨6⟩ (.backwardLink ⟨5⟩ ⟨0⟩) := by
  obtain ⟨r₀, hr⟩ : ∃ r₀, Reasoner.new (.standard 1) = .ok r₀ := ⟨_, rfl⟩
  generalize hcalls : [Call.add (.subClassOf (.named "A") (.someValues "r" (.named "C"))),
    .add (.subClassOf (.named "B") (.someValues "r" (.named "D"))), .ask .classify,
    .remove (.subClassOf (.named "A") (.someValues "r" (.named "C")))] = calls
  generalize hbefore : (StageRunner.inOrder Request.runner.complete [.deletion] (r₀.after calls)).2 = before
  generalize hafter : (Request.runStage .cleaning before).2 = after
  have hstate : ((r₀.after calls).stages.isDone .saturation = false ∧ (r₀.after calls).stages.isDone .addition = false ∧
      (r₀.after calls).stages.isDone .cleaning = false) ∧
      (StageRunner.inOrder Request.runner.complete [.deletion] (r₀.after calls)).1 = .ok () ∧
      (Request.runStage .cleaning before).1 = .ok () ∧ after.progress.cleaned = [⟨2⟩, ⟨3⟩] ∧
      (after.workspace.context? ⟨5⟩).isSome = true ∧
      ((after.workspace.context? ⟨6⟩).any (·.facts.contains (.backwardLink ⟨5⟩ ⟨0⟩))) = true := by
    subst hafter hbefore hcalls
    cases hr
    decide +kernel
  obtain ⟨⟨hsaturation, haddition, hcleaning⟩, hdeleted, hran, hcleaned, hhas, hlinked⟩ := hstate
  have hruns : Request.runner.Runs .saturation (r₀.after calls) .cleaning before after :=
    .needed hsaturation (show _ = [] ++ .addition :: [] from rfl) rfl
      (.needed haddition (show _ = [] ++ .cleaning :: [] from rfl) rfl
        (.last hcleaning (Prod.ext hdeleted hbefore) (Prod.ext hran hafter)))
  obtain ⟨hempty, hintact⟩ := cleaning_separates hr calls hruns
  obtain ⟨ctx, hctx, hlink⟩ := (Option.any_eq_true _ _).1 hlinked
  refine ⟨r₀, before, after, hr, hruns, hcleaned, hempty ⟨3⟩ (by rw [hcleaned]; decide),
    ⟨Option.isSome_iff_exists.1 hhas, by rw [hcleaned]; decide⟩, ?_⟩
  exact (hintact ⟨6⟩ ctx hctx (by rw [hcleaned]; decide)).1 _ hlink

end Reasoner

end ELOntology
