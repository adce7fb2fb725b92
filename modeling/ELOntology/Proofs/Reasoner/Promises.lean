import ELOntology.Proofs.Reasoner.History

/-!
# What done stages promise

A stage that is marked as done makes a promise about the state of the reasoner, and later calls rely on it instead of
running the stage again.  Every call keeps the promises: an edit marks stages as not done where it breaks theirs, and an
interrupted stage is not marked.

Key fact: `stages_keep_promises`.
-/

namespace ELOntology

namespace Reasoner

variable {r r' : Reasoner}

/-- If the contexts are saturated, each of them is marked so. -/
def Flagged (r : Reasoner) : Prop :=
  r.stages.isDone .saturation = true → ∀ {root ctx}, r.workspace.context? root = some ctx → ctx.saturated = true

namespace Flagged

theorem of_unsaturated (hnot : r.stages.isDone .saturation ≠ true) : r.Flagged := fun hdone => absurd hdone hnot

/-- An edit that changes the axioms leaves the contexts to be saturated again, and any other one leaves them alone. -/
theorem edited (h : r.Flagged) {edit : Except IndexError Bool × Index} (hedit : r.index.Edits edit) :
    (r.edited edit).2.Flagged := by
  have hgrown {ix : Index} : ({ r with index := ix }.sync).Flagged := fun hdone _ _ hctx =>
    h hdone ((Workspace.context?_grow _).symm.trans hctx)
  cases hedit with
  | failed => exact hgrown
  | counted => exact hgrown
  | revised =>
    refine .of_unsaturated fun hdone => ?_
    cases eq_roleHierarchy_of_axiomsChanged hdone

/-- A run that saturates marks every context, and later stages leave the contexts alone. -/
theorem served (h : r.Flagged) (hserved : r.Served r') : r'.Flagged := by
  intro hdone
  rcases hserved.settles hdone with ⟨hbefore, hsame⟩ | hrested
  · exact hsame ▸ h hbefore
  · exact hrested.flagged

theorem apply (h : r.Flagged) (hsound : r.Sound) (call : Call) : (call.apply r).Flagged := by
  cases call with
  | add a => exact h.edited (hsound.accounts.edits_assert a)
  | remove a => exact h.edited (hsound.accounts.edits_retract a)
  | ask q =>
    have hask := hsound.ask q
    rw [Call.apply]
    generalize q.run r = result at hask
    cases hask with
    | ok hr => exact h.served hr.1.served
    | error hstopped => exact .of_unsaturated hstopped.unsaturated
  | monitor | engine => exact h

theorem after (h : r.Flagged) (hr : r.Undisturbed) (calls : List Call) : (r.after calls).Flagged := by
  induction calls generalizing r with
  | nil => exact h
  | cons call calls ih => exact ih (h.apply hr.sound call) (call.undisturbed_apply hr)

end Flagged

theorem flagged_after {config : Config} (hr : Reasoner.new config = .ok r) (calls : List Call) :
    (r.after calls).Flagged := by
  refine Flagged.after (.of_unsaturated ?_) (.new hr) calls
  obtain rfl := eq_of_new hr
  exact Bool.false_ne_true

/-- Whatever has been called, the stages that are done keep what they promise.  What a done stage needs is done.  Once the
contexts are saturated no change is pending, of classes or of roles, and none is being worked off, nothing is queued, and the
context of every class and individual is marked as saturated and holds its root.  The verdict on consistency, the taxonomy
and the realization that are kept are those that would be computed now. -/
theorem stages_keep_promises {config : Config} {r₀ : Reasoner} (hr : Reasoner.new config = .ok r₀) (calls : List Call) :
    let r := r₀.after calls
    (∀ stage needed, r.stages.isDone stage = true → needed ∈ stage.dependencies → r.stages.isDone needed = true) ∧
    (r.stages.isDone .saturation = true →
      r.index.pending = .empty ∧ r.index.hasPending = false ∧ r.progress.inFlight = false ∧
      (∀ root ctx, r.workspace.context? root = some ctx → ctx.todo.isEmpty = true) ∧
      ∀ root ∈ r.index.classes ++ r.index.individuals, ∃ ctx, r.workspace.context? root = some ctx ∧
        ctx.saturated = true ∧ ctx.facts.hasSubsumer root = true) ∧
    (r.stages.isDone .consistency = true → r.inconsistent = Request.isContradictory r) ∧
    (r.stages.isDone .classTaxonomy = true → r.taxonomy = some (.build r.index r.workspace r.inconsistent)) ∧
    (r.stages.isDone .instanceTaxonomy = true → r.realization =
      some (.build r.index r.workspace (.build r.index r.workspace r.inconsistent) r.inconsistent)) := by
  intro r
  obtain ⟨hsound, hquiet⟩ : r.Undisturbed := undisturbed_after hr calls
  have hflagged : r.Flagged := flagged_after hr calls
  refine ⟨fun _ _ => hsound.closed.needed, fun hdone => ?_, hsound.consistency, hsound.taxonomy, fun hdone => ?_⟩
  · obtain ⟨hprogress, -, hpending⟩ := hsound.idle_of_addition (hsound.closed.of_depth_lt hdone (by decide))
    refine ⟨hpending, ?_, hprogress ▸ rfl, fun root ctx hctx => ?_, fun root hroot => ?_⟩
    · rw [Index.hasPending, hpending, hsound.taken]
      rfl
    · refine Queue.isEmpty_iff.2 (List.eq_nil_iff_forall_not_mem.2 fun c hc => ?_)
      exact hquiet hdone root c ⟨ctx, hctx, hc⟩
    · obtain ⟨ctx, hctx, hself⟩ := (hsound.settled hdone).rooted hroot
      exact ⟨ctx, hctx, hflagged hdone hctx, hself⟩
  · exact hsound.realization hdone _ (hsound.taxonomy (hsound.closed.of_depth_lt hdone (by decide)))

/-- An individual is realized again after an interruption, a failed edit and a retraction. -/
theorem stages_keep_promises_realized : ∃ r₀, Reasoner.new (.standard 1) = .ok r₀ ∧
    let r := r₀.after [.add (.subClassOf (.named "A") (.named "B")), .monitor (·.raise), .ask .realize,
      .add (.classAssertion (.named "A") "a"), .add (.subRoleOf (.chain []) "r"), .ask .realize,
      .remove (.subClassOf (.named "A") (.named "B")), .ask .realize]
    r.stages.isDone .instanceTaxonomy = true ∧ r.index.hasPending = false ∧ r.index.individuals ≠ [] ∧
      (∀ root ∈ r.index.classes ++ r.index.individuals, ∃ ctx, r.workspace.context? root = some ctx ∧
        ctx.saturated = true ∧ ctx.facts.hasSubsumer root = true) ∧
      r.realization =
        some (.build r.index r.workspace (.build r.index r.workspace r.inconsistent) r.inconsistent) := by
  refine ⟨_, rfl, ?_⟩
  intro r
  obtain ⟨hclosed, hsaturation, -, -, hrealization⟩ :=
    stages_keep_promises (show Reasoner.new (.standard 1) = _ from rfl)
      [.add (.subClassOf (.named "A") (.named "B")), .monitor (·.raise), .ask .realize,
        .add (.classAssertion (.named "A") "a"), .add (.subRoleOf (.chain []) "r"), .ask .realize,
        .remove (.subClassOf (.named "A") (.named "B")), .ask .realize]
  have hdone : r.stages.isDone .instanceTaxonomy = true ∧ r.stages.isDone .saturation = true ∧
      r.index.individuals ≠ [] := by decide +kernel
  obtain ⟨-, hpending, -, -, hroots⟩ := hsaturation hdone.2.1
  exact ⟨hdone.1, hpending, hdone.2.2, hroots, hrealization hdone.1⟩

end Reasoner

end ELOntology
