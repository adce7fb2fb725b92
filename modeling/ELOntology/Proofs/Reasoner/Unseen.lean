import ELOntology.Proofs.Reasoner.Moves
import ELOntology.Proofs.Saturation.Unseen

/-!
# What no request can see

A request is blind to a change of the monitor if it comes to the same before and after the change.  Whatever no run of one
worker can see (`Monitor.Unseen`) no stage can see, and no query either (`Blind.plain`).

Key fact: `Reasoner.after_onMonitor` (whole histories).
-/

namespace ELOntology

open Reasoner

namespace Request

variable {α β : Type} {φ : Monitor → Monitor}

/-! ### Blind requests -/

theorem withTaxonomy_onMonitor (φ : Monitor → Monitor) (r : Reasoner) :
    withTaxonomy (r.onMonitor φ) = ((withTaxonomy r).1, (withTaxonomy r).2.onMonitor φ) := by
  unfold withTaxonomy
  rw [show (r.onMonitor φ).taxonomy = r.taxonomy from rfl]
  cases r.taxonomy <;> rfl

theorem withRealization_onMonitor (φ : Monitor → Monitor) (r : Reasoner) :
    withRealization (r.onMonitor φ) = ((withRealization r).1, (withRealization r).2.onMonitor φ) := by
  unfold withRealization
  rw [withTaxonomy_onMonitor]
  rcases withTaxonomy r with ⟨t, r⟩
  dsimp only
  rw [show (r.onMonitor φ).realization = r.realization from rfl]
  cases r.realization <;> rfl

/-- With one worker the request comes to the same before and after the change, and the engine is left alone. -/
structure Blind (φ : Monitor → Monitor) (m : Request α) : Prop where
  eq {r : Reasoner} : r.engine = .single → m (r.onMonitor φ) = ((m r).1, (m r).2.onMonitor φ)
  engine (r : Reasoner) : (m r).2.engine = r.engine

namespace Blind

theorem bind {m : Request α} {f : α → Request β} (hm : Blind φ m) (hf : ∀ a, Blind φ (f a)) : Blind φ (m >>= f) where
  eq {r} hr := by
    have hengine := hm.engine r
    rw [bind_apply, bind_apply, hm.eq hr]
    rcases hfirst : m r with ⟨e | a, r'⟩
    · rfl
    · rw [hfirst] at hengine
      exact (hf a).eq (hengine.trans hr)
  engine r := by
    have hengine := hm.engine r
    rw [bind_apply]
    rcases hfirst : m r with ⟨e | a, r'⟩ <;> rw [hfirst] at hengine
    · exact hengine
    · exact ((hf a).engine r').trans hengine

/-- A request that starts from what does not hang on the monitor. -/
theorem get {f : Reasoner → Request α} (hf : ∀ r, f (r.onMonitor φ) = f r) (h : ∀ r, Blind φ (f r)) :
    Blind φ (MonadState.get >>= f) where
  eq {r} hr := by
    show f (r.onMonitor φ) (r.onMonitor φ) = _
    rw [hf, (h r).eq hr]
    rfl
  engine r := (h r).engine r

/-- A request that changes and answers something that does not hang on the monitor. -/
theorem compute {g : Reasoner → α} {k : Reasoner → Reasoner} (hg : ∀ r, g (r.onMonitor φ) = g r)
    (hk : ∀ r, k (r.onMonitor φ) = (k r).onMonitor φ) (hengine : ∀ r, (k r).engine = r.engine) :
    Blind φ fun r => (.ok (g r), k r) where
  eq _ := Prod.ext (congrArg Except.ok (hg _)) (hk _)
  engine := hengine

theorem change {f : Reasoner → Reasoner} (hf : ∀ r, f (r.onMonitor φ) = (f r).onMonitor φ)
    (hengine : ∀ r, (f r).engine = r.engine) : Blind φ (change f) := .compute (fun _ => rfl) hf hengine

theorem pure (a : α) : Blind φ (pure a) := ⟨fun _ => rfl, fun _ => rfl⟩

private theorem inOrder {run : Stage → Request Unit} (hrun : ∀ stage, Blind φ (run stage)) (stages : List Stage) :
    Blind φ (StageRunner.inOrder run stages) := by
  induction stages with
  | nil => exact .pure ()
  | cons stage stages ih =>
    rw [show StageRunner.inOrder run (stage :: stages) = _ from inOrder_cons run stage stages]
    exact (hrun stage).bind fun _ => ih

section

variable (hφ : Monitor.Unseen φ)
include hφ

theorem saturate (stage : Stage) (mode : Mode) (roots : List ExprId) : Blind φ (saturate stage mode roots) where
  eq {r} hr := by
    have hsingle {r : Reasoner} (hr : r.engine = .single) (w : Workspace) :
        r.runRules mode w = r.ruleBase.run mode w := by
      rw [Reasoner.runRules, hr]
      rfl
    unfold Request.saturate
    rw [show (r.onMonitor φ).workspace = r.workspace.mapMonitor φ from rfl, Workspace.submitAll_mapMonitor hφ]
    rcases r.workspace.submitAll roots with ⟨_ | _, w⟩
    · dsimp only
      rw [hsingle hr, hsingle (r := r.onMonitor φ) hr, show (r.onMonitor φ).ruleBase = r.ruleBase from rfl,
        RuleBase.run_mapMonitor hφ]
      rcases r.ruleBase.run mode w with ⟨_ | statistics, w⟩ <;> rfl
    · rfl
  engine r := by
    unfold Request.saturate
    rcases r.workspace.submitAll roots with ⟨_ | _, w⟩
    · dsimp only
      rcases r.runRules mode w with ⟨_ | statistics, w⟩ <;> rfl
    · rfl

theorem runDeletion : Blind φ runDeletion := by
  have hfinish : Blind φ finishDerivation := by
    have hsaturate := saturate hφ .deletion .derive []
    constructor
    · intro r hr
      unfold finishDerivation
      rw [show (!(r.onMonitor φ).progress.deletionsSeeded && (r.onMonitor φ).workspace.hasActive) =
        (!r.progress.deletionsSeeded && r.workspace.hasActive) from rfl]
      split
      · exact hsaturate.eq hr
      · rfl
    · intro r
      unfold finishDerivation
      split
      · exact hsaturate.engine r
      · rfl
  rw [runDeletion_eq]
  refine (hfinish.bind fun _ => .change (fun r => ?_) engine_seedDeletion).bind fun _ => saturate hφ _ _ _
  unfold seedDeletion
  rw [show (r.onMonitor φ).progress = r.progress from rfl]
  split
  · rfl
  · have hseed : (r.workspace.mapMonitor φ).seedRemoved r.roles r.index.pending.removed = _ :=
      Workspace.seedRemoved_mapMonitor ..
    exact congrArg (fun w => ({ r with workspace := w, progress := { r.progress with deletionsSeeded := true } } : Reasoner)) hseed

theorem cleaningPasses (passes : Nat) : Blind φ (cleaningPasses passes) := by
  induction passes with
  | zero => exact .pure ()
  | succ passes ih =>
    have hclean (r : Reasoner) : cleanModified (r.onMonitor φ) = ((cleanModified r).1, (cleanModified r).2.onMonitor φ) := by
      rw [Retracts.cleanModified_eq, Retracts.cleanModified_eq, show Retracts.fresh (r.onMonitor φ) = Retracts.fresh r from rfl,
        show (r.onMonitor φ).workspace = r.workspace.mapMonitor φ from rfl, Workspace.takeModified_mapMonitor]
      dsimp only
      rw [Workspace.seedCleaning_mapMonitor]
      rfl
    rw [cleaningPasses_succ]
    refine .bind ((saturate hφ _ _ _).bind fun _ => ?_) fun more => ?_
    · refine .compute (g := fun r => (cleanModified r).1) (k := fun r => (cleanModified r).2) (fun r => ?_) (fun r => ?_)
        fun _ => rfl
      · rw [hclean]
      · rw [hclean]
    · cases more with
      | true => exact ih
      | false => exact .pure ()

theorem runAddition : Blind φ runAddition := by
  rw [runAddition_eq]
  refine ((Blind.change (fun r => ?_) engine_seedAddition).bind fun _ => saturate hφ _ _ _).bind fun _ =>
    .change (fun _ => rfl) fun _ => rfl
  unfold seedAddition
  rw [show (r.onMonitor φ).progress = r.progress from rfl]
  split
  · rfl
  · unfold renew
    rw [show (r.onMonitor φ).workspace = r.workspace.mapMonitor φ from rfl, Workspace.grow_mapMonitor]
    rw [Workspace.restart_mapMonitor, Workspace.replay_mapMonitor, Workspace.seedAdded_mapMonitor]
    rfl

theorem runStage (stage : Stage) : Blind φ (runStage stage) := by
  cases stage with
  | roleHierarchy => exact .change (fun _ => rfl) fun _ => rfl
  | deletion => exact runDeletion hφ
  | cleaning => exact get (fun _ => rfl) fun r => cleaningPasses hφ _
  | addition => exact runAddition hφ
  | saturation =>
    exact .bind (.change (fun _ => rfl) fun _ => rfl) fun _ => get (fun _ => rfl) fun r => saturate hφ _ _ _
  | consistency => exact .change (fun _ => rfl) fun _ => rfl
  | classTaxonomy => exact .change (fun _ => rfl) fun _ => rfl
  | instanceTaxonomy =>
    refine .change (fun r => ?_) fun r => (Concludes.withRealization { r with realization := none }).engine
    have hread := withRealization_onMonitor φ { r with realization := none }
    exact congrArg Prod.snd hread
  | validation =>
    constructor
    · intro r _
      rw [runStage_validation, runStage_validation, show (r.onMonitor φ).taxonomy = r.taxonomy from rfl,
        show (r.onMonitor φ).index = r.index from rfl]
      cases r.taxonomy with
      | none => rfl
      | some t =>
        dsimp only
        cases t.audit r.index <;> rfl
    · intro r
      rw [runStage_validation]
      cases r.taxonomy with
      | none => rfl
      | some t =>
        dsimp only
        cases t.audit r.index <;> rfl

private theorem completeWithin (fuel : Nat) (stage : Stage) : Blind φ (runner.completeWithin fuel stage) := by
  induction fuel generalizing stage with
  | zero => exact .pure ()
  | succ fuel ih =>
    have hneeded := inOrder ih stage.dependencies
    have hstage := runStage hφ stage
    constructor
    · intro r hr
      have hengine := hneeded.engine r
      unfold StageRunner.completeWithin
      rw [show runner.status (r.onMonitor φ) = runner.status r from rfl, hneeded.eq hr]
      split
      · rfl
      · rcases hfirst : StageRunner.inOrder (runner.completeWithin fuel) stage.dependencies r with ⟨_ | _, r'⟩
        · rfl
        · rw [hfirst] at hengine
          have hrun := hstage.eq (hengine.trans hr)
          dsimp only
          rw [show runner.run stage (r'.onMonitor φ) = _ from hrun, show runner.run stage r' = Request.runStage stage r' from rfl]
          rcases Request.runStage stage r' with ⟨_ | _, r''⟩ <;> rfl
    · intro r
      have hengine := hneeded.engine r
      unfold StageRunner.completeWithin
      split
      · rfl
      · rcases hfirst : StageRunner.inOrder (runner.completeWithin fuel) stage.dependencies r with ⟨_ | _, r'⟩ <;>
          rw [hfirst] at hengine
        · exact hengine
        · have hrun := (hstage.engine r').trans hengine
          dsimp only
          rw [show runner.run stage r' = Request.runStage stage r' from rfl]
          generalize Request.runStage stage r' = result at hrun ⊢
          obtain ⟨_ | _, r''⟩ := result <;> exact hrun

theorem complete (stage : Stage) : Blind φ (complete stage) := by
  have hcomplete : Blind φ (runner.complete stage) := completeWithin hφ _ stage
  constructor
  · intro r hr
    unfold Request.complete
    rw [hcomplete.eq hr]
    rcases runner.complete stage r with ⟨e | _, r'⟩
    · dsimp only
      split
      · -- whether the flag is lowered before or after the change makes no difference
        have hlower := hφ.lower r'.workspace.monitor
        exact congrArg (fun m => (Except.error e, ({ r' with workspace := { r'.workspace with monitor := m } } : Reasoner))) hlower
      · rfl
    · rfl
  · intro r
    have hengine := hcomplete.engine r
    unfold Request.complete
    rcases hrun : runner.complete stage r with ⟨e | _, r'⟩ <;> rw [hrun] at hengine
    · dsimp only
      split <;> exact hengine
    · exact hengine

/-- What no run can see, no query can see. -/
theorem plain {m : Request α} (hm : Plain m) : Blind φ m := by
  induction hm with
  | complete stage => exact complete hφ stage
  | read hg => exact .compute (hg φ) (fun _ => rfl) fun _ => rfl
  | taxonomy =>
    exact .compute (fun r => by rw [withTaxonomy_onMonitor]) (fun r => by rw [withTaxonomy_onMonitor])
      fun r => (Concludes.withTaxonomy r).engine
  | realization =>
    exact .compute (fun r => by rw [withRealization_onMonitor]) (fun r => by rw [withRealization_onMonitor])
      fun r => (Concludes.withRealization r).engine
  | bind _ _ ihm ihf => exact ihm.bind ihf

end

end Blind

end Request

/-! ### Histories -/

namespace Reasoner

open Request

variable {r : Reasoner} {φ : Monitor → Monitor}

theorem edited_onMonitor (edit : Except IndexError Bool × Index) :
    (r.onMonitor φ).edited edit = ((r.edited edit).1, (r.edited edit).2.onMonitor φ) := by
  obtain ⟨answer, ix⟩ := edit
  match answer with
  | .error _ => rfl
  | .ok false => rfl
  | .ok true =>
    refine congrArg (Except.ok true, ·) ?_
    have hchanged := axiomsChanged_eq (r.onMonitor φ) ix
    refine hchanged.trans (Eq.trans ?_ (congrArg (onMonitor φ) (r.axiomsChanged_eq ix)).symm)
    rw [apply_ite (onMonitor φ)]
    rfl

/-- As long as no other engine is put in, one worker carries out all runs. -/
theorem engine_apply (hr : r.engine = .single) {call : Call} (hsingle : ∀ e he, call = .engine e he → e = .single) :
    (call.apply r).engine = .single := by
  cases call with
  | add a => exact (setup_edited (r.index.assert a)).2.trans hr
  | remove a => exact (setup_edited (r.index.retract a)).2.trans hr
  | ask q => exact (Request.Moves.query q r).engine.trans hr
  | monitor f => exact hr
  | engine e he => exact hsingle e he rfl

theorem engine_after (hr : r.engine = .single) {calls : List Call} (hsingle : ∀ e he, .engine e he ∈ calls → e = .single) :
    (r.after calls).engine = .single := by
  induction calls generalizing r with
  | nil => exact hr
  | cons call calls ih =>
    refine ih (engine_apply hr fun e he heq => hsingle e he ?_) fun e he hmem => hsingle e he (List.mem_cons_of_mem _ hmem)
    exact heq ▸ List.mem_cons_self ..

/-- What no run of one worker can see, no history of such runs can see in which callers do not look at it either. -/
theorem after_onMonitor (hφ : Monitor.Unseen φ) (hr : r.engine = .single) {calls : List Call}
    (hcalls : ∀ f, .monitor f ∈ calls → ∀ m, f (φ m) = φ (f m)) (hsingle : ∀ e he, .engine e he ∈ calls → e = .single) :
    (r.onMonitor φ).after calls = (r.after calls).onMonitor φ := by
  induction calls generalizing r with
  | nil => rfl
  | cons call calls ih =>
    have hcall : call.apply (r.onMonitor φ) = (call.apply r).onMonitor φ := by
      cases call with
      | add a => exact congrArg Prod.snd (edited_onMonitor (r.index.assert a))
      | remove a => exact congrArg Prod.snd (edited_onMonitor (r.index.retract a))
      | ask q => exact congrArg Prod.snd ((Blind.plain hφ (.query q)).eq hr)
      | monitor f =>
        have hf := hcalls f (List.mem_cons_self ..) r.workspace.monitor
        exact congrArg (fun m => ({ r with workspace := { r.workspace with monitor := m } } : Reasoner)) hf
      | engine e he => rfl
    rw [after, List.foldl_cons, hcall]
    refine ih (engine_apply hr fun e he heq => hsingle e he ?_) (fun f hf => hcalls f (List.mem_cons_of_mem _ hf))
      fun e he hmem => hsingle e he (List.mem_cons_of_mem _ hmem)
    exact heq ▸ List.mem_cons_self ..

end Reasoner

end ELOntology
