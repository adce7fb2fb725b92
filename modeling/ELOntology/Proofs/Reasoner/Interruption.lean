import ELOntology.Proofs.Reasoner.Resumption

/-!
# Stages that are taken up again

Each stage keeps what it has done where an interruption does not reach it: contexts with work to do stay in the queue of
active contexts, contexts that have lost conclusions in the queue of modified ones, and the steps of maintenance that are
taken once are noted in the progress record.  So every stage resumes (`resumes_runStage`).

What this rests on holds after any history, also when contexts have been created in the midst of a retraction (`Tended`).
-/

namespace ELOntology

namespace Workspace

variable {w : Workspace} {root : ExprId}

@[simp] theorem has_still : w.still.Has root ↔ w.Has root := by
  unfold Has
  rw [context?_still]
  cases w.context? root <;> simp

theorem Orderly.still (h : w.Orderly) : w.still.Orderly where
  scheduled := h.scheduled.congr rfl fun root => by
    rw [context?_still, Option.map_map]
    rfl
  marked := h.marked.congr rfl fun root => by
    rw [mark?, context?_still, Option.map_map]
    rfl

end Workspace

namespace Reasoner

/-- What taking maintenance up again relies on.  One worker takes all turns: several may do the same work in another
order. -/
structure Tended (stages : StageStatus) (r : Reasoner) : Prop where
  stages : r.stages = stages
  engine : r.engine = .single
  orderly : r.workspace.Orderly
  nodup : r.progress.cleaned.Nodup
  has {root : ExprId} : root ∈ r.progress.cleaned → r.workspace.Has root

namespace Tended

variable {stages : StageStatus} {r : Reasoner}

theorem steady : Request.Steady (Tended stages) where
  still h := ⟨h.stages, h.engine, h.orderly.still, h.nodup, fun hroot => Workspace.has_still.2 (h.has hroot)⟩

/-- Work is done in the workspace, and no context is dropped. -/
theorem work (h : r.Tended stages) {w : Workspace} (hw : w.Orderly) (hhas : ∀ root, r.workspace.Has root → w.Has root)
    (statistics : Statistics) : Tended stages { r with workspace := w, statistics } :=
  ⟨h.stages, h.engine, hw, h.nodup, fun hroot => hhas _ (h.has hroot)⟩

theorem submitAll (h : r.Tended stages) (roots : List ExprId) (statistics : Statistics) :
    Tended stages { r with workspace := (r.workspace.submitAll roots).2, statistics } :=
  h.work (h.orderly.submitAll roots) (fun _ => Workspace.has_submitAll_of_has) statistics

theorem runRules (h : r.Tended stages) (mode : Mode) (w : Workspace) : r.runRules mode w = r.ruleBase.run mode w := by
  rw [Reasoner.runRules, h.engine]
  rfl

theorem run (h : r.Tended stages) (mode : Mode) (roots : List ExprId) (statistics : Statistics) :
    Tended stages { r with workspace := (r.runRules mode (r.workspace.submitAll roots).2).2, statistics } := by
  rw [h.runRules]
  have hcourse := RuleBase.course_run 1 r.ruleBase mode (r.workspace.submitAll roots).2
  exact h.work ((h.orderly.submitAll roots).course hcourse)
    (fun _ hroot => hcourse.has (Workspace.has_submitAll_of_has hroot)) statistics

/-- Before the contexts are saturated a stage may do anything that does not ask for an interruption. -/
theorem continues {r' : Reasoner} (h : r.Tended stages) (h' : r'.Tended stages) (hnot : stages.isDone .saturation = false)
    (hconfig : r'.config = r.config) (hcalm : r.workspace.monitor.Calm → r'.workspace.monitor.Calm) : r.Continues r' :=
  .of_unsaturated hconfig hcalm (h.stages ▸ hnot) (h'.stages ▸ hnot)

end Tended

end Reasoner

open Reasoner

namespace Request

variable {stages : StageStatus} {r : Reasoner}

/-! ### Runs -/

/-- Without an interruption a run for a stage settles. -/
theorem calmly_saturate (h : r.Tended stages) (stage : Stage) (mode : Mode) (roots : List ExprId) :
    calmly (saturate stage mode roots) r = (.ok (), { r with
      workspace := r.ruleBase.settle mode (r.workspace.ensureAll roots)
      statistics := [] }) := by
  have hsubmit : r.still.workspace.submitAll roots = (false, (r.workspace.ensureAll roots).still) :=
    Workspace.submitAll_still ..
  have hsome : (r.ruleBase.run mode (r.workspace.ensureAll roots).still).1.isSome = true :=
    (RuleBase.course_run 1 _ _ _).isSome_of_calm (Workspace.calm_still _)
  unfold calmly saturate
  rw [hsubmit]
  dsimp only
  rw [(Tended.steady.still h).runRules, show r.still.ruleBase = r.ruleBase from rfl, RuleBase.settle]
  rcases hrun : r.ruleBase.run mode (r.workspace.ensureAll roots).still with ⟨_ | statistics, w⟩ <;> rw [hrun] at hsome
  · cases hsome
  · rfl

/-- Where no context is active there is nothing to run. -/
theorem calmly_saturate_of_idle (h : r.Tended stages) (stage : Stage) (mode : Mode)
    (hidle : r.workspace.active.toList = []) : calmly (saturate stage mode []) r = (.ok (), r.still) := by
  rw [calmly_saturate h]
  exact congrArg (fun w => (Except.ok (), ({ r with workspace := w, statistics := [] } : Reasoner)))
    (RuleBase.settle_of_idle hidle)

/-- A run for a stage before the contexts are saturated resumes.  It leaves no context active, and if it derives every one
marked. -/
theorem resumes_saturate {stage : Stage} {mode : Mode} {roots : List ExprId} {Q : Reasoner → Prop}
    (hstages : stages.isDone .saturation = false) (hmode : mode = .derive ∨ roots = [])
    (hQ : ∀ r w statistics, w.contexts.size = r.workspace.contexts.size → Q r → Q { r with workspace := w, statistics }) :
    Resumes (fun r => r.Tended stages ∧ Q r) (saturate stage mode roots) fun _ r =>
      (r.Tended stages ∧ Q r) ∧ r.workspace.active.toList = [] ∧ (mode = .derive → r.AllMarked) := by
  refine .of_outcome fun r hr => ?_
  obtain ⟨hr, hQr⟩ := hr
  have hunsaturated : r.stages.isDone .saturation = false := hr.stages ▸ hstages
  have hcalm (hc : r.workspace.monitor.Calm) := Workspace.submitAll_of_calm hc roots
  have hcourse := RuleBase.course_run 1 r.ruleBase mode (r.workspace.submitAll roots).2
  have hrun (statistics : Statistics) := hr.run mode roots statistics
  rw [hr.runRules] at hrun
  have hsize : (r.workspace.submitAll roots).2.contexts.size = r.workspace.contexts.size := Workspace.size_submitAll roots
  have hsize' : (r.ruleBase.run mode (r.workspace.submitAll roots).2).2.contexts.size = r.workspace.contexts.size :=
    hcourse.size.trans hsize
  -- taken up again, the run settles where it would have settled
  have hagain {w : Workspace} (hw : Tended stages { r with workspace := w })
      (hsame : r.ruleBase.settle mode (w.ensureAll roots) = r.ruleBase.settle mode (r.workspace.ensureAll roots)) :
      calmly (saturate stage mode roots) { r with workspace := w } = calmly (saturate stage mode roots) r := by
    rw [calmly_saturate hw, calmly_saturate hr]
    exact congrArg (fun w => (Except.ok (), ({ r with workspace := w, statistics := [] } : Reasoner))) hsame
  refine outcome_saturate (fun hstopped => ?_) (fun hall hstopped => ?_) fun hall hdone statistics => ?_
  · refine ⟨rfl, ⟨hr.submitAll roots _, hQ r _ _ hsize hQr⟩, ⟨rfl, fun hc => ?_, hunsaturated, hunsaturated⟩,
      hagain (hr.submitAll roots _) RuleBase.settle_submitAll⟩
    rw [(hcalm hc).1] at hstopped
    cases hstopped
  · rw [hr.runRules] at hstopped ⊢
    refine ⟨rfl, ⟨hrun _, hQ r _ _ hsize' hQr⟩, ⟨rfl, fun hc => ?_, hunsaturated, hunsaturated⟩,
      hagain (hrun _) (RuleBase.settle_ensureAll_run hmode hall)⟩
    rw [hcourse.isSome_of_calm (hcalm hc).2] at hstopped
    cases hstopped
  · rw [hr.runRules] at hdone ⊢
    refine ⟨⟨⟨hrun _, hQ r _ _ hsize' hQr⟩, RuleBase.active_run hdone, ?_⟩,
      hr.continues (hrun _) hstages rfl fun hc => hcourse.calm (hcalm hc).2, ?_⟩
    · rintro rfl root ctx hctx
      exact (hcourse.rested (hr.orderly.scheduled.submitAll roots) hdone).flagged hctx
    · rw [calmly_saturate hr, ← RuleBase.still_run_submitAll hall hdone]
      rfl

/-! ### Deletion -/

/-- Finish the derivations that an interrupted run has left over, unless the retraction has been seeded. -/
def finishDerivation : Request Unit := fun r =>
  if !r.progress.deletionsSeeded && r.workspace.hasActive then saturate .deletion .derive [] r else (.ok (), r)

/-- Seed the retraction, unless that has been done. -/
def seedDeletion (r : Reasoner) : Reasoner :=
  if r.progress.deletionsSeeded then r
  else
    { r with
      workspace := r.workspace.seedRemoved r.roles r.index.pending.removed
      progress := { r.progress with deletionsSeeded := true } }

@[simp] theorem config_seedDeletion (r : Reasoner) : (seedDeletion r).config = r.config := by
  unfold seedDeletion
  split <;> rfl

@[simp] theorem engine_seedDeletion (r : Reasoner) : (seedDeletion r).engine = r.engine := by
  unfold seedDeletion
  split <;> rfl

theorem runDeletion_eq : runDeletion =
    (finishDerivation >>= fun _ => change seedDeletion) >>= fun _ => saturate .deletion .retract [] := by
  funext r
  rw [bind_assoc, bind_apply finishDerivation]
  unfold runDeletion finishDerivation
  rw [bind_apply get]
  show (if !r.progress.deletionsSeeded && r.workspace.hasActive then _ else _ : Request Unit) r = _
  split
  · exact bind_apply ..
  · rfl

theorem still_seedDeletion (r : Reasoner) : (seedDeletion r.still).still = (seedDeletion r).still := by
  unfold seedDeletion
  show (if r.progress.deletionsSeeded then r.still else _).still = _
  split
  · exact still_still
  · simp [Reasoner.still]

theorem resumes_finishDerivation (hstages : stages.isDone .saturation = false) :
    Resumes (Tended stages) finishDerivation fun _ => Tended stages := by
  refine .fibre (·.progress.deletionsSeeded) fun seeded => ?_
  have hsteady : Steady fun r => r.Tended stages ∧ r.progress.deletionsSeeded = seeded := Tended.steady.and ⟨id⟩
  cases seeded with
  | true =>
    refine .of_eq_ok hsteady () fun r hr => ⟨?_, hr.1⟩
    simp [finishDerivation, hr.2]
  | false =>
    have hsaturate : Resumes (fun r => r.Tended stages ∧ r.progress.deletionsSeeded = false) (saturate .deletion .derive [])
        fun _ r => r.Tended stages :=
      (resumes_saturate hstages (.inl rfl) fun _ _ _ _ h => h).imp fun _ _ hr => hr.1.1
    refine hsaturate.skip hsteady fun r hr => ?_
    cases hactive : r.workspace.hasActive with
    | true => exact .inl (by simp [finishDerivation, hr.2, hactive])
    | false =>
      have hidle : r.workspace.active.toList = [] := Queue.isEmpty_iff.1 (by simpa [Workspace.hasActive] using hactive)
      exact .inr ⟨(), by simp [finishDerivation, hactive], calmly_saturate_of_idle hr.1 _ _ hidle, hr.1⟩

theorem tended_seedDeletion (h : r.Tended stages) : (seedDeletion r).Tended stages := by
  unfold seedDeletion
  split
  · exact h
  · exact ⟨h.stages, h.engine, h.orderly.seedRemoved _ _, h.nodup, fun hroot => (Workspace.has_seedRemoved _ _).2 (h.has hroot)⟩

/-- Deletion resumes: derivations that are left over are not lost, and the retraction is seeded once. -/
theorem resumes_runDeletion (hstages : stages.isDone .saturation = false) :
    Resumes (Tended stages) runDeletion fun _ => Tended stages := by
  have hseeded (r : Reasoner) : (seedDeletion r).progress.deletionsSeeded = true := by
    unfold seedDeletion
    split
    · assumption
    · rfl
  have hprepare : Resumes (Tended stages) (finishDerivation >>= fun _ => change seedDeletion)
      fun _ r => r.Tended stages ∧ r.progress.deletionsSeeded = true := by
    refine Resumes.andCompute (g := fun _ _ => ()) (k := fun _ => seedDeletion) Tended.steady
      (resumes_finishDerivation hstages) (fun _ _ => rfl) (fun _ => still_seedDeletion)
      fun _ r hr => ⟨⟨tended_seedDeletion hr, hseeded r⟩, ?_⟩
    have hcalm : r.workspace.monitor.Calm → (seedDeletion r).workspace.monitor.Calm := by
      unfold seedDeletion
      split
      · exact id
      · exact fun hcalm => Workspace.calm_seedRemoved hcalm _ _
    exact hr.continues (tended_seedDeletion hr) hstages (config_seedDeletion r) hcalm
  have hretract : Resumes (fun r => r.Tended stages ∧ r.progress.deletionsSeeded = true) (saturate .deletion .retract [])
      fun _ => Tended stages :=
    (resumes_saturate hstages (.inr rfl) fun _ _ _ _ h => h).imp fun _ _ hr => hr.1.1
  rw [runDeletion_eq]
  refine hprepare.bind Tended.steady (fun _ => hretract) fun _ r hr => ⟨hr.1, ?_⟩
  -- once the retraction is seeded, there is nothing to prepare
  have hnothing : (finishDerivation >>= fun _ => change seedDeletion) r.still = (.ok (), r.still) := by
    have hseeded : r.still.progress.deletionsSeeded = true := hr.2
    rw [bind_apply]
    simp [finishDerivation, hseeded, change, seedDeletion]
  rw [calmly, hnothing, still_still]

/-! ### Cleaning -/

/-- One pass of cleaning.  The answer says whether there is more to clean. -/
def cleaningPass : Request Bool := saturate .cleaning .retract [] >>= fun _ r => (.ok (cleanModified r).1, (cleanModified r).2)

theorem cleaningPasses_succ (passes : Nat) :
    cleaningPasses (passes + 1) = cleaningPass >>= fun more => if more then cleaningPasses passes else pure () := by
  rw [cleaningPass, bind_assoc]
  rfl

/-- Enough passes are left for the contexts in a table of the given size, since each but the last cleans one. -/
def Cleanable (stages : StageStatus) (size passes : Nat) (r : Reasoner) : Prop :=
  r.Tended stages ∧ r.workspace.contexts.size = size ∧ size < passes + r.progress.cleaned.length

/-- A pass that has more to clean leaves enough passes, and the last one leaves no context to clean. -/
def AfterPass (stages : StageStatus) (size passes : Nat) : Bool → Reasoner → Prop
  | true, r => Cleanable stages size passes r
  | false, r => r.Tended stages ∧ r.workspace.modified.toList = []

section

variable {size passes : Nat}

theorem steady_size : Steady fun r => r.workspace.contexts.size = size := ⟨fun h => Workspace.size_still.trans h⟩

theorem steady_cleanable : Steady (Cleanable stages size passes) := Tended.steady.and (steady_size.and ⟨id⟩)

theorem not_cleanable_zero (h : Cleanable stages size 0 r) : False := by
  obtain ⟨htended, hsize, henough⟩ := h
  have hle := length_cleaned_le htended.nodup fun _ => htended.has
  omega

theorem cleanModified_still (r : Reasoner) : cleanModified r.still = ((cleanModified r).1, (cleanModified r).2.still) := by
  unfold cleanModified
  rw [show r.still.workspace.takeModified = _ from Workspace.takeModified_still]
  dsimp only [Reasoner.still]
  rw [Workspace.still_seedCleaning]
  rfl

theorem tended_clean (h : r.Tended stages) : (cleanModified r).2.Tended stages where
  stages := h.stages
  engine := h.engine
  orderly := h.orderly.takeModified.seedCleaning _
  nodup := Retracts.nodup_clean h.orderly.marked h.nodup
  has hroot := Retracts.has_clean h.orderly.marked (fun _ => h.has) hroot

theorem afterPass_clean (h : Cleanable stages size (passes + 1) r) :
    AfterPass stages size passes (cleanModified r).1 (cleanModified r).2 := by
  obtain ⟨htended, hsize, henough⟩ := h
  have hclean := tended_clean htended
  cases hmore : (cleanModified r).1 with
  | true =>
    have hlonger := Retracts.length_cleaned_lt hmore
    exact ⟨hclean, (Retracts.size_clean r).trans hsize, by omega⟩
  | false => exact ⟨hclean, Retracts.modified_clean r⟩

theorem resumes_cleaningPass (hstages : stages.isDone .saturation = false) :
    Resumes (Cleanable stages size (passes + 1)) cleaningPass (AfterPass stages size passes) := by
  have hsaturate : Resumes (Cleanable stages size (passes + 1)) (saturate .cleaning .retract [])
      fun _ => Cleanable stages size (passes + 1) :=
    (resumes_saturate hstages (.inr rfl) fun _ _ _ hsize h => ⟨hsize.trans h.1, h.2⟩).imp fun _ _ hr => hr.1
  refine Resumes.andCompute (g := fun _ r => (cleanModified r).1) (k := fun _ r => (cleanModified r).2)
    steady_cleanable hsaturate (fun _ r => ?_) (fun _ r => ?_) fun _ r hr => ⟨afterPass_clean hr, ?_⟩
  · rw [cleanModified_still]
  · rw [cleanModified_still, still_still]
  · exact hr.1.continues (tended_clean hr.1) hstages rfl (Retracts.serves_clean r).calm

/-- More passes than enough make no difference. -/
theorem cleaningPasses_eq (hstages : stages.isDone .saturation = false) (h : Cleanable stages size passes r) :
    cleaningPasses (passes + 1) r = cleaningPasses passes r := by
  induction passes generalizing r with
  | zero => exact (not_cleanable_zero h).elim
  | succ passes ih =>
    rw [congrFun (cleaningPasses_succ (passes + 1)) r, congrFun (cleaningPasses_succ passes) r, bind_apply, bind_apply]
    rcases hpass : cleaningPass r with ⟨e | more, r'⟩
    · rfl
    · have hafter := ((resumes_cleaningPass hstages).answered h hpass).1
      cases more with
      | true => exact ih hafter
      | false => rfl

/-- Cleaning resumes after every pass, with the contexts noted that have been cleaned so far. -/
theorem resumes_cleaningPasses (hstages : stages.isDone .saturation = false) (passes : Nat) :
    Resumes (Cleanable stages size passes) (cleaningPasses passes)
      fun _ r => r.Tended stages ∧ r.workspace.modified.toList = [] := by
  induction passes with
  | zero => exact .of_outcome fun r hr => (not_cleanable_zero hr).elim
  | succ passes ih =>
    have hrest (more : Bool) : Resumes (AfterPass stages size passes more)
        (if more then cleaningPasses passes else pure ()) fun _ r => r.Tended stages ∧ r.workspace.modified.toList = [] := by
      cases more with
      | true => exact ih
      | false => exact .of_eq_ok (Tended.steady.and ⟨id⟩) () fun r hr => ⟨rfl, hr⟩
    rw [cleaningPasses_succ]
    refine .bind_of_calmly steady_cleanable (resumes_cleaningPass hstages) hrest ?_ ?_
    · intro more r e r' hr hrun hr'
      cases more with
      | true => exact ⟨hr'.1, hr'.2.1, Nat.lt_of_lt_of_le hr'.2.2 (by omega)⟩
      | false => cases hrun
    · intro more r e r' hr hrun _ hr'
      cases more with
      | true =>
        -- it goes on with one pass more than it had left, which makes no difference
        rw [← cleaningPasses_succ, calmly, cleaningPasses_eq hstages (steady_cleanable.still hr')]
        rfl
      | false => cases hrun

end

theorem resumes_runCleaning (hstages : stages.isDone .saturation = false) : Resumes (Tended stages) runCleaning
    fun _ r => r.Tended stages ∧ r.workspace.modified.toList = [] := by
  refine .fibre (·.workspace.contexts.size) fun size => ?_
  have hcleanable : (fun r => r.Tended stages ∧ r.workspace.contexts.size = size) = Cleanable stages size (size + 1) := by
    refine funext fun r => propext ⟨fun h => ⟨h.1, h.2, by omega⟩, fun h => ⟨h.1, h.2.1⟩⟩
  rw [hcleanable]
  refine (resumes_cleaningPasses hstages (size + 1)).congr steady_cleanable fun r hr => ?_
  unfold runCleaning
  rw [bind_apply]
  exact congrArg (fun n => cleaningPasses (n + 1) r) hr.2.1

/-! ### Addition -/

/-- Commit and make the contexts ready for the new rules, unless that has been done. -/
def seedAddition (r : Reasoner) : Reasoner := if r.progress.additionsSeeded then r else r.renew

@[simp] theorem config_seedAddition (r : Reasoner) : (seedAddition r).config = r.config := by
  unfold seedAddition
  split <;> rfl

@[simp] theorem engine_seedAddition (r : Reasoner) : (seedAddition r).engine = r.engine := by
  unfold seedAddition
  split <;> rfl

theorem runAddition_eq : runAddition =
    (change seedAddition >>= fun _ => saturate .addition .derive []) >>= fun _ =>
      change fun r => { r with progress := .none } := by
  rw [bind_assoc]
  unfold runAddition
  refine congrArg (fun k => change k >>= fun _ => _) (funext fun r => ?_)
  unfold seedAddition
  split
  · rfl
  · generalize hcommit : r.index.commit = committed
    cases committed
    exact (renew_eq hcommit).symm

theorem still_renew (r : Reasoner) : r.still.renew.still = r.renew.still := by
  simp [renew, Reasoner.still]

theorem still_seedAddition (r : Reasoner) : (seedAddition r.still).still = (seedAddition r).still := by
  unfold seedAddition
  show (if r.progress.additionsSeeded then r.still else r.still.renew).still = _
  split
  · exact still_still
  · exact still_renew r

theorem tended_renew (h : r.Tended stages) (hmodified : r.workspace.modified.toList = []) : r.renew.Tended stages where
  stages := h.stages
  engine := h.engine
  orderly := (((h.orderly.grow _).restart hmodified _).replay _ _).seedAdded _ _
  nodup := h.nodup
  has hroot := (Workspace.has_seedAdded _ _).2 ((Workspace.has_replay _ _).2 ((Workspace.has_restart _).2
    ((Workspace.has_grow _).2 (h.has hroot))))

/-- The cleaned contexts have been taken out of their queue, unless they have started again. -/
def Renewable (stages : StageStatus) (r : Reasoner) : Prop :=
  r.Tended stages ∧ (r.progress.additionsSeeded = false → r.workspace.modified.toList = [])

theorem steady_renewable : Steady (Renewable stages) := Tended.steady.and ⟨id⟩

/-- Addition resumes: the changes are committed once. -/
theorem resumes_runAddition (hstages : stages.isDone .saturation = false) :
    Resumes (Renewable stages) runAddition fun _ => Tended stages := by
  have hseed : Resumes (Renewable stages) (change seedAddition)
      fun _ r => r.Tended stages ∧ r.progress.additionsSeeded = true := by
    refine Resumes.compute (g := fun _ => ()) (fun _ => rfl) still_seedAddition fun r hr => ?_
    unfold seedAddition
    split <;> rename_i hseeded
    · exact ⟨⟨hr.1, hseeded⟩, .refl r⟩
    · have htended := tended_renew hr.1 (hr.2 (Bool.eq_false_iff.2 hseeded))
      refine ⟨⟨htended, rfl⟩, hr.1.continues htended hstages rfl fun hcalm => ?_⟩
      exact Workspace.calm_seedAdded (Workspace.calm_replay (by rwa [Workspace.monitor_restart]) _ _) _ _
  have hderive : Resumes (fun r => r.Tended stages ∧ r.progress.additionsSeeded = true) (saturate .addition .derive [])
      fun _ => Tended stages :=
    (resumes_saturate hstages (.inl rfl) fun _ _ _ _ h => h).imp fun _ _ hr => hr.1.1
  have hboth : Resumes (Renewable stages) (change seedAddition >>= fun _ => saturate .addition .derive [])
      fun _ => Tended stages := by
    refine hseed.bind steady_renewable (fun _ => hderive) fun _ r hr => ⟨⟨hr.1, fun hnot => ?_⟩, ?_⟩
    · rw [hr.2] at hnot
      cases hnot
    · have hnothing : seedAddition r.still = r.still := if_pos hr.2
      rw [calmly, change, hnothing, still_still]
  rw [runAddition_eq]
  refine hboth.andCompute (g := fun _ _ => ()) (k := fun _ r => { r with progress := .none }) steady_renewable
    (fun _ _ => rfl) (fun _ r => ?_) fun _ r hr => ⟨?_, .of_workspace rfl rfl rfl⟩
  · simp [Reasoner.still]
  · exact ⟨hr.stages, hr.engine, hr.orderly, List.nodup_nil, fun hroot => absurd hroot List.not_mem_nil⟩

/-! ### Saturation -/

/-- Saturation resumes: roots that have a context are not submitted again. -/
theorem resumes_runSaturation (hstages : stages.isDone .saturation = false) :
    Resumes (Tended stages) runSaturation fun _ r => r.Tended stages ∧ r.AllMarked := by
  refine .fibre (·.index) fun ix => ?_
  have hindex : Steady fun r => r.index = ix := ⟨id⟩
  have hcovers : Steady fun r => r.index = ix ∧ ix.nodes.size ≤ r.workspace.contexts.size :=
    ⟨fun h => ⟨h.1, Workspace.size_still.symm ▸ h.2⟩⟩
  have hsync : Resumes (fun r => r.Tended stages ∧ r.index = ix) (change (·.sync))
      fun _ r => r.Tended stages ∧ r.index = ix ∧ ix.nodes.size ≤ r.workspace.contexts.size := by
    refine Resumes.compute (g := fun _ => ()) (fun _ => rfl) (fun r => ?_) fun r hr => ?_
    · simp [sync, Reasoner.still]
    · obtain ⟨hr, rfl⟩ := hr
      have htended : r.sync.Tended stages := hr.work (hr.orderly.grow _) (fun _ => (Workspace.has_grow _).2) r.statistics
      refine ⟨⟨htended, rfl, ?_⟩, hr.continues htended hstages rfl id⟩
      show _ ≤ (r.workspace.grow _).contexts.size
      rw [Workspace.size_grow]
      exact Nat.le_max_right ..
  have hderive : Resumes (fun r => r.Tended stages ∧ r.index = ix ∧ ix.nodes.size ≤ r.workspace.contexts.size)
      (get >>= fun r => saturate .saturation .derive (r.index.classes ++ r.index.individuals))
      fun _ r => r.Tended stages ∧ r.AllMarked := by
    refine .congr (Tended.steady.and hcovers) (m := saturate .saturation .derive (ix.classes ++ ix.individuals)) ?_
      fun r hr => ?_
    · refine (resumes_saturate hstages (.inl rfl) fun _ _ _ hsize h => ⟨h.1, hsize ▸ h.2⟩).imp fun _ _ hr => ?_
      exact ⟨hr.1.1, hr.2.2 rfl⟩
    · obtain ⟨-, rfl, -⟩ := hr
      rw [bind_apply]
      rfl
  refine hsync.bind (Tended.steady.and hindex) (fun _ => hderive) fun _ r hr => ⟨⟨hr.1, hr.2.1⟩, ?_⟩
  -- the table has been extended already
  have hnothing : r.still.sync = r.still := by
    obtain ⟨-, rfl, hle⟩ := hr
    have hgrown : r.still.workspace.grow r.index.nodes.size = r.still.workspace :=
      Workspace.grow_of_le (Workspace.size_still.symm ▸ hle)
    exact congrArg (fun w => ({ r.still with workspace := w } : Reasoner)) hgrown
  rw [calmly, change, hnothing, still_still]

/-! ### What is concluded from the contexts -/

@[simp] theorem isContradictory_still (r : Reasoner) : isContradictory r.still = isContradictory r := by
  simp [isContradictory, Reasoner.still]

theorem withTaxonomy_still (r : Reasoner) : withTaxonomy r.still = ((withTaxonomy r).1, (withTaxonomy r).2.still) := by
  unfold withTaxonomy
  rw [show r.still.taxonomy = r.taxonomy from rfl]
  cases r.taxonomy with
  | some t => rfl
  | none => simp [Reasoner.still]

theorem withRealization_still (r : Reasoner) :
    withRealization r.still = ((withRealization r).1, (withRealization r).2.still) := by
  unfold withRealization
  rw [withTaxonomy_still]
  dsimp only
  generalize withTaxonomy r = made
  obtain ⟨t, r⟩ := made
  rw [show r.still.realization = r.realization from rfl]
  cases r.realization with
  | some i => rfl
  | none => simp [Reasoner.still]

/-- Only results are changed. -/
structure Concludes (r r' : Reasoner) : Prop where
  config : r'.config = r.config
  engine : r'.engine = r.engine
  workspace : r'.workspace = r.workspace
  stages : r'.stages = r.stages
  progress : r'.progress = r.progress

namespace Concludes

variable {r' : Reasoner}

theorem tended (h : Concludes r r') (hr : r.Tended stages) : r'.Tended stages where
  stages := h.stages.trans hr.stages
  engine := h.engine.trans hr.engine
  orderly := h.workspace ▸ hr.orderly
  nodup := h.progress ▸ hr.nodup
  has hroot := h.workspace ▸ hr.has (h.progress ▸ hroot)

theorem continues (h : Concludes r r') : r.Continues r' :=
  .of_workspace h.config h.workspace (congrArg (·.isDone .saturation) h.stages)

theorem withTaxonomy (r : Reasoner) : Concludes r (withTaxonomy r).2 := by
  unfold Request.withTaxonomy
  split <;> exact ⟨rfl, rfl, rfl, rfl, rfl⟩

theorem withRealization (r : Reasoner) : Concludes r (withRealization r).2 := by
  obtain ⟨hconfig, hengine, hworkspace, hstages, hprogress⟩ := withTaxonomy r
  unfold Request.withRealization
  dsimp only
  split <;> exact ⟨hconfig, hengine, hworkspace, hstages, hprogress⟩

end Concludes

theorem resumes_conclude {k : Reasoner → Reasoner} (hk : ∀ r, (k r.still).still = (k r).still)
    (h : ∀ r, Concludes r (k r)) : Resumes (Tended stages) (change k) fun _ => Tended stages :=
  Resumes.compute (g := fun _ => ()) (fun _ => rfl) hk fun r hr => ⟨(h r).tended hr, (h r).continues⟩

theorem runStage_validation (r : Reasoner) : runStage .validation r =
    match r.taxonomy with
    | none => (.ok (), r)
    | some t =>
      match t.audit r.index with
      | .ok () => (.ok (), r)
      | .error e => (.error (.taxonomy e), r) := by
  show (get >>= _ : Request Unit) r = _
  rw [bind_apply, show (get : Request Reasoner) r = (.ok r, r) from rfl]
  dsimp only
  cases r.taxonomy with
  | none => rfl
  | some t =>
    dsimp only
    cases t.audit r.index with
    | ok => rfl
    | error e => rfl

/-- The audit is never interrupted. -/
theorem resumes_validation : Resumes (Tended stages) (runStage .validation) fun _ => Tended stages := by
  refine .of_calmly fun r hr => ?_
  rw [calmly, runStage_validation, runStage_validation, show r.still.taxonomy = r.taxonomy from rfl,
    show r.still.index = r.index from rfl]
  cases r.taxonomy with
  | none => exact ⟨Prod.ext rfl still_still, hr, .refl r⟩
  | some t =>
    dsimp only
    cases t.audit r.index with
    | ok => exact ⟨Prod.ext rfl still_still, hr, .refl r⟩
    | error e => exact ⟨Prod.ext rfl still_still, rfl, hr, rfl⟩

/-! ### All stages -/

/-- Where a stage may be run. -/
def Awaits (stage : Stage) (stages : StageStatus) (r : Reasoner) : Prop :=
  r.Tended stages ∧ (stage = .addition → r.progress.additionsSeeded = false → r.workspace.modified.toList = [])

/-- Where a stage has come to its end. -/
def Ends (stage : Stage) (stages : StageStatus) (r : Reasoner) : Prop :=
  r.Tended stages ∧ (stage = .cleaning → r.workspace.modified.toList = []) ∧ (stage = .saturation → r.AllMarked)

/-- Every stage resumes, where it is not done. -/
theorem resumes_runStage (stage : Stage) (hclosed : stages.Closed) (hnot : stages.isDone stage = false) :
    Resumes (Awaits stage stages) (runStage stage) fun _ => Ends stage stages := by
  have hunsaturated (hdepth : stage.depth < 4) : stages.isDone .saturation = false :=
    Bool.eq_false_iff.2 (hclosed.ne_done_of_depth_lt hnot hdepth)
  have hawaits (hstage : stage ≠ .addition) : Awaits stage stages = Tended stages :=
    funext fun r => propext ⟨And.left, fun h => ⟨h, fun e => absurd e hstage⟩⟩
  have hends (hstage : stage ≠ .cleaning) (hstage' : stage ≠ .saturation) : Ends stage stages = Tended stages :=
    funext fun r => propext ⟨And.left, fun h => ⟨h, fun e => absurd e hstage, fun e => absurd e hstage'⟩⟩
  cases stage with
  | roleHierarchy =>
    rw [hawaits (by decide), hends (by decide) (by decide)]
    refine resumes_conclude (fun r => ?_) fun r => ⟨rfl, rfl, rfl, rfl, rfl⟩
    simp [Reasoner.still]
  | deletion =>
    rw [hawaits (by decide), hends (by decide) (by decide)]
    exact resumes_runDeletion (hunsaturated (by decide))
  | cleaning =>
    rw [hawaits (by decide)]
    exact (resumes_runCleaning (hunsaturated (by decide))).imp fun _ r hr => ⟨hr.1, fun _ => hr.2, fun h => absurd h (by decide)⟩
  | addition =>
    have hrenewable : Awaits .addition stages = Renewable stages :=
      funext fun r => propext ⟨fun h => ⟨h.1, h.2 rfl⟩, fun h => ⟨h.1, fun _ => h.2⟩⟩
    rw [hrenewable, hends (by decide) (by decide)]
    exact resumes_runAddition (hunsaturated (by decide))
  | saturation =>
    rw [hawaits (by decide)]
    exact (resumes_runSaturation hnot).imp fun _ r hr => ⟨hr.1, fun h => absurd h (by decide), fun _ => hr.2⟩
  | consistency =>
    rw [hawaits (by decide), hends (by decide) (by decide)]
    refine resumes_conclude (fun r => ?_) fun r => ⟨rfl, rfl, rfl, rfl, rfl⟩
    rw [isContradictory_still]
    simp [Reasoner.still]
  | classTaxonomy =>
    rw [hawaits (by decide), hends (by decide) (by decide)]
    refine resumes_conclude (fun r => ?_) fun r => ⟨rfl, rfl, rfl, rfl, rfl⟩
    simp [Reasoner.still]
  | instanceTaxonomy =>
    rw [hawaits (by decide), hends (by decide) (by decide)]
    refine resumes_conclude (fun r => ?_) fun r => ?_
    · show (withRealization (Reasoner.still { r with realization := none })).2.still = _
      rw [withRealization_still, still_still]
    · obtain ⟨hconfig, hengine, hworkspace, hstages, hprogress⟩ := Concludes.withRealization { r with realization := none }
      exact ⟨hconfig, hengine, hworkspace, hstages, hprogress⟩
  | validation =>
    rw [hawaits (by decide), hends (by decide) (by decide)]
    exact resumes_validation

end Request

end ELOntology
