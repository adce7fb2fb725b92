import ELOntology.Proofs.Reasoner.Invariant

/-!
# Stages keep the invariant

Every stage keeps the invariant of a reasoner, whether it runs to its end or is interrupted on the way (`Sound.runStage`).
The stages of maintenance pass through states in which derivation or retraction is under way (`Maintained`).

A stage only fails when an interruption is asked for, and it never changes what is asserted (`Serves`).
-/

namespace ELOntology

/-! ### Requests -/

namespace Request

variable {α β : Type} {P : β → Reasoner → Prop} {E : ReasonerError → Reasoner → Prop} {r : Reasoner}

theorem bind_apply (m : Request α) (f : α → Request β) (r : Reasoner) : (m >>= f) r =
    match m r with
    | (.ok a, r') => f a r'
    | (.error e, r') => (.error e, r') := by
  show (ExceptT.bind m f) r = _
  unfold ExceptT.bind ExceptT.mk
  show (match m r with | (a, s) => ExceptT.bindCont f a s) = _
  rcases m r with ⟨a | a, r'⟩ <;> rfl

/-- What comes after a request starts where the request has ended. -/
theorem outcome_bind {m : Request α} {f : α → Request β} (h : Outcome (fun a r' => Outcome P E (f a r')) E (m r)) :
    Outcome P E ((m >>= f) r) := by
  rw [bind_apply]
  generalize m r = result at h
  cases h with
  | ok h => exact h
  | error h => exact .error h

theorem outcome_get {f : Reasoner → Request β} (h : Outcome P E (f r r)) : Outcome P E ((get >>= f) r) :=
  outcome_bind (.ok h)

theorem outcome_change {g : Reasoner → Reasoner} {f : Unit → Request β} (h : Outcome P E (f () (g r))) :
    Outcome P E ((change g >>= f) r) := outcome_bind (.ok h)

/-- A run for a stage ends well, or stops because an interruption was asked for. -/
theorem outcome_saturate {stage : Stage} {mode : Mode} {roots : List ExprId} {P : Unit → Reasoner → Prop}
    (hstopped : (r.workspace.submitAll roots).1 = true →
      E (.interrupted stage.name) { r with workspace := (r.workspace.submitAll roots).2 })
    (hinterrupted : (r.workspace.submitAll roots).1 = false →
      (r.runRules mode (r.workspace.submitAll roots).2).1.isSome = false →
      E (.interrupted stage.name) { r with workspace := (r.runRules mode (r.workspace.submitAll roots).2).2 })
    (hdone : (r.workspace.submitAll roots).1 = false →
      (r.runRules mode (r.workspace.submitAll roots).2).1.isSome = true → ∀ statistics,
      P () { r with workspace := (r.runRules mode (r.workspace.submitAll roots).2).2, statistics }) :
    Outcome P E (saturate stage mode roots r) := by
  unfold saturate
  rcases hsubmit : r.workspace.submitAll roots with ⟨_ | _, w⟩ <;> rw [hsubmit] at hstopped hinterrupted hdone
  · dsimp only
    rcases hrun : r.runRules mode w with ⟨_ | statistics, w'⟩ <;> rw [hrun] at hinterrupted hdone
    · exact .error (hinterrupted rfl rfl)
    · exact .ok (hdone rfl rfl _)
  · exact .error (hstopped rfl)

/-- The case of a run for which nothing is submitted. -/
theorem outcome_run {stage : Stage} {mode : Mode} {P : Unit → Reasoner → Prop}
    (hinterrupted : (r.runRules mode r.workspace).1.isSome = false →
      E (.interrupted stage.name) { r with workspace := (r.runRules mode r.workspace).2 })
    (hdone : (r.runRules mode r.workspace).1.isSome = true → ∀ statistics,
      P () { r with workspace := (r.runRules mode r.workspace).2, statistics }) :
    Outcome P E (saturate stage mode [] r) :=
  outcome_saturate (fun e => by cases e) (fun _ => hinterrupted) fun _ => hdone

end Request

namespace Reasoner

open Request

/-- What requests leave as it is: the asserted axioms, under the same numbers, the configuration, and a calm monitor. -/
structure Serves (r r' : Reasoner) : Prop where
  alike : r.index.Alike r'.index
  axioms : r'.index.axioms = r.index.axioms
  config : r'.config = r.config
  saturated : r.stages.isDone .saturation = true → r'.stages.isDone .saturation = true
  calm : r.workspace.monitor.Calm → r'.workspace.monitor.Calm

namespace Serves

variable {r r' r'' : Reasoner}

theorem refl (r : Reasoner) : r.Serves r := ⟨.refl _, rfl, rfl, id, id⟩

theorem trans (h : r.Serves r') (h' : r'.Serves r'') : r.Serves r'' :=
  ⟨h.alike.trans h'.alike, h'.axioms.trans h.axioms, h'.config.trans h.config, fun hdone => h'.saturated (h.saturated hdone),
    fun hcalm => h'.calm (h.calm hcalm)⟩

/-- The index stays as it is. -/
theorem of_index (hindex : r'.index = r.index) (hconfig : r'.config = r.config)
    (hsaturated : r.stages.isDone .saturation = true → r'.stages.isDone .saturation = true)
    (hcalm : r.workspace.monitor.Calm → r'.workspace.monitor.Calm) : r.Serves r' :=
  ⟨hindex ▸ .refl _, hindex ▸ rfl, hconfig, hsaturated, hcalm⟩

end Serves

/-- How a stage that has been interrupted leaves the reasoner. -/
structure Interrupted (r : Reasoner) (e : ReasonerError) (r' : Reasoner) : Prop where
  error : e.isInterrupted = true
  unsaturated : r'.stages.isDone .saturation ≠ true
  not_calm : ¬ r.workspace.monitor.Calm
  serves : r.Serves r'
  sound : r'.Sound

/-- What a stage that has been interrupted has started from may be replaced by what came before it. -/
theorem Interrupted.of_serves {r r' r'' : Reasoner} {e : ReasonerError} (hserves : r.Serves r') (h : r'.Interrupted e r'') :
    r.Interrupted e r'' :=
  ⟨h.error, h.unsaturated, fun hcalm => h.not_calm (hserves.calm hcalm), hserves.trans h.serves, h.sound⟩

/-- The reasoner with one more stage done. -/
def finish (stage : Stage) (r : Reasoner) : Reasoner := { r with stages := r.stages.markDone stage }

/-- How a stage that has come to its end leaves the reasoner. -/
structure Finished (stage : Stage) (r r' : Reasoner) : Prop where
  stages : r'.stages = r.stages
  serves : r.Serves r'
  sound : (r'.finish stage).Sound

/-! ### Maintenance -/

/-- What holds at all moments of the stages of maintenance. -/
structure Maintained (r : Reasoner) : Prop where
  engine : r.engine.Lawful
  accounts : r.index.Accounts
  taken : r.index.rolesChanged = false
  sized : r.workspace.contexts.size = r.index.nodes.size ∨ r.workspace.contexts.size = 0
  orderly : r.workspace.Orderly
  closed : r.stages.Closed
  fits : r.roles.Fits r.index
  hierarchy : r.stages.isDone .roleHierarchy = true
  pending {filler existential : ExprId} {role : RoleId} :
    .propagation filler role existential ∈ r.index.pending.added → role.val < r.roles.size
  unsaturated : r.stages.isDone .saturation = false

theorem Sound.maintained {r : Reasoner} (h : r.Sound) (hhierarchy : r.stages.isDone .roleHierarchy = true)
    (hunsaturated : r.stages.isDone .saturation = false) : r.Maintained :=
  ⟨h.engine, h.accounts, h.taken, h.sized, h.orderly, h.closed, h.fits hhierarchy, hhierarchy, h.hierarchical.pending hhierarchy,
    hunsaturated⟩

namespace Maintained

variable {r : Reasoner}

/-- Where the phase is right the invariant holds, since no later stage is done. -/
theorem sound (h : r.Maintained) (hphase : r.Phase) : r.Sound := by
  have hnot {stage : Stage} (hdepth : 4 < stage.depth) : r.stages.isDone stage ≠ true :=
    h.closed.ne_done_of_depth_lt h.unsaturated hdepth
  refine ⟨h.engine, h.accounts, h.taken, h.sized, h.orderly, h.closed, ⟨.inl h.fits, fun e => ?_, fun _ {_ _ _} => h.pending⟩, hphase,
    fun e => ?_, fun e => absurd e (hnot (by decide)), fun e => absurd e (hnot (by decide)),
    fun e => absurd e (hnot (by decide))⟩
  · rw [h.hierarchy] at e
    cases e
  · rw [h.unsaturated] at e
    cases e

/-- Work is done in the workspace. -/
theorem work (h : r.Maintained) {w : Workspace} (hsize : w.contexts.size = r.workspace.contexts.size) (hw : w.Orderly)
    (progress : Progress) (statistics : Statistics) :
    Maintained { r with workspace := w, progress, statistics } :=
  { h with sized := by rw [hsize]; exact h.sized, orderly := hw }

theorem finish (h : r.Maintained) {stage : Stage}
    (hneeded : ∀ needed ∈ stage.dependencies, r.stages.isDone needed = true) (hstage : stage ≠ .saturation) :
    (r.finish stage).Maintained :=
  { h with
    closed := h.closed.markDone hneeded
    hierarchy := StageStatus.isDone_markDone.2 (.inr h.hierarchy)
    unsaturated := by
      refine Bool.eq_false_iff.2 fun e => ?_
      rcases StageStatus.isDone_markDone.1 e with e | e
      · exact hstage e.symm
      · rw [h.unsaturated] at e
        cases e }

/-- Whatever run is made, it is a course. -/
theorem course (h : r.Maintained) (mode : Mode) (w : Workspace) :
    Course r.config.workers r.ruleBase mode w (r.runRules mode w) := h.engine ..

theorem regular (h : r.Maintained) : r.calculus.Regular := h.accounts.regular_of_fits h.fits

theorem within (h : r.Maintained) : r.calculus.Within r.workspace.contexts.size ∨ r.workspace.contexts.size = 0 := by
  rcases h.sized with e | e
  · exact .inl (e ▸ h.accounts.within_of_fits r.roles)
  · exact .inr e

/-- A run that derives goes on with the derivation.  When it ends, the workspace is at rest, and what was submitted has a
context. -/
theorem outcome_derive (h : r.Maintained) (hderiving : Deriving r.calculus r.workspace) (stage : Stage)
    (roots : List ExprId) (hphase : ∀ w, Deriving r.calculus w → Phase { r with workspace := w }) :
    Outcome (fun _ r' => r'.Maintained ∧ Deriving r'.calculus r'.workspace ∧ r'.workspace.Rested ∧
      r'.stages = r.stages ∧ r'.progress = r.progress ∧ r'.index = r.index ∧ r.Serves r' ∧
      ∀ root ∈ roots, root.val < r.workspace.contexts.size → r'.workspace.Has root)
      r.Interrupted (saturate stage .derive roots r) := by
  have hsubmitted := hderiving.submitAll roots
  have hsize : (r.workspace.submitAll roots).2.contexts.size = r.workspace.contexts.size := Workspace.size_submitAll roots
  have horderly := h.orderly.submitAll roots
  have hcourse := h.course .derive (r.workspace.submitAll roots).2
  have hrun : Deriving r.calculus (r.runRules .derive (r.workspace.submitAll roots).2).2 :=
    hsubmitted.course h.regular (hsize ▸ h.within) hcourse
  have hmaintained := h.work (hcourse.size.trans hsize) (horderly.course hcourse) r.progress
  have hcalm (hc : r.workspace.monitor.Calm) := Workspace.submitAll_of_calm hc roots
  refine Request.outcome_saturate (fun hstopped => ?_) (fun _ hstopped => ?_) fun hall hdone statistics => ?_
  · refine ⟨rfl, Bool.eq_false_iff.1 h.unsaturated, fun hc => ?_, .of_index rfl rfl id fun hc => (hcalm hc).2,
      (h.work hsize horderly r.progress r.statistics).sound (hphase _ hsubmitted)⟩
    rw [(hcalm hc).1] at hstopped
    cases hstopped
  · refine ⟨rfl, Bool.eq_false_iff.1 h.unsaturated, fun hc => ?_, .of_index rfl rfl id fun hc => hcourse.calm (hcalm hc).2,
      (hmaintained _).sound (hphase _ hrun)⟩
    rw [hcourse.isSome_of_calm (hcalm hc).2] at hstopped
    cases hstopped
  · refine ⟨hmaintained statistics, hrun, hcourse.rested horderly.scheduled hdone, rfl, rfl, rfl,
      .of_index rfl rfl id fun hc => hcourse.calm (hcalm hc).2, fun root hroot hlt => ?_⟩
    exact hcourse.has ((Workspace.has_submitAll hall).2 (.inr ⟨hroot, hlt⟩))

end Maintained

/-! ### Retraction -/

/-- A retraction is under way. -/
structure Retracts (r : Reasoner) (base : ExprId → Conclusion → Prop) : Prop where
  maintained : r.Maintained
  seeded : r.progress.deletionsSeeded = true
  not_renewed : r.progress.additionsSeeded = false
  retracting : Retracting r.calculus r.index.pending.removed base r.progress.cleaned r.workspace
  nodup : r.progress.cleaned.Nodup
  has {root : ExprId} : root ∈ r.progress.cleaned → r.workspace.Has root
  addition : r.stages.isDone .addition = false

namespace Retracts

variable {r : Reasoner} {base : ExprId → Conclusion → Prop}

theorem sound (h : r.Retracts base)
    (hcleaning : r.stages.isDone .cleaning = true → r.workspace.Quiet ∧ r.workspace.modified.toList = []) : r.Sound :=
  h.maintained.sound (.retracting base h.seeded h.not_renewed h.retracting h.nodup (fun _ => h.has) h.maintained.hierarchy
    h.addition hcleaning)

theorem finish (h : r.Retracts base) {stage : Stage}
    (hneeded : ∀ needed ∈ stage.dependencies, r.stages.isDone needed = true) (hstage : stage.depth < 3) :
    (r.finish stage).Retracts base where
  maintained := h.maintained.finish hneeded (by rintro rfl; exact absurd hstage (by decide))
  seeded := h.seeded
  not_renewed := h.not_renewed
  retracting := h.retracting
  nodup := h.nodup
  has := h.has
  addition := by
    refine Bool.eq_false_iff.2 fun e => ?_
    rcases StageStatus.isDone_markDone.1 e with rfl | e
    · exact absurd hstage (by decide)
    · rw [h.addition] at e
      cases e

/-- The workspace after a run that retracts. -/
theorem run (h : r.Retracts base) (statistics : Statistics) :
    Retracts { r with workspace := (r.runRules .retract r.workspace).2, statistics } base := by
  have hcourse := h.maintained.course .retract r.workspace
  have hretracting := h.retracting.steps h.maintained.regular hcourse.steps
  exact {
    maintained := h.maintained.work hcourse.size (h.maintained.orderly.course hcourse) r.progress statistics
    seeded := h.seeded
    not_renewed := h.not_renewed
    retracting := hretracting
    nodup := h.nodup
    has := fun hroot => hretracting.has (h.retracting.rooted (h.has hroot))
    addition := h.addition }

/-- A run for a stage of a retraction goes on with the retraction.  When it ends, nothing is left to do for now. -/
theorem outcome_saturate (h : r.Retracts base) (stage : Stage) (hcleaning : r.stages.isDone .cleaning = false) :
    Outcome (fun _ r' => r'.Retracts base ∧ r'.workspace.Quiet ∧ r'.stages = r.stages ∧ r.Serves r' ∧
      r'.progress = r.progress ∧ r'.workspace.contexts.size = r.workspace.contexts.size)
      r.Interrupted (saturate stage .retract [] r) := by
  have hnot {done : Prop} (e : r.stages.isDone .cleaning = true) : done := by
    rw [hcleaning] at e
    cases e
  have hcourse := h.maintained.course .retract r.workspace
  refine Request.outcome_run (fun hstopped => ?_) fun hrun statistics => ?_
  · refine ⟨rfl, Bool.eq_false_iff.1 h.maintained.unsaturated, fun hcalm => ?_, .of_index rfl rfl id hcourse.calm,
      (h.run r.statistics).sound hnot⟩
    rw [hcourse.isSome_of_calm hcalm] at hstopped
    cases hstopped
  · exact ⟨h.run statistics, hcourse.quiet h.maintained.orderly.scheduled hrun, rfl,
      .of_index rfl rfl id hcourse.calm, rfl, hcourse.size⟩

end Retracts

/-- A retraction starts where nothing is left to derive. -/
theorem Maintained.retracts {r : Reasoner} (h : r.Maintained) (hprogress : r.progress = .none)
    (hderiving : Deriving r.calculus r.workspace) (hquiet : r.workspace.Quiet)
    (haddition : r.stages.isDone .addition = false) :
    Retracts { r with
      workspace := r.workspace.seedRemoved r.roles r.index.pending.removed
      progress := { r.progress with deletionsSeeded := true } } r.workspace.Stores := by
  have hstart := Retracting.start hderiving hquiet h.orderly.marked r.index.pending.removed
  rw [hprogress]
  exact {
    maintained := h.work (Workspace.size_seedRemoved _ _) (h.orderly.seedRemoved _ _) _ r.statistics
    seeded := rfl
    not_renewed := rfl
    retracting := hstart
    nodup := List.nodup_nil
    has := fun hroot => absurd hroot List.not_mem_nil
    addition := haddition }

/-- A retraction that has been seeded ends the deletion stage. -/
private theorem Retracts.outcome_deletion {r q : Reasoner} {base : ExprId → Conclusion → Prop} (hq : q.Retracts base)
    (hstages : q.stages = r.stages) (hserves : r.Serves q) (hhierarchy : r.stages.isDone .roleHierarchy = true)
    (hcleaning : r.stages.isDone .cleaning = false) :
    Outcome (fun _ => Finished .deletion r) r.Interrupted (saturate .deletion .retract [] q) := by
  refine (hq.outcome_saturate .deletion (hstages ▸ hcleaning)).imp (fun _ q' hq' => ?_)
    fun _ _ hstopped => .of_serves hserves hstopped
  obtain ⟨hretracts, -, hstages', hserves', -, -⟩ := hq'
  refine ⟨hstages'.trans hstages, hserves.trans hserves', (hretracts.finish ?_ (by decide)).sound fun e => ?_⟩
  · rintro needed hneeded
    rw [hstages', hstages]
    cases List.mem_singleton.1 hneeded
    exact hhierarchy
  · -- the next stage has not been run yet
    rcases StageStatus.isDone_markDone.1 e with e | e
    · cases e
    · rw [hstages', hstages, hcleaning] at e
      cases e

/-- Where nothing is left to derive, the retraction is seeded first. -/
private theorem Maintained.outcome_deletion {r q : Reasoner} (hq : q.Maintained) (hprogress : q.progress = .none)
    (hderiving : Deriving q.calculus q.workspace) (hquiet : q.workspace.Quiet) (hstages : q.stages = r.stages)
    (hserves : r.Serves q) (hhierarchy : r.stages.isDone .roleHierarchy = true)
    (hcleaning : r.stages.isDone .cleaning = false) (haddition : r.stages.isDone .addition = false) :
    Outcome (fun _ => Finished .deletion r) r.Interrupted ((Request.change (fun r =>
      if r.progress.deletionsSeeded then r
      else
        { r with
          workspace := r.workspace.seedRemoved r.roles r.index.pending.removed
          progress := { r.progress with deletionsSeeded := true } }) >>= fun _ => saturate .deletion .retract []) q) := by
  refine outcome_change ?_
  rw [if_neg (by rw [hprogress]; exact Bool.false_ne_true)]
  exact (hq.retracts hprogress hderiving hquiet (hstages ▸ haddition)).outcome_deletion hstages
    (hserves.trans (.of_index rfl rfl id fun hcalm => Workspace.calm_seedRemoved hcalm _ _)) hhierarchy hcleaning

theorem Sound.runDeletion {r : Reasoner} (h : r.Sound) (hnot : r.stages.isDone .deletion = false)
    (hhierarchy : r.stages.isDone .roleHierarchy = true) :
    Outcome (fun _ => Finished .deletion r) r.Interrupted (Request.runDeletion r) := by
  have hundone {stage : Stage} (hdepth : 1 < stage.depth) : r.stages.isDone stage = false :=
    Bool.eq_false_iff.2 (h.closed.ne_done_of_depth_lt hnot hdepth)
  have hmaintained := h.maintained hhierarchy (hundone (by decide))
  unfold Request.runDeletion
  refine outcome_get ?_
  dsimp only
  cases h.phase with
  | idle hprogress hderiving hdeletion hpending =>
    split <;> rename_i hactive
    · -- derivations that are left over come first
      refine outcome_bind ((hmaintained.outcome_derive hderiving .deletion [] fun w hw =>
        .idle hprogress hw hdeletion hpending).imp (fun _ q hq => ?_) fun _ _ hstopped => hstopped)
      obtain ⟨hq, hderiving, hrested, hstages, hprogress', -, hserves, -⟩ := hq
      exact hq.outcome_deletion (hprogress'.trans hprogress) hderiving hrested.quiet hstages hserves hhierarchy
        (hundone (by decide)) (hundone (by decide))
    · refine hmaintained.outcome_deletion hprogress hderiving (h.orderly.quiet ?_) rfl (.refl r) hhierarchy
        (hundone (by decide)) (hundone (by decide))
      simpa [hprogress, Progress.none] using hactive
  | retracting base hseeded hrenewed hretracting hnodup hhas hroles haddition hcleaning =>
    rw [if_neg (by simp [hseeded])]
    refine outcome_change ?_
    rw [if_pos hseeded]
    have hretracts : r.Retracts base := ⟨hmaintained, hseeded, hrenewed, hretracting, hnodup, hhas _, haddition⟩
    exact hretracts.outcome_deletion rfl (.refl r) hhierarchy (hundone (by decide))
  | renewing _ _ _ hcleaning =>
    rw [hundone (by decide)] at hcleaning
    cases hcleaning

/-! ### Cleaning -/

/-- No more contexts are cleaned than there are. -/
theorem length_cleaned_le {r : Reasoner} (hnodup : r.progress.cleaned.Nodup)
    (hhas : ∀ root ∈ r.progress.cleaned, r.workspace.Has root) :
    r.progress.cleaned.length ≤ r.workspace.contexts.size := by
  have hnumbers : (r.progress.cleaned.map ExprId.val).Nodup := hnodup.map fun _ _ e => ExprId.ext e
  have hsubset : r.progress.cleaned.map ExprId.val ⊆ List.range r.workspace.contexts.size := by
    intro n hn
    obtain ⟨root, hroot, rfl⟩ := List.mem_map.1 hn
    exact List.mem_range.2 (hhas root hroot).lt_size
  have hle := (List.subperm_of_subset hnumbers hsubset).length_le
  rwa [List.length_map, List.length_range] at hle

namespace Retracts

variable {r : Reasoner} {base : ExprId → Conclusion → Prop}

/-- The marked contexts that are not cleaned yet. -/
def fresh (r : Reasoner) : List ExprId := r.workspace.modified.toList.filter (· ∉ r.progress.cleaned)

theorem cleanModified_eq (r : Reasoner) : cleanModified r = (!(fresh r).isEmpty, { r with
    workspace := r.workspace.takeModified.2.seedCleaning (fresh r)
    progress := { r.progress with cleaned := r.progress.cleaned ++ fresh r } }) := rfl

/-- A pass that is not the last one finds a context to clean. -/
theorem exists_fresh (hmore : (cleanModified r).1 = true) : ∃ root, root ∈ fresh r := by
  refine List.exists_mem_of_ne_nil _ fun hnil => ?_
  rw [cleanModified_eq, hnil] at hmore
  cases hmore

theorem length_cleaned_lt (hmore : (cleanModified r).1 = true) :
    r.progress.cleaned.length < (cleanModified r).2.progress.cleaned.length := by
  obtain ⟨root, hroot⟩ := exists_fresh hmore
  have hpos := List.length_pos_of_mem hroot
  rw [cleanModified_eq, List.length_append]
  omega

/-- A pass takes all contexts from the queue of modified ones. -/
theorem modified_clean (r : Reasoner) : (cleanModified r).2.workspace.modified.toList = [] := by
  rw [cleanModified_eq, Workspace.modified_seedCleaning]
  rfl

/-- The last pass sends nothing. -/
theorem quiet_clean (hlast : ¬ (cleanModified r).1 = true) (hquiet : r.workspace.Quiet) :
    (cleanModified r).2.workspace.Quiet := by
  have hnone : fresh r = [] := by simpa [cleanModified_eq] using hlast
  intro root c hc
  rw [cleanModified_eq, hnone, Workspace.waits_seedCleaning] at hc
  rcases hc with hc | ⟨hroot, -⟩
  · exact hquiet root c (Workspace.waits_takeModified.1 hc)
  · cases hroot

theorem size_clean (r : Reasoner) : (cleanModified r).2.workspace.contexts.size = r.workspace.contexts.size := by
  rw [cleanModified_eq, Workspace.size_seedCleaning, Workspace.size_takeModified]

theorem serves_clean (r : Reasoner) : r.Serves (cleanModified r).2 := by
  rw [cleanModified_eq]
  refine .of_index rfl rfl id fun hcalm => Workspace.calm_seedCleaning ?_ _
  rwa [Workspace.monitor_takeModified]

/-- No context is noted twice as cleaned. -/
theorem nodup_clean (hmarked : r.workspace.Marked) (hnodup : r.progress.cleaned.Nodup) :
    (cleanModified r).2.progress.cleaned.Nodup := by
  rw [cleanModified_eq]
  refine hnodup.append (hmarked.nodup.filter _) fun root hroot hfresh => ?_
  exact of_decide_eq_true (List.mem_filter.1 hfresh).2 hroot

/-- Only contexts are noted as cleaned. -/
theorem has_clean (hmarked : r.workspace.Marked) (hhas : ∀ root ∈ r.progress.cleaned, r.workspace.Has root) {root : ExprId}
    (hroot : root ∈ (cleanModified r).2.progress.cleaned) : (cleanModified r).2.workspace.Has root := by
  rw [cleanModified_eq] at hroot ⊢
  refine (Workspace.has_seedCleaning _).2 (Workspace.has_takeModified.2 ?_)
  rcases List.mem_append.1 hroot with hroot | hroot
  · exact hhas root hroot
  · exact hmarked.has (List.mem_of_mem_filter hroot)

/-- Marked contexts that are not cleaned yet are noted as cleaned. -/
theorem clean (h : r.Retracts base) : (cleanModified r).2.Retracts base := by
  have hmarked := h.maintained.orderly.marked
  exact {
    maintained := h.maintained.work (size_clean r) (h.maintained.orderly.takeModified.seedCleaning _) _ r.statistics
    seeded := h.seeded
    not_renewed := h.not_renewed
    retracting := h.retracting.clean
    nodup := nodup_clean hmarked h.nodup
    has := fun hroot => has_clean hmarked (fun _ => h.has) hroot
    addition := h.addition }

end Retracts

/-- Cleaning goes on until no other context loses a conclusion.  Each pass but the last one cleans a context, so the number
of contexts bounds the passes. -/
private theorem outcome_passes {base : ExprId → Conclusion → Prop} {r : Reasoner} (passes : Nat)
    (hcleaning : r.stages.isDone .cleaning = false) (hdeletion : r.stages.isDone .deletion = true) :
    ∀ q : Reasoner, q.Retracts base → q.stages = r.stages → r.Serves q →
      q.workspace.contexts.size < passes + q.progress.cleaned.length →
      Outcome (fun _ r' => Finished .cleaning r r' ∧ r'.Retracts base ∧ r'.workspace.Quiet ∧
        r'.workspace.modified.toList = []) r.Interrupted (cleaningPasses passes q) := by
  induction passes with
  | zero =>
    intro q hq _ _ hlt
    have hle := length_cleaned_le hq.nodup fun _ => hq.has
    omega
  | succ passes ih =>
    intro q hq hstages hserves hlt
    unfold cleaningPasses
    refine outcome_bind ((hq.outcome_saturate .cleaning (hstages ▸ hcleaning)).imp (fun _ q' hq' => ?_)
      fun _ _ hstopped => .of_serves hserves hstopped)
    obtain ⟨hretracts, hquiet, hstages', hserves', hprogress, hsize⟩ := hq'
    have hclean := hretracts.clean
    have hstages'' : (cleanModified q').2.stages = r.stages := hstages'.trans hstages
    have hserves'' : r.Serves (cleanModified q').2 := (hserves.trans hserves').trans (Retracts.serves_clean q')
    refine outcome_bind (.ok ?_)
    show Outcome _ _ ((if (cleanModified q').1 then cleaningPasses passes else Pure.pure ()) (cleanModified q').2)
    split <;> rename_i hmore
    · refine ih _ hclean hstages'' hserves'' ?_
      have hlonger := Retracts.length_cleaned_lt hmore
      rw [hprogress] at hlonger
      rw [Retracts.size_clean, hsize]
      omega
    · -- nothing was left to clean
      have hquiet' := Retracts.quiet_clean hmore hquiet
      have hmodified := Retracts.modified_clean q'
      refine .ok ⟨⟨hstages'', hserves'', (hclean.finish ?_ (by decide)).sound fun _ => ⟨hquiet', hmodified⟩⟩, hclean,
        hquiet', hmodified⟩
      intro needed hneeded
      cases List.mem_singleton.1 hneeded
      rw [hstages'']
      exact hdeletion

/-- Cleaning comes to its end where nothing is left to retract or to clean, or is interrupted. -/
theorem Sound.runCleaning {r : Reasoner} (h : r.Sound) (hnot : r.stages.isDone .cleaning = false)
    (hdeletion : r.stages.isDone .deletion = true) :
    Outcome (fun _ r' => Finished .cleaning r r' ∧ ∃ base, r'.Retracts base ∧ r'.workspace.Quiet ∧
      r'.workspace.modified.toList = []) r.Interrupted (Request.runCleaning r) := by
  have hundone {stage : Stage} (hdepth : 2 < stage.depth) : r.stages.isDone stage = false :=
    Bool.eq_false_iff.2 (h.closed.ne_done_of_depth_lt hnot hdepth)
  unfold Request.runCleaning
  refine outcome_get ?_
  cases h.phase with
  | idle _ _ hdone =>
    have haddition := hdone hdeletion
    rw [hundone (by decide)] at haddition
    cases haddition
  | retracting base hseeded hrenewed hretracting hnodup hhas hroles haddition hcleaning =>
    have hmaintained := h.maintained hroles (hundone (by decide))
    exact (outcome_passes _ hnot hdeletion r ⟨hmaintained, hseeded, hrenewed, hretracting, hnodup, hhas _, haddition⟩ rfl
      (.refl r) (by omega)).imp (fun _ _ hr => ⟨hr.1, base, hr.2⟩) fun _ _ hstopped => hstopped
  | renewing _ _ _ hcleaning =>
    rw [hnot] at hcleaning
    cases hcleaning

/-! ### Addition -/

/-- The reasoner after the commit, with the cleaned contexts made ready for the new rules. -/
def renew (r : Reasoner) : Reasoner :=
  { r with
    index := r.index.commit.2
    workspace := (RuleBase.replay ⟨r.index.commit.2, r.roles⟩ r.progress.cleaned
      ((r.workspace.grow r.index.commit.2.nodes.size).restart r.progress.cleaned)).seedAdded r.index.pending.added
        r.progress.cleaned
    progress := { r.progress with additionsSeeded := true } }

/-- The commit and what follows it, as the stage has them. -/
theorem renew_eq {r : Reasoner} {changes : Changes} {index : Index} (h : r.index.commit = (changes, index)) :
    r.renew = { r with
      index
      workspace := (RuleBase.replay ⟨index, r.roles⟩ r.progress.cleaned
        ((r.workspace.grow index.nodes.size).restart r.progress.cleaned)).seedAdded changes.added r.progress.cleaned
      progress := { r.progress with additionsSeeded := true } } := by
  have hchanges : r.index.pending = changes := congrArg Prod.fst h
  unfold renew
  rw [hchanges, h]

namespace Retracts

variable {r : Reasoner} {base : ExprId → Conclusion → Prop}

theorem serves_renew (h : r.Retracts base) : r.Serves r.renew := by
  obtain ⟨-, halike, -, haxioms⟩ := h.maintained.accounts.commit
  refine ⟨halike, haxioms, rfl, id, fun hcalm => Workspace.calm_seedAdded (Workspace.calm_replay ?_ _ _) _ _⟩
  rwa [Workspace.monitor_restart]

/-- When a retraction has come to its end, derivation goes on over the new rules. -/
theorem renew (h : r.Retracts base) (hquiet : r.workspace.Quiet) (hmodified : r.workspace.modified.toList = []) :
    r.renew.Maintained ∧ Deriving r.renew.calculus r.renew.workspace ∧ r.renew.index.pending = .empty := by
  obtain ⟨hcommitted, halike, hpending, -⟩ := h.maintained.accounts.commit
  obtain ⟨entries, hledger, -⟩ := h.maintained.accounts.exists_entries
  have htable : (r.workspace.grow r.index.commit.2.nodes.size).contexts.size = r.index.commit.2.nodes.size := by
    rw [Workspace.size_grow, halike.size_eq]
    rcases h.maintained.sized with e | e <;> omega
  have hgrown := h.retracting.grow r.index.commit.2.nodes.size
  have hwithin : (RuleBase.calculus ⟨r.index.commit.2, r.roles⟩).Within
      (r.workspace.grow r.index.commit.2.nodes.size).contexts.size := by
    rw [htable]
    exact hcommitted.within_of_fits r.roles
  have hderiving := hgrown.renew (hquiet.grow _) hmodified (h.maintained.accounts.revised_commit r.roles) hwithin
    (renewed ⟨r.index.commit.2, r.roles⟩ r.index.pending.added r.progress.cleaned (hquiet.grow _))
  refine ⟨?_, hderiving, hpending⟩
  exact {
    engine := h.maintained.engine
    accounts := hcommitted
    taken := (hledger.otherRules_commit h.maintained.accounts.tidy).rolesChanged.trans h.maintained.taken
    sized := .inl (by
      show (Workspace.seedAdded _ _ _).contexts.size = r.index.commit.2.nodes.size
      rw [Workspace.size_seedAdded, Workspace.size_replay, Workspace.size_restart, htable])
    orderly := (((h.maintained.orderly.grow _).restart hmodified _).replay _ _).seedAdded _ _
    closed := h.maintained.closed
    fits := h.maintained.accounts.fits_commit h.maintained.fits h.maintained.pending
    hierarchy := h.maintained.hierarchy
    pending := fun hg => by
      rw [show r.renew.index.pending = .empty from hpending] at hg
      cases hg
    unsaturated := h.maintained.unsaturated }

end Retracts

theorem Sound.runAddition {r : Reasoner} (h : r.Sound) (hnot : r.stages.isDone .addition = false)
    (hcleaned : r.stages.isDone .cleaning = true) :
    Outcome (fun _ => Finished .addition r) r.Interrupted (Request.runAddition r) := by
  have hundone {stage : Stage} (hdepth : 3 < stage.depth) : r.stages.isDone stage = false :=
    Bool.eq_false_iff.2 (h.closed.ne_done_of_depth_lt hnot hdepth)
  have hmaintained := h.maintained (h.closed.of_depth_lt hcleaned (by decide)) (hundone (by decide))
  -- the run that derives what is missing
  have hderive {q : Reasoner} (hq : q.Maintained) (hderiving : Deriving q.calculus q.workspace)
      (hrenewed : q.progress.additionsSeeded = true) (hpending : q.index.pending = .empty) (hstages : q.stages = r.stages)
      (hserves : r.Serves q) : Outcome (fun _ => Finished .addition r) r.Interrupted
        ((saturate .addition .derive [] >>= fun _ => Request.change fun r => { r with progress := .none }) q) := by
    refine outcome_bind ((hq.outcome_derive hderiving .addition [] fun w hw => .renewing hrenewed hw hpending
      (hstages ▸ hcleaned) (hstages ▸ hnot)).imp (fun _ q' hq' => ?_) fun _ _ hstopped => .of_serves hserves hstopped)
    obtain ⟨hq', hderiving', -, hstages', -, hindex, hserves', -⟩ := hq'
    have hneeded : ∀ needed ∈ Stage.dependencies .addition, q'.stages.isDone needed = true := fun needed hneeded => by
      cases List.mem_singleton.1 hneeded
      rw [hstages', hstages]
      exact hcleaned
    have hwork := (hq'.work rfl hq'.orderly .none q'.statistics).finish hneeded (by decide)
    refine .ok ⟨hstages'.trans hstages, hserves.trans (hserves'.trans (.of_index rfl rfl id id)), hwork.sound ?_⟩
    exact .idle rfl hderiving' (fun _ => StageStatus.isDone_markDone.2 (.inl rfl)) fun _ => (hindex ▸ hpending :)
  unfold Request.runAddition
  refine outcome_change ?_
  cases h.phase with
  | idle _ _ hdone =>
    have haddition := hdone (h.closed.of_depth_lt hcleaned (by decide))
    rw [hnot] at haddition
    cases haddition
  | retracting base hseeded hrenewed hretracting hnodup hhas hroles haddition hcleaning =>
    obtain ⟨hquiet, hmodified⟩ := hcleaning hcleaned
    have hretracts : r.Retracts base :=
      ⟨hmaintained, hseeded, hrenewed, hretracting, hnodup, hhas _, haddition⟩
    obtain ⟨hq, hderiving, hpending⟩ := hretracts.renew hquiet hmodified
    rw [if_neg (by rw [hrenewed]; exact Bool.false_ne_true)]
    have hrun := hderive hq hderiving rfl hpending rfl hretracts.serves_renew
    generalize hcommit : r.index.commit = committed
    cases committed
    rwa [renew_eq hcommit] at hrun
  | renewing hrenewed hderiving hpending =>
    rw [if_pos hrenewed]
    exact hderive hmaintained hderiving hrenewed hpending rfl (.refl r)

end Reasoner

end ELOntology
