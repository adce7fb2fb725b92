import ELOntology.Proofs.Reasoner.Answer
import ELOntology.Proofs.Reasoner.Interruption

/-!
# Queries that are taken up again

After any history a reasoner is in order (`Reasoner.Orderly`).  Where that holds, completing a stage resumes, by induction
over the depth of the stage: what it needs is completed first, and stages that are done have nothing left to do.  Queries
complete stages and read their answers off what these leave, so every query resumes (`resumes_query`).
-/

namespace ELOntology

/-- Between cleaning and addition it is addition that is to be run. -/
theorem StageStatus.Closed.eq_addition {status : StageStatus} {stage : Stage} (h : status.Closed)
    (hnot : status.isDone stage = false) (hneeded : ∀ needed ∈ stage.dependencies, status.isDone needed = true)
    (hcleaning : status.isDone .cleaning = true) (haddition : status.isDone .addition = false) : stage = .addition := by
  have hdeep : ¬ stage.depth < 3 := fun hlt => by
    rcases Nat.lt_or_eq_of_le (Nat.le_of_lt_succ hlt) with hlt | heq
    · exact absurd (h.of_depth_lt hcleaning hlt) (Bool.eq_false_iff.1 hnot)
    · have hsame : stage = .cleaning := Stage.eq_of_depth_eq heq (by omega)
      rw [hsame, hcleaning] at hnot
      cases hnot
  have hshallow : ¬ 3 < stage.depth := fun hlt => by
    have hdone : status.isDone .addition = true := h.of_needed hneeded hlt
    rw [haddition] at hdone
    cases hdone
  exact Stage.eq_of_depth_eq (Nat.le_antisymm (Nat.not_lt.1 hshallow) (Nat.not_lt.1 hdeep)) (by omega)

namespace Reasoner

open Request

variable {r r' : Reasoner} {stage : Stage}

/-- What holds of a reasoner after any history, so that every stage can be taken up again. -/
structure Orderly (r : Reasoner) : Prop where
  tended : r.Tended r.stages
  closed : r.stages.Closed
  taken : r.stages.isDone .cleaning = true → r.stages.isDone .addition = false → r.progress.additionsSeeded = false →
    r.workspace.modified.toList = []

namespace Orderly

theorem steady : Steady Orderly := ⟨fun h => ⟨Tended.steady.still h.tended, h.closed, h.taken⟩⟩

/-- Nothing has been cleaned that has not started again. -/
theorem of_not_cleaned (htended : r.Tended r.stages) (hclosed : r.stages.Closed)
    (hcleaned : r.stages.isDone .cleaning = true → r.stages.isDone .addition = true) : r.Orderly :=
  ⟨htended, hclosed, fun hdone hnot => by rw [hcleaned hdone] at hnot; cases hnot⟩

theorem onMonitor (h : r.Orderly) (f : Monitor → Monitor) : (r.onMonitor f).Orderly :=
  ⟨⟨rfl, h.tended.engine, h.tended.orderly.monitor _, h.tended.nodup, h.tended.has⟩, h.closed, h.taken⟩

theorem concludes (h : r.Orderly) (hconcludes : Concludes r r') : r'.Orderly := by
  have htended := hconcludes.tended h.tended
  obtain ⟨-, -, hworkspace, hstages, hprogress⟩ := hconcludes
  refine ⟨hstages ▸ htended, hstages ▸ h.closed, ?_⟩
  rw [hstages, hprogress, hworkspace]
  exact h.taken

/-- Where a stage may be run the reasoner is in order, and the other way round. -/
theorem awaits_iff {stages : StageStatus} (hclosed : stages.Closed) (hnot : stages.isDone stage = false)
    (hneeded : ∀ needed ∈ stage.dependencies, stages.isDone needed = true) :
    Awaits stage stages r ↔ r.Orderly ∧ r.stages = stages := by
  constructor
  · rintro ⟨htended, htaken⟩
    obtain rfl := htended.stages
    refine ⟨⟨htended, hclosed, fun hcleaning haddition => ?_⟩, rfl⟩
    exact htaken (hclosed.eq_addition hnot hneeded hcleaning haddition)
  · rintro ⟨h, rfl⟩
    refine ⟨h.tended, ?_⟩
    rintro rfl
    exact h.taken (hneeded .cleaning (by decide)) hnot

/-- A stage that has come to its end leaves the reasoner in order. -/
theorem finish (hends : Ends stage r.stages r) (hclosed : r.stages.Closed) (hnot : r.stages.isDone stage = false)
    (hneeded : ∀ needed ∈ stage.dependencies, r.stages.isDone needed = true) : (r.finish stage).Orderly := by
  obtain ⟨htended, hcleaning, -⟩ := hends
  refine ⟨⟨rfl, htended.engine, htended.orderly, htended.nodup, htended.has⟩, hclosed.markDone hneeded, fun hdone hundone _ => ?_⟩
  have haddition : r.stages.isDone .addition = false ∧ .addition ≠ stage := by
    refine ⟨Bool.eq_false_iff.2 fun h => ?_, fun h => ?_⟩
    · exact absurd (StageStatus.isDone_markDone.2 (.inr h)) (Bool.eq_false_iff.1 hundone)
    · exact absurd (StageStatus.isDone_markDone.2 (.inl h)) (Bool.eq_false_iff.1 hundone)
  rcases StageStatus.isDone_markDone.1 hdone with heq | hdone
  · exact hcleaning heq.symm
  · exact absurd (hclosed.eq_addition hnot hneeded hdone haddition.1).symm haddition.2

end Orderly

end Reasoner

open Reasoner

namespace Request

variable {stage : Stage} {P Q : StageStatus → Prop} {r : Reasoner}

/-! ### Completing stages -/

/-- A property of the stages that lasts when one is done that lies less deep. -/
def Lasting (depth : Nat) (P : StageStatus → Prop) : Prop :=
  ∀ status stage, stage.depth < depth → P status → P (status.markDone stage)

namespace Lasting

variable {depth depth' : Nat}

theorem mono (h : Lasting depth P) (hle : depth' ≤ depth) : Lasting depth' P :=
  fun status stage hdepth => h status stage (Nat.lt_of_lt_of_le hdepth hle)

theorem and (h : Lasting depth P) (h' : Lasting depth Q) : Lasting depth fun status => P status ∧ Q status :=
  fun status stage hdepth hstatus => ⟨h status stage hdepth hstatus.1, h' status stage hdepth hstatus.2⟩

theorem done (stage : Stage) : Lasting depth fun status => status.isDone stage = true :=
  fun _ _ _ hdone => StageStatus.isDone_markDone.2 (.inr hdone)

theorem undone (hle : depth ≤ stage.depth) : Lasting depth fun status => status.isDone stage = false := by
  refine fun status other hdepth hnot => Bool.eq_false_iff.2 fun hdone => ?_
  rcases StageStatus.isDone_markDone.1 hdone with rfl | hdone
  · omega
  · rw [hnot] at hdone
    cases hdone

end Lasting

/-- A reasoner in order whose stages have a property. -/
def Standing (P : StageStatus → Prop) (r : Reasoner) : Prop := r.Orderly ∧ P r.stages

theorem steady_standing : Steady (Standing P) := Orderly.steady.and ⟨id⟩

/-- Completing a stage that is done does nothing. -/
theorem complete_of_done (hdone : r.stages.isDone stage = true) : runner.complete stage r = (.ok (), r) := by
  rw [StageRunner.complete_eq]
  exact if_pos hdone

theorem inOrder_of_done {stages : List Stage} (hdone : ∀ needed ∈ stages, r.stages.isDone needed = true) :
    StageRunner.inOrder runner.complete stages r = (.ok (), r) := by
  induction stages with
  | nil => rfl
  | cons stage stages ih =>
    rw [StageRunner.inOrder, complete_of_done (hdone stage (List.mem_cons_self ..))]
    exact ih fun needed hneeded => hdone needed (List.mem_cons_of_mem _ hneeded)

theorem inOrder_cons (complete : Stage → Request Unit) (stage : Stage) (stages : List Stage) :
    StageRunner.inOrder complete (stage :: stages) = complete stage >>= fun _ => StageRunner.inOrder complete stages := by
  funext r
  rw [bind_apply, StageRunner.inOrder]
  rcases complete stage r with ⟨_ | _, r'⟩ <;> rfl

/-- Stages that can be taken up again one by one can be so in a row. -/
theorem resumes_inOrder {depth : Nat} {stages : List Stage} (hP : Lasting depth P)
    (h : ∀ stage ∈ stages, ∀ Q, Lasting depth Q →
      Resumes (Standing Q) (runner.complete stage) fun _ => Standing fun status => Q status ∧ status.isDone stage = true) :
    Resumes (Standing P) (StageRunner.inOrder runner.complete stages)
      fun _ => Standing fun status => P status ∧ ∀ stage ∈ stages, status.isDone stage = true := by
  induction stages generalizing P with
  | nil => exact .of_eq_ok steady_standing () fun r hr => ⟨rfl, hr.1, hr.2, fun _ h => absurd h List.not_mem_nil⟩
  | cons stage stages ih =>
    have hfirst := h stage (List.mem_cons_self ..) P hP
    have hrest := ih (hP.and (.done stage)) fun other hother => h other (List.mem_cons_of_mem _ hother)
    rw [show StageRunner.inOrder runner.complete (stage :: stages) = _ from inOrder_cons runner.complete stage stages]
    refine (hfirst.bind steady_standing (fun _ => hrest) fun _ r hr => ⟨⟨hr.1, hr.2.1⟩, ?_⟩).imp fun _ r hr => ?_
    · rw [calmly, complete_of_done (r := r.still) hr.2.2, still_still]
    · exact ⟨hr.1, hr.2.1.1, List.forall_mem_cons.2 ⟨hr.2.1.2, hr.2.2⟩⟩

/-- A stage is run and marked as done where what it needs is done. -/
private theorem complete_of_not_done (hnot : r.stages.isDone stage = false) : runner.complete stage r =
    ((StageRunner.inOrder runner.complete stage.dependencies >>= fun _ => runStage stage : Request Unit) >>= fun _ =>
      change (finish stage)) r := by
  rw [StageRunner.complete_eq, if_neg (show ¬ (runner.status r).isDone stage = true from Bool.eq_false_iff.1 hnot),
    bind_apply, bind_apply]
  rcases StageRunner.inOrder runner.complete stage.dependencies r with ⟨_ | _, r'⟩
  · rfl
  · dsimp only
    rw [show runner.run stage r' = runStage stage r' from rfl]
    rcases runStage stage r' with ⟨_ | _, r''⟩ <;> rfl

/-- Running a stage where it is not done, and what it needs is. -/
theorem resumes_run : Resumes (Standing fun status => (P status ∧ status.isDone stage = false) ∧
      ∀ needed ∈ stage.dependencies, status.isDone needed = true) (runStage stage)
    fun _ r => Ends stage r.stages r ∧ r.stages.Closed ∧ (P r.stages ∧ r.stages.isDone stage = false) ∧
      ∀ needed ∈ stage.dependencies, r.stages.isDone needed = true := by
  refine .fibre (·.stages) fun stages => ?_
  by_cases hstages : stages.Closed ∧ (P stages ∧ stages.isDone stage = false) ∧
      ∀ needed ∈ stage.dependencies, stages.isDone needed = true
  · obtain ⟨hclosed, ⟨hP, hnot⟩, hneeded⟩ := hstages
    have hawaits : (fun r => Standing (fun status => (P status ∧ status.isDone stage = false) ∧
        ∀ needed ∈ stage.dependencies, status.isDone needed = true) r ∧ r.stages = stages) = Awaits stage stages := by
      refine funext fun r => propext (Iff.trans ?_ (Orderly.awaits_iff hclosed hnot hneeded).symm)
      constructor
      · exact fun h => ⟨h.1.1, h.2⟩
      · rintro ⟨h, rfl⟩
        exact ⟨⟨h, ⟨hP, hnot⟩, hneeded⟩, rfl⟩
    rw [hawaits]
    refine (resumes_runStage stage hclosed hnot).imp fun _ r hr => ?_
    obtain rfl := hr.1.stages
    exact ⟨hr, hclosed, ⟨hP, hnot⟩, hneeded⟩
  · -- no reasoner stands there
    refine .of_outcome fun r hr => absurd ?_ hstages
    obtain ⟨⟨h, hstanding⟩, rfl⟩ := hr
    exact ⟨h.closed, hstanding⟩

/-- Completing a stage resumes. -/
theorem resumes_completing (stage : Stage) (hP : Lasting (stage.depth + 1) P) : Resumes (Standing P) (runner.complete stage)
    fun _ => Standing fun status => P status ∧ status.isDone stage = true := by
  induction hdepth : stage.depth using Nat.strong_induction_on generalizing stage P with
  | h depth ih =>
  subst hdepth
  refine .fibre (·.stages.isDone stage) fun done => ?_
  have hsteady : Steady fun r => Standing P r ∧ r.stages.isDone stage = done := steady_standing.and ⟨id⟩
  cases done with
  | true => exact .of_eq_ok hsteady () fun r hr => ⟨complete_of_done hr.2, hr.1.1, hr.1.2, hr.2⟩
  | false =>
    have hundone : (fun r => Standing P r ∧ r.stages.isDone stage = false) =
        Standing fun status => P status ∧ status.isDone stage = false := funext fun _ => propext and_assoc
    have hlasting : Lasting stage.depth fun status => P status ∧ status.isDone stage = false :=
      (hP.mono (Nat.le_succ _)).and (.undone (Nat.le_refl _))
    have hneeded : Resumes (Standing fun status => P status ∧ status.isDone stage = false)
        (StageRunner.inOrder runner.complete stage.dependencies)
        fun _ => Standing fun status => (P status ∧ status.isDone stage = false) ∧
          ∀ needed ∈ stage.dependencies, status.isDone needed = true := by
      refine resumes_inOrder hlasting fun needed hneeded Q hQ => ?_
      have hlt := Stage.depth_lt hneeded
      exact ih needed.depth hlt needed (hQ.mono hlt) rfl
    have hrun := hneeded.bind steady_standing (fun _ => resumes_run) fun _ r hr => ⟨⟨hr.1, hr.2.1⟩, by
      rw [calmly, inOrder_of_done (r := r.still) hr.2.2, still_still]⟩
    have hfinish := hrun.andCompute (g := fun _ _ => ()) (k := fun _ => finish stage) steady_standing (fun _ _ => rfl)
      (fun _ r => ?_) (L := fun _ => Standing fun status => P status ∧ status.isDone stage = true) fun _ r hr => ?_
    · rw [hundone] at hsteady ⊢
      exact hfinish.congr hsteady fun r hr => complete_of_not_done hr.2.2
    · simp [finish, Reasoner.still]
    · obtain ⟨hends, hclosed, ⟨hPr, hnot⟩, hneeded⟩ := hr
      refine ⟨⟨.finish hends hclosed hnot hneeded, hP _ _ (Nat.lt_succ_self _) hPr, StageStatus.isDone_markDone.2 (.inl rfl)⟩,
        rfl, id, fun hdone => ⟨StageStatus.isDone_markDone.2 (.inr hdone), rfl⟩, fun hundone hdone => ?_⟩
      rcases StageStatus.isDone_markDone.1 hdone with rfl | hdone
      · exact hends.2.2 rfl
      · rw [hundone] at hdone
        cases hdone

/-! ### Queries -/

theorem calmly_complete (stage : Stage) (r : Reasoner) : calmly (complete stage) r = calmly (runner.complete stage) r := by
  unfold calmly complete
  rcases runner.complete stage r.still with ⟨e | _, r'⟩
  · dsimp only
    split <;> rfl
  · rfl

/-- Completing a stage on request resumes, and the interruption is used up. -/
theorem resumes_complete (stage : Stage) (hP : Lasting (stage.depth + 1) P) : Resumes (Standing P) (complete stage)
    fun _ => Standing fun status => P status ∧ status.isDone stage = true := by
  have hcompleting := resumes_completing stage hP
  constructor
  · intro r r' a hr hrun
    rw [calmly_complete]
    unfold complete at hrun
    rcases hinner : runner.complete stage r with ⟨e | _, t⟩ <;> rw [hinner] at hrun <;> cases hrun
    exact hcompleting.answered hr hinner
  · intro r r' e hr hrun he
    rw [calmly_complete, calmly_complete]
    unfold complete at hrun
    rcases hinner : runner.complete stage r with ⟨e | _, t⟩ <;> rw [hinner] at hrun <;> cases hrun
    obtain ⟨ht, hstops, hcalmly⟩ := hcompleting.interrupted hr hinner he
    rw [if_pos he]
    exact ⟨⟨ht.1.onMonitor _, ht.2⟩, ⟨hstops.config, hstops.not_calm, hstops.unsaturated, hstops.unsaturated'⟩,
      (calmly_congr still_clearInterrupt).trans hcalmly⟩
  · intro r r' e hr hrun he
    rw [calmly_complete]
    unfold complete at hrun
    rcases hinner : runner.complete stage r with ⟨e | _, t⟩ <;> rw [hinner] at hrun <;> cases hrun
    rw [if_neg (by rw [he]; exact Bool.false_ne_true)]
    exact hcompleting.failed hr hinner he

/-- In order, with saturated contexts. -/
def Ready (r : Reasoner) : Prop := Standing (fun status => status.isDone .saturation = true) r

theorem Ready.conclude {r r' : Reasoner} (h : Ready r) (hconcludes : Concludes r r') : Ready r' :=
  ⟨h.1.concludes hconcludes, hconcludes.stages ▸ h.2⟩

/-- Completing a stage that rests on saturated contexts. -/
theorem resumes_complete_ready (stage : Stage) (hdepth : Stage.saturation.depth < stage.depth) :
    Resumes Orderly (complete stage) fun _ => Ready := by
  have hany : Orderly = Standing fun _ => True := funext fun r => propext (and_iff_left trivial).symm
  rw [hany]
  refine (resumes_complete stage fun _ _ _ _ => trivial).imp fun _ r hr => ⟨hr.1, hr.1.closed.of_depth_lt hr.2.2 hdepth⟩

/-- Completing a further stage. -/
theorem resumes_complete_further (stage : Stage) : Resumes Ready (complete stage) fun _ => Ready :=
  (resumes_complete stage (Lasting.done _)).imp fun _ _ hr => ⟨hr.1, hr.2.1⟩

theorem resumes_withTaxonomy :
    Resumes Ready (fun r => (.ok (withTaxonomy r).1, (withTaxonomy r).2)) fun _ => Ready := by
  refine .compute (fun r => ?_) (fun r => ?_) fun r hr => ?_
  · rw [withTaxonomy_still]
  · rw [withTaxonomy_still, still_still]
  · exact ⟨hr.conclude (.withTaxonomy r), (Concludes.withTaxonomy r).continues⟩

theorem resumes_withRealization :
    Resumes Ready (fun r => (.ok (withRealization r).1, (withRealization r).2)) fun _ => Ready := by
  refine .compute (fun r => ?_) (fun r => ?_) fun r hr => ?_
  · rw [withRealization_still]
  · rw [withRealization_still, still_still]
  · exact ⟨hr.conclude (.withRealization r), (Concludes.withRealization r).continues⟩

/-- Something is read off a reasoner that is ready. -/
theorem resumes_ask {α : Type} {g : Reasoner → α} (hg : ∀ r, g r.still = g r) : Resumes Ready (ask g) fun _ => Ready :=
  Resumes.compute (k := id) hg (fun _ => still_still) fun r hr => ⟨hr, .refl r⟩

theorem steady_ready : Steady Ready := steady_standing (P := fun status => status.isDone .saturation = true)

theorem Resumes.ready {α β : Type} {m : Request α} {f : α → Request β} (hm : Resumes Orderly m fun _ => Ready)
    (hf : ∀ a, Resumes Ready (f a) fun _ => Ready) : Resumes Orderly (m >>= f) fun _ => Ready :=
  hm.andThen Orderly.steady hf fun _ _ hr => hr

theorem resumes_classify : Resumes Orderly classify fun _ => Ready := by
  refine (resumes_complete_ready .classTaxonomy (by decide)).ready fun _ => ?_
  -- whether the taxonomy is audited is a matter of the configuration
  refine .fibre (·.config) fun config => ?_
  have hread : Resumes Ready (if config.validateTaxonomy then
        complete .validation >>= fun _ r => (.ok (withTaxonomy r).1, (withTaxonomy r).2)
      else fun r => (.ok (withTaxonomy r).1, (withTaxonomy r).2)) fun _ => Ready := by
    split
    · exact (resumes_complete_further .validation).andThen steady_ready (fun _ => resumes_withTaxonomy) fun _ _ hr => ⟨hr, hr.2⟩
    · exact resumes_withTaxonomy
  refine ((hread.config config).congr (steady_ready.and ⟨id⟩) fun r hr => ?_).imp fun _ _ hr => hr.1
  rw [bind_apply, ← hr.2]
  rfl

theorem resumes_realize : Resumes Orderly realize fun _ => Ready :=
  resumes_classify.ready fun _ => (resumes_complete_further .instanceTaxonomy).andThen steady_ready
    (fun _ => resumes_withRealization) fun _ _ hr => ⟨hr, hr.2⟩

theorem resumes_isInconsistent : Resumes Orderly isInconsistent fun _ => Ready :=
  (resumes_complete_ready .consistency (by decide)).ready fun _ => resumes_ask fun _ => rfl

/-- Every query resumes. -/
theorem resumes_query (q : Query) : Resumes Orderly q.run fun _ => Ready := by
  have hread {α β : Type} {m : Request α} (hm : Resumes Orderly m fun _ => Ready) (g : α → β) :
      Resumes Orderly (m >>= fun a => pure (g a)) fun _ => Ready := hm.map Orderly.steady g
  cases q with
  | classify => exact hread resumes_classify _
  | realize => exact hread resumes_realize _
  | inconsistent => exact hread resumes_isInconsistent _
  | satisfiable name =>
    refine hread ((resumes_complete_ready .consistency (by decide)).ready fun _ => resumes_ask fun r => ?_) _
    simp [Reasoner.still]
  | superClasses name direct => exact hread (hread resumes_classify _) _
  | subClasses name direct => exact hread (hread resumes_classify _) _
  | equivalentClasses name => exact hread (hread resumes_classify _) _
  | types individual direct =>
    refine hread (resumes_realize.ready fun _ => ?_) _
    exact resumes_withTaxonomy.map steady_ready _
  | subsumed sub sup =>
    refine hread (resumes_isInconsistent.ready fun inconsistent => ?_) _
    cases inconsistent with
    | true => exact resumes_ask (g := fun _ => true) fun _ => rfl
    | false =>
      refine resumes_ask fun r => ?_
      simp [Reasoner.still]

end Request

end ELOntology
