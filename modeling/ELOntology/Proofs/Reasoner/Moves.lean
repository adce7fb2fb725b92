import ELOntology.Proofs.Reasoner.Creation
import ELOntology.Proofs.Reasoner.Orderliness
import ELOntology.Proofs.Taxonomy.Footprint

/-!
# The moves of a reasoner

A call takes a reasoner through states that nobody sees from outside.  Here the way is cut into moves, down to the
processing of single conclusions in any order, and each move comes with the places of the tables that it looks up.  The
nodes are those that the outcome depends on (`RuleBase.process_congr`, `RuleBase.replay_congr`, `Taxonomy.build_congr` and
`Realization.build_congr`).  A state is reached if some moves lead to it (`Reaches`); wherever a call ends or is interrupted,
its state is reached.

Key facts: `Request.Moves.query` (queries consist of moves) and `reaches_afterEvents` (so do whole histories).
-/

namespace ELOntology

/-- The premises whose rules the next commit changes. -/
def Index.premises (ix : Index) : List ExprId := (ix.pending.added ++ ix.pending.removed).map (·.premise)

/-- The roots whose contexts are needed when a conclusion is processed.  A retraction needs none, since it passes over the
roots that have none. -/
def RuleBase.targets (rb : RuleBase) (root : ExprId) (facts : Facts) (c : Conclusion) : Mode → List ExprId
  | .derive => (rb.productions .derive root (facts.insert c) c).map (·.1)
  | .retract => []

namespace Reasoner

open Request

/-- A place in the table of nodes or in that of contexts. -/
inductive Lookup where
  | node (id : ExprId)
  | context (root : ExprId)

/-- A move of a reasoner, with what it looks up. -/
inductive Move (r : Reasoner) : List Lookup → Reasoner → Prop
  /-- An axiom is asserted, or cannot be indexed, and the table of contexts follows. -/
  | assert (a : Axiom) : Move r [] { r with index := (r.index.assert a).2 }.sync
  | retract (a : Axiom) : Move r [] { r with index := (r.index.retract a).2 }.sync
  /-- The index is asked whether what is said of roles has changed. -/
  | takeRoles : Move r [] { r with index := r.index.takeRolesChanged.2 }
  | reset : Move r (r.index.premises.map .node) r.reset
  | monitor (f : Monitor → Monitor) : Move r [] (r.onMonitor f)
  | engine (e : Engine) : Move r [] { r with engine := e }
  /-- A caller has a context created. -/
  | create (root : ExprId) : Move r [] (r.createContext root)
  | buildRoles : Move r [] { r with roles := .build r.index }
  /-- The table of contexts follows the index. -/
  | sync : Move r [] r.sync
  /-- A class or an individual is submitted after the table of contexts has followed the index. -/
  | submit {root : ExprId} (hsynced : r.sync = r) (hroot : root ∈ r.index.roots) :
      Move r [.context root] (r.createContext root)
  /-- A conclusion that waits in some context is processed. -/
  | process (mode : Mode) {root : ExprId} {ctx : Context} {c : Conclusion} {before after : List Conclusion}
      {rest : Queue Conclusion} (hctx : r.workspace.context? root = some ctx)
      (htodo : ctx.todo.toList = before ++ c :: after) (hrest : rest.toList = before ++ after) :
      Move r (c.lookups.map .node ++ (r.ruleBase.targets root ctx.facts c mode).map .context)
        { r with workspace := (r.ruleBase.process mode root c (r.workspace.put root { ctx with todo := rest })).2 }
  /-- Something changes in the workspace that neither facts nor work depend on. -/
  | schedule {w : Workspace} (h : r.workspace.SameWork w) : Move r [] { r with workspace := w }
  | seedDeletion : Move r [] (seedDeletion r)
  /-- Modified contexts are cleaned. -/
  | clean : Move r [] (cleanModified r).2
  /-- The index commits, the cleaned contexts start again, and the others replay. -/
  | seedAddition : Move r ((r.index.premises ++ r.workspace.subsumers).map .node) (seedAddition r)
  /-- Maintenance is over. -/
  | endMaintenance : Move r [] { r with progress := .none }
  /-- Results are computed, and stages are noted as done or not done. -/
  | conclude {r' : Reasoner} (hindex : r'.index = r.index) (hroles : r'.roles = r.roles)
      (hworkspace : r'.workspace = r.workspace) (hprogress : r'.progress = r.progress) :
      Move r ((Taxonomy.lookups r.index r.workspace).map .node) r'

theorem sync_eq_iff {r : Reasoner} : r.sync = r ↔ r.index.nodes.size ≤ r.workspace.contexts.size := by
  constructor
  · intro h
    have hgrown : r.workspace.grow r.index.nodes.size = r.workspace := congrArg Reasoner.workspace h
    have hsize := Workspace.size_grow (w := r.workspace) r.index.nodes.size
    rw [hgrown] at hsize
    omega
  · intro h
    rw [sync, Workspace.grow_of_le h]

/-- Some moves lead from the first state to the second. -/
def Reaches : Reasoner → Reasoner → Prop := Relation.ReflTransGen fun r r' => ∃ lookups, r.Move lookups r'

variable {r r' r'' : Reasoner} {ls : List Lookup}

theorem Move.reaches (h : r.Move ls r') : r.Reaches r' := .single ⟨ls, h⟩

namespace Reaches

theorem refl (r : Reasoner) : r.Reaches r := Relation.ReflTransGen.refl

theorem trans (h : r.Reaches r') (h' : r'.Reaches r'') : r.Reaches r'' := Relation.ReflTransGen.trans h h'

theorem move (h : r.Reaches r') (hmove : r'.Move ls r'') : r.Reaches r'' := h.trans hmove.reaches

end Reaches

/-- If the engine is lawful, some moves lead from the first state to the second, and it is left as it is. -/
structure Leads (r r' : Reasoner) : Prop where
  reaches : r.engine.Lawful → r.Reaches r'
  engine : r'.engine = r.engine

theorem Move.leads (h : r.Move ls r') (hengine : r'.engine = r.engine) : r.Leads r' := ⟨fun _ => h.reaches, hengine⟩

namespace Leads

theorem refl (r : Reasoner) : r.Leads r := ⟨fun _ => .refl r, rfl⟩

theorem trans (h : r.Leads r') (h' : r'.Leads r'') : r.Leads r'' :=
  ⟨fun he => (h.reaches he).trans (h'.reaches (h.engine ▸ he)), h'.engine.trans h.engine⟩

theorem move (h : r.Leads r') (hmove : r'.Move ls r'') (hengine : r''.engine = r'.engine) : r.Leads r'' :=
  h.trans (hmove.leads hengine)

end Leads

end Reasoner

open Reasoner

/-! ### Requests -/

namespace Request

variable {α β : Type} {m : Request α} {f : α → Request β} {r : Reasoner}

/-- Whether a request is answered, fails or is interrupted, it consists of moves. -/
def Moves (m : Request α) : Prop := ∀ r : Reasoner, r.Leads (m r).2

namespace Moves

theorem bind (hm : Moves m) (hf : ∀ a, Moves (f a)) : Moves (m >>= f) := by
  intro r
  have hfirst := hm r
  rw [bind_apply]
  rcases hrun : m r with ⟨e | a, r'⟩ <;> rw [hrun] at hfirst
  · exact hfirst
  · exact hfirst.trans (hf a r')

theorem pure (a : α) : Moves (pure a) := fun r => .refl r

theorem change {g : Reasoner → Reasoner} (hg : ∀ r : Reasoner, r.Leads (g r)) : Moves (Request.change g) := hg

private theorem leads_submitAll {roots : List ExprId}
    (hroots : ∀ root ∈ roots, r.sync = r ∧ root ∈ r.index.roots) :
    r.Leads { r with workspace := (r.workspace.submitAll roots).2 } := by
  induction roots generalizing r with
  | nil => exact .refl r
  | cons root roots ih =>
    have hlooked : r.Leads { r with workspace := r.workspace.look.2 } :=
      Move.leads (.schedule (.look (Prod.ext rfl rfl))) rfl
    have hcontexts : r.workspace.look.2.contexts = r.workspace.contexts := rfl
    unfold Workspace.submitAll Workspace.submit
    generalize r.workspace.look = looked at hlooked hcontexts ⊢
    obtain ⟨_ | _, w⟩ := looked
    · -- submitting leaves the sizes of both tables alone
      have hsynced {w' : Workspace} (hsize : w'.contexts.size = w.contexts.size) (hsync : r.sync = r) :
          ({ r with workspace := w' } : Reasoner).sync = { r with workspace := w' } := by
        have hcovered := sync_eq_iff.1 hsync
        rw [← congrArg Array.size hcontexts, ← hsize] at hcovered
        exact sync_eq_iff.2 hcovered
      obtain ⟨hsync, hroot⟩ := hroots root (List.mem_cons_self ..)
      refine (hlooked.move (.submit (hsynced rfl hsync) hroot) rfl).trans (ih fun other hother => ?_)
      obtain ⟨hsync, hother⟩ := hroots other (List.mem_cons_of_mem _ hother)
      exact ⟨hsynced Workspace.size_ensure hsync, hother⟩
    · exact hlooked

theorem leads_steps {mode : Mode} {w : Workspace} (h : Steps r.ruleBase mode r.workspace w) :
    r.Leads { r with workspace := w } := by
  induction h with
  | refl => exact .refl r
  | tail _ hstep ih =>
    cases hstep with
    | process hctx htodo hrest => exact ih.move (.process mode hctx htodo hrest) rfl
    | schedule hsame => exact ih.move (.schedule hsame) rfl

private theorem leads_saturate (stage : Stage) (mode : Mode) {roots : List ExprId}
    (hroots : ∀ root ∈ roots, r.sync = r ∧ root ∈ r.index.roots) :
    r.Leads (saturate stage mode roots r).2 := by
  have hsubmitted := leads_submitAll hroots
  unfold Request.saturate
  generalize r.workspace.submitAll roots = submitted at hsubmitted ⊢
  obtain ⟨_ | _, w⟩ := submitted
  · have hrun : r.Leads { r with workspace := (r.runRules mode w).2 } := by
      refine ⟨fun he => ?_, rfl⟩
      have hcourse : Course r.config.workers r.ruleBase mode w (r.runRules mode w) := he _ _ _ _
      exact (hsubmitted.trans (leads_steps (r := { r with workspace := w }) hcourse.steps)).reaches he
    dsimp only
    generalize r.runRules mode w = result at hrun ⊢
    obtain ⟨_ | statistics, w'⟩ := result
    · exact hrun
    · exact hrun.move (.conclude rfl rfl rfl rfl) rfl
  · exact hsubmitted

/-- A run for which nothing is submitted. -/
theorem saturate (stage : Stage) (mode : Mode) : Moves (saturate stage mode []) :=
  fun _ => leads_saturate stage mode fun _ hroot => absurd hroot List.not_mem_nil

/-! ### Stages -/

theorem runDeletion : Moves runDeletion := by
  have hfinish : Moves finishDerivation := fun r => by
    unfold finishDerivation
    split
    · exact saturate .deletion .derive r
    · exact .refl r
  rw [runDeletion_eq]
  exact (hfinish.bind fun _ => .change fun _ => Move.seedDeletion.leads (engine_seedDeletion _)).bind fun _ => saturate _ _

theorem cleaningPasses (passes : Nat) : Moves (cleaningPasses passes) := by
  induction passes with
  | zero => exact .pure ()
  | succ passes ih =>
    have hclean : Moves fun r => (.ok (cleanModified r).1, (cleanModified r).2) := fun _ => Move.clean.leads rfl
    rw [cleaningPasses_succ]
    refine .bind ((saturate _ _).bind fun _ => hclean) fun more => ?_
    cases more with
    | true => exact ih
    | false => exact .pure ()

theorem runAddition : Moves runAddition := by
  rw [runAddition_eq]
  refine ((Moves.change fun _ => Move.seedAddition.leads (engine_seedAddition _)).bind fun _ => saturate _ _).bind fun _ => .change fun _ => ?_
  exact Move.endMaintenance.leads rfl

/-- The classes and individuals are submitted right after the table of contexts has followed the index. -/
theorem runSaturation : Moves runSaturation := by
  intro r
  refine (Move.sync.leads rfl).trans (leads_saturate .saturation .derive fun root hroot => ⟨?_, hroot⟩)
  refine sync_eq_iff.2 ?_
  rw [show r.sync.workspace.contexts.size = _ from Workspace.size_grow r.index.nodes.size]
  exact Nat.le_max_right ..

private theorem leads_withTaxonomy (r : Reasoner) : r.Leads (withTaxonomy r).2 := by
  unfold withTaxonomy
  split
  · exact .refl r
  · exact Move.leads (.conclude rfl rfl rfl rfl) rfl

private theorem leads_withRealization (r : Reasoner) : r.Leads (withRealization r).2 := by
  have hfirst := leads_withTaxonomy r
  unfold withRealization
  generalize withTaxonomy r = result at hfirst ⊢
  obtain ⟨t, r'⟩ := result
  dsimp only
  split
  · exact hfirst
  · exact hfirst.move (.conclude rfl rfl rfl rfl) rfl

theorem runStage (stage : Stage) : Moves (runStage stage) := by
  cases stage with
  | roleHierarchy => exact .change fun _ => Move.buildRoles.leads rfl
  | deletion => exact runDeletion
  | cleaning => exact fun r => cleaningPasses _ r
  | addition => exact runAddition
  | saturation => exact runSaturation
  | consistency => exact .change fun _ => Move.leads (.conclude rfl rfl rfl rfl) rfl
  | classTaxonomy => exact .change fun _ => Move.leads (.conclude rfl rfl rfl rfl) rfl
  | instanceTaxonomy =>
    refine .change fun r => ?_
    have hforgotten : r.Leads { r with realization := none } := Move.leads (.conclude rfl rfl rfl rfl) rfl
    exact hforgotten.trans (leads_withRealization _)
  | validation =>
    intro r
    rw [runStage_validation]
    split
    · exact .refl r
    · split <;> exact .refl r

/-! ### Queries -/

private theorem completeWithin (fuel : Nat) (stage : Stage) : Moves (runner.completeWithin fuel stage) := by
  induction fuel generalizing stage with
  | zero => exact .pure ()
  | succ fuel ih =>
    have hneeded (stages : List Stage) : Moves (StageRunner.inOrder (runner.completeWithin fuel) stages) := by
      induction stages with
      | nil => exact .pure ()
      | cons stage stages ihstages =>
        rw [show StageRunner.inOrder _ (stage :: stages) = _ from inOrder_cons (runner.completeWithin fuel) stage stages]
        exact (ih stage).bind fun _ => ihstages
    intro r
    have hneeded := hneeded stage.dependencies r
    unfold StageRunner.completeWithin
    split
    · exact .refl r
    · generalize StageRunner.inOrder (runner.completeWithin fuel) stage.dependencies r = result at hneeded ⊢
      obtain ⟨_ | _, r'⟩ := result
      · exact hneeded
      · have hrun := hneeded.trans (runStage stage r')
        dsimp only
        rw [show runner.run stage r' = Request.runStage stage r' from rfl]
        generalize Request.runStage stage r' = result at hrun ⊢
        obtain ⟨_ | _, r''⟩ := result
        · exact hrun
        · exact hrun.move (.conclude rfl rfl rfl rfl) rfl

theorem complete (stage : Stage) : Moves (complete stage) := by
  intro r
  have hcomplete : r.Leads (runner.complete stage r).2 := completeWithin _ stage r
  unfold Request.complete
  generalize runner.complete stage r = result at hcomplete ⊢
  obtain ⟨_ | _, r'⟩ := result
  · dsimp only
    split
    · exact hcomplete.move (.monitor _) rfl
    · exact hcomplete
  · exact hcomplete

/-- Every query consists of moves. -/
theorem query (q : Query) : Moves q.run := by
  have hplain {α : Type} {m : Request α} (hm : Plain m) : Moves m := by
    induction hm with
    | complete stage => exact complete stage
    | read => exact fun r => .refl r
    | taxonomy => exact leads_withTaxonomy
    | realization => exact leads_withRealization
    | bind _ _ ihm ihf => exact ihm.bind ihf
  exact hplain (.query q)

end Moves

end Request

/-! ### Histories -/

namespace Reasoner

variable {r : Reasoner}

/-- An edit consists of moves, whether it fails, changes a number only, is left to maintenance or drops all contexts. -/
private theorem reaches_edited {edit : Except IndexError Bool × Index} (h : r.Reaches { r with index := edit.2 }.sync) :
    r.Reaches (r.edited edit).2 := by
  obtain ⟨answer, ix⟩ := edit
  match answer with
  | .error _ => exact h
  | .ok false => exact h
  | .ok true =>
    show r.Reaches { r with index := ix }.sync.axiomsChanged
    rw [axiomsChanged_eq]
    have htaken := h.move .takeRoles
    split
    · exact (htaken.move .reset).move (.conclude rfl rfl rfl rfl)
    · exact htaken.move (.conclude rfl rfl rfl rfl)

/-- A call consists of moves, and leaves a lawful engine. -/
theorem reaches_call (he : r.engine.Lawful) (call : Call) : r.Reaches (call.apply r) ∧ (call.apply r).engine.Lawful := by
  have hedited (edit : Except IndexError Bool × Index) : (r.edited edit).2.engine.Lawful := by
    rw [(setup_edited edit).2]
    exact he
  cases call with
  | add a => exact ⟨reaches_edited (Move.assert a).reaches, hedited _⟩
  | remove a => exact ⟨reaches_edited (Move.retract a).reaches, hedited _⟩
  | ask q =>
    have hleads := Request.Moves.query q r
    exact ⟨hleads.reaches he, hleads.engine ▸ he⟩
  | monitor f => exact ⟨(Move.monitor f).reaches, he⟩
  | engine e he' => exact ⟨(Move.engine e).reaches, he'⟩

/-- Whatever callers do, one after the other, consists of moves. -/
theorem reaches_afterEvents (he : r.engine.Lawful) (events : List Event) : r.Reaches (r.afterEvents events) := by
  induction events generalizing r with
  | nil => exact .refl r
  | cons event events ih =>
    cases event with
    | call c =>
      obtain ⟨hreaches, he'⟩ := reaches_call he c
      exact hreaches.trans (ih he')
    | create root => exact (Move.create root).reaches.trans (ih (r := r.createContext root) he)

end Reasoner

end ELOntology
