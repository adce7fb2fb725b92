import ELOntology.Proofs.Reasoner.Completion
import ELOntology.Proofs.Role.Fits
import ELOntology.Proofs.Saturation.Upkeep
import ELOntology.Proofs.Taxonomy.View
import ELOntology.Reasoner.Stages

/-!
# The invariant of a reasoner

`Sound` is what holds of a reasoner between any two requests.  Which of the invariants of its workspace holds is told by
the progress record (`Phase`): derivation over the rules in force where no maintenance is in flight, retraction of what is
pending once that has been seeded, and derivation over the new rules after the commit.  What stages that are done have
computed is still right.

The runs are those of any lawful engine, and the engine may change in between.

Key facts: the invariant survives edits that keep the index (`Sound.kept`) and revise it (`Sound.revised`), whatever a caller
does to the monitor (`Sound.onMonitor`), and another engine (`Sound.setEngine`).
-/

namespace ELOntology

/-! ### Stages that are done -/

/-- Whatever a stage needs is done if the stage is. -/
structure StageStatus.Closed (status : StageStatus) : Prop where
  needed {stage needed : Stage} :
    status.isDone stage = true → needed ∈ stage.dependencies → status.isDone needed = true

namespace StageStatus.Closed

variable {status : StageStatus} {stage other : Stage}

theorem nothingDone : StageStatus.nothingDone.Closed := ⟨fun h => by cases h⟩

/-- All stages that lie less deep are done. -/
theorem of_depth_lt (h : status.Closed) (hdone : status.isDone stage = true) (hlt : other.depth < stage.depth) :
    status.isDone other = true := by
  induction hn : stage.depth generalizing stage with
  | zero => omega
  | succ n ih =>
    have hpos : 0 < stage.depth := by omega
    obtain ⟨needed, hmem, hdepth⟩ := Stage.exists_dependency hpos
    have hneeded := h.needed hdone hmem
    have hle := stage.depth_le
    by_cases hsame : other.depth = needed.depth
    · rwa [Stage.eq_of_depth_eq hsame (by omega)]
    · exact ih hneeded (by omega) (by omega)

/-- Where what a stage needs is done, all stages that lie less deep are. -/
theorem of_needed (h : status.Closed) (hneeded : ∀ needed ∈ stage.dependencies, status.isDone needed = true)
    (hlt : other.depth < stage.depth) : status.isDone other = true := by
  obtain ⟨needed, hmem, hdepth⟩ := Stage.exists_dependency (Nat.lt_of_le_of_lt (Nat.zero_le _) hlt)
  have hle := stage.depth_le
  by_cases hsame : other.depth = needed.depth
  · rw [Stage.eq_of_depth_eq hsame (by omega)]
    exact hneeded needed hmem
  · exact h.of_depth_lt (hneeded needed hmem) (by omega)

/-- No stage that lies deeper than one that is not done is done. -/
theorem ne_done_of_depth_lt (h : status.Closed) (hnot : status.isDone stage = false) (hlt : stage.depth < other.depth) :
    status.isDone other ≠ true := fun hdone => by
  rw [h.of_depth_lt hdone hlt] at hnot
  cases hnot

theorem markDone (h : status.Closed) (hneeded : ∀ needed ∈ stage.dependencies, status.isDone needed = true) :
    (status.markDone stage).Closed := by
  refine ⟨fun {d needed} hd hmem => ?_⟩
  rcases StageStatus.isDone_markDone.1 hd with rfl | hd
  · exact StageStatus.isDone_markDone.2 (.inr (hneeded needed hmem))
  · exact StageStatus.isDone_markDone.2 (.inr (h.needed hd hmem))

theorem invalidate_deletion : (status.invalidate .deletion).Closed := by
  refine ⟨fun {d needed} hd hmem => ?_⟩
  obtain ⟨-, rfl⟩ := StageStatus.isDone_invalidate_deletion.1 hd
  cases hmem

theorem invalidate_roleHierarchy : (status.invalidate .roleHierarchy).Closed := by
  refine ⟨fun {d needed} hd => ?_⟩
  rw [StageStatus.isDone_invalidate_roleHierarchy] at hd
  cases hd

end StageStatus.Closed

/-! ### The invariant -/

namespace Reasoner

/-- The rules in force. -/
def calculus (r : Reasoner) : Calculus := r.ruleBase.calculus

/-- Which work is in flight, and what holds of the workspace meanwhile. -/
inductive Phase (r : Reasoner) : Prop
  /-- No maintenance is in flight.  It has not been started after the last change, or is complete. -/
  | idle (hprogress : r.progress = .none) (hderiving : Deriving r.calculus r.workspace)
      (hdeletion : r.stages.isDone .deletion = true → r.stages.isDone .addition = true)
      (hpending : r.stages.isDone .addition = true → r.index.pending = .empty)
  /-- What is pending is being retracted, under the old rules. -/
  | retracting (base : ExprId → Conclusion → Prop) (hseeded : r.progress.deletionsSeeded = true)
      (hrenewed : r.progress.additionsSeeded = false)
      (hretracting : Retracting r.calculus r.index.pending.removed base r.progress.cleaned r.workspace)
      (hnodup : r.progress.cleaned.Nodup) (hhas : ∀ root ∈ r.progress.cleaned, r.workspace.Has root)
      (hroles : r.stages.isDone .roleHierarchy = true) (haddition : r.stages.isDone .addition = false)
      (hcleaning : r.stages.isDone .cleaning = true → r.workspace.Quiet ∧ r.workspace.modified.toList = [])
  /-- The changes are in force, and what is missing is being derived. -/
  | renewing (hrenewed : r.progress.additionsSeeded = true) (hderiving : Deriving r.calculus r.workspace)
      (hpending : r.index.pending = .empty) (hcleaning : r.stages.isDone .cleaning = true)
      (haddition : r.stages.isDone .addition = false)

/-- The hierarchy of a reasoner fits its index, or no rule has been applied yet over the roles that it knows. -/
structure Hierarchical (r : Reasoner) : Prop where
  fits : r.roles.Fits r.index ∨ r.stages.isDone .roleHierarchy = false ∧ ∀ K, Deriving K r.workspace
  idle : r.stages.isDone .roleHierarchy = false → r.progress = .none
  pending : r.stages.isDone .roleHierarchy = true → ∀ {filler existential : ExprId} {role : RoleId},
    .propagation filler role existential ∈ r.index.pending.added → role.val < r.roles.size

/-- The contexts of all roots of the index have been saturated. -/
structure Settled (r : Reasoner) : Prop where
  saturated : Saturated r.calculus r.workspace.Stores
  rooted {root : ExprId} : root ∈ r.index.roots → r.workspace.Stores root (.isA root)

/-- What holds of a reasoner between any two requests. -/
structure Sound (r : Reasoner) : Prop where
  engine : r.engine.Lawful
  accounts : r.index.Accounts
  taken : r.index.rolesChanged = false
  sized : r.workspace.contexts.size = r.index.nodes.size ∨ r.workspace.contexts.size = 0
  orderly : r.workspace.Orderly
  closed : r.stages.Closed
  hierarchical : r.Hierarchical
  phase : r.Phase
  settled : r.stages.isDone .saturation = true → r.Settled
  consistency : r.stages.isDone .consistency = true → r.inconsistent = Request.isContradictory r
  taxonomy : r.stages.isDone .classTaxonomy = true →
    r.taxonomy = some (.build r.index r.workspace r.inconsistent)
  realization : r.stages.isDone .instanceTaxonomy = true → ∀ t, r.taxonomy = some t →
    r.realization = some (.build r.index r.workspace t r.inconsistent)

namespace Sound

variable {r r' : Reasoner}

theorem size_le (h : r.Sound) : r.workspace.contexts.size ≤ r.index.nodes.size := by
  rcases h.sized with e | e <;> omega

/-- Once the role hierarchy has been built, it fits. -/
theorem fits (h : r.Sound) (hroles : r.stages.isDone .roleHierarchy = true) : r.roles.Fits r.index := by
  rcases h.hierarchical.fits with hfits | ⟨hnot, -⟩
  · exact hfits
  · rw [hroles] at hnot
    cases hnot

/-- What stages that are done have computed is right for every reasoner that has computed the same over the same view. -/
private theorem results_of_view (h : r.Sound) (r' : Reasoner) (hstages : r'.stages = r.stages)
    (hinconsistent : r'.inconsistent = r.inconsistent) (htaxonomy : r'.taxonomy = r.taxonomy) (hrealization : r'.realization = r.realization)
    (hview : r.stages.isDone .saturation = true → SameView r.index r'.index r.workspace r'.workspace) :
    (r'.stages.isDone .consistency = true → r'.inconsistent = Request.isContradictory r') ∧
    (r'.stages.isDone .classTaxonomy = true → r'.taxonomy = some (.build r'.index r'.workspace r'.inconsistent)) ∧
    (r'.stages.isDone .instanceTaxonomy = true → ∀ t, r'.taxonomy = some t →
      r'.realization = some (.build r'.index r'.workspace t r'.inconsistent)) := by
  rw [hstages, hinconsistent, htaxonomy, hrealization]
  have hsaturation {stage : Stage} (hdone : r.stages.isDone stage = true) (hdepth : 4 < stage.depth) :
      SameView r.index r'.index r.workspace r'.workspace := hview (h.closed.of_depth_lt hdone hdepth)
  refine ⟨fun hdone => ?_, fun hdone => ?_, fun hdone t ht => ?_⟩
  · have hview := hsaturation hdone (by decide)
    have hempty {root : ExprId} (hroot : root ∈ r.index.roots) :
        r'.workspace.isUnsatisfiable root = r.workspace.isUnsatisfiable root := by
      unfold Workspace.isUnsatisfiable
      rw [hview.context? hroot]
    rw [h.consistency hdone, Request.isContradictory, Request.isContradictory, hview.individuals,
      hempty (List.mem_append_left _ h.accounts.tidy.thing_mem_classes)]
    refine congrArg (_ || ·) (Bool.eq_iff_iff.2 ?_)
    rw [List.any_eq_true, List.any_eq_true]
    exact exists_congr fun a => and_congr_right fun ha => by rw [hempty (List.mem_append_right _ ha)]
  · have hview := hsaturation hdone (by decide)
    rw [hview.build_eq, h.taxonomy hdone]
  · have hview := hsaturation hdone (by decide)
    rw [hview.realization_eq, h.realization hdone t ht]

/-- When the changes have been worked off, nothing is in flight or pending. -/
theorem idle_of_addition (h : r.Sound) (hdone : r.stages.isDone .addition = true) :
    r.progress = .none ∧ Deriving r.calculus r.workspace ∧ r.index.pending = .empty := by
  cases h.phase with
  | idle hprogress hderiving _ hpending => exact ⟨hprogress, hderiving, hpending hdone⟩
  | retracting _ _ _ _ _ _ _ haddition => rw [hdone] at haddition; cases haddition
  | renewing _ _ _ _ haddition => rw [hdone] at haddition; cases haddition

/-- Where all roots have been saturated, what has their contexts shows the same. -/
private theorem view (h : r.Sound) (hdone : r.stages.isDone .saturation = true) {ix : Index} {w : Workspace}
    (hnames : r.index.Names ix) (hclasses : ix.classes = r.index.classes) (hindividuals : ix.individuals = r.index.individuals)
    (hcontext : ∀ root, r.workspace.Has root → w.context? root = r.workspace.context? root) :
    SameView r.index ix r.workspace w where
  names := hnames
  classes := hclasses
  individuals := hindividuals
  has hroot := ((h.settled hdone).rooted hroot).has
  within hc := by
    have hderiving := (h.idle_of_addition (h.closed.of_depth_lt hdone (by decide))).2.1
    exact Nat.lt_of_lt_of_le (hderiving.within_stores hc) h.size_le
  context? hroot := hcontext _ ((h.settled hdone).rooted hroot).has

/-! ### What a caller may do in between -/

/-- Watching and prompting has no part in the invariant. -/
theorem onMonitor (h : r.Sound) (f : Monitor → Monitor) : (r.onMonitor f).Sound := by
  have hsame : r.workspace.SameWork (r.onMonitor f).workspace := .of_contexts rfl rfl
  have hstores : (r.onMonitor f).workspace.Stores = r.workspace.Stores :=
    funext fun _ => funext fun _ => propext hsame.stores_iff
  obtain ⟨hconsistency, htaxonomy, hrealization⟩ := h.results_of_view (r.onMonitor f) rfl rfl rfl rfl
    fun hdone => h.view hdone (.refl _) rfl rfl fun _ _ => rfl
  refine ⟨h.engine, h.accounts, h.taken, h.sized, h.orderly.monitor _, h.closed, ?_, ?_, fun hdone => ?_, hconsistency, htaxonomy,
    hrealization⟩
  · obtain ⟨hfits, hidle, hpending⟩ := h.hierarchical
    exact ⟨hfits.imp_right fun hnew => ⟨hnew.1, fun K => (hnew.2 K).sameWork hsame⟩, hidle, hpending⟩
  · cases h.phase with
    | idle hprogress hderiving hdeletion hpending =>
      exact .idle hprogress (hderiving.sameWork hsame) hdeletion hpending
    | retracting base hseeded hrenewed hretracting hnodup hhas hroles haddition hcleaning =>
      refine .retracting base hseeded hrenewed (hretracting.sameWork hsame) hnodup
        (fun root hroot => hsame.has_iff.2 (hhas root hroot)) hroles haddition fun hdone => ?_
      exact ⟨fun root c hc => (hcleaning hdone).1 root c (hsame.waits_iff.1 hc), (hcleaning hdone).2⟩
    | renewing hrenewed hderiving hpending hcleaning haddition =>
      exact .renewing hrenewed (hderiving.sameWork hsame) hpending hcleaning haddition
  · obtain ⟨hsaturated, hrooted⟩ := h.settled hdone
    exact ⟨hstores ▸ hsaturated, fun hroot => hsame.stores_iff.2 (hrooted hroot)⟩

/-- Another engine may carry out the runs that follow. -/
theorem setEngine (h : r.Sound) {e : Engine} (he : e.Lawful) : ({ r with engine := e } : Reasoner).Sound where
  engine := he
  accounts := h.accounts
  taken := h.taken
  sized := h.sized
  orderly := h.orderly
  closed := h.closed
  hierarchical := ⟨h.hierarchical.fits, h.hierarchical.idle, h.hierarchical.pending⟩
  phase := by
    cases h.phase with
    | idle hprogress hderiving hdeletion hpending => exact .idle hprogress hderiving hdeletion hpending
    | retracting base hseeded hrenewed hretracting hnodup hhas hroles haddition hcleaning =>
      exact .retracting base hseeded hrenewed hretracting hnodup hhas hroles haddition hcleaning
    | renewing hrenewed hderiving hpending hcleaning haddition =>
      exact .renewing hrenewed hderiving hpending hcleaning haddition
  settled hdone := ⟨(h.settled hdone).saturated, (h.settled hdone).rooted⟩
  consistency := h.consistency
  taxonomy := h.taxonomy
  realization := h.realization

/-- A context may be created as long as no retraction is in flight. -/
theorem createContext (h : r.Sound) {root : ExprId} (hsafe : r.progress.deletionsSeeded = true →
    r.progress.additionsSeeded = false → r.workspace.Has root ∨ r.workspace.contexts.size ≤ root.val) :
    (r.createContext root).Sound := by
  by_cases hnew : ¬ r.workspace.Has root ∧ root.val < r.workspace.contexts.size
  -- where there is a context, or no place for one, nothing happens
  swap
  · have hsame : r.createContext root = r := by
      have hensure : r.workspace.ensure root = r.workspace := by
        by_cases hhas : r.workspace.Has root
        · exact Workspace.ensure_of_has hhas
        · exact Workspace.ensure_of_not_lt fun hlt => hnew ⟨hhas, hlt⟩
      show { r with workspace := r.workspace.ensure root } = r
      rw [hensure]
    rwa [hsame]
  have hstores : (r.workspace.ensure root).Stores = r.workspace.Stores :=
    funext fun _ => funext fun _ => propext Workspace.stores_ensure
  have hcontext (other : ExprId) (hother : r.workspace.Has other) :
      (r.workspace.ensure root).context? other = r.workspace.context? other := by
    have hne : other ≠ root := fun e => hnew.1 (e ▸ hother)
    rw [Workspace.context?_ensure_new hnew.1 hnew.2, Workspace.context?_enqueue, if_neg hne,
      Workspace.context?_put hnew.2, if_neg hne]
  obtain ⟨hconsistency, htaxonomy, hrealization⟩ := h.results_of_view (r.createContext root) rfl rfl rfl rfl
    fun hdone => h.view hdone (.refl _) rfl rfl hcontext
  refine ⟨h.engine, h.accounts, h.taken, ?_, h.orderly.ensure root, h.closed, ?_, ?_, fun hdone => ?_, hconsistency, htaxonomy,
    hrealization⟩
  · show (r.workspace.ensure root).contexts.size = _ ∨ (r.workspace.ensure root).contexts.size = 0
    rw [Workspace.size_ensure]
    exact h.sized
  · obtain ⟨hfits, hidle, hpending⟩ := h.hierarchical
    exact ⟨hfits.imp_right fun hunused => ⟨hunused.1, fun K => (hunused.2 K).ensure root⟩, hidle, hpending⟩
  · cases h.phase with
    | idle hprogress hderiving hdeletion hpending =>
      exact .idle hprogress (hderiving.ensure root) hdeletion hpending
    | retracting base hseeded hrenewed =>
      -- a context made now would not be noticed by the retraction
      rcases hsafe hseeded hrenewed with hhas | hle
      · exact absurd hhas hnew.1
      · exact absurd hnew.2 (Nat.not_lt.2 hle)
    | renewing hrenewed hderiving hpending hcleaning haddition =>
      exact .renewing hrenewed (hderiving.ensure root) hpending hcleaning haddition
  · obtain ⟨hsaturated, hrooted⟩ := h.settled hdone
    exact ⟨hstores ▸ hsaturated, fun hroot => Workspace.stores_ensure.2 (hrooted hroot)⟩

/-! ### Edits -/

end Sound

/-- The stages of a reasoner over another index.  If roles have been added, its role hierarchy is not done any more. -/
def stagesOver (r : Reasoner) (ix : Index) : StageStatus :=
  if ix.roles.size = r.roles.size then r.stages else r.stages.invalidate .roleHierarchy

theorem isDone_stagesOver {r : Reasoner} {ix : Index} {stage : Stage} (h : (r.stagesOver ix).isDone stage = true) :
    r.stages.isDone stage = true ∧ ix.roles.size = r.roles.size := by
  unfold stagesOver at h
  split at h <;> rename_i hsize
  · exact ⟨h, hsize⟩
  · rw [StageStatus.isDone_invalidate_roleHierarchy] at h
    cases h

/-- A new reasoner has nothing and has done nothing. -/
theorem eq_of_new {r : Reasoner} {config : Config} (hr : Reasoner.new config = .ok r) : r =
    { config
      engine := .single
      index := .empty
      roles := .empty
      workspace := .empty
      stages := .nothingDone
      progress := .none
      inconsistent := false
      taxonomy := none
      realization := none
      statistics := [] } := by
  unfold Reasoner.new at hr
  split at hr <;> cases hr
  rfl

/-- What a change of the axioms makes of a reasoner.  Either all contexts are dropped, or the change is left to
maintenance. -/
theorem axiomsChanged_eq (r : Reasoner) (ix : Index) : { r with index := ix }.sync.axiomsChanged =
    if !!(r.workspace.grow ix.nodes.size).isEmpty || !r.config.incremental || ix.rolesChanged || r.progress.inFlight then
      { r with
        index := ix.takeRolesChanged.2.commit.2
        workspace := (r.workspace.grow ix.nodes.size).reset
        progress := .none
        stages := if ix.rolesChanged then ((r.stagesOver ix).invalidate .deletion).invalidate .roleHierarchy else
          (r.stagesOver ix).invalidate .deletion
        taxonomy := none
        realization := none }
    else
      { r with
        index := ix.takeRolesChanged.2
        workspace := r.workspace.grow ix.nodes.size
        stages := (r.stagesOver ix).invalidate .deletion
        taxonomy := none
        realization := none } := by
  unfold axiomsChanged stagesOver
  by_cases hsize : ix.roles.size = r.roles.size <;>
    simp only [sync, Index.takeRolesChanged, hsize, ne_eq, not_true_eq_false, not_false_eq_true, ↓reduceIte,
      Reasoner.invalidate, Reasoner.reset] <;>
    split
  · cases ix.rolesChanged <;> rfl
  · rfl
  · cases ix.rolesChanged <;> rfl
  · rfl

/-- After a change of the axioms at most the role hierarchy is done. -/
theorem eq_roleHierarchy_of_axiomsChanged {r : Reasoner} {ix : Index} {stage : Stage}
    (hdone : { r with index := ix }.sync.axiomsChanged.stages.isDone stage = true) : stage = .roleHierarchy := by
  rw [axiomsChanged_eq] at hdone
  split at hdone
  · dsimp only at hdone
    split at hdone
    · rw [StageStatus.isDone_invalidate_roleHierarchy] at hdone
      cases hdone
    · exact (StageStatus.isDone_invalidate_deletion.1 hdone).2
  · exact (StageStatus.isDone_invalidate_deletion.1 hdone).2

namespace Sound

variable {r r' : Reasoner}

/-- The rules of an index that has grown agree with those before, as far as the contexts reach. -/
private theorem agree (h : r.Sound) {ix : Index} (hnames : r.index.Names ix)
    (hrules : ∀ id, ix.rulesOf id = r.index.rulesOf id) :
    r.calculus.Agree r.workspace.contexts.size (RuleBase.calculus ⟨ix, r.roles⟩) :=
  (hnames.agree hrules r.roles).mono h.size_le

/-- An edit that keeps the index keeps the invariant. -/
theorem kept (h : r.Sound) {ix : Index} (hix : ix.Accounts) (hkept : r.index.Kept ix) : ({ r with index := ix }.sync).Sound := by
  have hagree := h.agree hkept.names hkept.rulesOf_eq
  have hstores : (r.workspace.grow ix.nodes.size).Stores = r.workspace.Stores :=
    funext fun _ => funext fun _ => propext (Workspace.stores_grow _)
  have hroots : ix.roots = r.index.roots := by
    unfold Index.roots
    rw [hkept.classes, hkept.individuals]
  have hremoved : ∀ g ∈ r.index.pending.removed, r.calculus.contributes g := fun g hg =>
    h.accounts.mem_contributionsOf_of_mem_removed hg
  have hview (hdone : r.stages.isDone .saturation = true) :
      SameView r.index ix r.workspace (r.workspace.grow ix.nodes.size) :=
    h.view hdone hkept.names hkept.classes hkept.individuals fun _ _ => Workspace.context?_grow _
  obtain ⟨hconsistency, htaxonomy, hrealization⟩ :=
    h.results_of_view ({ r with index := ix } : Reasoner).sync rfl rfl rfl rfl hview
  refine ⟨h.engine, hix, hkept.rolesChanged.trans h.taken, .inl ?_, h.orderly.grow _, h.closed, ?_, ?_, fun hdone => ?_, hconsistency,
    htaxonomy, hrealization⟩
  · show (r.workspace.grow ix.nodes.size).contexts.size = ix.nodes.size
    rw [Workspace.size_grow, Nat.max_eq_right (Nat.le_trans h.size_le hkept.names.size_le)]
  · obtain ⟨hfits, hidle, hpending⟩ := h.hierarchical
    refine ⟨hfits.imp (fun hf => hf.of_rulesOf hkept.told hkept.rulesOf_eq) fun hunused =>
      ⟨hunused.1, fun K => (hunused.2 K).grow _⟩, hidle, fun hdone {filler existential role} hg => ?_⟩
    exact hpending hdone (hkept.pending ▸ hg)
  · cases h.phase with
    | idle hprogress hderiving hdeletion hpending =>
      exact .idle hprogress ((hderiving.agree hagree).grow _) hdeletion fun hdone => hkept.pending.trans (hpending hdone)
    | retracting base hseeded hrenewed hretracting hnodup hhas hroles haddition hcleaning =>
      refine .retracting base hseeded hrenewed ?_ hnodup
        (fun root hroot => (Workspace.has_grow _).2 (hhas root hroot)) hroles haddition fun hdone =>
          ⟨(hcleaning hdone).1.grow _, (hcleaning hdone).2⟩
      show Retracting _ ix.pending.removed _ _ _
      rw [hkept.pending]
      exact (hretracting.agree hagree hremoved).grow _
    | renewing hrenewed hderiving hpending hcleaning haddition =>
      exact .renewing hrenewed ((hderiving.agree hagree).grow _) (hkept.pending.trans hpending) hcleaning haddition
  · obtain ⟨hsaturated, hrooted⟩ := h.settled hdone
    have hderiving := (h.idle_of_addition (h.closed.of_depth_lt hdone (by decide))).2.1
    refine ⟨?_, fun {root} hroot => (Workspace.stores_grow _).2 (hrooted (hroots ▸ hroot))⟩
    show Saturated (RuleBase.calculus ⟨ix, r.roles⟩) (r.workspace.grow ix.nodes.size).Stores
    rw [hstores]
    exact hsaturated.agree hagree fun _ _ hc => hderiving.within_stores hc

/-- After a reset everything is still to be done, for the committed index. -/
private theorem reset (h : r.Sound) {ix : Index} (hix : ix.Accounts) (hnames : r.index.Names ix)
    (htaken : ix.rolesChanged = false) {stages : StageStatus} (hstages : stages.Closed)
    (hdone : ∀ stage, stages.isDone stage = true →
      stage = .roleHierarchy ∧ r.roles.Fits ix ∧ ix.roles.size = r.roles.size) :
    Sound { r with
      index := ix.commit.2
      workspace := (r.workspace.grow ix.nodes.size).reset
      progress := .none
      stages
      taxonomy := none
      realization := none } := by
  obtain ⟨hcommitted, halike, hpending, -⟩ := hix.commit
  obtain ⟨entries, hledger, -⟩ := hix.exists_entries
  have hnot {stage : Stage} (hdepth : 0 < stage.depth) : stages.isDone stage ≠ true := fun e => by
    obtain ⟨rfl, -⟩ := hdone stage e
    exact absurd hdepth (by decide)
  have hsize : (r.workspace.grow ix.nodes.size).reset.contexts.size = ix.commit.2.nodes.size := by
    rw [Workspace.size_reset, Workspace.size_grow, halike.size_eq]
    exact Nat.max_eq_right (Nat.le_trans h.size_le hnames.size_le)
  have hderiving (K : Calculus) : Deriving K (r.workspace.grow ix.nodes.size).reset :=
    .of_no_contexts Workspace.not_has_reset
  refine ⟨h.engine, hcommitted, ?_, .inl hsize, .reset _, hstages, ⟨?_, fun _ => rfl, fun _ _ _ _ hg => ?_⟩, ?_, fun e => ?_,
    fun e => ?_, fun e => ?_, fun e => ?_⟩
  · exact (hledger.otherRules_commit hix.tidy).rolesChanged.trans htaken
  -- without contexts any hierarchy may be built later
  · by_cases hrole : stages.isDone .roleHierarchy = true
    · obtain ⟨-, hfits, hroles⟩ := hdone _ hrole
      exact .inl (hix.fits_commit hfits fun hg => hroles ▸ hix.role_lt_of_mem_added hg)
    · exact .inr ⟨Bool.eq_false_iff.2 hrole, hderiving⟩
  · rw [hpending] at hg
    cases hg
  · exact .idle rfl (hderiving _) (fun e => absurd e (hnot (by decide)))
      fun _ => hpending
  all_goals exact absurd e (hnot (by decide))

/-- Where a change is left to maintenance, only the later stages are still to be done. -/
private theorem left_to_maintenance (h : r.Sound) {ix : Index} (hix : ix.Accounts) (hnames : r.index.Names ix)
    (hrules : ∀ id, ix.rulesOf id = r.index.rulesOf id) (htold : r.index.ToldAlike ix) (htaken : ix.rolesChanged = false)
    (hidle : r.progress.inFlight = false) {stages : StageStatus} (hstages : stages.Closed)
    (hdone : ∀ stage, stages.isDone stage = true →
      stage = .roleHierarchy ∧ r.stages.isDone stage = true ∧ ix.roles.size = r.roles.size) :
    Sound { r with
      index := ix
      workspace := r.workspace.grow ix.nodes.size
      stages
      taxonomy := none
      realization := none } := by
  have hagree := h.agree hnames hrules
  have hnot {stage : Stage} (hdepth : 0 < stage.depth) : stages.isDone stage ≠ true := fun e => by
    obtain ⟨rfl, -⟩ := hdone stage e
    exact absurd hdepth (by decide)
  have hflight : r.progress.deletionsSeeded = false ∧ r.progress.additionsSeeded = false := by
    simp only [Progress.inFlight, Bool.or_eq_false_iff] at hidle
    exact hidle.1
  obtain ⟨hprogress, hderiving⟩ : r.progress = .none ∧ Deriving r.calculus r.workspace := by
    cases h.phase with
    | idle hprogress hderiving => exact ⟨hprogress, hderiving⟩
    | retracting _ hseeded => rw [hflight.1] at hseeded; cases hseeded
    | renewing hrenewed => rw [hflight.2] at hrenewed; cases hrenewed
  refine ⟨h.engine, hix, htaken, .inl ?_, h.orderly.grow _, hstages, ⟨?_, fun _ => hprogress, fun e => ?_⟩, ?_, fun e => ?_,
    fun e => ?_, fun e => ?_, fun e => ?_⟩
  · show (r.workspace.grow ix.nodes.size).contexts.size = ix.nodes.size
    rw [Workspace.size_grow, Nat.max_eq_right (Nat.le_trans h.size_le hnames.size_le)]
  · by_cases hrole : stages.isDone .roleHierarchy = true
    · exact .inl ((h.fits (hdone _ hrole).2.1).of_rulesOf htold hrules)
    · exact h.hierarchical.fits.imp (fun hf => hf.of_rulesOf htold hrules) fun hunused =>
        ⟨Bool.eq_false_iff.2 hrole, fun K => (hunused.2 K).grow _⟩
  · exact fun hg => (hdone _ e).2.2 ▸ hix.role_lt_of_mem_added hg
  · exact .idle hprogress ((hderiving.agree hagree).grow _)
      (fun e => absurd e (hnot (by decide)))
      fun e => absurd e (hnot (by decide))
  all_goals exact absurd e (hnot (by decide))

/-- An edit that revises the index keeps the invariant, since what it concerns is not done any more. -/
theorem revised (h : r.Sound) {ix : Index} (hix : ix.Accounts) (hrevises : r.index.Revises ix) :
    ({ r with index := ix }.sync.axiomsChanged).Sound := by
  have haccounts : ix.takeRolesChanged.2.Accounts := hix.takeRolesChanged
  have hnames : r.index.Names ix.takeRolesChanged.2 := ⟨hrevises.names.shape?, hrevises.names.role?⟩
  rw [axiomsChanged_eq]
  split <;> rename_i hreset
  · refine h.reset haccounts hnames rfl ?_ fun stage hdone => ?_
    · split
      · exact .invalidate_roleHierarchy
      · exact .invalidate_deletion
    · split at hdone <;> rename_i hflag
      · rw [StageStatus.isDone_invalidate_roleHierarchy] at hdone
        cases hdone
      · obtain ⟨hdone, rfl⟩ := StageStatus.isDone_invalidate_deletion.1 hdone
        obtain ⟨hrole, hsize⟩ := isDone_stagesOver hdone
        have htold : r.index.ToldAlike ix := hrevises.told.resolve_left hflag
        refine ⟨rfl, haccounts.fits_of_size_eq (h.fits hrole) ⟨htold.inclusions, htold.compositions⟩ hsize, hsize⟩
  · simp only [Bool.or_eq_true, not_or, Bool.not_eq_true] at hreset
    obtain ⟨⟨⟨-, -⟩, hflag⟩, hidle⟩ := hreset
    have htold : r.index.ToldAlike ix := hrevises.told.resolve_left (by rw [hflag]; exact Bool.false_ne_true)
    refine h.left_to_maintenance haccounts hnames hrevises.rulesOf_eq ⟨htold.inclusions, htold.compositions⟩ rfl hidle
      .invalidate_deletion fun stage hdone => ?_
    obtain ⟨hdone, rfl⟩ := StageStatus.isDone_invalidate_deletion.1 hdone
    exact ⟨rfl, isDone_stagesOver hdone⟩

/-- An edit of the axioms keeps the invariant, whether it succeeds or fails. -/
theorem edited (h : r.Sound) {edit : Except IndexError Bool × Index} (hix : edit.2.Accounts) (hedit : r.index.Edits edit) :
    (r.edited edit).2.Sound := by
  cases hedit with
  | failed hkept => exact h.kept hix hkept
  | counted hkept => exact h.kept hix hkept
  | revised hrevises => exact h.revised hix hrevises

theorem add (h : r.Sound) (a : Axiom) : (r.add a).2.Sound :=
  h.edited (h.accounts.assert a).1 (h.accounts.edits_assert a)

theorem remove (h : r.Sound) (a : Axiom) : (r.remove a).2.Sound :=
  h.edited (h.accounts.retract a).1 (h.accounts.edits_retract a)

/-- A new reasoner is sound. -/
theorem new {config : Config} (hr : Reasoner.new config = .ok r) : r.Sound := by
  obtain rfl := eq_of_new hr
  have hnone (root : ExprId) : ¬ Workspace.empty.Has root := Workspace.not_has_of_size_eq_zero rfl root
  have hderiving (K : Calculus) : Deriving K Workspace.empty := .of_no_contexts hnone
  refine ⟨Engine.lawful_single, Index.accounts_empty, Index.rolesChanged_empty, .inr rfl, .of_no_contexts hnone rfl, .nothingDone,
    ⟨.inr ⟨rfl, hderiving⟩, fun _ => rfl, fun e => by cases e⟩, .idle rfl (hderiving _) (fun e => by cases e)
    (fun e => by cases e), ?_, ?_, ?_, ?_⟩
  all_goals exact fun e => by cases e

end Sound

end Reasoner

end ELOntology
