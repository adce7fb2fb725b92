import ELOntology.Proofs.Reasoner.Stages
import ELOntology.Proofs.Taxonomy.Collapse

/-!
# The pipeline

The stages before and after maintenance keep the invariant as well: the role hierarchy is built where nothing is in flight,
saturation submits all roots and runs to its end, and what is concluded from the contexts is computed from a saturated
workspace.  So every stage does (`Sound.runStage`), and completing a stage leads from a sound reasoner to a sound one
(`Sound.complete`).

Completing a stage fails only when an interruption is asked for; the audit of a taxonomy never does.
-/

namespace ELOntology

namespace Reasoner

open Request

variable {r r' : Reasoner} {stage : Stage}

/-! ### The role hierarchy -/

/-- A new hierarchy gives the same calculus to what has been derived, since no rule of the old one was out of date. -/
theorem Sound.runRoleHierarchy (h : r.Sound) (hnot : r.stages.isDone .roleHierarchy = false) :
    Finished .roleHierarchy r { r with roles := .build r.index } := by
  have hundone {stage : Stage} (hdone : r.stages.isDone stage = true) : stage = .roleHierarchy := by
    by_contra hne
    have hdepth : Stage.roleHierarchy.depth < stage.depth := by cases stage <;> first | decide | exact absurd rfl hne
    exact h.closed.ne_done_of_depth_lt hnot hdepth hdone
  have hmarked {stage : Stage} (hdone : (r.stages.markDone .roleHierarchy).isDone stage = true) : stage = .roleHierarchy :=
    (StageStatus.isDone_markDone.1 hdone).elim id hundone
  have hprogress := h.hierarchical.idle hnot
  have hderiving : Deriving (RuleBase.calculus ⟨r.index, .build r.index⟩) r.workspace := by
    rcases h.hierarchical.fits with hfits | ⟨-, hunused⟩
    · have hcurrent : Deriving r.calculus r.workspace := by
        cases h.phase with
        | idle _ hderiving => exact hderiving
        | retracting _ hseeded => rw [hprogress] at hseeded; cases hseeded
        | renewing hrenewed => rw [hprogress] at hrenewed; cases hrenewed
      exact hcurrent.agree (h.accounts.agree_of_fits hfits _).symm
    · exact hunused _
  refine ⟨rfl, .of_index rfl rfl id id, ?_⟩
  refine ⟨h.engine, h.accounts, h.taken, h.sized, h.orderly, h.closed.markDone fun _ hneeded => absurd hneeded List.not_mem_nil,
    ⟨.inl h.accounts.fits_build, fun e => ?_, fun _ {_ _ _} hg => ?_⟩, .idle hprogress hderiving ?_ ?_, ?_, ?_, ?_, ?_⟩
  · have hdone : (r.stages.markDone .roleHierarchy).isDone .roleHierarchy = true := StageStatus.isDone_markDone.2 (.inl rfl)
    exact absurd (hdone.symm.trans e) nofun
  · exact RoleHierarchy.size_build r.index ▸ h.accounts.role_lt_of_mem_added hg
  all_goals
    intro e
    cases hmarked e

/-! ### Saturation -/

/-- All roots get a context, and the run leaves the workspace at rest, or is interrupted. -/
theorem Sound.runSaturation (h : r.Sound) (hnot : r.stages.isDone .saturation = false)
    (haddition : r.stages.isDone .addition = true) :
    Outcome (fun _ r' => Finished .saturation r r' ∧ r'.workspace.Rested) r.Interrupted (Request.runSaturation r) := by
  have hsync : r.sync.Sound := h.kept h.accounts (.refl _)
  have hhierarchy : r.stages.isDone .roleHierarchy = true := h.closed.of_depth_lt haddition (by decide)
  have hsize : r.sync.workspace.contexts.size = r.index.nodes.size := by
    show (r.workspace.grow r.index.nodes.size).contexts.size = _
    rw [Workspace.size_grow, Nat.max_eq_right h.size_le]
  obtain ⟨hprogress, hderiving, hpending⟩ := hsync.idle_of_addition haddition
  have hserves : r.Serves r.sync := .of_index rfl rfl id id
  unfold Request.runSaturation
  refine outcome_change (outcome_get (((hsync.maintained hhierarchy hnot).outcome_derive hderiving .saturation _
    fun w hw => .idle hprogress hw (fun _ => haddition) fun _ => hpending).imp (fun _ q hq => ?_)
      fun _ _ hstopped => .of_serves hserves hstopped))
  obtain ⟨hmaintained, hderiving, hrested, hstages, hprogress', hindex, hserves', hhas⟩ := hq
  -- the roots were submitted, so each has a context by now, which holds the root
  have hroots : q.index.roots = r.index.roots := congrArg Index.roots hindex
  have hsettled : q.Settled := by
    refine ⟨hderiving.saturated hrested.quiet,
      fun {root} hroot => (hderiving.stores_self hrested.quiet (hhas root ?_ ?_)).1⟩
    · rwa [hroots] at hroot
    · rw [hsize]
      exact Index.lt_size_of_mem_roots (hroots ▸ hroot)
  have hkept {stage : Stage} (hdone : r.stages.isDone stage = true) : (q.finish .saturation).stages.isDone stage = true :=
    StageStatus.isDone_markDone.2 (.inr (hstages ▸ hdone))
  have hundone {stage : Stage} (hdepth : 4 < stage.depth) : (q.finish .saturation).stages.isDone stage ≠ true := by
    intro hdone
    rcases StageStatus.isDone_markDone.1 hdone with rfl | hdone
    · exact absurd hdepth (by decide)
    · exact h.closed.ne_done_of_depth_lt hnot hdepth (hstages ▸ hdone)
  refine ⟨⟨hstages, hserves.trans hserves', ?_⟩, hrested⟩
  refine ⟨hmaintained.engine, hmaintained.accounts, hmaintained.taken, hmaintained.sized, hmaintained.orderly,
    hmaintained.closed.markDone fun needed hneeded => ?_,
    ⟨.inl hmaintained.fits, fun e => absurd ((hkept hhierarchy).symm.trans e) nofun, fun _ {_ _ _} => hmaintained.pending⟩,
    .idle (hprogress'.trans hprogress) hderiving (fun _ => hkept haddition)
      fun _ => (congrArg Index.pending hindex).trans hpending,
    fun _ => ⟨hsettled.saturated, hsettled.rooted⟩, fun e => absurd e (hundone (by decide)),
    fun e => absurd e (hundone (by decide)), fun e => absurd e (hundone (by decide))⟩
  cases List.mem_singleton.1 hneeded
  exact hstages ▸ haddition

/-! ### What is concluded from the contexts -/

/-- A stage after saturation only computes results.  It keeps the invariant if the results are right that are now done. -/
private theorem Sound.concluded (h : r.Sound) (hdepth : 4 < stage.depth)
    (hneeded : ∀ needed ∈ stage.dependencies, r.stages.isDone needed = true) {inconsistent : Bool}
    {taxonomy : Option Taxonomy} {realization : Option Realization}
    (hconsistency : stage = .consistency ∨ r.stages.isDone .consistency = true → inconsistent = isContradictory r)
    (htaxonomy : stage = .classTaxonomy ∨ r.stages.isDone .classTaxonomy = true →
      taxonomy = some (.build r.index r.workspace inconsistent))
    (hrealization : stage = .instanceTaxonomy ∨ r.stages.isDone .instanceTaxonomy = true → ∀ t, taxonomy = some t →
      realization = some (.build r.index r.workspace t inconsistent)) :
    Finished stage r { r with inconsistent, taxonomy, realization } := by
  have hsaturation : r.stages.isDone .saturation = true := h.closed.of_needed hneeded hdepth
  have hbefore {other : Stage} (hlt : other.depth < 4) : r.stages.isDone other = true := h.closed.of_depth_lt hsaturation hlt
  have hkept {other : Stage} (hdone : r.stages.isDone other = true) : (r.stages.markDone stage).isDone other = true :=
    StageStatus.isDone_markDone.2 (.inr hdone)
  have hmarked {other : Stage} (hdone : (r.stages.markDone stage).isDone other = true) :
      stage = other ∨ r.stages.isDone other = true := (StageStatus.isDone_markDone.1 hdone).imp_left Eq.symm
  obtain ⟨hprogress, hderiving, hpending⟩ := h.idle_of_addition (hbefore (by decide))
  refine ⟨rfl, .of_index rfl rfl id id, ?_⟩
  refine ⟨h.engine, h.accounts, h.taken, h.sized, h.orderly, h.closed.markDone hneeded,
    ⟨.inl (h.fits (hbefore (by decide))), fun _ => hprogress, fun _ {_ _ _} => h.hierarchical.pending (hbefore (by decide))⟩,
    .idle hprogress hderiving (fun _ => hkept (hbefore (by decide))) (fun _ => hpending),
    fun _ => ⟨(h.settled hsaturation).saturated, (h.settled hsaturation).rooted⟩,
    fun hdone => hconsistency (hmarked hdone), fun hdone => htaxonomy (hmarked hdone),
    fun hdone => hrealization (hmarked hdone)⟩

/-- The contexts of all classes agree with each other once they are saturated. -/
theorem Sound.answers (h : r.Sound) (hsaturation : r.stages.isDone .saturation = true) : Answers r.index r.workspace := by
  have hregular : r.calculus.Regular :=
    h.accounts.regular_of_fits (h.fits (h.closed.of_depth_lt hsaturation (by decide)))
  obtain ⟨hsaturated, hrooted⟩ := h.settled hsaturation
  exact answers_of_saturated h.accounts.tidy hregular hsaturated fun hid => hrooted (List.mem_append_left _ hid)

/-- The taxonomy that has been built passes the audit. -/
theorem Sound.audit (h : r.Sound) (htaxonomy : r.stages.isDone .classTaxonomy = true) {t : Taxonomy}
    (ht : r.taxonomy = some t) : t.audit r.index = .ok () := by
  obtain rfl : .build r.index r.workspace r.inconsistent = t :=
    Option.some.inj ((h.taxonomy htaxonomy).symm.trans ht)
  refine Taxonomy.audit_build h.accounts.tidy (h.answers (h.closed.of_depth_lt htaxonomy (by decide))) fun hconsistent => ?_
  have hcontradictory : isContradictory r = false :=
    (h.consistency (h.closed.of_depth_lt htaxonomy (by decide))).symm.trans hconsistent
  exact (Bool.or_eq_false_iff.1 hcontradictory).1

/-! ### All stages -/

/-- Every stage, run where what it needs is done, keeps the invariant and gets done, or is interrupted.  Saturation leaves
the workspace at rest, and the stages after it leave the contexts as they are. -/
theorem Sound.runStage (h : r.Sound) (stage : Stage) (hnot : r.stages.isDone stage = false)
    (hneeded : ∀ needed ∈ stage.dependencies, r.stages.isDone needed = true) :
    Outcome (fun _ r' => Finished stage r r' ∧ (stage = .saturation → r'.workspace.Rested) ∧
      (4 < stage.depth → r'.workspace = r.workspace)) r.Interrupted (Request.runStage stage r) := by
  have hneed {needed : Stage} (hmem : needed ∈ stage.dependencies) : r.stages.isDone needed = true := hneeded needed hmem
  have hundone {other : Stage} (hdepth : stage.depth < other.depth) : r.stages.isDone other ≠ true :=
    h.closed.ne_done_of_depth_lt hnot hdepth
  cases stage with
  | roleHierarchy => exact .ok ⟨h.runRoleHierarchy hnot, nofun, fun hdepth => absurd hdepth (by decide)⟩
  | deletion =>
    exact (h.runDeletion hnot (hneed (by decide))).imp
      (fun _ r' hr => ⟨hr, nofun, fun hdepth => absurd hdepth (by decide)⟩) fun _ _ hstopped => hstopped
  | cleaning =>
    exact (h.runCleaning hnot (hneed (by decide))).imp
      (fun _ r' hr => ⟨hr.1, nofun, fun hdepth => absurd hdepth (by decide)⟩) fun _ _ hstopped => hstopped
  | addition =>
    exact (h.runAddition hnot (hneed (by decide))).imp
      (fun _ r' hr => ⟨hr, nofun, fun hdepth => absurd hdepth (by decide)⟩) fun _ _ hstopped => hstopped
  | saturation =>
    exact (h.runSaturation hnot (hneed (by decide))).imp
      (fun _ r' hr => ⟨hr.1, fun _ => hr.2, fun hdepth => absurd hdepth (by decide)⟩) fun _ _ hstopped => hstopped
  | consistency =>
    refine .ok ⟨h.concluded (by decide) hneeded (fun _ => rfl) ?_ ?_, nofun, fun _ => rfl⟩
    · exact fun hdone => absurd (hdone.resolve_left nofun) (hundone (by decide))
    · exact fun hdone => absurd (hdone.resolve_left nofun) (hundone (by decide))
  | classTaxonomy =>
    refine .ok ⟨h.concluded (by decide) hneeded (fun _ => h.consistency (hneed (by decide))) (fun _ => rfl) ?_, nofun,
      fun _ => rfl⟩
    exact fun hdone => absurd (hdone.resolve_left nofun) (hundone (by decide))
  | instanceTaxonomy =>
    have htaxonomy : r.stages.isDone .classTaxonomy = true := hneed (by decide)
    have hbuilt := h.taxonomy htaxonomy
    have hrun : Request.runStage .instanceTaxonomy r = (.ok (), { r with
        realization := some (.build r.index r.workspace (.build r.index r.workspace r.inconsistent) r.inconsistent) }) := by
      show (Except.ok (), (withRealization { r with realization := none }).2) = _
      unfold withRealization withTaxonomy
      simp only [hbuilt]
    rw [hrun]
    refine .ok ⟨h.concluded (by decide) hneeded (fun _ => h.consistency (h.closed.of_depth_lt htaxonomy (by decide)))
      (fun _ => hbuilt) (fun _ t ht => ?_), nofun, fun _ => rfl⟩
    rw [hbuilt] at ht
    cases ht
    rfl
  | validation =>
    have htaxonomy : r.stages.isDone .classTaxonomy = true := hneed (by decide)
    have hbuilt := h.taxonomy htaxonomy
    have haudit := h.audit htaxonomy hbuilt
    unfold Request.runStage
    refine outcome_get ?_
    simp only [hbuilt, haudit]
    exact .ok ⟨h.concluded (by decide) hneeded (fun _ => h.consistency (h.closed.of_depth_lt htaxonomy (by decide)))
      (fun _ => h.taxonomy htaxonomy) (fun hdone => h.realization (hdone.resolve_left nofun)), nofun, fun _ => rfl⟩

/-! ### Completing a stage -/

/-- How a request leaves the reasoner: what it serves is kept, and the contexts have either been left alone or are at rest
by now. -/
structure Served (r r' : Reasoner) : Prop where
  sound : r'.Sound
  serves : r.Serves r'
  advances : runner.Advances Stage.all.length r r'
  settles : r'.stages.isDone .saturation = true →
    r.stages.isDone .saturation = true ∧ r'.workspace = r.workspace ∨ r'.workspace.Rested

namespace Served

theorem refl (h : r.Sound) : r.Served r := ⟨h, .refl r, .refl _ _ r, fun hdone => .inl ⟨hdone, rfl⟩⟩

theorem trans {r'' : Reasoner} (h : r.Served r') (h' : r'.Served r'') : r.Served r'' where
  sound := h'.sound
  serves := h.serves.trans h'.serves
  advances := h.advances.trans h'.advances
  settles hdone := by
    rcases h'.settles hdone with ⟨hdone', hsame⟩ | hrested
    · rw [hsame]
      exact h.settles hdone'
    · exact .inr hrested

/-- Once the contexts are saturated, nothing waits in them, unless it did before. -/
theorem rested (h : r.Served r') (hdone : r'.stages.isDone .saturation = true) :
    r.stages.isDone .saturation = true ∧ r'.workspace = r.workspace ∨ r'.workspace.Quiet :=
  (h.settles hdone).imp_right (·.quiet)

/-- One more stage has been run. -/
theorem finish (h : r.Served r') {r'' : Reasoner} (hnot : r'.stages.isDone stage = false) (hfinished : Finished stage r' r'')
    (hrested : stage = .saturation → r''.workspace.Rested) (hsame : 4 < stage.depth → r''.workspace = r'.workspace) :
    r.Served (r''.finish stage) where
  sound := hfinished.sound
  serves := h.serves.trans (hfinished.serves.trans (.of_index rfl rfl (fun hdone => StageStatus.isDone_markDone.2 (.inr hdone)) id))
  advances := by
    refine h.advances.trans ⟨fun hdone => ?_, fun _ => .inr ?_⟩
    · exact StageStatus.isDone_markDone.2 (.inr (hfinished.stages ▸ hdone))
    · exact Nat.le_of_lt (Stage.depth_lt_length_all _)
  settles hdone := by
    rcases Nat.lt_trichotomy stage.depth 4 with hdepth | hdepth | hdepth
    · rcases StageStatus.isDone_markDone.1 hdone with rfl | hdone
      · exact absurd hdepth (by decide)
      · -- what is saturated rests on all earlier stages
        have hsaturation : r'.stages.isDone .saturation = true := hfinished.stages ▸ hdone
        exact absurd hsaturation (h.sound.closed.ne_done_of_depth_lt hnot hdepth)
    · exact .inr (hrested (Stage.eq_of_depth_eq hdepth (by omega)))
    · rcases StageStatus.isDone_markDone.1 hdone with rfl | hdone
      · exact absurd hdepth (by decide)
      · show _ ∧ r''.workspace = _ ∨ r''.workspace.Rested
        rw [hsame hdepth]
        exact h.settles (hfinished.stages ▸ hdone)

end Served

/-- An interruption is used up when it is reported. -/
theorem Interrupted.clear {e : ReasonerError} (h : r.Interrupted e r') : r.Interrupted e r'.clearInterrupt :=
  ⟨h.error, h.unsaturated, h.not_calm, h.serves.trans (.of_index rfl rfl id fun hcalm =>
    ⟨congrArg Interrupt.lower hcalm.interrupt, hcalm.watches, hcalm.observer⟩),
    h.sound.onMonitor _⟩

/-- Completing a stage keeps the invariant and gets the stage done, or is interrupted. -/
theorem Sound.complete (h : r.Sound) (stage : Stage) :
    Outcome (fun _ r' => r.Served r' ∧ r'.stages.isDone stage = true) r.Interrupted (Request.complete stage r) := by
  have hcomplete := runner.complete_spec (I := r.Served) (E := r.Interrupted) (fun _ _ => rfl)
    (fun stage s hs hnot hneeded => ?_) stage r (.refl h)
  · unfold Request.complete
    generalize runner.complete stage r = result at hcomplete
    cases hcomplete with
    | ok hdone => exact .ok ⟨hdone.1, hdone.2.1⟩
    | error hstopped =>
      dsimp only
      rw [if_pos hstopped.error]
      exact .error hstopped.clear
  · refine (hs.sound.runStage stage hnot hneeded).imp (fun _ s' hs' => ?_) fun _ _ hstopped => .of_serves hs.serves hstopped
    obtain ⟨hfinished, hrested, hsame⟩ := hs'
    refine ⟨hfinished.stages, ?_⟩
    have hserved := hs.finish hnot hfinished hrested hsame
    rwa [Reasoner.finish, hfinished.stages] at hserved

end Reasoner

end ELOntology
