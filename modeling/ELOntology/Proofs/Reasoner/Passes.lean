import ELOntology.Proofs.Reasoner.History
import ELOntology.Proofs.Reasoner.Interruption
import ELOntology.Proofs.Saturation.Ending

/-!
# Saturation and cleaning end

Cleaning repeats a pass, which is a retraction and the cleaning of the contexts that have lost something by it, until a
pass finds no context that was not cleaned before.  Every pass before the last one cleans a context for the first time, and
a retraction creates none, so the contexts bound the passes, in whatever order each of them is run.

Key fact: `saturation_ends`, for a reasoner in any state.
-/

namespace ELOntology

/-- Only contexts have joined the queue of modified contexts, and there are no new ones. -/
private def OnlyContextsJoin (w w' : Workspace) : Prop :=
  (∀ root, w'.Has root → w.Has root) ∧ ∀ root, root ∈ w'.modified.toList → root ∈ w.modified.toList ∨ w.Has root

private theorem OnlyContextsJoin.process {rb : RuleBase} {w w₁ w₀ : Workspace} {root : ExprId} {c : Conclusion}
    (h : OnlyContextsJoin w w₁) (hpop : Popped w₁ root c w₀) (hmodified : w₀.modified = w₁.modified) :
    OnlyContextsJoin w (rb.process .retract root c w₀).2 := by
  by_cases hstored : w₀.Stores root c
  · have hmodified' := Workspace.toList_modified_process_retract rb hstored
    obtain ⟨ctx, hctx, hc⟩ := hstored
    have hup := RuleBase.givenUp_process rb hctx hc
    refine ⟨fun other hother => h.1 other ((hpop.has other).1 ((hup.has other).1 hother)), fun other hother => ?_⟩
    rw [hmodified', hmodified] at hother
    split at hother
    · exact h.2 other hother
    · rcases List.mem_append.1 hother with hother | hother
      · exact h.2 other hother
      · rw [List.mem_singleton.1 hother]
        exact .inr (h.1 root hpop.waits.has)
  · rw [RuleBase.process_retract_of_not_stores hstored]
    exact ⟨fun other hother => h.1 other ((hpop.has other).1 hother), fun other hother => h.2 other (hmodified ▸ hother)⟩

private theorem RetractsTo.onlyContextsJoin {rb : RuleBase} {w w' : Workspace} (h : RetractsTo rb w w') :
    OnlyContextsJoin w w' := by
  replace h := h.steps
  induction h with
  | refl => exact ⟨fun _ => id, fun _ => .inl⟩
  | tail _ hstep ih =>
    cases hstep with
    | process hctx htodo hrest => exact ih.process (.put hctx htodo hrest) rfl
    | schedule hsame _ => exact ⟨fun other hhas => ih.1 other (hsame.has_iff.1 hhas), by rw [hsame.modified]; exact ih.2⟩

namespace Reasoner

open Request

/-- One pass of cleaning, with a retraction in any order.  The answer says whether it has found a context to clean. -/
inductive Pass (r : Reasoner) : Bool → Reasoner → Prop
  | clean {w : Workspace} (h : RetractsTo r.ruleBase r.workspace w) (statistics : Statistics) :
      Pass r (cleanModified { r with workspace := w, statistics }).1 (cleanModified { r with workspace := w, statistics }).2

/-- The given number of passes, each of which finds a context to clean. -/
inductive Passes : Nat → Reasoner → Reasoner → Prop
  | none (r : Reasoner) : Passes 0 r r
  | more {n : Nat} {r r₁ r₂ : Reasoner} (hpass : Pass r true r₁) (h : Passes n r₁ r₂) : Passes (n + 1) r r₂

variable {r r' : Reasoner} {known : List ExprId}

/-- All contexts are known, and all that are marked as modified. -/
def Known (known : List ExprId) (r : Reasoner) : Prop :=
  ∀ root, root ∈ r.workspace.modified.toList ∨ r.workspace.Has root → root ∈ known

/-- The contexts that have not been cleaned. -/
def uncleaned (known : List ExprId) (r : Reasoner) : List ExprId := known.filter (· ∉ r.progress.cleaned)

private theorem uncleaned_clean_lt (hknown : ∀ root ∈ r.workspace.modified.toList, root ∈ known)
    (hmore : (cleanModified r).1 = true) :
    (uncleaned known (cleanModified r).2).length < (uncleaned known r).length := by
  obtain ⟨root, hroot⟩ := Retracts.exists_fresh hmore
  obtain ⟨hmodified, hnew⟩ := List.mem_filter.1 hroot
  have hfilter : uncleaned known (cleanModified r).2 = (uncleaned known r).filter (· ∉ Retracts.fresh r) := by
    rw [Retracts.cleanModified_eq, uncleaned, uncleaned, List.filter_filter]
    refine List.filter_congr fun other _ => ?_
    simp [List.mem_append, not_or, Bool.and_comm]
  rw [hfilter, List.length_filter_lt_length_iff_exists]
  exact ⟨root, List.mem_filter.2 ⟨hknown root hmodified, hnew⟩, by simpa using hroot⟩

/-- A pass that finds a context to clean leaves fewer contexts that have not been cleaned. -/
theorem Pass.uncleaned_lt (h : Pass r true r') (hknown : Known known r) :
    Known known r' ∧ (uncleaned known r').length < (uncleaned known r).length := by
  generalize hmore : true = more at h
  cases h with
  | @clean w hw statistics =>
    refine ⟨fun root hroot => hknown root ?_, ?_⟩
    · rw [Retracts.cleanModified_eq, Workspace.modified_seedCleaning, Workspace.has_seedCleaning,
        Workspace.has_takeModified] at hroot
      exact .inr (hw.onlyContextsJoin.1 root (hroot.resolve_left List.not_mem_nil))
    · exact uncleaned_clean_lt (fun root hroot => hknown root (hw.onlyContextsJoin.2 root hroot)) hmore.symm

theorem Passes.uncleaned_le {n : Nat} (h : Passes n r r') (hknown : Known known r) :
    n + (uncleaned known r').length ≤ (uncleaned known r).length := by
  induction h with
  | none => exact Nat.le_of_eq (Nat.zero_add _)
  | more hpass _ ih =>
    obtain ⟨hknown', hlt⟩ := hpass.uncleaned_lt hknown
    have hle := ih hknown'
    omega

/-- There is always a next pass, since every retraction can be completed. -/
theorem Pass.exists (r : Reasoner) : ∃ more r', Pass r more r' := by
  obtain ⟨w, hw⟩ := exists_retractsTo r.ruleBase r.workspace
  exact ⟨_, _, .clean hw r.statistics⟩

/-- The passes that find a context to clean are no more than what is known. -/
theorem Passes.le_length {n : Nat} (h : Passes n r r') (hknown : Known known r) : n ≤ known.length := by
  have hle := h.uncleaned_le hknown
  have hfilter : (uncleaned known r).length ≤ known.length := List.length_filter_le _ _
  omega

private theorem length_roots_le (w : Workspace) : w.roots.length ≤ w.contexts.size := by
  refine Nat.le_trans (List.length_filter_le _ _) ?_
  rw [List.length_map, List.length_range]

/-! ### The loop with a bound on its passes -/

private theorem pass_of_cleaningPass {more : Bool} (he : r.engine.Lawful) (hr : r.workspace.Orderly)
    (h : cleaningPass r = (.ok more, r')) : Pass r more r' ∧ r'.engine = r.engine ∧ r'.workspace.Orderly := by
  rw [cleaningPass, bind_apply] at h
  unfold saturate Workspace.submitAll at h
  dsimp only at h
  have hcourse : Course r.config.workers r.ruleBase .retract r.workspace (r.runRules .retract r.workspace) := he _ _ _ _
  rcases hrun : r.runRules .retract r.workspace with ⟨_ | statistics, w⟩ <;> rw [hrun] at h hcourse
  · cases h
  · have horderly : w.Orderly := hr.course hcourse
    cases h
    exact ⟨.clean (.of_course hcourse hr.scheduled rfl) _, rfl, horderly.takeModified.seedCleaning _⟩

private theorem exists_passes {passes : Nat} (he : r.engine.Lawful) (hr : r.workspace.Orderly) (hknown : Known known r)
    (henough : (uncleaned known r).length < passes) (h : cleaningPasses passes r = (.ok (), r')) :
    ∃ n r₁, Passes n r r₁ ∧ Pass r₁ false r' := by
  induction passes generalizing r with
  | zero => exact absurd henough (Nat.not_lt_zero _)
  | succ passes ih =>
    rw [congrFun (cleaningPasses_succ passes) r, bind_apply] at h
    rcases hresult : cleaningPass r with ⟨_ | more, r₁⟩ <;> rw [hresult] at h
    · cases h
    · obtain ⟨hpass, hengine, hr₁⟩ := pass_of_cleaningPass he hr hresult
      cases more with
      | false =>
        cases h
        exact ⟨0, r, .none r, hpass⟩
      | true =>
        obtain ⟨hknown₁, hlt⟩ := hpass.uncleaned_lt hknown
        obtain ⟨n, r₂, hpasses, hlast⟩ := ih (hengine ▸ he) hr₁ hknown₁ (by omega) h
        exact ⟨n + 1, r₂, .more hpass hpasses, hlast⟩

/-- Saturation and cleaning end.  Take a reasoner in any state, with any index, hierarchy, contexts and queues.  In either
mode and in any order, a run processes no more conclusions than the bound computed at its start, and can go on until
nothing is left to do.  The run in turns is a course, and every course of any number of workers, when it is not
interrupted, leaves nothing to do.  Passes of cleaning that find a context to clean are no more than there are contexts and
marks, and there is always a next pass; so the loop ends, and where the queues are in order, the bound on its passes is not
what ends it, whatever lawful engine carries them out. -/
theorem saturation_ends (r : Reasoner) :
    (∀ mode n w, Counted r.ruleBase mode r.workspace n w → n ≤ r.ruleBase.workBound r.workspace ∧
      (w.Quiet ∨ ∃ w', Processes r.ruleBase mode w w')) ∧
    (∀ workers mode, Course workers r.ruleBase mode r.workspace (r.ruleBase.run mode r.workspace) ∧
      ∀ result, Course workers r.ruleBase mode r.workspace result → Scheduled [] r.workspace → result.1.isSome = true →
        ∃ n, Counted r.ruleBase mode r.workspace n result.2 ∧ result.2.Quiet) ∧
    (∀ n r', Passes n r r' → n ≤ r.workspace.modified.toList.length + r.workspace.contexts.size ∧
      ∃ more r'', Pass r' more r'') ∧
    ∀ r', r.engine.Lawful → r.workspace.Orderly → runCleaning r = (.ok (), r') →
      ∃ n r₁, n ≤ r.workspace.contexts.size ∧ Passes n r r₁ ∧ Pass r₁ false r' := by
  refine ⟨fun mode n w h => ⟨h.le_workBound, ?_⟩, fun workers mode => ⟨RuleBase.course_run .., fun result hcourse hs hsome => ?_⟩,
    fun n r' h => ⟨?_, Pass.exists r'⟩, fun r' he hr h => ?_⟩
  · by_cases hquiet : w.Quiet
    · exact .inl hquiet
    · exact .inr (Processes.exists_of_not_quiet hquiet)
  · obtain ⟨n, h⟩ := Counted.iff_steps.1 hcourse.steps
    exact ⟨n, h, hcourse.quiet hs hsome⟩
  · have hknown : Known (r.workspace.modified.toList ++ r.workspace.roots) r := fun root hroot =>
      List.mem_append.2 (hroot.imp_right Workspace.mem_roots.2)
    have hle := h.le_length hknown
    have hroots := length_roots_le r.workspace
    rw [List.length_append] at hle
    omega
  · have hknown : Known r.workspace.roots r := fun root hroot =>
      Workspace.mem_roots.2 (hroot.elim hr.marked.has id)
    have hroots := length_roots_le r.workspace
    have hfilter : (uncleaned r.workspace.roots r).length ≤ r.workspace.roots.length := List.length_filter_le _ _
    have henough : (uncleaned r.workspace.roots r).length < r.workspace.contexts.size + 1 := by omega
    obtain ⟨n, r₁, hpasses, hlast⟩ := exists_passes he hr hknown henough h
    exact ⟨n, r₁, Nat.le_trans (hpasses.le_length hknown) hroots, hpasses, hlast⟩

/-- Two classes are linked to each other by a transitive role, and one of the axioms that link them is removed.  Maintenance,
interrupted before it has cleaned anything and taken up again, cleans the contexts of both. -/
theorem saturation_ends_cyclic : ∃ r₀ r', Reasoner.new (.standard 1) = .ok r₀ ∧
    let r := r₀.after [.add (.subClassOf (.named "A") (.someValues "r" (.named "B"))),
      .add (.subClassOf (.named "B") (.someValues "r" (.named "A"))), .add (.transitiveRole "r"),
      .add (.subClassOf (.someValues "r" (.named "A")) (.named "D")), .ask .classify,
      .remove (.subClassOf (.named "B") (.someValues "r" (.named "A"))),
      .monitor fun m => { m with interrupt := ⟨false, some 8⟩ }, .ask .classify]
    r.stages.isDone .deletion = true ∧ r.progress.cleaned = [] ∧ r.workspace.contexts.size = 7 ∧
    runCleaning r = (.ok (), r') ∧ r'.progress.cleaned = [⟨3⟩, ⟨2⟩] ∧ ∃ n r₁, n ≤ 7 ∧ Passes n r r₁ ∧ Pass r₁ false r' := by
  obtain ⟨r₀, hr⟩ : ∃ r₀, Reasoner.new (.standard 1) = .ok r₀ := ⟨_, rfl⟩
  generalize hcalls : [Call.add (.subClassOf (.named "A") (.someValues "r" (.named "B"))),
    .add (.subClassOf (.named "B") (.someValues "r" (.named "A"))), .add (.transitiveRole "r"),
    .add (.subClassOf (.someValues "r" (.named "A")) (.named "D")), .ask .classify,
    .remove (.subClassOf (.named "B") (.someValues "r" (.named "A"))),
    .monitor fun m => { m with interrupt := ⟨false, some 8⟩ }, .ask .classify] = calls
  have hsound := (undisturbed_after hr calls).sound
  have hstate : (r₀.after calls).stages.isDone .deletion = true ∧ (r₀.after calls).progress.cleaned = [] ∧
      (r₀.after calls).workspace.contexts.size = 7 ∧ (runCleaning (r₀.after calls)).1 = .ok () ∧
      (runCleaning (r₀.after calls)).2.progress.cleaned = [⟨3⟩, ⟨2⟩] := by
    subst hcalls
    cases hr
    decide +kernel
  obtain ⟨hdeleted, hnone, hsize, hran, hcleaned⟩ := hstate
  have hclean : runCleaning (r₀.after calls) = (.ok (), (runCleaning (r₀.after calls)).2) := Prod.ext hran rfl
  obtain ⟨n, r₁, hn, hpasses⟩ := (saturation_ends (r₀.after calls)).2.2.2 _ hsound.engine hsound.orderly hclean
  exact ⟨r₀, _, hr, hdeleted, hnone, hsize, hclean, hcleaned, n, r₁, hsize ▸ hn, hpasses⟩

end Reasoner

end ELOntology
