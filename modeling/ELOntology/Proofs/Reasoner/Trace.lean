import ELOntology.Proofs.Reasoner.Unseen
import ELOntology.Proofs.Saturation.Recording
import ELOntology.Proofs.Saturation.Script

/-!
# The trace of a reasoner

A recorder that is installed before the first query is told about every conclusion that is taken in or given up from then
on, in whatever order the workers move.  Two things happen to a context without a record.  When it starts again, it is empty,
since cleaning has retracted all that it stored, wherever it was interrupted (`Sound.not_stores_cleaned`); and when a reset
drops it, what it stored is lost to the records, so histories are looked at in which a reset finds no contexts (`Spares`).

With a limit the records are those of the inferences numbered below it.  These are the first ones if there is one worker, but
several workers may keep inferences in another order than they number them (`records_fall_short`).

Key fact: `records_determine_facts`.
-/

namespace ELOntology

open Reasoner

namespace Reasoner

variable {workers : Nat} {limit : Option Nat} {r r' : Reasoner}

/-- The engine is lawful, and what a recorder with the given limit has been told tells what is stored. -/
structure Traced (workers : Nat) (limit : Option Nat) (r : Reasoner) : Prop where
  engine : r.engine.Lawful
  config : r.config.workers = workers
  workspace : r.workspace.Traced workers limit

/-- Nothing is recorded, and the same is stored. -/
theorem Traced.keeps (h : r.Traced workers limit) (hconfig : r'.config = r.config) (hengine : r'.engine = r.engine)
    (hkeeps : r.workspace.Keeps r'.workspace) : r'.Traced workers limit where
  engine := hengine ▸ h.engine
  config := hconfig ▸ h.config
  workspace := h.workspace.keeps hkeeps

end Reasoner

/-! ### Stages -/

namespace Request

variable {workers : Nat} {limit : Option Nat} {α β : Type} {m : Request α} {f : α → Request β}

/-- What a request does is traced, whether it is answered or fails. -/
def Traces (workers : Nat) (limit : Option Nat) (m : Request α) : Prop :=
  ∀ r : Reasoner, r.Traced workers limit → (m r).2.Traced workers limit

namespace Traces

theorem bind (hm : Traces workers limit m) (hf : ∀ a, Traces workers limit (f a)) : Traces workers limit (m >>= f) := by
  intro r hr
  have hfirst := hm r hr
  rw [bind_apply]
  rcases hrun : m r with ⟨e | a, r'⟩ <;> rw [hrun] at hfirst
  · exact hfirst
  · exact hf a r' hfirst

theorem saturate (stage : Stage) (mode : Mode) (roots : List ExprId) :
    Traces workers limit (saturate stage mode roots) := by
  intro r ⟨hengine, hworkers, htraced⟩
  have hsubmitted := htraced.keeps (.submitAll r.workspace roots)
  unfold Request.saturate
  rcases hsubmit : r.workspace.submitAll roots with ⟨_ | _, w⟩ <;> rw [hsubmit] at hsubmitted
  · have hcourse : Course r.config.workers r.ruleBase mode w (r.runRules mode w) := hengine _ _ _ _
    have hrun := hsubmitted.course (hworkers ▸ hcourse)
    dsimp only
    rcases hran : r.runRules mode w with ⟨_ | statistics, w'⟩ <;> rw [hran] at hrun <;> exact ⟨hengine, hworkers, hrun⟩
  · exact ⟨hengine, hworkers, hsubmitted⟩

theorem runDeletion : Traces workers limit runDeletion := by
  have hfinish : Traces workers limit finishDerivation := fun r hr => by
    unfold finishDerivation
    split
    · exact saturate _ _ _ r hr
    · exact hr
  rw [runDeletion_eq]
  refine (hfinish.bind fun _ => fun r hr => ?_).bind fun _ => saturate _ _ _
  refine hr.keeps (config_seedDeletion r) (engine_seedDeletion r) ?_
  show r.workspace.Keeps (seedDeletion r).workspace
  unfold seedDeletion
  split
  · exact .refl _
  · exact .seedRemoved _ _ _

theorem cleaningPasses (passes : Nat) : Traces workers limit (cleaningPasses passes) := by
  induction passes with
  | zero => exact fun _ hr => hr
  | succ passes ih =>
    have hclean : Traces workers limit fun r => (.ok (cleanModified r).1, (cleanModified r).2) := fun r hr =>
      hr.keeps rfl rfl ((Workspace.Keeps.takeModified _).trans (.seedCleaning _ _))
    rw [cleaningPasses_succ]
    refine .bind ((saturate _ _ _).bind fun _ => hclean) fun more => ?_
    cases more with
    | true => exact ih
    | false => exact fun _ hr => hr

end Traces

end Request

namespace Reasoner

open Request

variable {workers : Nat} {limit : Option Nat} {r : Reasoner}

/-- When addition is to start, the contexts that have been cleaned are empty. -/
theorem Sound.not_stores_cleaned (h : r.Sound) (hnot : r.stages.isDone .addition = false)
    (hcleaned : r.stages.isDone .cleaning = true) (hseeded : r.progress.additionsSeeded = false) {root : ExprId}
    (hroot : root ∈ r.progress.cleaned) (c : Conclusion) : ¬ r.workspace.Stores root c := by
  cases h.phase with
  | idle _ _ hdone =>
    have haddition := hdone (h.closed.of_depth_lt hcleaned (by decide))
    rw [hnot] at haddition
    cases haddition
  | retracting base _ _ hretracting _ _ _ _ hcleaning =>
    exact (hcleaning hcleaned).1.not_stores_of_doomed (hretracting.emptied hroot)
  | renewing hrenewed =>
    rw [hseeded] at hrenewed
    cases hrenewed

/-- The commit and what follows it is not recorded, and leaves alone what is stored if the cleaned contexts are empty. -/
private theorem keeps_renew (hempty : ∀ root ∈ r.progress.cleaned, ∀ c, ¬ r.workspace.Stores root c) :
    r.workspace.Keeps r.renew.workspace := by
  have hgrown : r.workspace.Keeps (r.workspace.grow r.index.commit.2.nodes.size) := .grow _ _
  have hrestarted : r.workspace.Keeps ((r.workspace.grow r.index.commit.2.nodes.size).restart r.progress.cleaned) :=
    hgrown.trans (.restart fun root hroot c hc => hempty root hroot c ((hgrown.stores root c).1 hc))
  exact hrestarted.trans ((Workspace.Keeps.replay _ _ _).trans (.seedAdded _ _ _))

/-- Every stage, run where what it needs is done, is traced. -/
theorem Sound.traced_runStage (h : r.Sound) (htraced : r.Traced workers limit) (stage : Stage)
    (hnot : r.stages.isDone stage = false) (hneeded : ∀ needed ∈ stage.dependencies, r.stages.isDone needed = true) :
    (Request.runStage stage r).2.Traced workers limit := by
  cases stage with
  | deletion => exact Traces.runDeletion r htraced
  | cleaning => exact Traces.cleaningPasses _ r htraced
  | addition =>
    have hseeded : (seedAddition r).Traced workers limit := by
      refine htraced.keeps (config_seedAddition r) (engine_seedAddition r) ?_
      unfold seedAddition
      split <;> rename_i hseeded
      · exact .refl _
      · refine keeps_renew fun root hroot => h.not_stores_cleaned hnot ?_ ?_ hroot
        · exact hneeded .cleaning (by decide)
        · exact Bool.eq_false_iff.2 hseeded
    have hrun : Traces workers limit (saturate .addition .derive [] >>= fun _ => change fun r => { r with progress := .none }) :=
      (Traces.saturate _ _ _).bind fun _ => fun _ hr => hr.keeps rfl rfl (.refl _)
    rw [show Request.runStage .addition = _ from runAddition_eq, bind_assoc]
    exact hrun (seedAddition r) hseeded
  | saturation =>
    have hsynced : r.sync.Traced workers limit := htraced.keeps rfl rfl (.grow r.workspace r.index.nodes.size)
    exact Traces.saturate .saturation .derive (r.index.classes ++ r.index.individuals) r.sync hsynced
  | roleHierarchy | consistency | classTaxonomy => exact htraced.keeps rfl rfl (.refl _)
  | instanceTaxonomy =>
    have hconcludes := Concludes.withRealization { r with realization := none }
    exact htraced.keeps hconcludes.config hconcludes.engine (hconcludes.workspace.symm ▸ .refl r.workspace)
  | validation =>
    rw [runStage_validation]
    split
    · exact htraced
    · split <;> exact htraced

/-! ### Queries -/

/-- A sound reasoner whose recorder tells what is stored. -/
structure Recorded (workers : Nat) (limit : Option Nat) (r : Reasoner) : Prop where
  sound : r.Sound
  traced : r.Traced workers limit

namespace Recorded

theorem complete (h : r.Recorded workers limit) (stage : Stage) : (complete stage r).2.Recorded workers limit := by
  have hcomplete := runner.complete_spec (I := Recorded workers limit) (E := fun _ => Recorded workers limit) (fun _ _ => rfl)
    (fun stage s hs hnot hneeded => ?_) stage r h
  · unfold Request.complete
    generalize runner.complete stage r = result at hcomplete
    cases hcomplete with
    | ok hdone => exact hdone.1
    | error hstopped =>
      dsimp only
      split
      · exact ⟨hstopped.sound.onMonitor _, hstopped.traced.keeps rfl rfl (.of_sameWork (.of_contexts rfl rfl) rfl)⟩
      · exact hstopped
  · have hrun := hs.sound.runStage stage hnot hneeded
    have htraced := hs.sound.traced_runStage hs.traced stage hnot hneeded
    rw [show runner.run stage s = runStage stage s from rfl]
    generalize runStage stage s = result at hrun htraced
    cases hrun with
    | ok hdone =>
      refine .ok ⟨hdone.1.stages, ?_, htraced.keeps rfl rfl (.refl _)⟩
      have hsound := hdone.1.sound
      rwa [Reasoner.finish, hdone.1.stages] at hsound
    | error hstopped => exact .error ⟨hstopped.sound, htraced⟩

/-- Whatever is asked, the trace goes on. -/
theorem plain {α : Type} {m : Request α} (hm : Plain m) (h : r.Recorded workers limit) :
    (m r).2.Recorded workers limit := by
  have hconcluded {r r' : Reasoner} (h : r.Recorded workers limit) (hconcludes : Concludes r r') : r'.Traced workers limit :=
    h.traced.keeps hconcludes.config hconcludes.engine (hconcludes.workspace.symm ▸ .refl r.workspace)
  induction hm generalizing r with
  | complete stage => exact h.complete stage
  | read => exact h
  | taxonomy => exact ⟨h.sound.of_withTaxonomy, hconcluded h (.withTaxonomy r)⟩
  | realization => exact ⟨h.sound.of_withRealization, hconcluded h (.withRealization r)⟩
  | bind _ _ ihm ihf =>
    rw [bind_apply]
    have hfirst := ihm h
    split <;> rename_i hrun <;> rw [hrun] at hfirst
    · exact ihf _ hfirst
    · exact hfirst

end Recorded

/-! ### Edits -/

/-- An edit keeps the contexts or drops them all. -/
private theorem workspace_edited (r : Reasoner) (edit : Except IndexError Bool × Index) :
    ∃ n, (r.edited edit).2.workspace = r.workspace.grow n ∨ (r.edited edit).2.workspace = (r.workspace.grow n).reset := by
  obtain ⟨answer, ix⟩ := edit
  refine ⟨ix.nodes.size, ?_⟩
  match answer with
  | .error _ => exact .inl rfl
  | .ok false => exact .inl rfl
  | .ok true =>
    show { r with index := ix }.sync.axiomsChanged.workspace = _ ∨ { r with index := ix }.sync.axiomsChanged.workspace = _
    rw [axiomsChanged_eq]
    split
    · exact .inr rfl
    · exact .inl rfl

/-- An edit that drops no context changes nothing that is stored, and is not recorded. -/
private theorem keeps_edited {edit : Except IndexError Bool × Index}
    (hspares : ∀ root ∈ r.workspace.roots, root ∈ (r.edited edit).2.workspace.roots) :
    r.workspace.Keeps (r.edited edit).2.workspace := by
  refine ⟨congrArg Monitor.notes (monitor_edited edit), fun root c => ?_⟩
  obtain ⟨n, hgrown | hreset⟩ := workspace_edited r edit
  · rw [hgrown]
    exact Workspace.stores_grow n
  · rw [hreset] at hspares ⊢
    have hnone (root : ExprId) : ¬ (r.workspace.grow n).reset.Has root := Workspace.not_has_reset root
    refine iff_of_false (fun hc => hnone root hc.has) fun hc => ?_
    exact hnone root (Workspace.mem_roots.1 (hspares root (Workspace.mem_roots.2 hc.has)))

/-- Where there are no contexts, an edit creates none. -/
private theorem not_has_edited (h : ∀ root, ¬ r.workspace.Has root) (edit : Except IndexError Bool × Index) (root : ExprId) :
    ¬ (r.edited edit).2.workspace.Has root := by
  obtain ⟨n, hgrown | hreset⟩ := workspace_edited r edit
  · rw [hgrown, Workspace.has_grow]
    exact h root
  · rw [hreset]
    exact Workspace.not_has_reset root

/-- As long as nothing has been asked, there are no contexts. -/
private theorem not_has_after {calls : List Call} (hcalls : ∀ q, .ask q ∉ calls) (h : ∀ root, ¬ r.workspace.Has root)
    (root : ExprId) : ¬ (r.after calls).workspace.Has root := by
  induction calls generalizing r with
  | nil => exact h root
  | cons call calls ih =>
    refine ih (fun q hq => hcalls q (List.mem_cons_of_mem _ hq)) fun other => ?_
    cases call with
    | add a => exact not_has_edited h _ other
    | remove a => exact not_has_edited h _ other
    | ask q => exact absurd (List.mem_cons_self ..) (hcalls q)
    | monitor | engine => exact h other

/-! ### Histories -/

/-- The call drops no context if it is an edit. -/
def Call.Spares (r : Reasoner) : Call → Prop
  | add a => ∀ root ∈ r.workspace.roots, root ∈ (r.add a).2.workspace.roots
  | remove a => ∀ root ∈ r.workspace.roots, root ∈ (r.remove a).2.workspace.roots
  | ask _ | monitor _ | engine _ _ => True

/-- No edit among the calls drops a context. -/
def Spares : Reasoner → List Call → Prop
  | _, [] => True
  | r, call :: calls => call.Spares r ∧ Spares (call.apply r) calls

instance (r : Reasoner) : (call : Call) → Decidable (call.Spares r)
  | .add a => inferInstanceAs (Decidable (∀ root ∈ r.workspace.roots, root ∈ (r.add a).2.workspace.roots))
  | .remove a => inferInstanceAs (Decidable (∀ root ∈ r.workspace.roots, root ∈ (r.remove a).2.workspace.roots))
  | .ask _ | .monitor _ | .engine _ _ => inferInstanceAs (Decidable True)

instance Spares.decidable (r : Reasoner) : (calls : List Call) → Decidable (r.Spares calls)
  | [] => inferInstanceAs (Decidable True)
  | call :: calls =>
    have := Spares.decidable (call.apply r) calls
    inferInstanceAs (Decidable (call.Spares r ∧ Spares (call.apply r) calls))

theorem Spares.of_append {before calls : List Call} (h : r.Spares (before ++ calls)) : (r.after before).Spares calls := by
  induction before generalizing r with
  | nil => exact h
  | cons call before ih => exact ih h.2

end Reasoner

namespace Monitor

/-- Interruptions are asked for, or contexts are counted, and nothing else is touched. -/
def Prompts (f : Monitor → Monitor) : Prop := ∃ g : Interrupt → List Watch → Interrupt × List Watch, ∀ m, f m =
  { m with interrupt := (g m.interrupt m.watches).1, watches := (g m.interrupt m.watches).2 }

namespace Prompts

variable {f : Monitor → Monitor} (h : Prompts f)
include h

theorem notes (m : Monitor) : (f m).notes = m.notes := by
  obtain ⟨g, hg⟩ := h
  rw [hg]
  rfl

theorem cut (n : Nat) (m : Monitor) : f (m.cut n) = (f m).cut n := by
  obtain ⟨g, hg⟩ := h
  rw [hg, hg]
  rfl

end Prompts

theorem cut_record (n : Nat) (m : Monitor) : (m.record none).cut n = m.record (some n) := by
  simp [record, cut, Recorder.cut, Recorder.new]

end Monitor

namespace Reasoner

variable {workers : Nat} {limit : Option Nat} {r : Reasoner}

namespace Recorded

theorem edited (h : r.Recorded workers limit) {edit : Except IndexError Bool × Index} (hsound : (r.edited edit).2.Sound)
    (hspares : ∀ root ∈ r.workspace.roots, root ∈ (r.edited edit).2.workspace.roots) :
    (r.edited edit).2.Recorded workers limit :=
  ⟨hsound, h.traced.keeps (setup_edited edit).1 (setup_edited edit).2 (keeps_edited hspares)⟩

theorem call (h : r.Recorded workers limit) {call : Call} (hspares : call.Spares r)
    (hprompts : ∀ f, call = .monitor f → Monitor.Prompts f) : (call.apply r).Recorded workers limit := by
  cases call with
  | add a => exact h.edited (h.sound.add a) hspares
  | remove a => exact h.edited (h.sound.remove a) hspares
  | ask q => exact h.plain (.query q)
  | monitor f =>
    have hnotes := (hprompts f rfl).notes r.workspace.monitor
    exact ⟨h.sound.onMonitor f, h.traced.keeps rfl rfl (.of_sameWork (.of_contexts rfl rfl) hnotes)⟩
  | engine e he => exact ⟨h.sound.setEngine he, he, h.traced.config, h.traced.workspace⟩

/-- The trace goes on as long as no context is dropped and the recorder is left alone. -/
theorem after (h : r.Recorded workers limit) {calls : List Call} (hspares : r.Spares calls)
    (hprompts : ∀ f, .monitor f ∈ calls → Monitor.Prompts f) : (r.after calls).Recorded workers limit := by
  induction calls generalizing r with
  | nil => exact h
  | cons call calls ih =>
    refine ih (h.call hspares.1 fun f hf => hprompts f ?_) hspares.2 fun f hf => hprompts f (List.mem_cons_of_mem _ hf)
    exact hf ▸ List.mem_cons_self ..

end Recorded

/-- When a recorder is installed before the first query, nothing is stored. -/
theorem recorded_record {config : Config} {r₀ : Reasoner} (hr : Reasoner.new config = .ok r₀) (limit : Option Nat)
    {before : List Call} (hbefore : ∀ q, .ask q ∉ before) :
    ((r₀.after before).onMonitor (·.record limit)).Recorded config.workers limit := by
  have hnew := Undisturbed.new hr
  have hsound := (hnew.after before).sound.onMonitor (·.record limit)
  have hworkers := congrArg Config.workers (hnew.config_after before)
  obtain rfl := eq_of_new hr
  refine ⟨hsound, hsound.engine, hworkers, .record _ _ fun root c hc => ?_⟩
  exact not_has_after hbefore (fun root => Workspace.not_has_of_size_eq_zero rfl root) root hc.has

/-- Where one worker carries out all the runs, it makes no difference whether the recorder is given its limit first or
last. -/
theorem recorder_of_record (hengine : r.engine = .single) {calls : List Call}
    (hprompts : ∀ f, .monitor f ∈ calls → Monitor.Prompts f) (hsingle : ∀ e he, .engine e he ∈ calls → e = .single) (n : Nat) :
    ((r.onMonitor (·.record (some n))).after calls).workspace.monitor.recorder =
      ((r.onMonitor (·.record none)).after calls).workspace.monitor.recorder.map (·.cut n) := by
  have hcut : (r.onMonitor (·.record (some n))).after calls =
      ((r.onMonitor (·.record none)).after calls).onMonitor (·.cut n) := by
    rw [← after_onMonitor (Monitor.unseen_cut n) (r := r.onMonitor (·.record none)) hengine
      (fun f hf m => (hprompts f hf).cut n m) hsingle]
    exact congrArg (fun m => ({ r with workspace := { r.workspace with monitor := m } } : Reasoner).after calls)
      (Monitor.cut_record n r.workspace.monitor).symm
  rw [hcut]
  rfl

/-- A recorder that is installed before the first query tells what is stored, whatever is asserted, retracted and asked from
then on, wherever the runs are interrupted, and whatever engines carry them out, as long as no edit drops contexts and nobody
else touches the recorder.  There is a log of all inferences, each with a number of its own, in the order in which they were
to be kept: the inferences about a conclusion of a context are derivations and retractions in turn, starting with a
derivation, and the conclusion is stored if it was derived last.  Without a limit all of the log has been kept.  With a limit
the inferences numbered below it have been kept, so it is reached as soon as there are as many.  If there is only one worker,
the numbers are in the order of the log, so the records are its first ones.  Where one worker has carried out all the runs,
the limit makes no difference to them: with a limit the same recorder would have kept the first of the same records. -/
theorem records_determine_facts {config : Config} {r₀ : Reasoner} (hr : Reasoner.new config = .ok r₀) (limit : Option Nat)
    (before calls : List Call) (hbefore : ∀ q, .ask q ∉ before) (hprompts : ∀ f, .monitor f ∈ calls → Monitor.Prompts f)
    (hspares : r₀.Spares (before ++ .monitor (·.record limit) :: calls)) :
    let traced limit := r₀.after (before ++ .monitor (·.record limit) :: calls)
    ∃ (records : Recorder) (log : Log), (traced limit).workspace.monitor.recorder = some records ∧
      (log.map Prod.fst).Perm (List.range records.seen) ∧ records.kept.toList = log.within limit ∧
      (∀ root c, c.isStorable = true → Alternates (log.modesOf root c) ∧
        ((traced limit).workspace.Stores root c ↔ (log.modesOf root c).getLast? = some .derive)) ∧
      (∀ n, limit = some n → records.kept.size = min n records.seen) ∧
      (config.workers = 1 → log.map Prod.fst = List.range records.seen ∧
        ∀ n, limit = some n → records.kept.toList = (log.map Prod.snd).take (min n records.seen)) ∧
      (limit = none → (∀ e he, .engine e he ∈ before ++ calls → e = .single) → ∀ n,
        (traced (some n)).workspace.monitor.recorder =
          some ⟨some n, records.seen, records.kept.take (min n records.seen)⟩) := by
  intro traced
  have htraced (limit : Option Nat) : traced limit = ((r₀.after before).onMonitor (·.record limit)).after calls :=
    List.foldl_append ..
  have hrest : ((r₀.after before).onMonitor (·.record limit)).Spares calls := hspares.of_append.2
  obtain ⟨records, log, hlogs⟩ := ((recorded_record hr limit hbefore).after hrest hprompts).traced.workspace
  rw [← htraced limit] at hlogs
  have hrecorder : (traced limit).workspace.monitor.recorder = some records := congrArg Prod.snd hlogs.notes
  have hnumbers : (log.map Prod.fst).Perm (List.range records.seen) := by simpa [Pool.idle] using hlogs.follows.numbers
  have hkept : records.kept.toList = log.within limit := hlogs.limited ▸ hlogs.follows.kept
  have hlength : log.length = records.seen := by simpa using hnumbers.length_eq
  refine ⟨records, log, hrecorder, hnumbers, hkept, fun root c hc => ?_, fun n hn => ?_, fun hone => ?_, fun hnone hsingle n => ?_⟩
  · exact ⟨(hlogs.tells hc).alternates, (hlogs.tells hc).stored_iff⟩
  · rw [← Log.length_within hnumbers n, ← Array.length_toList, hkept, hn]
  · have hinOrder : log.map Prod.fst = List.range records.seen := by
      simpa [Pool.idle] using (hlogs.inOrder (Nat.le_of_eq hone)).numbers
    refine ⟨hinOrder, fun n hn => ?_⟩
    rw [hkept, hn, Log.within_eq_take hinOrder, ← hlength, ← List.length_map (f := Prod.snd)]
    exact List.take_eq_take_min
  · subst hnone
    have hengine : (r₀.after before).engine = .single := by
      obtain rfl := eq_of_new hr
      exact engine_after rfl fun e he hmem => hsingle e he (List.mem_append_left _ hmem)
    have hsize : records.kept.size = records.seen := by
      rw [← hlength, ← Array.length_toList, hkept, Log.within_none, List.length_map]
    have htake : records.kept.take n = records.kept.take (min n records.seen) := by
      rw [← hsize]
      exact Array.extract_eq_extract_right.2 (by omega)
    have hlimited := recorder_of_record hengine hprompts (fun e he hmem => hsingle e he (List.mem_append_right _ hmem)) n
    rw [← htraced, ← htraced, hrecorder] at hlimited
    rw [hlimited, Option.map_some, Recorder.cut, hlogs.limited, ← htake, hsize]

/-- A query that works off a retraction is interrupted while contexts are cleaned, and asked again.  What still holds has
been derived again, and what does not hold any more has been retracted. -/
theorem records_determine_facts_of_retraction : ∃ r₀ records a b c, Reasoner.new (.standard 1) = .ok r₀ ∧
    let before := [.add (.subClassOf (.named "A") (.named "B")), .add (.subClassOf (.named "B") (.named "C"))]
    let calls := [.ask .classify, .remove (.subClassOf (.named "B") (.named "C")),
      .monitor fun m => { m with interrupt := ⟨false, some 6⟩ }]
    let traced limit := r₀.after (before ++ .monitor (·.record limit) ::
      (calls ++ [.ask (.subsumed "A" "C"), .ask (.subsumed "A" "C")]))
    (isSubsumed "A" "C" (r₀.after (before ++ .monitor (·.record none) :: calls))).1 =
      .error (.interrupted "incremental-cleaning") ∧
    (traced none).index.classId? "A" = some a ∧ (traced none).index.classId? "B" = some b ∧
    (traced none).index.classId? "C" = some c ∧ (traced none).workspace.monitor.recorder = some records ∧
    modesAbout a (.isA b) records.kept.toList = [.derive, .retract, .derive] ∧ (traced none).workspace.Stores a (.isA b) ∧
    modesAbout a (.isA c) records.kept.toList = [.derive, .retract] ∧ ¬ (traced none).workspace.Stores a (.isA c) ∧
    (traced (some 9)).workspace.monitor.recorder = some ⟨some 9, records.seen, records.kept.take (min 9 records.seen)⟩ := by
  obtain ⟨r₀, hr⟩ : ∃ r₀, Reasoner.new (.standard 1) = .ok r₀ := ⟨_, rfl⟩
  generalize hbefore : [Call.add (.subClassOf (.named "A") (.named "B")), .add (.subClassOf (.named "B") (.named "C"))] = before
  generalize hcalls : [Call.ask .classify, .remove (.subClassOf (.named "B") (.named "C")),
    .monitor fun m => { m with interrupt := ⟨false, some 6⟩ }] = calls
  generalize hasked : calls ++ [Call.ask (.subsumed "A" "C"), .ask (.subsumed "A" "C")] = asked
  have hprompts : ∀ f, .monitor f ∈ asked → Monitor.Prompts f := by
    intro f hf
    obtain rfl : f = fun m => { m with interrupt := ⟨false, some 6⟩ } := by simpa [← hasked, ← hcalls] using hf
    exact ⟨fun _ watches => (⟨false, some 6⟩, watches), fun _ => rfl⟩
  have hspares : r₀.Spares (before ++ .monitor (·.record none) :: asked) := by
    subst hasked hcalls hbefore
    cases hr
    decide +kernel
  obtain ⟨records, log, hrecorder, -, hkept, htells, -, -, hlimit⟩ :=
    records_determine_facts hr none before asked (by simp [← hbefore]) hprompts hspares
  have hsingle : ∀ e he, .engine e he ∈ before ++ asked → e = .single := by
    subst hasked hcalls hbefore
    simp
  have hinterrupted : (isSubsumed "A" "C" (r₀.after (before ++ .monitor (·.record none) :: calls))).1 =
      .error (.interrupted "incremental-cleaning") := by
    subst hcalls hbefore
    cases hr
    decide +kernel
  have hcomputed (r : Reasoner) (hstate : r₀.after (before ++ .monitor (·.record none) :: asked) = r) :
      r.index.classId? "A" = some ⟨2⟩ ∧ r.index.classId? "B" = some ⟨3⟩ ∧ r.index.classId? "C" = some ⟨4⟩ ∧
      ∀ records', r.workspace.monitor.recorder = some records' →
        modesAbout ⟨2⟩ (.isA ⟨3⟩) records'.kept.toList = [.derive, .retract, .derive] ∧
        modesAbout ⟨2⟩ (.isA ⟨4⟩) records'.kept.toList = [.derive, .retract] := by
    subst hstate hasked hcalls hbefore
    cases hr
    decide +kernel
  obtain ⟨ha, hb, hc, hmodes⟩ := hcomputed _ rfl
  obtain ⟨hkeeps, hloses⟩ := hmodes records hrecorder
  -- the last records tell what is stored
  have hstored := (htells ⟨2⟩ (.isA ⟨3⟩) rfl).2
  have hretracted := (htells ⟨2⟩ (.isA ⟨4⟩) rfl).2
  rw [Log.modesOf, ← Log.within_none, ← hkept, hkeeps] at hstored
  rw [Log.modesOf, ← Log.within_none, ← hkept, hloses] at hretracted
  subst hasked
  refine ⟨r₀, records, ⟨2⟩, ⟨3⟩, ⟨4⟩, hr, hinterrupted, ha, hb, hc, hrecorder, hkeeps, hstored.2 rfl, hloses, ?_,
    hlimit rfl hsingle 9⟩
  exact fun hstores => by cases hretracted.1 hstores

/-- Two workers number an inference each, and the one that has numbered first keeps last. -/
def crossing : List Pool.Action :=
  [.take .thing, .take .nothing, .number .thing .init, .number .nothing .init, .keep 1 .nothing .init, .keep 0 .thing .init,
    .handBack .thing, .handBack .nothing]

/-- What the records do not tell.  When two workers cross, a recorder with limit 1 keeps an inference that is not the first of
those that it would have kept without a limit.  And when the recorder is not told about conclusions any more, its last record
about a conclusion is a derivation though the conclusion has been given up since. -/
theorem records_fall_short : ∃ r₀, Reasoner.new (.standard 2) = .ok r₀ ∧
    (let traced limit := r₀.after [.engine (.scripted crossing) (Engine.lawful_scripted crossing),
        .monitor (·.record limit), .ask .classify]
      ∃ all first, (traced none).workspace.monitor.recorder = some all ∧
        (traced (some 1)).workspace.monitor.recorder = some first ∧ first.seen = all.seen ∧ first.kept.size = 1 ∧
        first.kept.toList ≠ all.kept.toList.take 1) ∧
    (let calls := [.monitor (·.record none), .add (.subClassOf (.named "A") (.named "B")), .ask .classify,
        .monitor (·.unobserve), .remove (.subClassOf (.named "A") (.named "B")), .ask .classify]
      ∃ records, r₀.Spares calls ∧ (r₀.after calls).workspace.monitor.recorder = some records ∧
        (modesAbout ⟨2⟩ (.isA ⟨3⟩) records.kept.toList).getLast? = some .derive ∧
        ¬ (r₀.after calls).workspace.Stores ⟨2⟩ (.isA ⟨3⟩)) := by
  obtain ⟨r₀, hr⟩ : ∃ r₀, Reasoner.new (.standard 2) = .ok r₀ := ⟨_, rfl⟩
  refine ⟨r₀, hr, ?_, ?_⟩
  · intro traced
    have hcomputed : ((traced none).workspace.monitor.recorder.bind fun all =>
        (traced (some 1)).workspace.monitor.recorder.map fun first =>
          decide (first.seen = all.seen ∧ first.kept.size = 1 ∧ first.kept.toList ≠ all.kept.toList.take 1)) = some true := by
      cases hr
      decide +kernel
    obtain ⟨all, hall, hrest⟩ := Option.bind_eq_some_iff.1 hcomputed
    obtain ⟨first, hfirst, hdiffers⟩ := Option.map_eq_some_iff.1 hrest
    exact ⟨all, first, hall, hfirst, of_decide_eq_true hdiffers⟩
  · intro calls
    have hcomputed : r₀.Spares calls ∧ ((r₀.after calls).workspace.monitor.recorder.any fun records =>
        (modesAbout ⟨2⟩ (.isA ⟨3⟩) records.kept.toList).getLast? = some .derive) = true ∧
        ¬ (r₀.after calls).workspace.Stores ⟨2⟩ (.isA ⟨3⟩) := by
      cases hr
      decide +kernel
    obtain ⟨hspares, hlast, hnot⟩ := hcomputed
    obtain ⟨records, hrecords, hderived⟩ := (Option.any_eq_true _ _).1 hlast
    exact ⟨records, hspares, hrecords, of_decide_eq_true hderived, hnot⟩

end Reasoner

end ELOntology
