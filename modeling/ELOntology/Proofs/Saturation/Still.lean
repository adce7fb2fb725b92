import ELOntology.Proofs.Saturation.Calm
import ELOntology.Saturation.Maintenance
import ELOntology.Taxonomy.Realization

/-!
# What interruptions have no part in

A workspace is still if nothing in its monitor can ask for an interruption and no context is marked as saturated.  Whatever
is done to a workspace comes to the same when it is made still before or afterwards: what is stored, what waits, both queues
and what is recorded do not depend on watches, alarms and requests, nor on the marks that only a finished run sets.

Each operation has its lemma, which moves `still` inwards; looking at the flag and marking contexts as saturated leave no
trace in the still workspace.
-/

namespace ELOntology

/-! ### Monitors -/

namespace Monitor

/-- The monitor without anything that could ask for an interruption.  A recorder stays. -/
def still (m : Monitor) : Monitor :=
  { m with
    interrupt := .clear
    watches := []
    observer := match m.observer with
      | some .recorder => some .recorder
      | _ => none }

variable {m : Monitor}

theorem calm_still (m : Monitor) : m.still.Calm where
  interrupt := rfl
  watches _ h := absurd h List.not_mem_nil
  observer mode number seen h := by
    unfold still at h
    dsimp only at h
    split at h <;> cases h

@[simp] theorem still_still : m.still.still = m.still := by
  obtain ⟨interrupt, watches, observer, recorder⟩ := m
  rcases observer with _ | _ | _ <;> rfl

@[simp] theorem still_created : m.created.still = m.still := by
  unfold created still
  dsimp only

@[simp] theorem still_visit (inference : Inference) : (m.visit inference).still = m.still.visit inference := by
  obtain ⟨interrupt, watches, observer, recorder⟩ := m
  rcases observer with _ | _ | ⟨mode, number, seen⟩
  · rfl
  · rfl
  · unfold visit
    dsimp only
    split
    · split <;> rfl
    · rfl

end Monitor

/-! ### Workspaces -/

/-- The context without its mark of being saturated. -/
def Context.still (c : Context) : Context := { c with saturated := false }

namespace Workspace

/-- The workspace without anything that could ask for an interruption and without marks of saturated contexts. -/
def still (w : Workspace) : Workspace :=
  { w with contexts := w.contexts.map (·.map Context.still), monitor := w.monitor.still }

variable {w w' : Workspace} {root : ExprId} {c : Conclusion}

@[simp] theorem still_active : w.still.active = w.active := rfl

@[simp] theorem still_modified : w.still.modified = w.modified := rfl

@[simp] theorem size_still : w.still.contexts.size = w.contexts.size := Array.size_map

theorem calm_still (w : Workspace) : w.still.monitor.Calm := w.monitor.calm_still

@[simp] theorem context?_still : w.still.context? root = (w.context? root).map Context.still := by
  simp only [context?, still, Array.getElem?_map]
  cases w.contexts[root.val]? with
  | none => rfl
  | some place => cases place <;> rfl

@[simp] theorem still_still : w.still.still = w.still := by
  simp only [still, Array.map_map, Monitor.still_still, Workspace.mk.injEq, and_true]
  refine congrArg (Array.map · w.contexts) (funext fun place => ?_)
  cases place <;> rfl

theorem still_put (ctx : Context) : (w.put root ctx).still = w.still.put root ctx.still := by
  simp only [put, still, Array.map_setIfInBounds, Option.map_some]

theorem still_update {f : Context → Context} (hf : ∀ ctx, (f ctx).still = f ctx.still) :
    (w.update root f).still = w.still.update root f := by
  unfold update
  rw [context?_still]
  cases w.context? root with
  | none => rfl
  | some ctx =>
    rw [Option.map_some]
    dsimp only
    rw [still_put, hf]

@[simp] theorem still_deactivate : (w.deactivate root).still = w.still.deactivate root := still_update fun _ => rfl

@[simp] theorem still_enqueue : (w.enqueue root c).still = w.still.enqueue root c := by
  unfold enqueue
  rw [context?_still]
  cases w.context? root with
  | none => rfl
  | some ctx =>
    dsimp only [Option.map_some]
    split <;> rename_i hactive
    · rw [if_pos (show ctx.still.active = true from hactive)]
      exact still_put _
    · rw [if_neg (show ¬ ctx.still.active = true from hactive)]
      exact congrArg (fun w : Workspace => { w with active := w.active.push root }) (still_put _)

@[simp] theorem still_ensure : (w.ensure root).still = w.still.ensure root := by
  unfold ensure
  rw [context?_still, size_still]
  cases w.context? root with
  | some ctx => rfl
  | none =>
    dsimp only [Option.map_none]
    split
    · have hnew : ((w.put root .new).enqueue root .init).still = (w.still.put root .new).enqueue root .init := by
        rw [still_enqueue, still_put]
        rfl
      have hmonitor : ((w.still.put root .new).enqueue root .init).monitor = w.monitor.still :=
        monitor_enqueue root .init
      show { ((w.put root .new).enqueue root .init).still with
        monitor := ((w.put root .new).enqueue root .init).monitor.created.still } = _
      rw [Monitor.still_created, hnew, hmonitor, monitor_enqueue]
      rfl
    · rfl

@[simp] theorem still_send (mode : Mode) : (w.send mode root c).still = w.still.send mode root c := by
  cases mode <;> simp [send]

@[simp] theorem still_sendAll (mode : Mode) (productions : List Production) :
    (RuleBase.sendAll mode productions w).still = RuleBase.sendAll mode productions w.still :=
  (List.foldl_hom still fun _ _ => (still_send mode).symm).symm

@[simp] theorem still_markModified : (w.markModified root).still = w.still.markModified root := by
  unfold markModified
  rw [context?_still]
  cases w.context? root with
  | none => rfl
  | some ctx =>
    dsimp only [Option.map_some]
    split <;> rename_i hmodified
    · rw [if_pos (show ctx.still.modified = true from hmodified)]
      exact still_put _
    · rw [if_neg (show ¬ ctx.still.modified = true from hmodified)]
      exact congrArg (fun w : Workspace => { w with modified := w.modified.push root }) (still_put _)

@[simp] theorem still_observe (inference : Inference) : (w.observe inference).still = w.still.observe inference := by
  simp only [observe, still, Monitor.still_visit]

@[simp] theorem still_markSaturated : w.markSaturated.still = w.still := by
  simp only [markSaturated, still, Array.map_map]
  refine congrArg (fun contexts => ({ w with contexts, monitor := w.monitor.still } : Workspace)) ?_
  refine congrArg (Array.map · w.contexts) (funext fun place => ?_)
  cases place <;> rfl

theorem next_still : w.still.next root = ((w.next root).1, (w.next root).2.still) := by
  unfold next
  rw [context?_still]
  cases w.context? root with
  | none => rfl
  | some ctx =>
    dsimp only [Option.map_some]
    rw [show ctx.still.todo = ctx.todo from rfl]
    cases ctx.todo.pop? with
    | none => rfl
    | some popped =>
      dsimp only
      rw [still_put]
      rfl

theorem poll_still : w.still.poll = (w.poll.1, w.poll.2.still) := by
  unfold poll
  rw [still_active]
  cases w.active.pop? <;> rfl

theorem process_still (rb : RuleBase) (mode : Mode) :
    rb.process mode root c w.still = ((rb.process mode root c w).1, (rb.process mode root c w).2.still) := by
  unfold RuleBase.process
  rw [context?_still]
  cases w.context? root with
  | none => rfl
  | some ctx =>
    dsimp only [Option.map_some]
    rw [show ctx.still.facts = ctx.facts from rfl]
    cases mode with
    | derive =>
      dsimp only
      split
      · rfl
      · rw [still_sendAll, still_observe, still_put]
        rfl
    | retract =>
      dsimp only
      split
      · rw [still_markModified, still_update (f := fun ctx => { ctx with facts := ctx.facts.erase c }) fun _ => rfl,
          still_sendAll, still_observe]
      · rfl

/-! ### Maintenance -/

@[simp] theorem still_grow (n : Nat) : (w.grow n).still = w.still.grow n := by
  simp only [grow, still, Array.map_append, Array.map_replicate, Option.map_none, Array.size_map]

theorem roots_still : w.still.roots = w.roots := by
  unfold roots
  rw [size_still]
  refine List.filter_congr fun root _ => ?_
  rw [context?_still, Option.isSome_map]

@[simp] theorem still_enqueueAll (root : ExprId) (cs : List Conclusion) :
    (cs.foldl (fun w c => w.enqueue root c) w).still = cs.foldl (fun w c => w.enqueue root c) w.still :=
  (List.foldl_hom still fun _ _ => still_enqueue.symm).symm

@[simp] theorem still_seed (conclusions : ExprId → Facts → List Conclusion) :
    (w.seed conclusions).still = w.still.seed conclusions := by
  unfold seed
  rw [roots_still]
  refine (List.foldl_hom still fun w root => ?_).symm
  rw [context?_still]
  cases w.context? root with
  | none => rfl
  | some ctx => exact (still_enqueueAll ..).symm

@[simp] theorem still_seedRemoved (roles : RoleHierarchy) (removed : List Contribution) :
    (w.seedRemoved roles removed).still = w.still.seedRemoved roles removed := still_seed _

@[simp] theorem still_seedAdded (added : List Contribution) (cleaned : List ExprId) :
    (w.seedAdded added cleaned).still = w.still.seedAdded added cleaned := still_seed _

@[simp] theorem still_seedCleaning (roots : List ExprId) :
    (w.seedCleaning roots).still = w.still.seedCleaning roots := by
  refine (List.foldl_hom still fun w root => ?_).symm
  rw [context?_still]
  cases w.context? root with
  | none => rfl
  | some ctx => exact (still_enqueueAll ..).symm

@[simp] theorem still_clearContext : (w.clearContext root).still = w.still.clearContext root :=
  still_update fun _ => rfl

@[simp] theorem still_restart (cleaned : List ExprId) : (w.restart cleaned).still = w.still.restart cleaned := by
  refine (List.foldl_hom still fun w root => ?_).symm
  rw [still_enqueue, still_clearContext]

@[simp] theorem still_replay (rb : RuleBase) (cleaned : List ExprId) :
    (rb.replay cleaned w).still = rb.replay cleaned w.still := by
  unfold RuleBase.replay
  rw [roots_still]
  refine (List.foldl_hom still fun w root => ?_).symm
  rw [context?_still]
  cases w.context? root with
  | none => rfl
  | some ctx => exact (List.foldl_hom still fun _ _ => still_enqueue.symm)

theorem takeModified_still : w.still.takeModified = (w.takeModified.1, w.takeModified.2.still) := by
  have hall : ∀ roots : List ExprId, roots.foldl (fun w root => w.update root fun c => { c with modified := false }) w.still =
      (roots.foldl (fun w root => w.update root fun c => { c with modified := false }) w).still := fun roots =>
    List.foldl_hom still fun _ _ => (still_update (f := fun c => { c with modified := false }) fun _ => rfl).symm
  unfold takeModified
  rw [still_modified]
  dsimp only
  rw [hall]
  rfl

/-! ### What is read off the contexts -/

@[simp] theorem isUnsatisfiable_still : w.still.isUnsatisfiable root = w.isUnsatisfiable root := by
  unfold isUnsatisfiable
  rw [context?_still]
  cases w.context? root <;> rfl

@[simp] theorem hasSubsumer_still (expr : ExprId) : w.still.hasSubsumer root expr = w.hasSubsumer root expr := by
  unfold hasSubsumer
  rw [context?_still]
  cases w.context? root <;> rfl

end Workspace

open Workspace

@[simp] theorem Taxonomy.build_still (ix : Index) (w : Workspace) (inconsistent : Bool) :
    Taxonomy.build ix w.still inconsistent = Taxonomy.build ix w inconsistent := by
  have hincluded : included w.still = included w := by
    funext sub sup
    unfold included
    rw [context?_still]
    cases w.context? sub <;> rfl
  have hsummarize : summarize ix w.still = summarize ix w := by
    funext id
    unfold summarize
    rw [context?_still]
    cases w.context? id <;> rfl
  unfold build assemble reductions
  rw [hincluded, hsummarize]

@[simp] theorem Realization.build_still (ix : Index) (w : Workspace) (t : Taxonomy) (inconsistent : Bool) :
    Realization.build ix w.still t inconsistent = Realization.build ix w t inconsistent := by
  have hplaces : typePlaces ix w.still t = typePlaces ix w t := by
    funext individual
    unfold typePlaces
    rw [context?_still]
    cases w.context? individual <;> rfl
  unfold build directTypes
  rw [hplaces]

end ELOntology
