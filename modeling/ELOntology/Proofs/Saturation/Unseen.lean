import ELOntology.Saturation.Maintenance
import ELOntology.Saturation.Run

/-!
# What no run can see

A change of the monitor is unseen if it goes through all that is done to a monitor on the way: looking at the flag,
counting a context, telling an observer and lowering the flag (`Monitor.Unseen`).  Then every operation on workspaces comes
to the same before and after the change, interruptions included.

Giving a recorder a limit afterwards is such a change (`Monitor.unseen_cut`).  Each operation has its lemma, which moves
`mapMonitor` outwards, up to `RuleBase.run_mapMonitor`.
-/

namespace ELOntology

/-! ### Limits of a recorder -/

/-- The recorder as it would be if it had always had the given limit.  One that has a limit keeps it. -/
def Recorder.cut (n : Nat) (r : Recorder) : Recorder :=
  match r.limit with
  | none => ⟨some n, r.kept.size, r.kept.take n⟩
  | some _ => r

private theorem Recorder.cut_visit (n : Nat) (r : Recorder) (i : Inference) : (r.cut n).visit i = (r.visit i).cut n := by
  obtain ⟨limit, seen, kept⟩ := r
  cases limit with
  | some limit =>
    unfold visit number keep
    dsimp only [cut]
    by_cases h : limit ≤ seen <;> simp [h]
  | none =>
    have hfull : (⟨some n, kept.size, kept.take n⟩ : Recorder).visit i =
        ⟨some n, kept.size + 1, if n ≤ kept.size then kept.take n else (kept.take n).push i⟩ := by
      by_cases h : n ≤ kept.size <;> simp [visit, number, keep, h]
    have hkept : (if n ≤ kept.size then kept.take n else (kept.take n).push i) = (kept.push i).take n := by
      have take_toList (kept : Array Inference) : (kept.take n).toList = kept.toList.take n := by simp
      refine Array.toList_inj.1 ?_
      split <;> rename_i h
      · simp [List.take_append_of_le_length h]
      · have hall : (kept.push i).toList.length ≤ n := by
          simp
          omega
        rw [Array.toList_push, take_toList, take_toList, List.take_of_length_le hall, Array.toList_push,
          List.take_of_length_le (Nat.le_of_not_le h)]
    rw [cut, hfull, hkept]
    simp [visit, number, keep, cut]

namespace Monitor

/-- A change of the monitor that goes through all that is done to a monitor in a run. -/
structure Unseen (φ : Monitor → Monitor) : Prop where
  look (m : Monitor) : (φ m).look = (m.look.1, φ m.look.2)
  lower (m : Monitor) : (φ m).lower = φ m.lower
  created (m : Monitor) : (φ m).created = φ m.created
  visit (m : Monitor) (i : Inference) : (φ m).visit i = φ (m.visit i)

/-- Give the recorder a limit afterwards, unless it has one. -/
def cut (n : Nat) (m : Monitor) : Monitor := { m with recorder := m.recorder.map (·.cut n) }

theorem unseen_cut (n : Nat) : Unseen (cut n) where
  look _ := rfl
  lower _ := rfl
  created _ := rfl
  visit m i := by
    obtain ⟨interrupt, watches, observer, recorder⟩ := m
    rcases observer with _ | _ | ⟨mode, number, seen⟩
    · rfl
    · cases recorder with
      | none => rfl
      | some r => exact congrArg (fun r => Monitor.mk interrupt watches (some .recorder) (some r)) (r.cut_visit n i)
    · unfold visit cut
      dsimp only
      split
      · split <;> rfl
      · rfl

end Monitor

namespace Workspace

/-- Change the monitor. -/
def mapMonitor (φ : Monitor → Monitor) (w : Workspace) : Workspace := { w with monitor := φ w.monitor }

variable {φ : Monitor → Monitor} {w : Workspace} {root : ExprId} {c : Conclusion}

/-! ### Contexts and work -/

@[simp] theorem mapMonitor_put (ctx : Context) : (w.mapMonitor φ).put root ctx = (w.put root ctx).mapMonitor φ := rfl

@[simp] theorem context?_mapMonitor : (w.mapMonitor φ).context? root = w.context? root := rfl

theorem update_mapMonitor (f : Context → Context) : (w.mapMonitor φ).update root f = (w.update root f).mapMonitor φ := by
  unfold update
  rw [context?_mapMonitor]
  cases w.context? root <;> rfl

theorem enqueue_mapMonitor : (w.mapMonitor φ).enqueue root c = (w.enqueue root c).mapMonitor φ := by
  unfold enqueue
  rw [context?_mapMonitor]
  cases w.context? root with
  | none => rfl
  | some ctx =>
    dsimp only
    split <;> rfl

theorem markModified_mapMonitor : (w.mapMonitor φ).markModified root = (w.markModified root).mapMonitor φ := by
  unfold markModified
  rw [context?_mapMonitor]
  cases w.context? root with
  | none => rfl
  | some ctx =>
    dsimp only
    split <;> rfl

theorem next_mapMonitor : (w.mapMonitor φ).next root = ((w.next root).1, (w.next root).2.mapMonitor φ) := by
  unfold next
  rw [context?_mapMonitor]
  cases w.context? root with
  | none => rfl
  | some ctx =>
    dsimp only
    cases ctx.todo.pop? <;> rfl

theorem poll_mapMonitor : (w.mapMonitor φ).poll = (w.poll.1, w.poll.2.mapMonitor φ) := by
  unfold poll
  rw [show (w.mapMonitor φ).active = w.active from rfl]
  cases w.active.pop? <;> rfl

theorem enqueueAll_mapMonitor (conclusions : List Conclusion) :
    conclusions.foldl (fun w c => w.enqueue root c) (w.mapMonitor φ) =
      (conclusions.foldl (fun w c => w.enqueue root c) w).mapMonitor φ :=
  List.foldl_hom (mapMonitor φ) fun _ _ => enqueue_mapMonitor

section

variable (hφ : Monitor.Unseen φ)
include hφ

theorem ensure_mapMonitor : (w.mapMonitor φ).ensure root = (w.ensure root).mapMonitor φ := by
  unfold ensure
  rw [context?_mapMonitor]
  cases w.context? root with
  | some ctx => rfl
  | none =>
    dsimp only
    rw [show (w.mapMonitor φ).contexts = w.contexts from rfl]
    split
    · rw [mapMonitor_put, enqueue_mapMonitor]
      exact congrArg (fun m => ({ ((w.put root .new).enqueue root .init) with monitor := m } : Workspace)) (hφ.created _)
    · rfl

theorem send_mapMonitor (mode : Mode) : (w.mapMonitor φ).send mode root c = (w.send mode root c).mapMonitor φ := by
  cases mode with
  | derive => rw [send, ensure_mapMonitor hφ, enqueue_mapMonitor, send]
  | retract => exact enqueue_mapMonitor

theorem sendAll_mapMonitor (mode : Mode) (productions : List Production) :
    RuleBase.sendAll mode productions (w.mapMonitor φ) = (RuleBase.sendAll mode productions w).mapMonitor φ :=
  List.foldl_hom (mapMonitor φ) fun _ _ => send_mapMonitor hφ mode

theorem observe_mapMonitor (i : Inference) : (w.mapMonitor φ).observe i = (w.observe i).mapMonitor φ :=
  congrArg (fun m => ({ w with monitor := m } : Workspace)) (hφ.visit _ i)

theorem look_mapMonitor : (w.mapMonitor φ).look = (w.look.1, w.look.2.mapMonitor φ) := by
  unfold look
  rw [show (w.mapMonitor φ).monitor = φ w.monitor from rfl, hφ.look]
  rfl

theorem submitAll_mapMonitor (roots : List ExprId) :
    (w.mapMonitor φ).submitAll roots = ((w.submitAll roots).1, (w.submitAll roots).2.mapMonitor φ) := by
  induction roots generalizing w with
  | nil => rfl
  | cons root roots ih =>
    rw [submitAll, submit, look_mapMonitor hφ, submitAll, submit]
    rcases w.look with ⟨_ | _, w⟩
    · dsimp only
      rw [ensure_mapMonitor hφ, ih]
    · rfl

end

end Workspace

/-! ### Runs -/

namespace RuleBase

open Workspace

variable {φ : Monitor → Monitor} {w : Workspace} (hφ : Monitor.Unseen φ)
include hφ

theorem process_mapMonitor (rb : RuleBase) (mode : Mode) (root : ExprId) (c : Conclusion) :
    rb.process mode root c (w.mapMonitor φ) = ((rb.process mode root c w).1, (rb.process mode root c w).2.mapMonitor φ) := by
  unfold process
  rw [context?_mapMonitor]
  cases w.context? root with
  | none => rfl
  | some ctx =>
    dsimp only
    cases mode with
    | derive =>
      dsimp only
      split
      · rfl
      · rw [mapMonitor_put, observe_mapMonitor hφ, sendAll_mapMonitor hφ]
    | retract =>
      dsimp only
      split
      · rw [observe_mapMonitor hφ, sendAll_mapMonitor hφ, update_mapMonitor, markModified_mapMonitor]
      · rfl

private theorem drain_mapMonitor (rb : RuleBase) (mode : Mode) (root : ExprId) (fuel : Nat) (statistics : Statistics) :
    rb.drain mode root fuel (w.mapMonitor φ, statistics) =
      ((rb.drain mode root fuel (w, statistics)).1.mapMonitor φ, (rb.drain mode root fuel (w, statistics)).2) := by
  induction fuel generalizing w statistics with
  | zero => rfl
  | succ fuel ih =>
    rw [drain, next_mapMonitor, drain]
    rcases w.next root with ⟨_ | c, w⟩
    · exact congrArg (·, statistics) (update_mapMonitor _)
    · dsimp only
      rw [process_mapMonitor hφ, ih]

private theorem work_mapMonitor (rb : RuleBase) (mode : Mode) (limit fuel : Nat) (statistics : Statistics) :
    rb.work mode limit fuel (w.mapMonitor φ, statistics) =
      ((rb.work mode limit fuel (w, statistics)).1.mapMonitor φ, (rb.work mode limit fuel (w, statistics)).2) := by
  induction fuel generalizing w statistics with
  | zero => rfl
  | succ fuel ih =>
    rw [work, look_mapMonitor hφ, work]
    rcases w.look with ⟨_ | _, w⟩
    · dsimp only
      rw [poll_mapMonitor]
      rcases w.poll with ⟨_ | root, w⟩
      · rfl
      · dsimp only
        rw [drain_mapMonitor hφ, ih]
    · rfl

/-- A run goes on and is interrupted where it would be anyway. -/
theorem run_mapMonitor (rb : RuleBase) (mode : Mode) :
    rb.run mode (w.mapMonitor φ) = ((rb.run mode w).1, (rb.run mode w).2.mapMonitor φ) := by
  have hbound : rb.workBound (w.mapMonitor φ) = rb.workBound w := rfl
  unfold run
  dsimp only
  rw [hbound, work_mapMonitor hφ]
  generalize rb.work mode (rb.workBound w) (rb.workBound w) (w, []) = state
  dsimp only
  rw [look_mapMonitor hφ]
  rcases state.1.look with ⟨_ | _, w⟩
  · cases mode <;> rfl
  · rfl

end RuleBase

/-! ### Maintenance -/

namespace Workspace

variable {φ : Monitor → Monitor} {w : Workspace}

theorem grow_mapMonitor (size : Nat) : (w.mapMonitor φ).grow size = (w.grow size).mapMonitor φ := rfl

theorem seed_mapMonitor (conclusions : ExprId → Facts → List Conclusion) :
    (w.mapMonitor φ).seed conclusions = (w.seed conclusions).mapMonitor φ := by
  refine List.foldl_hom (mapMonitor φ) fun w root => ?_
  rw [context?_mapMonitor]
  cases w.context? root with
  | none => rfl
  | some ctx => exact enqueueAll_mapMonitor _

theorem seedRemoved_mapMonitor (roles : RoleHierarchy) (removed : List Contribution) :
    (w.mapMonitor φ).seedRemoved roles removed = (w.seedRemoved roles removed).mapMonitor φ := seed_mapMonitor _

theorem seedAdded_mapMonitor (added : List Contribution) (cleaned : List ExprId) :
    (w.mapMonitor φ).seedAdded added cleaned = (w.seedAdded added cleaned).mapMonitor φ := by
  unfold seedAdded
  exact seed_mapMonitor _

theorem seedCleaning_mapMonitor (roots : List ExprId) :
    (w.mapMonitor φ).seedCleaning roots = (w.seedCleaning roots).mapMonitor φ := by
  refine List.foldl_hom (mapMonitor φ) fun w root => ?_
  rw [context?_mapMonitor]
  cases w.context? root with
  | none => rfl
  | some ctx => exact enqueueAll_mapMonitor _

theorem restart_mapMonitor (cleaned : List ExprId) :
    (w.mapMonitor φ).restart cleaned = (w.restart cleaned).mapMonitor φ := by
  refine List.foldl_hom (mapMonitor φ) fun w root => ?_
  rw [clearContext, update_mapMonitor, enqueue_mapMonitor]
  rfl

theorem replay_mapMonitor (rb : RuleBase) (cleaned : List ExprId) :
    rb.replay cleaned (w.mapMonitor φ) = (rb.replay cleaned w).mapMonitor φ := by
  refine List.foldl_hom (mapMonitor φ) fun w root => ?_
  rw [context?_mapMonitor]
  cases w.context? root with
  | none => rfl
  | some ctx => exact List.foldl_hom (mapMonitor φ) fun _ _ => enqueue_mapMonitor

theorem takeModified_mapMonitor :
    (w.mapMonitor φ).takeModified = (w.takeModified.1, w.takeModified.2.mapMonitor φ) := by
  have hall (roots : List ExprId) :
      roots.foldl (fun w root => w.update root fun c => { c with modified := false }) (w.mapMonitor φ) =
        (roots.foldl (fun w root => w.update root fun c => { c with modified := false }) w).mapMonitor φ :=
    List.foldl_hom (mapMonitor φ) fun _ _ => update_mapMonitor _
  unfold takeModified
  rw [show (w.mapMonitor φ).modified = w.modified from rfl]
  dsimp only
  rw [hall]
  rfl

end Workspace

end ELOntology
