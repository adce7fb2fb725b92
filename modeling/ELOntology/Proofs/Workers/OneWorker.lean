import ELOntology.Proofs.Saturation.Termination
import ELOntology.Proofs.Workers.Protocol

/-!
# A run with one worker

`RuleBase.run` lets one worker take all turns.  Seen as a workspace that workers share, it makes the moves of a crew of one:
each tick of a run is a few moves (`Alone.of_tick`), and so is a whole run, after which the worker leaves (`Crew.run_leaves`).
-/

namespace ELOntology

namespace Workspace

/-- The workspace as a crew of one busy worker sees it. -/
def shared (w : Workspace) : Shared where
  todo root := ((w.context? root).map (·.todo.toList)).getD []
  active root := ((w.context? root).map (·.active)).getD false
  waiting := w.active.toList
  busy := 1

variable {w w' : Workspace} {root : ExprId} {c : Conclusion}

/-- Only facts, marks and the monitor differ. -/
theorem shared_congr (hactive : w'.active = w.active) (hcontext : ∀ root,
    (w'.context? root).map (fun ctx => (ctx.todo.toList, ctx.active)) =
      (w.context? root).map fun ctx => (ctx.todo.toList, ctx.active)) : w'.shared = w.shared := by
  have htodo (root : ExprId) : (w'.context? root).map (·.todo.toList) = (w.context? root).map (·.todo.toList) := by
    have h := congrArg (Option.map Prod.fst) (hcontext root)
    rwa [Option.map_map, Option.map_map] at h
  have hflag (root : ExprId) : (w'.context? root).map (·.active) = (w.context? root).map (·.active) := by
    have h := congrArg (Option.map Prod.snd) (hcontext root)
    rwa [Option.map_map, Option.map_map] at h
  unfold shared
  rw [hactive]
  congr 1
  · exact funext fun root => by rw [htodo]
  · exact funext fun root => by rw [hflag]

theorem shared_of_contexts (hcontexts : w'.contexts = w.contexts) (hactive : w'.active = w.active) :
    w'.shared = w.shared := shared_congr hactive fun _ => congrArg _ (context?_congr hcontexts)

theorem shared_still : w.still.shared = w.shared := by
  refine shared_congr rfl fun root => ?_
  rw [context?_still, Option.map_map]
  rfl

theorem shared_observe (inference : Inference) : (w.observe inference).shared = w.shared := shared_of_contexts rfl rfl

theorem shared_update {f : Context → Context} (htodo : ∀ ctx, (f ctx).todo = ctx.todo)
    (hflag : ∀ ctx, (f ctx).active = ctx.active) (root : ExprId) : (w.update root f).shared = w.shared := by
  refine shared_congr ?_ fun other => ?_
  · exact active_update _
  · rw [context?_update]
    split <;> rename_i e
    · rw [e, Option.map_map]
      exact congrArg (Option.map · (w.context? root)) (funext fun ctx => by simp [htodo, hflag])
    · rfl

theorem shared_markModified (root : ExprId) : (w.markModified root).shared = w.shared := by
  obtain ⟨_, e⟩ := w.exists_markModified_eq root
  rw [e]
  refine (shared_of_contexts rfl rfl).trans ?_
  exact shared_update (f := fun ctx => { ctx with saturated := false, modified := true }) (fun _ => rfl) (fun _ => rfl) root

/-- What the worker sees of a workspace in which one context is replaced. -/
theorem shared_put {ctx : Context} (hlt : root.val < w.contexts.size) : (w.put root ctx).shared =
    { w.shared with
      todo := Function.update w.shared.todo root ctx.todo.toList
      active := Function.update w.shared.active root ctx.active } := by
  unfold shared
  congr 1
  · funext other
    rw [context?_put hlt]
    by_cases e : other = root
    · rw [if_pos e, e, Function.update_self]
      rfl
    · rw [if_neg e, Function.update_of_ne e]
  · funext other
    rw [context?_put hlt]
    by_cases e : other = root
    · rw [if_pos e, e, Function.update_self]
      rfl
    · rw [if_neg e, Function.update_of_ne e]

/-- It does not see that only the facts or marks of a context are replaced. -/
theorem shared_replace {ctx ctx' : Context} (hctx : w.context? root = some ctx) (htodo : ctx'.todo = ctx.todo)
    (hflag : ctx'.active = ctx.active) : (w.put root ctx').shared = w.shared := by
  have hold : w.shared.todo root = ctx'.todo.toList := by simp [shared, hctx, htodo]
  have hactive : w.shared.active root = ctx'.active := by simp [shared, hctx, hflag]
  rw [shared_put (Has.lt_size ⟨ctx, hctx⟩), ← hold, ← hactive, Function.update_eq_self, Function.update_eq_self]

/-- What the worker sees after a conclusion was taken from a queue. -/
theorem shared_take {ctx : Context} (hctx : w.context? root = some ctx) (rest : Queue Conclusion) :
    (w.put root { ctx with todo := rest }).shared =
      { w.shared with todo := Function.update w.shared.todo root rest.toList } := by
  have hactive : w.shared.active root = ctx.active := by simp [shared, hctx]
  rw [shared_put (Has.lt_size ⟨ctx, hctx⟩)]
  dsimp only
  rw [← hactive, Function.update_eq_self]

/-- What the worker sees after a context was deactivated.  Where there is no context, it sees an inactive one. -/
theorem shared_deactivate (root : ExprId) :
    (w.deactivate root).shared = { w.shared with active := Function.update w.shared.active root false } := by
  unfold deactivate update
  cases hctx : w.context? root with
  | none =>
    have hflag : w.shared.active root = false := by simp [shared, hctx]
    show w.shared = Shared.mk _ (Function.update w.shared.active root false) _ _
    rw [← hflag, Function.update_eq_self]
  | some ctx =>
    have htodo : w.shared.todo root = ctx.todo.toList := by simp [shared, hctx]
    dsimp only
    rw [shared_put (Has.lt_size ⟨ctx, hctx⟩)]
    dsimp only
    rw [← htodo, Function.update_eq_self]

/-- What the worker sees after a conclusion was given to an active context. -/
theorem shared_enqueue_of_active (hhas : w.Has root) (hactive : w.shared.active root = true) :
    (w.enqueue root c).shared =
      { w.shared with todo := Function.update w.shared.todo root (w.shared.todo root ++ [c]) } := by
  obtain ⟨ctx, hctx⟩ := hhas
  have htodo : w.shared.todo root = ctx.todo.toList := by simp [shared, hctx]
  have hflag : ctx.active = true := by simpa [shared, hctx] using hactive
  unfold enqueue
  rw [hctx]
  dsimp only
  rw [if_pos hflag, shared_put (Has.lt_size ⟨ctx, hctx⟩), Queue.toList_push, htodo]
  exact congrArg (Shared.mk _ · _ _) (hactive ▸ Function.update_eq_self root w.shared.active)

/-- What the worker sees after a conclusion was given to an idle context. -/
theorem shared_enqueue_of_idle (hhas : w.Has root) (hidle : w.shared.active root = false) :
    (w.enqueue root c).shared =
      { w.shared with
        todo := Function.update w.shared.todo root (w.shared.todo root ++ [c])
        active := Function.update w.shared.active root true
        waiting := w.shared.waiting ++ [root] } := by
  obtain ⟨ctx, hctx⟩ := hhas
  have htodo : w.shared.todo root = ctx.todo.toList := by simp [shared, hctx]
  have hflag : ¬ ctx.active = true := by simpa [shared, hctx] using hidle
  have hput : (w.put root { ctx with todo := ctx.todo.push c, active := true }).shared = _ := shared_put (Has.lt_size ⟨ctx, hctx⟩)
  rw [Queue.toList_push, ← htodo] at hput
  unfold enqueue
  rw [hctx]
  dsimp only
  rw [if_neg hflag]
  have hwaiting : (w.active.push root).toList = w.shared.waiting ++ [root] := Queue.toList_push root w.active
  exact congr (congrArg (fun s : Shared => Shared.mk s.todo s.active) hput) hwaiting ▸ rfl

end Workspace

namespace Crew.Run

variable {crew crew' : Crew} {events events' : List Event} {s s' : Shared} {p p' : Phase}

private theorem alone (h : Run crew events ⟨s, [p]⟩) (hmove : Move s p events' s' p') :
    Run crew (events ++ events') ⟨s', [p']⟩ :=
  h.tail (@Step.move s s' [] [] p p' events' hmove)

theorem trans {crew'' : Crew} (h : Run crew events crew') (h' : Run crew' events' crew'') :
    Run crew (events ++ events') crew'' := by
  induction h' with
  | refl => rwa [List.append_nil]
  | tail _ hstep ih => exact List.append_assoc .. ▸ ih.tail hstep

end Crew.Run

/-- A crew of one gets from one workspace and phase to others. -/
def Alone (w : Workspace) (p : Phase) (w' : Workspace) (p' : Phase) : Prop :=
  ∃ events, Crew.Run ⟨w.shared, [p]⟩ events ⟨w'.shared, [p']⟩

namespace Alone

variable {w w' w'' : Workspace} {p p' p'' : Phase} {root target : ExprId} {c : Conclusion}

theorem refl (w : Workspace) (p : Phase) : Alone w p w p := ⟨[], .refl⟩

theorem trans (h : Alone w p w' p') (h' : Alone w' p' w'' p'') : Alone w p w'' p'' := by
  obtain ⟨events, h⟩ := h
  obtain ⟨events', h'⟩ := h'
  exact ⟨events ++ events', h.trans h'⟩

/-- The worker makes its next move. -/
theorem move {events : List Event} {s' : Shared} (h : Alone w p w' p') (hmove : Move w'.shared p' events s' p'')
    (hshared : w''.shared = s') : Alone w p w'' p'' := by
  obtain ⟨events, h⟩ := h
  exact ⟨_, hshared ▸ h.alone hmove⟩

theorem congr (h : Alone w p w' p') (hshared : w''.shared = w'.shared) : Alone w p w'' p' := by
  obtain ⟨events, h⟩ := h
  exact ⟨events, hshared ▸ h⟩

theorem congr_left (h : Alone w p w' p') (hshared : w''.shared = w.shared) : Alone w'' p w' p' := by
  obtain ⟨events, h⟩ := h
  exact ⟨events, hshared ▸ h⟩

/-- The worker pushes a production to a context, which it activates and queues unless it is active. -/
theorem enqueue (hhas : w.Has target) (unsent : List Production) :
    Alone w (.draining root ((target, c) :: unsent)) (w.enqueue target c) (.draining root unsent) := by
  have hpush := (Crew.Run.refl : Crew.Run ⟨w.shared, [.draining root ((target, c) :: unsent)]⟩ _ _).alone .push
  cases hactive : w.shared.active target with
  | true =>
    have hfind := hpush.alone (.findActive hactive)
    rw [← Workspace.shared_enqueue_of_active hhas hactive] at hfind
    exact ⟨_, hfind⟩
  | false =>
    have hqueue := (hpush.alone (.activate hactive)).alone .queue
    rw [← Workspace.shared_enqueue_of_idle hhas hactive] at hqueue
    exact ⟨_, hqueue⟩

/-- The worker sends productions on.  It passes over those for which there is no context, and creating a context is one
production more. -/
theorem sendAll (mode : Mode) (productions : List Production) (w : Workspace) (root : ExprId) :
    ∃ sent, Alone w (.draining root sent) (RuleBase.sendAll mode productions w) (.draining root []) := by
  have henqueue (target : ExprId) (c : Conclusion) (w : Workspace) : ∃ sent, ∀ unsent,
      Alone w (.draining root (sent ++ unsent)) (w.enqueue target c) (.draining root unsent) := by
    rcases w.has_or_none target with hhas | hnone
    · exact ⟨[(target, c)], fun unsent => enqueue hhas unsent⟩
    · refine ⟨[], fun unsent => ?_⟩
      rw [Workspace.enqueue, hnone]
      exact refl w _
  have hensure (target : ExprId) (w : Workspace) : ∃ sent, ∀ unsent,
      Alone w (.draining root (sent ++ unsent)) (w.ensure target) (.draining root unsent) := by
    obtain e | ⟨hnone, hlt, e⟩ := w.ensure_cases target <;> rw [e]
    · exact ⟨[], fun unsent => refl w _⟩
    · -- a context that was just created looks like one that does not exist
      have hnew : (w.put target .new).shared = w.shared := by
        have htodo : w.shared.todo target = [] := by simp [Workspace.shared, hnone]
        have hflag : w.shared.active target = false := by simp [Workspace.shared, hnone]
        rw [Workspace.shared_put hlt]
        show Shared.mk (Function.update _ target []) (Function.update _ target false) _ _ = w.shared
        rw [← htodo, ← hflag, Function.update_eq_self, Function.update_eq_self]
      obtain ⟨sent, hsent⟩ := henqueue target .init (w.put target .new)
      exact ⟨sent, fun unsent => ((hsent unsent).congr_left hnew.symm).congr rfl⟩
  have hsend (target : ExprId) (c : Conclusion) (w : Workspace) : ∃ sent, ∀ unsent,
      Alone w (.draining root (sent ++ unsent)) (w.send mode target c) (.draining root unsent) := by
    cases mode with
    | retract => exact henqueue target c w
    | derive =>
      obtain ⟨created, hcreated⟩ := hensure target w
      obtain ⟨sent, hsent⟩ := henqueue target c (w.ensure target)
      refine ⟨created ++ sent, fun unsent => ?_⟩
      rw [List.append_assoc]
      exact (hcreated _).trans (hsent _)
  induction productions generalizing w with
  | nil => exact ⟨[], refl w _⟩
  | cons production productions ih =>
    obtain ⟨sent, hsent⟩ := hsend production.1 production.2 w
    obtain ⟨rest, hrest⟩ := ih (w.send mode production.1 production.2)
    exact ⟨sent ++ rest, (hsent rest).trans hrest⟩

/-- The worker processes a conclusion. -/
theorem process (rb : RuleBase) (mode : Mode) (root target : ExprId) (c : Conclusion) (w : Workspace) :
    ∃ sent, Alone w (.draining root sent) (rb.process mode target c w).2 (.draining root []) := by
  obtain e | ⟨ctx, -, hctx, -, e⟩ | ⟨ctx, -, hctx, -, e⟩ := rb.process_cases mode target c w <;> rw [e]
  · exact ⟨[], refl w _⟩
  · have hput : (w.put target { ctx with facts := ctx.facts.insert c, saturated := false }).shared = w.shared :=
      Workspace.shared_replace hctx rfl rfl
    rw [RuleBase.takeIn]
    generalize rb.productions .derive target (ctx.facts.insert c) c = productions
    generalize w.put target { ctx with facts := ctx.facts.insert c, saturated := false } = w₁ at hput ⊢
    obtain ⟨sent, hsent⟩ := sendAll .derive productions (w₁.observe ⟨target, c, .derive⟩) root
    exact ⟨sent, hsent.congr_left (hput.symm.trans (Workspace.shared_observe _).symm)⟩
  · rw [RuleBase.giveUp]
    generalize rb.productions .retract target ctx.facts c = productions
    obtain ⟨sent, hsent⟩ := sendAll .retract productions (w.observe ⟨target, c, .retract⟩) root
    refine ⟨sent, (hsent.congr_left (Workspace.shared_observe _).symm).congr ?_⟩
    generalize RuleBase.sendAll .retract productions (w.observe ⟨target, c, .retract⟩) = w₁
    rw [Workspace.shared_markModified]
    exact Workspace.shared_update (f := fun ctx => { ctx with facts := ctx.facts.erase c }) (fun _ => rfl) (fun _ => rfl) target

/-- The worker finds nothing, deactivates the context, and finds nothing again. -/
theorem finish (hnone : w.shared.todo root = []) : Alone w (.draining root []) (w.deactivate root) .checking := by
  have hclosed := ((refl w (.draining root [])).move (.finish hnone) rfl).move .deactivate (Workspace.shared_deactivate root)
  refine hclosed.move (.findNothing ?_) rfl
  rw [Workspace.shared_deactivate]
  exact hnone

/-- The phase of the worker between two ticks. -/
def phase : Option ExprId → Phase
  | none => .checking
  | some root => .draining root []

/-- A tick is a few moves. -/
theorem of_tick {rb : RuleBase} {mode : Mode} {busy busy' : Option ExprId}
    (h : rb.tick mode (busy, w) = some (busy', w')) : Alone w (phase busy) w' (phase busy') := by
  cases busy with
  | none =>
    rw [RuleBase.tick] at h
    rcases hpoll : w.poll with ⟨_ | root, w₁⟩ <;> rw [hpoll] at h <;> cases h
    obtain ⟨rest, hwaiting, rfl⟩ := Workspace.poll_eq_some hpoll
    exact ((refl w .checking).move .proceed rfl).move (.take hwaiting) rfl
  | some root =>
    rw [RuleBase.tick] at h
    rcases hnext : w.next root with ⟨_ | c, w₁⟩ <;> rw [hnext] at h <;> cases h
    · obtain ⟨rfl, htodo⟩ := Workspace.next_eq_none hnext
      refine finish ?_
      cases hctx : w₁.context? root with
      | none => simp [Workspace.shared, hctx]
      | some ctx => simp [Workspace.shared, hctx, htodo ctx hctx]
    · obtain ⟨ctx, rest, hctx, hpop, rfl⟩ := Workspace.next_eq_some hnext
      have htodo : w.shared.todo root = c :: rest.toList := by simp [Workspace.shared, hctx, hpop]
      obtain ⟨sent, hsent⟩ := process rb mode root root c (w.put root { ctx with todo := rest })
      exact ((refl w (.draining root [])).move (.poll htodo sent) (Workspace.shared_take hctx rest)).trans hsent

theorem of_ticks {rb : RuleBase} {mode : Mode} {busy busy' : Option ExprId}
    (h : rb.Ticks mode (busy, w) (busy', w')) : Alone w (phase busy) w' (phase busy') := by
  suffices ∀ state, rb.Ticks mode (busy, w) state → Alone w (phase busy) state.2 (phase state.1) from this _ h
  intro state hticks
  induction hticks with
  | refl => exact refl w _
  | tail _ htick ih => exact ih.trans (of_tick htick)

end Alone

namespace Crew

variable {rb : RuleBase} {w : Workspace}

/-- A run, interrupted or not, is one of a crew of one that starts where the run does. -/
theorem run_alone (rb : RuleBase) (mode : Mode) (w : Workspace) :
    ∃ events, Run (start 1 w.shared) events ⟨(rb.run mode w).2.shared, [.checking]⟩ := by
  obtain ⟨events, hrun⟩ := Alone.of_ticks (rb.ticks_run mode w)
  rw [Workspace.shared_still, Workspace.shared_still] at hrun
  have henter : Run (start 1 w.shared) _ ⟨w.shared, [.checking]⟩ := Run.refl.alone .enter
  exact ⟨_, henter.trans hrun⟩

/-- After a run that was not interrupted the worker finds nothing to do, leaves the count and is done. -/
theorem run_leaves (mode : Mode) (h : (rb.run mode w).1.isSome = true) :
    ∃ events, Run (start 1 w.shared) events ⟨{ (rb.run mode w).2.shared with busy := 0 }, [.left]⟩ := by
  obtain ⟨events, hrun⟩ := run_alone rb mode w
  have hwaiting : (rb.run mode w).2.shared.waiting = [] := RuleBase.active_run h
  have hleave := ((hrun.alone .proceed).alone (.findNone hwaiting)).alone .leave
  exact ⟨_, (((hleave.alone .stay).alone (.seeNone hwaiting)).alone (.countNone rfl)).alone (.confirmNone hwaiting)⟩

end Crew

end ELOntology
