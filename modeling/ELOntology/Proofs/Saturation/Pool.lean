import ELOntology.Proofs.Saturation.Schedule

/-!
# Runs of several workers

The workers of a pool share a workspace.  A worker takes the turn of an active context, processes conclusions that wait
there, and gives the turn up.  Any worker may move at any time, and it may take any of the active contexts and process any of
the conclusions that wait, since the order of a queue depends on who was first to put something in (`Pool.Move`).

No two workers are at one context, and of a context where a worker is the others see nothing but the queue.  So a conclusion
is processed at once: had a production been sent later, its context would have been left in the meantime and be active again
now (`Pool.Move.handBack`).  Numbering an inference and keeping it are two moves, since the recorder is shared by all.

A `Course` is what may come out of a run like this, finished or interrupted, and an engine is lawful if all its runs are
courses.  Key facts: `Course.chain` (whatever a course does is in a relation that covers single moves), `Course.steps`,
`Course.scheduled` and `Course.quiet`.
-/

namespace ELOntology

/-- `w₀` is `w` after a conclusion that waits in the context of a root was taken from its queue, whichever it is. -/
inductive Workspace.Picks (w : Workspace) (root : ExprId) (c : Conclusion) : Workspace → Prop
  | pick {ctx : Context} {before after : List Conclusion} {rest : Queue Conclusion} (hctx : w.context? root = some ctx)
      (htodo : ctx.todo.toList = before ++ c :: after) (hrest : rest.toList = before ++ after) :
      w.Picks root c (w.put root { ctx with todo := rest })

/-- Replace what has been recorded. -/
def Workspace.setRecorder (recorder : Recorder) (w : Workspace) : Workspace :=
  { w with monitor := { w.monitor with recorder := some recorder } }

/-- What is left when a run has come to its end. -/
def Workspace.close (mode : Mode) (w : Workspace) : Workspace :=
  match mode with
  | .derive => w.markSaturated
  | .retract => w

/-- A workspace that workers share. -/
structure Pool where
  workspace : Workspace
  /-- The contexts that workers are at. -/
  busy : List ExprId
  /-- The inferences that have been numbered and are to be kept, with their numbers. -/
  numbered : List (Nat × Inference)

namespace Pool

/-- No worker is at a context. -/
def idle (w : Workspace) : Pool := ⟨w, [], []⟩

/-- A worker is at the context of a root, and between two conclusions. -/
structure Free (p : Pool) (root : ExprId) : Prop where
  busy : root ∈ p.busy
  settled (entry : Nat × Inference) : entry ∈ p.numbered → entry.2.root ≠ root

/-- What a worker may do next. -/
inductive Move (workers : Nat) (rb : RuleBase) (mode : Mode) (p : Pool) : Pool → Prop
  /-- It looks whether it should stop. -/
  | look : Move workers rb mode p { p with workspace := p.workspace.look.2 }
  /-- It takes the turn of an active context that no other worker is at. -/
  | take {root : ExprId} {before after : List ExprId} {rest : Queue ExprId} (hworkers : p.busy.length < max workers 1)
      (hactive : p.workspace.active.toList = before ++ root :: after) (hrest : rest.toList = before ++ after)
      (hroot : root ∉ p.busy) :
      Move workers rb mode p { p with workspace := { p.workspace with active := rest }, busy := root :: p.busy }
  /-- It processes a conclusion. -/
  | process {root : ExprId} {c : Conclusion} {w₀ : Workspace} (hfree : p.Free root) (hpick : p.workspace.Picks root c w₀) :
      Move workers rb mode p { p with workspace := (rb.process mode root c w₀).2 }
  /-- It numbers a conclusion that will change the context and be recorded. -/
  | number {root : ExprId} {c : Conclusion} {w₀ : Workspace} {recorder : Recorder} (hfree : p.Free root)
      (hpick : p.workspace.Picks root c w₀) (hchanges : (rb.process mode root c w₀).1 = true)
      (hobserver : p.workspace.monitor.observer = some .recorder)
      (hrecorder : p.workspace.monitor.recorder = some recorder) :
      Move workers rb mode p
        { p with
          workspace := p.workspace.setRecorder recorder.number.2
          numbered := (recorder.number.1, ⟨root, c, mode⟩) :: p.numbered }
  /-- It keeps the record of a conclusion it has numbered, and processes it. -/
  | keep {number : Nat} {root : ExprId} {c : Conclusion} {w₀ : Workspace} {recorder : Recorder}
      (hnumbered : (number, ⟨root, c, mode⟩) ∈ p.numbered) (hpick : p.workspace.Picks root c w₀)
      (hchanges : (rb.process mode root c w₀).1 = true) (hrecorder : p.workspace.monitor.recorder = some recorder) :
      Move workers rb mode p
        { p with
          workspace := (rb.process mode root c w₀).2.setRecorder (recorder.keep number ⟨root, c, mode⟩)
          numbered := p.numbered.erase (number, ⟨root, c, mode⟩) }
  /-- It gives up the turn of a context that has nothing left to do. -/
  | finish {root : ExprId} (hfree : p.Free root) (hnone : ∀ c, ¬ p.workspace.Waits root c) :
      Move workers rb mode p { p with workspace := p.workspace.deactivate root, busy := p.busy.erase root }
  /-- It leaves a context that got something more to do, which waits for its turn again. -/
  | handBack {root : ExprId} (hfree : p.Free root) :
      Move workers rb mode p
        { p with
          workspace := { p.workspace with active := p.workspace.active.push root }
          busy := p.busy.erase root }

/-- Any number of moves. -/
abbrev Moves (workers : Nat) (rb : RuleBase) (mode : Mode) : Pool → Pool → Prop :=
  Relation.ReflTransGen (Move workers rb mode)

end Pool

/-- What may come out of a run: when no worker is at a context any more, the run was interrupted or has come to its end. -/
inductive Course (workers : Nat) (rb : RuleBase) (mode : Mode) (w : Workspace) : Option Statistics × Workspace → Prop
  | interrupted {w₁ w₂ : Workspace} (hmoves : Pool.Moves workers rb mode (.idle w) (.idle w₁))
      (hlook : w₁.look = (true, w₂)) : Course workers rb mode w (none, w₂)
  | finished {w₁ w₂ : Workspace} (statistics : Statistics) (hmoves : Pool.Moves workers rb mode (.idle w) (.idle w₁))
      (hactive : w₁.active.toList = []) (hlook : w₁.look = (false, w₂)) :
      Course workers rb mode w (some statistics, w₂.close mode)

/-- All runs of the engine are courses. -/
def Engine.Lawful (e : Engine) : Prop := ∀ workers rb mode w, Course workers rb mode w (e.run workers rb mode w)

variable {workers : Nat} {rb : RuleBase} {mode : Mode} {w w₀ : Workspace} {root : ExprId} {c : Conclusion}

namespace Workspace.Picks

theorem popped (h : w.Picks root c w₀) : Popped w root c w₀ := by
  cases h with
  | pick hctx htodo hrest => exact .put hctx htodo hrest

theorem scheduled {busy : List ExprId} (h : w.Picks root c w₀) (hs : Scheduled busy w) : Scheduled busy w₀ := by
  cases h with
  | pick hctx htodo hrest => exact hs.pick hctx (by simp [htodo]) _

theorem monitor (h : w.Picks root c w₀) : w₀.monitor = w.monitor := by
  cases h
  rfl

theorem next (h : w.next root = (some c, w₀)) : w.Picks root c w₀ := by
  obtain ⟨ctx, rest, hctx, htodo, rfl⟩ := Workspace.next_eq_some h
  have htake : ctx.todo.toList = [] ++ c :: rest.toList := htodo
  exact .pick hctx htake rfl

end Workspace.Picks

/-- Whatever workers do is in the relation. -/
structure RuleBase.Covers (rb : RuleBase) (mode : Mode) (R : Workspace → Workspace → Prop) : Prop where
  process {w w₀ : Workspace} {root : ExprId} {c : Conclusion} : w.Picks root c w₀ → R w (rb.process mode root c w₀).2
  deactivate (root : ExprId) (w : Workspace) : R w (w.deactivate root)
  /-- Turns and the monitor may change. -/
  schedule {w w' : Workspace} : w'.contexts = w.contexts → w'.modified = w.modified → R w w'
  markSaturated (w : Workspace) : mode = .derive → R w w.markSaturated

namespace RuleBase.Covers

variable {R : Workspace → Workspace → Prop} {p p' : Pool}

theorem move (h : rb.Covers mode R) (hmove : Pool.Move workers rb mode p p') :
    Relation.ReflTransGen R p.workspace p'.workspace := by
  cases hmove with
  | look | take | number | handBack => exact .single (h.schedule rfl rfl)
  | process _ hpick => exact .single (h.process hpick)
  | keep _ hpick => exact .tail (.single (h.process hpick)) (h.schedule rfl rfl)
  | finish => exact .single (h.deactivate _ _)

theorem moves (h : rb.Covers mode R) (hmoves : Pool.Moves workers rb mode p p') :
    Relation.ReflTransGen R p.workspace p'.workspace := by
  induction hmoves with
  | refl => exact .refl
  | tail _ hmove ih => exact ih.trans (h.move hmove)

end RuleBase.Covers

theorem Scheduled.move {p p' : Pool} (h : Scheduled p.busy p.workspace) (hmove : Pool.Move workers rb mode p p') :
    Scheduled p'.busy p'.workspace := by
  cases hmove with
  | look => exact h.of_contexts rfl rfl
  | take _ hactive hrest => exact h.take hactive hrest
  | process _ hpick => exact (hpick.scheduled h).process rb mode _ _
  | number => exact h.of_contexts rfl rfl
  | keep _ hpick => exact ((hpick.scheduled h).process rb mode _ _).of_contexts rfl rfl
  | finish _ hnone => exact h.finish hnone
  | handBack => exact h.handBack _

theorem Scheduled.moves {p p' : Pool} (h : Scheduled p.busy p.workspace) (hmoves : Pool.Moves workers rb mode p p') :
    Scheduled p'.busy p'.workspace := by
  induction hmoves with
  | refl => exact h
  | tail _ hmove ih => exact ih.move hmove

theorem Scheduled.close (h : Scheduled [] w) (mode : Mode) : Scheduled [] (w.close mode) := by
  cases mode with
  | retract => exact h
  | derive =>
    refine h.congr rfl fun root => ?_
    simp only [Workspace.close, Workspace.markSaturated, Workspace.context?, Array.getElem?_map]
    cases w.contexts[root.val]? with
    | none => rfl
    | some ctx => cases ctx <;> rfl

namespace Course

variable {result : Option Statistics × Workspace}

/-- A course is a chain of what workers do. -/
theorem chain {R : Workspace → Workspace → Prop} (hR : rb.Covers mode R) (h : Course workers rb mode w result) :
    Relation.ReflTransGen R w result.2 := by
  cases h with
  | @interrupted w₁ w₂ hmoves hlook =>
    obtain rfl : w₁.look.2 = w₂ := by rw [hlook]
    exact (hR.moves hmoves).tail (hR.schedule rfl rfl)
  | @finished w₁ w₂ statistics hmoves hactive hlook =>
    obtain rfl : w₁.look.2 = w₂ := by rw [hlook]
    have hlooked : Relation.ReflTransGen R w w₁.look.2 := (hR.moves hmoves).tail (hR.schedule rfl rfl)
    cases mode with
    | derive => exact hlooked.tail (hR.markSaturated _ rfl)
    | retract => exact hlooked

/-- A course takes steps in some order. -/
theorem steps (h : Course workers rb mode w result) : Steps rb mode w result.2 := by
  refine h.chain ⟨fun hpick => ?_, fun root w => ?_, fun hcontexts hmodified => ?_, fun w _ => ?_⟩
  · cases hpick with
    | pick hctx htodo hrest => exact .process hctx htodo hrest
  · exact .schedule (.deactivate root)
  · exact .schedule (.of_contexts hcontexts hmodified)
  · exact .schedule .markSaturated

/-- After a course, finished or interrupted, every context that has something to do waits for its turn. -/
theorem scheduled (h : Course workers rb mode w result) (hs : Scheduled [] w) : Scheduled [] result.2 := by
  cases h with
  | @interrupted w₁ w₂ hmoves hlook =>
    obtain rfl : w₁.look.2 = w₂ := by rw [hlook]
    exact (Scheduled.moves hs hmoves).of_contexts rfl rfl
  | @finished w₁ w₂ statistics hmoves hactive hlook =>
    obtain rfl : w₁.look.2 = w₂ := by rw [hlook]
    have hlooked : Scheduled [] w₁.look.2 := (Scheduled.moves hs hmoves).of_contexts rfl rfl
    exact hlooked.close mode

/-- A course that was not interrupted leaves no context active. -/
theorem active_eq_nil (h : Course workers rb mode w result) (hsome : result.1.isSome = true) :
    result.2.active.toList = [] := by
  cases h with
  | interrupted => cases hsome
  | @finished w₁ w₂ statistics hmoves hactive hlook =>
    obtain rfl : w₁.look.2 = w₂ := by rw [hlook]
    cases mode <;> exact hactive

/-- A course that was not interrupted leaves nothing to do. -/
theorem quiet (h : Course workers rb mode w result) (hs : Scheduled [] w) (hsome : result.1.isSome = true) :
    result.2.Quiet := (h.scheduled hs).quiet (h.active_eq_nil hsome)

/-- What comes out of a run when some moves have been made may come out of the whole run. -/
theorem of_moves {w' : Workspace} (hmoves : Pool.Moves workers rb mode (.idle w) (.idle w'))
    (h : Course workers rb mode w' result) : Course workers rb mode w result := by
  cases h with
  | interrupted hmoves' hlook => exact .interrupted (hmoves.trans hmoves') hlook
  | finished statistics hmoves' hactive hlook => exact .finished statistics (hmoves.trans hmoves') hactive hlook

theorem has (h : Course workers rb mode w result) (hroot : w.Has root) : result.2.Has root := h.steps.has hroot

theorem size (h : Course workers rb mode w result) : result.2.contexts.size = w.contexts.size := by
  refine h.steps.preserve (P := fun v => v.contexts.size = w.contexts.size) (fun v v' hv hstep => ?_) rfl
  cases hstep with
  | process => rw [Workspace.size_process, Workspace.size_put, hv]
  | schedule hsame => rw [hsame.size, hv]

end Course

end ELOntology
