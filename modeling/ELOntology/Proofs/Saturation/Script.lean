import ELOntology.Proofs.Saturation.Termination

/-!
# Runs by a script

An order in which workers move can be written down action by action, and be followed as far as the actions are moves
(`Pool.follow?`).  A scripted engine starts a run by its script and leaves the rest to one worker, so it is lawful whatever
its script says.

Key facts: `Pool.moves_of_follow?` and `Engine.lawful_scripted`.
-/

namespace ELOntology

/-- Take a conclusion that waits in the context of a root from its queue, wherever it stands there. -/
def Workspace.pick? (root : ExprId) (c : Conclusion) (w : Workspace) : Option Workspace :=
  match w.context? root with
  | none => none
  | some ctx =>
    if c ∈ ctx.todo.toList then some (w.put root { ctx with todo := ⟨ctx.todo.toList.erase c, []⟩ }) else none

theorem Workspace.Picks.of_pick? {w w₀ : Workspace} {root : ExprId} {c : Conclusion} (h : w.pick? root c = some w₀) :
    w.Picks root c w₀ := by
  unfold Workspace.pick? at h
  cases hctx : w.context? root with
  | none =>
    rw [hctx] at h
    cases h
  | some ctx =>
    rw [hctx] at h
    obtain ⟨hc, rfl⟩ := Option.ite_none_right_eq_some.1 h |>.imp_right Option.some.inj
    obtain ⟨before, after, -, htodo, herase⟩ := List.exists_erase_eq hc
    exact .pick hctx htodo (by rw [Queue.toList, List.reverse_nil, List.append_nil, herase])

namespace Pool

variable {workers : Nat} {rb : RuleBase} {mode : Mode} {p p' : Pool} {root : ExprId}

instance (p : Pool) (root : ExprId) : Decidable (p.Free root) :=
  decidable_of_iff (root ∈ p.busy ∧ ∀ entry ∈ p.numbered, entry.2.root ≠ root)
    ⟨fun h => ⟨h.1, h.2⟩, fun h => ⟨h.busy, h.settled⟩⟩

/-- What a worker is told to do. -/
inductive Action where
  | take (root : ExprId)
  | process (root : ExprId) (c : Conclusion)
  | number (root : ExprId) (c : Conclusion)
  | keep (number : Nat) (root : ExprId) (c : Conclusion)
  | handBack (root : ExprId)

/-- Do what a worker is told to do, if it is a move. -/
def perform? (workers : Nat) (rb : RuleBase) (mode : Mode) (p : Pool) : Action → Option Pool
  | .take root =>
    if p.busy.length < max workers 1 ∧ root ∈ p.workspace.active.toList ∧ root ∉ p.busy then
      some { p with
        workspace := { p.workspace with active := ⟨p.workspace.active.toList.erase root, []⟩ }
        busy := root :: p.busy }
    else none
  | .process root c =>
    if p.Free root then
      (p.workspace.pick? root c).map fun w₀ => { p with workspace := (rb.process mode root c w₀).2 }
    else none
  | .number root c =>
    if p.Free root ∧ p.workspace.monitor.observer = some .recorder then
      (p.workspace.pick? root c).bind fun w₀ => p.workspace.monitor.recorder.bind fun recorder =>
        if (rb.process mode root c w₀).1 = true then
          some { p with
            workspace := p.workspace.setRecorder recorder.number.2
            numbered := (recorder.number.1, ⟨root, c, mode⟩) :: p.numbered }
        else none
    else none
  | .keep number root c =>
    if (number, ⟨root, c, mode⟩) ∈ p.numbered then
      (p.workspace.pick? root c).bind fun w₀ => p.workspace.monitor.recorder.bind fun recorder =>
        if (rb.process mode root c w₀).1 = true then
          some { p with
            workspace := (rb.process mode root c w₀).2.setRecorder (recorder.keep number ⟨root, c, mode⟩)
            numbered := p.numbered.erase (number, ⟨root, c, mode⟩) }
        else none
    else none
  | .handBack root =>
    if p.Free root then
      some { p with
        workspace := { p.workspace with active := p.workspace.active.push root }
        busy := p.busy.erase root }
    else none

/-- Whatever is performed is a move. -/
theorem move_of_perform? {action : Action} (h : p.perform? workers rb mode action = some p') :
    Move workers rb mode p p' := by
  cases action with
  | take root =>
    obtain ⟨⟨hworkers, hactive, hroot⟩, rfl⟩ := Option.ite_none_right_eq_some.1 h |>.imp_right Option.some.inj
    obtain ⟨before, after, -, hsplit, herase⟩ := List.exists_erase_eq hactive
    exact .take hworkers hsplit (by rw [Queue.toList, List.reverse_nil, List.append_nil, herase]) hroot
  | process root c =>
    obtain ⟨hfree, hrest⟩ := Option.ite_none_right_eq_some.1 h
    obtain ⟨w₀, hpick, rfl⟩ := Option.map_eq_some_iff.1 hrest
    exact .process hfree (.of_pick? hpick)
  | number root c =>
    obtain ⟨⟨hfree, hobserver⟩, hrest⟩ := Option.ite_none_right_eq_some.1 h
    obtain ⟨w₀, hpick, hrest⟩ := Option.bind_eq_some_iff.1 hrest
    obtain ⟨recorder, hrecorder, hrest⟩ := Option.bind_eq_some_iff.1 hrest
    obtain ⟨hchanges, rfl⟩ := Option.ite_none_right_eq_some.1 hrest |>.imp_right Option.some.inj
    exact .number hfree (.of_pick? hpick) hchanges hobserver hrecorder
  | keep number root c =>
    obtain ⟨hnumbered, hrest⟩ := Option.ite_none_right_eq_some.1 h
    obtain ⟨w₀, hpick, hrest⟩ := Option.bind_eq_some_iff.1 hrest
    obtain ⟨recorder, hrecorder, hrest⟩ := Option.bind_eq_some_iff.1 hrest
    obtain ⟨hchanges, rfl⟩ := Option.ite_none_right_eq_some.1 hrest |>.imp_right Option.some.inj
    exact .keep hnumbered (.of_pick? hpick) hchanges hrecorder
  | handBack root =>
    obtain ⟨hfree, rfl⟩ := Option.ite_none_right_eq_some.1 h |>.imp_right Option.some.inj
    exact .handBack hfree

/-- Do what a script says, one action after the other. -/
def follow? (workers : Nat) (rb : RuleBase) (mode : Mode) : List Action → Pool → Option Pool
  | [], p => some p
  | action :: script, p => (p.perform? workers rb mode action).bind (follow? workers rb mode script)

theorem moves_of_follow? {script : List Action} (h : follow? workers rb mode script p = some p') :
    Moves workers rb mode p p' := by
  induction script generalizing p with
  | nil =>
    cases h
    exact .refl
  | cons action script ih =>
    obtain ⟨p₁, hfirst, hrest⟩ := Option.bind_eq_some_iff.1 h
    exact .head (move_of_perform? hfirst) (ih hrest)

end Pool

namespace Engine

/-- A run starts by the script, if that can be followed and leaves no worker at a context, and goes on in turns. -/
def scripted (script : List Pool.Action) : Engine where
  run workers rb mode w :=
    match Pool.follow? workers rb mode script (.idle w) with
    | some ⟨w', [], []⟩ => rb.run mode w'
    | _ => rb.run mode w

theorem lawful_scripted (script : List Pool.Action) : (scripted script).Lawful := by
  intro workers rb mode w
  unfold scripted
  dsimp only
  split
  · rename_i w' hfollow
    exact .of_moves (Pool.moves_of_follow? hfollow) (RuleBase.course_run ..)
  · exact RuleBase.course_run ..

end Engine

end ELOntology
