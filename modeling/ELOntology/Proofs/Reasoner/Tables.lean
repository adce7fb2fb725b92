import ELOntology.Proofs.Index.Tables
import ELOntology.Proofs.Reasoner.Moves
import ELOntology.Proofs.Saturation.Enclosure

/-!
# The tables of a reasoner

Nodes are numbered by calls that succeed and by calls that fail, while the table of contexts, the role hierarchy and the
rules in force follow the index at different moments.  Wherever a reasoner is on its way through calls, all that it holds
is over the tables of its index, and the table of contexts has caught up as soon as anything is held (`Contained`).  So no
place is looked up that a table does not have.

Key fact: `identifiers_in_tables`.
-/

namespace ELOntology

namespace Reasoner

open Request

variable {r r' : Reasoner} {ls : List Lookup} {v : Vocabulary}

/-- What a reasoner mentions in one place of those where it holds expressions, roles and sets of disjoint classes. -/
inductive Holds (r : Reasoner) : Vocabulary → Prop
  | context {root : ExprId} (h : r.workspace.Has root) : Holds r ⟨[root], [], []⟩
  | stored {root : ExprId} {c : Conclusion} (h : r.workspace.Stores root c) : Holds r c.vocabulary
  | queued {root : ExprId} {c : Conclusion} (h : r.workspace.Waits root c) : Holds r c.vocabulary
  | modified {root : ExprId} (h : root ∈ r.workspace.modified.toList) : Holds r ⟨[root], [], []⟩
  | cleaned {root : ExprId} (h : root ∈ r.progress.cleaned) : Holds r ⟨[root], [], []⟩
  /-- In rules in force, pending contributions, sets of disjoint classes and what is told of roles. -/
  | index {v : Vocabulary} (h : r.index.Uses v) : Holds r v
  | roles : Holds r r.roles.vocabulary

/-- All that the vocabulary has is in the tables. -/
structure Covers (r : Reasoner) (v : Vocabulary) : Prop where
  nodes {id : ExprId} : id ∈ v.exprs → id.val < r.index.nodes.size
  contexts {id : ExprId} : id ∈ v.exprs → id.val < r.workspace.contexts.size
  roles {role : RoleId} : role ∈ v.roles → role.val < r.index.roles.size
  disjointSets {d : DisjointnessId} : d ∈ v.disjointnesses → d.val < r.index.disjointSets.size

/-- The table has the place that is looked up. -/
def Finds (r : Reasoner) : Lookup → Prop
  | .node id => id.val < r.index.nodes.size
  | .context root => root.val < r.workspace.contexts.size

/-- All that a reasoner holds is over the tables of its index, and unless nothing is held so far, there is a place for the
context of every node. -/
structure Contained (r : Reasoner) : Prop where
  index : r.index.Enclosed
  workspace : r.workspace.Enclosed r.index.tables
  roles : r.roles.vocabulary.Le r.index.tables
  sized : r.workspace.contexts.size = r.index.nodes.size ∨
    r.workspace.contexts.size = 0 ∧ ∀ v, ¬ r.index.Uses v
  cleaned {root : ExprId} : root ∈ r.progress.cleaned → root.val < r.workspace.contexts.size

namespace Contained

theorem new {config : Config} (hr : Reasoner.new config = .ok r) : r.Contained := by
  obtain rfl := eq_of_new hr
  exact ⟨.empty, .empty, ⟨nofun, nofun, nofun⟩, .inr ⟨rfl, fun _ => Index.Enclosed.not_uses_empty⟩, nofun⟩

theorem calculus_over (h : r.Contained) : r.ruleBase.calculus.Over r.index.tables := h.index.over_tables h.roles

theorem size_le (h : r.Contained) : r.workspace.contexts.size ≤ r.index.nodes.size := by
  rcases h.sized with hsize | ⟨hzero, -⟩ <;> omega

/-- Where there is a context, there is a place for the context of every node. -/
theorem size_eq (h : r.Contained) {root : ExprId} (hroot : root.val < r.workspace.contexts.size) :
    r.workspace.contexts.size = r.index.nodes.size :=
  h.sized.resolve_right fun hzero => by omega

/-! ### What every move keeps -/

/-- Results and stages have no part in it. -/
theorem congr (h : r.Contained) (hindex : r'.index = r.index) (hroles : r'.roles = r.roles)
    (hworkspace : r'.workspace = r.workspace) (hprogress : r'.progress = r.progress) : r'.Contained := by
  obtain ⟨hi, hw, hr, hs, hc⟩ := h
  constructor
  · exact hindex ▸ hi
  · rw [hindex, hworkspace]
    exact hw
  · rw [hindex, hroles]
    exact hr
  · rw [hindex, hworkspace]
    exact hs
  · rw [hprogress, hworkspace]
    exact hc

/-- Work is done in the workspace. -/
theorem work (h : r.Contained) {w : Workspace} (hw : w.Enclosed r.index.tables)
    (hsize : w.contexts.size = r.workspace.contexts.size) : Contained { r with workspace := w } where
  index := h.index
  workspace := hw
  roles := h.roles
  sized := by
    dsimp only
    rw [hsize]
    exact h.sized
  cleaned hroot := by
    dsimp only
    rw [hsize]
    exact h.cleaned hroot

theorem note (h : r.Contained) (progress : Progress)
    (hcleaned : ∀ root ∈ progress.cleaned, root.val < r.workspace.contexts.size) : Contained { r with progress } :=
  ⟨h.index, h.workspace, h.roles, h.sized, hcleaned _⟩

/-- The index grows, and the table of contexts follows. -/
theorem grow (h : r.Contained) {ix : Index} (hix : ix.Enclosed) (hle : r.index.tables.Le ix.tables) :
    Contained { r with index := ix }.sync := by
  have hnodes : r.index.nodes.size ≤ ix.nodes.size := by
    refine Nat.le_of_not_lt fun hlt => ?_
    have hlast : (⟨ix.nodes.size⟩ : ExprId) ∈ ix.tables.exprs := hle.exprs (Index.mem_exprs_tables.2 hlt)
    exact absurd (Index.mem_exprs_tables.1 hlast) (Nat.lt_irrefl _)
  have hsize : (r.workspace.grow ix.nodes.size).contexts.size = ix.nodes.size := by
    have hbefore := h.size_le
    rw [Workspace.size_grow]
    omega
  refine ⟨hix, (h.workspace.mono hle).grow fun root hroot => ?_, h.roles.trans hle, .inl hsize, fun {root} hroot => ?_⟩
  · exact Index.mem_exprs_tables.2 hroot
  · have hbefore := h.cleaned hroot
    have hbound := h.size_le
    show root.val < (r.workspace.grow ix.nodes.size).contexts.size
    omega

/-- The index commits. -/
theorem commit (h : r.Contained) : Contained { r with index := r.index.commit.2 } where
  index := h.index.commit
  workspace := h.index.tables_commit ▸ h.workspace
  roles := h.index.tables_commit ▸ h.roles
  sized := by
    have hsize : r.index.commit.2.nodes.size = r.index.nodes.size := h.index.accounts.commit.2.1.size_eq
    dsimp only
    rw [hsize]
    exact h.sized.imp_right fun hnone => ⟨hnone.1, fun v hv => hnone.2 v (h.index.uses_of_commit hv)⟩
  cleaned := h.cleaned

theorem takeRoles (h : r.Contained) : Contained { r with index := r.index.takeRolesChanged.2 } where
  index := (h.index.call .takeRolesChanged).1
  workspace := h.workspace
  roles := h.roles
  sized := by
    have huses {v : Vocabulary} (hv : r.index.takeRolesChanged.2.Uses v) : r.index.Uses v := by
      cases hv with
      | inForce hg => exact .inForce hg
      | added hg => exact .added hg
      | removed hg => exact .removed hg
      | disjoint hset => exact .disjoint hset
      | inclusion htold => exact .inclusion htold
      | composition htold => exact .composition htold
    exact h.sized.imp_right fun hnone => ⟨hnone.1, fun v hv => hnone.2 v (huses hv)⟩
  cleaned := h.cleaned

theorem seedDeletion (h : r.Contained) : (seedDeletion r).Contained := by
  unfold Request.seedDeletion
  split
  · exact h
  · have hremoved : ∀ g ∈ r.index.pending.removed, r.ruleBase.calculus.contributes g :=
      fun g hg => h.index.accounts.mem_contributionsOf_of_mem_removed hg
    have hsize := Workspace.size_seedRemoved (w := r.workspace) r.roles r.index.pending.removed
    have hseeded := h.work (h.workspace.seedRemoved h.calculus_over hremoved) hsize
    exact hseeded.note { r.progress with deletionsSeeded := true } fun _ => hseeded.cleaned

theorem clean (h : r.Contained) : (cleanModified r).2.Contained := by
  have hsize := Retracts.size_clean r
  rw [Retracts.cleanModified_eq] at hsize ⊢
  refine (h.work (h.workspace.takeModified.seedCleaning _) hsize).note _ fun root hroot => ?_
  dsimp only at hsize ⊢
  rw [hsize]
  rcases List.mem_append.1 hroot with hroot | hroot
  · exact h.cleaned hroot
  · exact h.workspace.modified (List.mem_of_mem_filter hroot)

theorem seedAddition (h : r.Contained) : (seedAddition r).Contained := by
  unfold Request.seedAddition
  split
  · exact h
  · have hcommitted := h.commit
    have hgrown : Contained { r with index := r.index.commit.2 }.sync := hcommitted.grow hcommitted.index ⟨id, id, id⟩
    have hrestarted := (hgrown.workspace.restart r.progress.cleaned).replay hgrown.calculus_over r.progress.cleaned
    have hseeded := hgrown.work (hrestarted.seedAdded r.index.pending.added r.progress.cleaned) (by simp)
    exact hseeded.note { r.progress with additionsSeeded := true } fun _ => hseeded.cleaned

/-- Every move keeps all that is held over the tables. -/
theorem move (h : r.Contained) (hmove : r.Move ls r') : r'.Contained := by
  cases hmove with
  | assert a =>
    obtain ⟨hix, hle⟩ := h.index.call (.assert a)
    exact h.grow hix hle
  | retract a =>
    obtain ⟨hix, hle⟩ := h.index.call (.retract a)
    exact h.grow hix hle
  | takeRoles => exact h.takeRoles
  | reset =>
    have hdropped := (h.commit.work h.commit.workspace.reset Workspace.size_reset).note .none nofun
    exact hdropped.congr rfl rfl rfl rfl
  | monitor f => exact h.work (h.workspace.sameWork (.of_contexts rfl rfl)) rfl
  | engine e => exact h.congr rfl rfl rfl rfl
  | create root => exact h.work (h.workspace.ensure root) Workspace.size_ensure
  | buildRoles => exact ⟨h.index, h.workspace, h.index.vocabulary_build_le, h.sized, h.cleaned⟩
  | sync => exact h.grow h.index ⟨id, id, id⟩
  | submit => exact h.work (h.workspace.ensure _) Workspace.size_ensure
  | process mode hctx htodo hrest =>
    exact h.work (h.workspace.process h.calculus_over mode hctx htodo hrest)
      ((Workspace.size_process _ _).trans (Workspace.size_put _))
  | schedule hsame => exact h.work (h.workspace.sameWork hsame) hsame.size
  | seedDeletion => exact h.seedDeletion
  | clean => exact h.clean
  | seedAddition => exact h.seedAddition
  | endMaintenance => exact h.note .none nofun
  | conclude hindex hroles hworkspace hprogress => exact h.congr hindex hroles hworkspace hprogress

theorem reaches (h : r.Contained) (hreaches : r.Reaches r') : r'.Contained := by
  induction hreaches with
  | refl => exact h
  | tail _ hmove ih =>
    obtain ⟨ls, hmove⟩ := hmove
    exact ih.move hmove

/-! ### What is in the tables -/

private theorem covers_of_le (hle : v.Le r.index.tables)
    (hsize : ∀ id ∈ v.exprs, r.workspace.contexts.size = r.index.nodes.size) : r.Covers v where
  nodes hid := Index.mem_exprs_tables.1 (hle.exprs hid)
  contexts hid := by
    rw [hsize _ hid]
    exact Index.mem_exprs_tables.1 (hle.exprs hid)
  roles hrole := Index.mem_roles_tables.1 (hle.roles hrole)
  disjointSets hd := Index.mem_disjointnesses_tables.1 (hle.disjointnesses hd)

private theorem covers_root (h : r.Contained) {root : ExprId} (hroot : root.val < r.workspace.contexts.size) :
    r.Covers ⟨[root], [], []⟩ := by
  refine covers_of_le ⟨fun hid => ?_, nofun, nofun⟩ fun _ _ => h.size_eq hroot
  exact List.mem_singleton.1 hid ▸ h.workspace.roots hroot

/-- Wherever something is held, it is in the tables. -/
theorem covers (h : r.Contained) (hv : r.Holds v) : r.Covers v := by
  cases hv with
  | context hhas => exact h.covers_root hhas.lt_size
  | stored hc => exact covers_of_le (h.workspace.stores hc).vocabulary_le fun _ _ => h.size_eq hc.has.lt_size
  | queued hc => exact covers_of_le (h.workspace.waits hc).vocabulary_le fun _ _ => h.size_eq hc.has.lt_size
  | modified hroot => exact h.covers_root (h.workspace.modified hroot)
  | cleaned hroot => exact h.covers_root (h.cleaned hroot)
  | index hv => exact covers_of_le (h.index.uses hv) fun _ _ => h.sized.resolve_right fun hnone => hnone.2 _ hv
  | roles => exact covers_of_le h.roles fun _ hid => absurd hid List.not_mem_nil

private theorem premise_lt (h : r.Contained) {id : ExprId} (hid : id ∈ r.index.premises) : id.val < r.index.nodes.size := by
  obtain ⟨g, hg, rfl⟩ := List.mem_map.1 hid
  have huses : r.index.Uses g.vocabulary := (List.mem_append.1 hg).elim .added .removed
  refine Index.mem_exprs_tables.1 ((h.index.uses huses).exprs ?_)
  cases g <;> exact List.mem_cons_self ..

private theorem subsumer_lt (h : r.Contained) {id : ExprId} (hid : id ∈ r.workspace.subsumers) :
    id.val < r.index.nodes.size := by
  obtain ⟨root, hstores⟩ := Workspace.mem_subsumers.1 hid
  have hover : Conclusion.Over r.index.tables (.isA id) := h.workspace.stores hstores
  exact Index.mem_exprs_tables.1 hover

/-- The contexts that are needed when a conclusion is processed have a place. -/
private theorem target_lt (h : r.Contained) {mode : Mode} {root target : ExprId} {ctx : Context} {c : Conclusion}
    (hctx : r.workspace.context? root = some ctx) (hc : r.workspace.Waits root c)
    (htarget : target ∈ r.ruleBase.targets root ctx.facts c mode) : target.val < r.workspace.contexts.size := by
  cases mode with
  | retract => cases htarget
  | derive =>
    obtain ⟨⟨target, d⟩, hd, rfl⟩ := List.mem_map.1 htarget
    have hlt : root.val < r.workspace.contexts.size := hc.has.lt_size
    have hinserted := Facts.over_insert (fun d hd => h.workspace.stores ⟨ctx, hctx, hd⟩) (h.workspace.waits hc)
    obtain ⟨hover, -, -⟩ := RuleBase.over_of_mem_productions h.calculus_over (h.workspace.roots hlt) hinserted
      (fun hstorable => by simp [hstorable]) hd
    rw [h.size_eq hlt]
    exact Index.mem_exprs_tables.1 hover

/-- Whatever a move looks up, the table has the place. -/
theorem finds (h : r.Contained) (hmove : r.Move ls r') {l : Lookup} (hl : l ∈ ls) : r.Finds l := by
  have hnodes {ids : List ExprId} (hids : ∀ id ∈ ids, id.val < r.index.nodes.size) (hl : l ∈ ids.map Lookup.node) :
      r.Finds l := by
    obtain ⟨id, hid, rfl⟩ := List.mem_map.1 hl
    exact hids id hid
  cases hmove with
  | assert | retract | takeRoles | monitor | engine | create | buildRoles | sync | schedule | seedDeletion | clean | endMaintenance =>
    cases hl
  | reset => exact hnodes (fun _ => h.premise_lt) hl
  | submit hsynced hroot =>
    obtain rfl := List.mem_singleton.1 hl
    exact Nat.lt_of_lt_of_le (Index.lt_size_of_mem_roots hroot) (sync_eq_iff.1 hsynced)
  | process mode hctx htodo hrest =>
    have hc := (Popped.put hctx htodo hrest).waits
    rcases List.mem_append.1 hl with hl | hl
    · refine hnodes (fun id hid => ?_) hl
      have hle := (h.workspace.waits hc).vocabulary_le
      exact Index.mem_exprs_tables.1 (hle.exprs (Conclusion.mem_vocabulary_of_mem_lookups hid))
    · obtain ⟨target, htarget, rfl⟩ := List.mem_map.1 hl
      exact h.target_lt hctx hc htarget
  | seedAddition => exact hnodes (fun id hid => (List.mem_append.1 hid).elim h.premise_lt h.subsumer_lt) hl
  | conclude =>
    exact hnodes (fun id hid => (List.mem_append.1 hid).elim Index.lt_size_of_mem_roots h.subsumer_lt) hl

end Contained

/-- In every state that a new reasoner reaches through calls, whether these succeed, fail, are interrupted or drop all
contexts, all that it holds is in its tables: expressions are below the number of nodes and below that of places for contexts,
roles below the number of roles, and sets of disjoint classes below the number of these sets.  So wherever a move from
there looks up a node or needs a context, the table has the place. -/
theorem identifiers_in_tables {config : Config} {r₀ : Reasoner} (hr : Reasoner.new config = .ok r₀) :
    (∀ events, r₀.Reaches (r₀.afterEvents events)) ∧ ∀ r, r₀.Reaches r →
      (∀ v, r.Holds v → r.Covers v) ∧ ∀ lookups r', r.Move lookups r' → ∀ l ∈ lookups, r.Finds l := by
  refine ⟨reaches_afterEvents (Sound.new hr).engine, fun r hreaches => ?_⟩
  have hcontained := (Contained.new hr).reaches hreaches
  exact ⟨fun v hv => hcontained.covers hv, fun lookups r' hmove l hl => hcontained.finds hmove hl⟩

/-- An axiom fails after its left side was numbered, a retraction is interrupted, and a role axiom drops all contexts. -/
theorem identifiers_in_tables_interrupted : ∃ r₀, Reasoner.new (.standard 1) = .ok r₀ ∧
    let failed := [Event.call (.add (.subClassOf (.named "A") (.someValues "r" (.named "B")))), .call (.ask .classify),
      .call (.add (.subClassOf (.named "X") (.intersection [])))]
    let interrupted := failed ++ [.call (.remove (.subClassOf (.named "A") (.someValues "r" (.named "B")))),
      .call (.monitor (·.raise)), .call (.ask .classify)]
    let r := r₀.afterEvents interrupted
    let s := r₀.afterEvents (interrupted ++ [.call (.add (.transitiveRole "r"))])
    (r₀.afterEvents failed).index.classId? "X" = some ⟨5⟩ ∧ r.workspace.Waits ⟨2⟩ (.subsumer ⟨4⟩ .positive) ∧
      r.Covers ⟨[⟨4⟩], [], []⟩ ∧ r.Finds (.node ⟨4⟩) ∧ s.workspace.isEmpty = true ∧ s.Covers ⟨[], [⟨0⟩, ⟨0⟩, ⟨0⟩], []⟩ := by
  obtain ⟨r₀, hr⟩ : ∃ r₀, Reasoner.new (.standard 1) = .ok r₀ := ⟨_, rfl⟩
  refine ⟨r₀, hr, ?_⟩
  intro failed interrupted r s
  have hfailed : (r₀.afterEvents failed).index.classId? "X" = some ⟨5⟩ := by
    cases hr
    decide +kernel
  have hqueued : (r.workspace.context? ⟨2⟩).map (·.todo.toList) = some [.subsumer ⟨4⟩ .positive] := by
    cases hr
    decide +kernel
  have hdropped : s.workspace.isEmpty = true ∧ (⟨0⟩, ⟨0⟩, ⟨0⟩) ∈ s.index.toldCompositions := by
    cases hr
    decide +kernel
  obtain ⟨ctx, hctx, htodo⟩ := Option.map_eq_some_iff.1 hqueued
  have hwaits : r.workspace.Waits ⟨2⟩ (.subsumer ⟨4⟩ .positive) := ⟨ctx, hctx, htodo ▸ List.mem_singleton_self _⟩
  obtain ⟨hreaches, htables⟩ := identifiers_in_tables hr
  obtain ⟨hcovers, hfinds⟩ := htables r (hreaches interrupted)
  have hprocess := Move.process .retract hctx (show ctx.todo.toList = [] ++ _ :: [] from htodo)
    (show Queue.empty.toList = [] ++ [] from rfl)
  exact ⟨hfailed, hwaits, hcovers _ (.queued hwaits), hfinds _ _ hprocess _ (List.mem_singleton_self _), hdropped.1,
    (htables s (hreaches _)).1 _ (.index (.composition hdropped.2))⟩

end Reasoner

end ELOntology
