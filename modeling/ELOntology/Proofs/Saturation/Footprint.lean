import ELOntology.Proofs.Saturation.Seeding

/-!
# What the rules look up

Processing a conclusion looks at one node of the index at most, that of the subsumer whose rules are applied.  A replay looks
at the nodes of the subsumers that are stored.  Whatever else the index holds makes no difference.

Key facts: `RuleBase.process_congr` and `RuleBase.replay_congr`.
-/

namespace ELOntology

/-- The nodes that are looked up when a conclusion is processed. -/
def Conclusion.lookups : Conclusion → List ExprId
  | subsumer expr _ | rulesChanged expr => [expr]
  | init | backwardLink .. | forwardLink .. | propagation .. | disjointMember .. | contradiction => []

theorem Conclusion.mem_vocabulary_of_mem_lookups {c : Conclusion} {id : ExprId} (h : id ∈ c.lookups) :
    id ∈ c.vocabulary.exprs := by
  cases c with
  | subsumer | rulesChanged => exact h
  | init | backwardLink | forwardLink | propagation | disjointMember | contradiction => cases h

namespace Workspace

variable {w : Workspace} {expr : ExprId}

/-- The subsumers that are stored in some context. -/
def subsumers (w : Workspace) : List ExprId :=
  w.roots.flatMap fun root => ((w.context? root).map (·.facts.subsumers)).getD []

theorem mem_subsumers : expr ∈ w.subsumers ↔ ∃ root, w.Stores root (.isA expr) := by
  simp only [subsumers, List.mem_flatMap, mem_roots]
  refine exists_congr fun root => ⟨?_, ?_⟩
  · rintro ⟨⟨ctx, hctx⟩, hexpr⟩
    rw [hctx] at hexpr
    exact ⟨ctx, hctx, Facts.mem_exprsOf.1 hexpr⟩
  · rintro ⟨ctx, hctx, hexpr⟩
    refine ⟨⟨ctx, hctx⟩, ?_⟩
    rw [hctx]
    exact Facts.mem_exprsOf.2 hexpr

end Workspace

theorem Index.shape?_congr {ix ix' : Index} {id : ExprId} (h : ix'.node? id = ix.node? id) : ix'.shape? id = ix.shape? id := by
  rw [shape?, h, shape?]

namespace RuleBase

variable {rb rb' : RuleBase} {mode : Mode} {root : ExprId} {c : Conclusion} {w : Workspace}

/-- The productions of a conclusion depend on the hierarchy and the nodes that are looked up. -/
theorem productions_congr (hroles : rb'.roles = rb.roles) (h : ∀ id ∈ c.lookups, rb'.index.node? id = rb.index.node? id)
    (facts : Facts) : rb'.productions mode root facts c = rb.productions mode root facts c := by
  obtain ⟨ix, roles⟩ := rb
  obtain ⟨ix', roles'⟩ := rb'
  obtain rfl : roles' = roles := hroles
  have hcompose {expr : ExprId} (hnode : ix'.node? expr = ix.node? expr) :
      compose ⟨ix', roles'⟩ facts expr = compose ⟨ix, roles'⟩ facts expr := by
    have hrules : ix'.rulesOf expr = ix.rulesOf expr := by rw [Index.rulesOf, hnode, Index.rulesOf]
    rw [compose, hrules]
    rfl
  cases c with
  | subsumer expr polarity =>
    have hnode := h expr (List.mem_singleton_self expr)
    have hdecompose : decompose ⟨ix', roles'⟩ root expr = decompose ⟨ix, roles'⟩ root expr := by
      rw [decompose, Index.shape?_congr hnode]
      rfl
    rw [productions, hdecompose, hcompose hnode]
    rfl
  | rulesChanged premise =>
    rw [productions, hcompose (h premise (List.mem_singleton_self premise))]
    rfl
  | init | backwardLink | forwardLink | propagation | disjointMember | contradiction => rfl

theorem process_congr (hroles : rb'.roles = rb.roles) (h : ∀ id ∈ c.lookups, rb'.index.node? id = rb.index.node? id) :
    rb'.process mode root c w = rb.process mode root c w := by
  unfold process
  simp only [productions_congr hroles h]

theorem replay_congr (hroles : rb'.roles = rb.roles) (h : ∀ id ∈ w.subsumers, rb'.index.node? id = rb.index.node? id)
    (cleaned : List ExprId) : rb'.replay cleaned w = rb.replay cleaned w := by
  obtain ⟨ix, roles⟩ := rb
  obtain ⟨ix', roles'⟩ := rb'
  obtain rfl : roles' = roles := hroles
  rw [Workspace.replay_eq, Workspace.replay_eq, Workspace.replayed, Workspace.replayed]
  refine congrArg (sendAll .retract · w) (List.flatMap_congr fun root _ => ?_)
  unfold Workspace.told
  cases hctx : w.context? root with
  | none => rfl
  | some ctx =>
    refine congrArg (· ++ _ ++ _) (List.flatMap_congr fun expr hexpr => ?_)
    have hnode := h expr (Workspace.mem_subsumers.2 ⟨root, ctx, hctx, Facts.mem_exprsOf.1 hexpr⟩)
    dsimp only
    rw [Index.shape?_congr hnode]

end RuleBase

end ELOntology
