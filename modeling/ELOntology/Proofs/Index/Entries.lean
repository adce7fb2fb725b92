import ELOntology.Proofs.Index.Ledger

/-!
# Entering and striking out entries

Asserting an axiom enters its entries one by one, and retracting it strikes them out.  Key fact: `Ledger.enter` (either
moves all counts of the index along, and records just the contributions that begin or end to be due).
-/

namespace ELOntology

namespace Index

variable {ix : Index} {edit : Edit}

/-! ### Entries -/

/-- Count one occurrence of a node, without its parts. -/
def bump (edit : Edit) (polarity : Polarity) (id : ExprId) (ix : Index) : Index :=
  match ix.node? id with
  | none => ix
  | some node =>
    let stepped := node.step edit polarity
    let ix := { ix with nodes := ix.nodes.setIfInBounds id.val stepped }
    if polarity = .negative ∧ edit.turns stepped.negativeOccurrences then ix.recordAll edit (structural id node.shape)
    else ix

/-- Count one axiom with the given sorted disjoint classes. -/
def bumpSet (edit : Edit) (members : List ExprId) (ix : Index) : Index :=
  match ix.stepDisjointSet edit members with
  | (some (id, n), ix) => if edit.turns n then ix.recordAll edit (disjointnessContributions id members) else ix
  | (none, ix) => ix

/-- Enter an entry into the index, or strike it out. -/
def enterEntry (edit : Edit) (entry : IndexEntry) (ix : Index) : Index :=
  match entry with
  | .occurrence polarity id => ix.bump edit polarity id
  | .inclusion sub sup => ix.record edit (.toldSuper sub sup)
  | .disjointness ids => ix.bumpSet edit (sortIds ids)
  | .roleInclusion sub sup => ix.inclusion edit sub sup
  | .composition left right sup => ix.composition edit left right sup

variable {entries entries' : List IndexEntry} {entry : IndexEntry}

theorem CountsNodes.congr {ix' : Index} (h : ix.CountsNodes entries) (hnodes : ix'.nodes = ix.nodes) :
    ix'.CountsNodes entries := by
  have hnode (id : ExprId) : ix'.node? id = ix.node? id := by rw [node?, node?, hnodes]
  exact ⟨fun hn => h.occurrences (hnode _ ▸ hn), fun hn => h.negatives (hnode _ ▸ hn)⟩

theorem CountsRoles.congr {ix' : Index} (h : ix.CountsRoles entries) (hinclusions : ix'.toldInclusions = ix.toldInclusions)
    (hcompositions : ix'.toldCompositions = ix.toldCompositions) : ix'.CountsRoles entries :=
  ⟨fun sub sup => by rw [hinclusions, h.inclusions], fun left right sup => by rw [hcompositions, h.compositions]⟩

theorem SetsFound.congr {ix' : Index} (h : ix.SetsFound) (hsets : ix'.disjointSets = ix.disjointSets)
    (hids : ix'.disjointnessIds = ix.disjointnessIds) : ix'.SetsFound := fun members d => by
  rw [disjointnessId?, hids, members?, hsets]
  exact h members d

theorem CountsSets.congr {ix' : Index} (h : ix.CountsSets entries) (hsets : ix'.disjointSets = ix.disjointSets)
    (hids : ix'.disjointnessIds = ix.disjointnessIds) : ix'.CountsSets entries :=
  ⟨fun hset => h.occurrences (hsets ▸ hset), fun hset => h.sorted (hsets ▸ hset),
    h.found.congr hsets hids,
    fun hentry => by rw [hsets]; exact h.exists_set hentry⟩

theorem CountsNodes.of_moves (h : ix.CountsNodes entries) (hmoves : edit.Moves entry entries entries')
    (hentry : ∀ polarity id, Entry.occurrence polarity id ≠ entry) : ix.CountsNodes entries' where
  occurrences hnode := by
    rw [hmoves.count_of_ne (hentry _ _), hmoves.count_of_ne (hentry _ _), h.occurrences hnode]
  negatives hnode := by rw [hmoves.count_of_ne (hentry _ _), h.negatives hnode]

theorem CountsRoles.of_moves (h : ix.CountsRoles entries) (hmoves : edit.Moves entry entries entries')
    (hinclusion : ∀ sub sup, Entry.roleInclusion sub sup ≠ entry)
    (hcomposition : ∀ left right sup, Entry.composition left right sup ≠ entry) : ix.CountsRoles entries' where
  inclusions sub sup := by rw [hmoves.count_of_ne (hinclusion sub sup), h.inclusions]
  compositions left right sup := by rw [hmoves.count_of_ne (hcomposition left right sup), h.compositions]

theorem CountsSets.of_moves (h : ix.CountsSets entries) (hmoves : edit.Moves entry entries entries')
    (hentry : ∀ ids, Entry.disjointness ids ≠ entry) : ix.CountsSets entries' where
  occurrences {d set} hset := by
    rw [h.occurrences hset, hmoves.countP_eq]
    cases entry with
    | disjointness ids => exact absurd rfl (hentry ids)
    | _ => exact Bool.false_ne_true
  sorted := h.sorted
  found := h.found
  exists_set hids := h.exists_set ((hmoves.mem_or hids).resolve_left (hentry _))

theorem toldShare_of_moves (hmoves : edit.Moves entry entries entries')
    (hentry : ∀ sub sup, Entry.inclusion sub sup ≠ entry) (g : Contribution) :
    toldShare entries' g = toldShare entries g := by
  cases g with
  | toldSuper sub sup => exact hmoves.count_of_ne (hentry sub sup)
  | _ => rfl

theorem bump_eq {polarity : Polarity} {id : ExprId} {node : Node} (hnode : ix.node? id = some node) :
    ix.bump edit polarity id =
      recordAll edit
        (if polarity = .negative ∧ edit.turns (node.step edit polarity).negativeOccurrences then
          structural id node.shape else [])
        { ix with nodes := ix.nodes.setIfInBounds id.val (node.step edit polarity) } := by
  unfold bump
  rw [hnode]
  dsimp only
  split <;> rfl

private theorem node?_set {id : ExprId} {node node' : Node} (hnode : ix.node? id = some node) (id' : ExprId) :
    node? { ix with nodes := ix.nodes.setIfInBounds id.val node' } id' =
      if id' = id then some node' else ix.node? id' := by
  have hlt := lt_size_of_node? hnode
  unfold node?
  by_cases e : id' = id
  · subst e
    simp [hlt]
  · have hne : id.val ≠ id'.val := fun hval => e (ExprId.ext hval.symm)
    simp [e, hne]

/-- A node keeps what it stands for and its rules when its counters are stepped. -/
private theorem alike_step {id : ExprId} {node : Node} (hnode : ix.node? id = some node) (edit : Edit)
    (polarity : Polarity) : ix.Alike { ix with nodes := ix.nodes.setIfInBounds id.val (node.step edit polarity) } := by
  refine ⟨fun id' => (congrArg _ (node?_set hnode id')).trans ?_, rfl, rfl, rfl⟩
  split <;> rename_i e
  · rw [e, hnode]
    rfl
  · rfl

private theorem rulesOf_step {id : ExprId} {node : Node} (hnode : ix.node? id = some node) (edit : Edit)
    (polarity : Polarity) (id' : ExprId) :
    rulesOf { ix with nodes := ix.nodes.setIfInBounds id.val (node.step edit polarity) } id' = ix.rulesOf id' := by
  rw [rulesOf, node?_set hnode, rulesOf]
  split <;> rename_i e
  · rw [e, hnode]
    rfl
  · rfl

/-- Stepping the counters of a node moves its counts along. -/
private theorem countsNodes_step {polarity : Polarity} {id : ExprId} {node : Node} (h : ix.CountsNodes entries)
    (hnode : ix.node? id = some node) (hmoves : edit.Moves (.occurrence polarity id) entries entries') :
    CountsNodes { ix with nodes := ix.nodes.setIfInBounds id.val (node.step edit polarity) } entries' := by
  have hocc := h.occurrences hnode
  have hneg := h.negatives hnode
  refine ⟨fun {id' node'} h' => ?_, fun {id' node'} h' => ?_⟩
  · rw [node?_set hnode] at h'
    split at h'
    · rename_i e
      subst e
      cases h'
      cases hmoves <;> cases polarity <;>
        simp only [List.count_cons_self, List.count_cons, beq_iff_eq, Entry.occurrence.injEq, and_true, reduceCtorEq,
          if_false, Node.step, Edit.step] at hocc ⊢ <;> omega
    · rename_i e
      have hne (q : Polarity) : (.occurrence q id' : IndexEntry) ≠ .occurrence polarity id :=
        fun h' => e (Entry.occurrence.inj h').2
      rw [hmoves.count_of_ne (hne _), hmoves.count_of_ne (hne _), h.occurrences h']
  · rw [node?_set hnode] at h'
    split at h'
    · rename_i e
      subst e
      cases h'
      cases hmoves <;> cases polarity <;>
        simp only [List.count_cons_self, List.count_cons, beq_iff_eq, Entry.occurrence.injEq, and_true, reduceCtorEq,
          if_false, Node.step, Edit.step] at hneg ⊢ <;> omega
    · rename_i e
      have hne : (.occurrence .negative id' : IndexEntry) ≠ .occurrence polarity id :=
        fun h' => e (Entry.occurrence.inj h').2
      rw [hmoves.count_of_ne hne, h.negatives h']

theorem within_congr {ix' : Index} (hnodes : ix'.nodes.size = ix.nodes.size) (hroles : ix'.roles.size = ix.roles.size) :
    entry.Within ix' ↔ entry.Within ix := by
  unfold IndexEntry.Within
  rw [hnodes, hroles]

/-- Once the counters are right, recording what begins or ends to be due restores the balance. -/
private theorem Ledger.of_recordAll {ix₁ : Index} (cs : List Contribution) (h : ix.Ledger entries)
    (hmoves : edit.Moves entry entries entries') (hentry : entry.Within ix)
    (hsize : ix₁.nodes.size = ix.nodes.size) (hrolesSize : ix₁.roles.size = ix.roles.size)
    (hnodes : ix₁.CountsNodes entries') (hroles : ix₁.CountsRoles entries') (hsets : ix₁.CountsSets entries')
    (hrules : ∀ id, ix₁.rulesOf id = ix.rulesOf id) (hpending : ix₁.pending = ix.pending)
    (hdue : ∀ g, (ix₁.due entries' g : Int) = ix.due entries g + edit.sign * cs.count g) :
    (ix₁.recordAll edit cs).Ledger entries' := by
  have hforce (g : Contribution) : ix₁.contributionsOf g.premise = ix.contributionsOf g.premise := by
    rw [Index.contributionsOf, Index.contributionsOf, hrules]
  have hbalance (g : Contribution) : (ix₁.recordAll edit cs).standing g = ix₁.due entries' g := by
    rw [standing_recordAll, Index.standing, hforce, hpending, hdue, ← h.standing, Index.standing]
  have hcommittable : ix₁.Committable := by
    refine ⟨fun g => ?_, fun g => ?_, fun id => ?_⟩
    · rw [hpending, hforce]
      exact h.committable.removed_le g
    · rw [hpending]
      exact h.committable.exclusive g
    · rw [hrules]
      exact h.committable.kinds id
  have hcommittable' : (ix₁.recordAll edit cs).Committable := hcommittable.recordAll fun g => by
    rw [hbalance]
    exact Int.natCast_nonneg _
  rw [recordAll_eq] at hcommittable' hbalance ⊢
  refine ⟨fun he => ?_, ⟨hnodes.occurrences, hnodes.negatives⟩, ⟨hroles.inclusions, hroles.compositions⟩,
    ⟨hsets.occurrences, hsets.sorted, hsets.found, hsets.exists_set⟩, hbalance, hcommittable'⟩
  refine (within_congr hsize hrolesSize).2 ?_
  rcases hmoves.mem_or he with rfl | he
  · exact hentry
  · exact h.within he

/-- The share of a node changes when its negative count turns, and only then. -/
private theorem nodeShare_step {polarity : Polarity} {id : ExprId} {node : Node} (h : ix.CountsNodes entries)
    (hnode : ix.node? id = some node) (hmoves : edit.Moves (.occurrence polarity id) entries entries') (g : Contribution) :
    (nodeShare g id.val (node.step edit polarity) : Int) = nodeShare g id.val node +
      edit.sign * (if polarity = .negative ∧ edit.turns (node.step edit polarity).negativeOccurrences then
        structural id node.shape else []).count g := by
  have hstepped : node? { ix with nodes := ix.nodes.setIfInBounds id.val (node.step edit polarity) } id =
      some (node.step edit polarity) := by rw [node?_set hnode, if_pos rfl]
  have hshape : (node.step edit polarity).shape = node.shape := rfl
  rw [nodeShare, nodeShare, hshape, (countsNodes_step h hnode hmoves).negatives hstepped, h.negatives hnode]
  cases polarity with
  | positive =>
    -- a positive occurrence brings no rule into force
    have hne : (.occurrence .negative id : IndexEntry) ≠ .occurrence .positive id := fun e => by cases e
    rw [hmoves.count_of_ne hne]
    simp
  | negative =>
    have hmove := hmoves.share_count ((structural id node.shape).count g)
    by_cases hturns : edit.turns (entries'.count (.occurrence .negative id)) = true
    · simpa only [hturns, and_self, ↓reduceIte] using hmove
    · simpa only [hturns, and_false, Bool.false_eq_true, ↓reduceIte, List.count_nil, Int.natCast_zero] using hmove

private theorem Ledger.occurrence {polarity : Polarity} {id : ExprId} (h : ix.Ledger entries)
    (hmoves : edit.Moves (.occurrence polarity id) entries entries') (hid : id.val < ix.nodes.size) :
    (ix.bump edit polarity id).Ledger entries' := by
  obtain ⟨node, hnode⟩ := node?_isSome_iff.2 hid
  rw [bump_eq hnode]
  refine Ledger.of_recordAll _ h hmoves hid Array.size_setIfInBounds rfl (countsNodes_step h.nodes hnode hmoves) ?_ ?_
    (rulesOf_step hnode edit polarity) rfl fun g => ?_
  · exact (h.roles.of_moves hmoves (fun _ _ e => by cases e) fun _ _ _ e => by cases e).congr rfl rfl
  · exact (h.sets.of_moves hmoves fun _ e => by cases e).congr rfl rfl
  · -- of all shares only that of the node may change
    have hset := shares_set (f := nodeShare g) (i := 0) (Array.getElem?_toList.trans hnode) (node.step edit polarity)
    have hshare := nodeShare_step h.nodes hnode hmoves g
    rw [Nat.zero_add] at hset
    rw [due, due, toldShare_of_moves hmoves (fun _ _ e => by cases e)]
    dsimp only
    rw [Array.toList_setIfInBounds]
    omega

private theorem Ledger.inclusion {sub sup : ExprId} (h : ix.Ledger entries)
    (hmoves : edit.Moves (.inclusion sub sup) entries entries')
    (hwithin : sub.val < ix.nodes.size ∧ sup.val < ix.nodes.size) :
    (ix.record edit (.toldSuper sub sup)).Ledger entries' := by
  refine Ledger.of_recordAll [.toldSuper sub sup] h hmoves hwithin rfl rfl
    (h.nodes.of_moves hmoves fun _ _ e => by cases e)
    (h.roles.of_moves hmoves (fun _ _ e => by cases e) fun _ _ _ e => by cases e)
    (h.sets.of_moves hmoves fun _ e => by cases e) (fun _ => rfl) rfl fun g => ?_
  have hshare : (toldShare entries' g : Int) = toldShare entries g + edit.sign * [Contribution.toldSuper sub sup].count g := by
    by_cases hg : g = .toldSuper sub sup
    · subst hg
      rw [List.count_singleton_self]
      cases hmoves with
      | assert => simp [toldShare, Edit.sign]
      | retract =>
        simp only [toldShare, Edit.sign, List.count_cons_self]
        omega
    · have hzero : [Contribution.toldSuper sub sup].count g = 0 :=
        List.count_eq_zero.2 fun hmem => hg (List.mem_singleton.1 hmem)
      rw [hzero]
      cases g with
      | toldSuper sub' sup' =>
        have hne : (.inclusion sub' sup' : IndexEntry) ≠ .inclusion sub sup := fun e => by
          cases e
          exact hg rfl
        simp [toldShare, hmoves.count_of_ne hne]
      | _ => simp [toldShare]
  rw [due, due]
  omega

private theorem bumpSet_eq {members : List ExprId} {d : DisjointnessId} {n : Nat} {ix₁ : Index}
    (h : ix.stepDisjointSet edit members = (some (d, n), ix₁)) : ix.bumpSet edit members =
      recordAll edit (if edit.turns n then disjointnessContributions d members else []) ix₁ := by
  unfold bumpSet
  rw [h]
  dsimp only
  split <;> rfl

theorem getElem?_setSet {d i : Nat} {set set' : DisjointSet} (hset : ix.disjointSets[d]? = some set) :
    (ix.disjointSets.setIfInBounds d set')[i]? = if i = d then some set' else ix.disjointSets[i]? := by
  have hlt := (Array.getElem?_eq_some_iff.1 hset).1
  rw [Array.getElem?_setIfInBounds]
  by_cases e : i = d
  · subst e
    simp [hlt]
  · have hne : ¬ d = i := fun e' => e e'.symm
    simp [e, hne]

theorem members?_set {d : DisjointnessId} {set : DisjointSet} {members : List ExprId} {n : Nat}
    (hset : ix.disjointSets[d.val]? = some set) (hmembers : set.members = members) (d' : DisjointnessId) :
    members? { ix with disjointSets := ix.disjointSets.setIfInBounds d.val ⟨members, n⟩ } d' = ix.members? d' := by
  rw [members?, getElem?_setSet hset, members?]
  split <;> rename_i e
  · rw [e, hset, Option.map_some, Option.map_some, hmembers]
  · rfl

/-- Whether a set with the given members is there or has to be made, all sets are found afterwards. -/
theorem SetsFound.stepDisjointSet (h : ix.SetsFound) (edit : Edit) (members : List ExprId) :
    (ix.stepDisjointSet edit members).2.SetsFound := by
  unfold Index.stepDisjointSet
  cases hfind : ix.disjointnessId? members with
  | some d =>
    obtain ⟨set, hset, hmembers⟩ := Option.map_eq_some_iff.1 ((h members d).1 hfind)
    intro members' d'
    dsimp only
    rw [members?_set hset hmembers]
    exact h members' d'
  | none =>
    cases edit with
    | retract => exact h
    | assert =>
      refine lookup_cons_iff ix.members? h hfind ?_ fun d => ?_
      · rw [members?, Array.getElem?_eq_none (Nat.le_refl _)]
        rfl
      · simp only [members?, Array.getElem?_push, DisjointnessId.ext_iff]
        split <;> rfl

/-- The sets stay counted when the count of one of them goes up or down with the entries. -/
private theorem CountsSets.step {ids : List ExprId} {d : DisjointnessId} {set : DisjointSet} (h : ix.CountsSets entries)
    (hmoves : edit.Moves (.disjointness ids) entries entries') (hset : ix.disjointSets[d.val]? = some set)
    (hmembers : set.members = sortIds ids)
    (hnew : edit.step set.occurrences = entries'.countP (IndexEntry.lists (sortIds ids))) :
    CountsSets { ix with disjointSets := ix.disjointSets.setIfInBounds d.val ⟨sortIds ids, edit.step set.occurrences⟩ }
      entries' := by
  have back {i : Nat} {set' : DisjointSet}
      (h' : (ix.disjointSets.setIfInBounds d.val ⟨sortIds ids, edit.step set.occurrences⟩)[i]? = some set') :
      ∃ old, ix.disjointSets[i]? = some old ∧ old.members = set'.members := by
    rw [getElem?_setSet hset] at h'
    split at h'
    · rename_i e
      subst e
      cases h'
      exact ⟨set, hset, hmembers⟩
    · exact ⟨set', h', rfl⟩
  refine ⟨fun {i set'} hset' => ?_, fun {i set'} hset' => ?_, ?_, fun {ids'} hids' => ?_⟩
  · rw [getElem?_setSet hset] at hset'
    split at hset'
    · cases hset'
      exact hnew
    · rename_i hne
      rw [h.occurrences hset', hmoves.countP_eq]
      intro hlists'
      exact hne (h.found.unique hset' hset ((of_decide_eq_true hlists').symm.trans hmembers.symm))
  · obtain ⟨old, hold, e⟩ := back hset'
    rw [← e]
    exact h.sorted hold
  · exact fun members d' => by rw [members?_set hset hmembers]; exact h.found members d'
  · have hmem : ∃ (i : Nat) (old : DisjointSet), ix.disjointSets[i]? = some old ∧ old.members = sortIds ids' := by
      rcases hmoves.mem_or hids' with e | hids'
      · cases e
        exact ⟨d.val, set, hset, hmembers⟩
      · exact h.exists_set hids'
    obtain ⟨i, old, hold, e⟩ := hmem
    by_cases hi : i = d.val
    · subst hi
      obtain rfl := Option.some.inj (hset.symm.trans hold)
      exact ⟨d.val, _, by rw [getElem?_setSet hset, if_pos rfl], hmembers.symm.trans e⟩
    · exact ⟨i, old, by rw [getElem?_setSet hset, if_neg hi]; exact hold, e⟩

/-- One more or one less axiom for a set of disjoint classes that is there. -/
private theorem Ledger.disjointness_of_some {ids : List ExprId} {d : DisjointnessId} {set : DisjointSet}
    (h : ix.Ledger entries) (hmoves : edit.Moves (.disjointness ids) entries entries')
    (hids : ∀ id ∈ ids, id.val < ix.nodes.size) (hset : ix.disjointSets[d.val]? = some set)
    (hmembers : set.members = sortIds ids) :
    (recordAll edit
      (if edit.turns (edit.step set.occurrences) then disjointnessContributions d (sortIds ids) else [])
      { ix with disjointSets := ix.disjointSets.setIfInBounds d.val ⟨sortIds ids, edit.step set.occurrences⟩ }).Ledger
      entries' := by
  have hlists : IndexEntry.lists (sortIds ids) (.disjointness ids) = true := decide_eq_true rfl
  have hold : set.occurrences = entries.countP (IndexEntry.lists (sortIds ids)) := hmembers ▸ h.sets.occurrences hset
  have hnew : edit.step set.occurrences = entries'.countP (IndexEntry.lists (sortIds ids)) := by
    rw [hold, hmoves.countP_eq_step hlists]
  refine Ledger.of_recordAll _ h hmoves hids rfl rfl ((h.nodes.of_moves hmoves fun _ _ e => by cases e).congr rfl)
    ((h.roles.of_moves hmoves (fun _ _ e => by cases e) fun _ _ _ e => by cases e).congr rfl rfl)
    (h.sets.step hmoves hset hmembers hnew) (fun _ => rfl) rfl fun g => ?_
  have hshares := shares_set (f := setShare g) (i := 0) (Array.getElem?_toList.trans hset)
    ⟨sortIds ids, edit.step set.occurrences⟩
  -- the set gives another share only when its count turns
  have hshare : (setShare g (0 + d.val) ⟨sortIds ids, edit.step set.occurrences⟩ : Int) =
      setShare g (0 + d.val) set + edit.sign *
        (if edit.turns (edit.step set.occurrences) then disjointnessContributions d (sortIds ids) else []).count g := by
    have hmove := hmoves.share_eq hlists ((disjointnessContributions d (sortIds ids)).count g)
    rw [← hnew, ← hold] at hmove
    rw [Nat.zero_add, setShare, setShare, hmembers]
    by_cases hturns : edit.turns (edit.step set.occurrences) = true
    · rw [if_pos hturns] at hmove ⊢
      exact hmove
    · rw [if_neg hturns] at hmove ⊢
      exact hmove
  rw [due, due, toldShare_of_moves hmoves (fun _ _ e => by cases e)]
  dsimp only
  rw [Array.toList_setIfInBounds]
  omega

/-- The sets stay counted with a new one. -/
private theorem CountsSets.push {ids : List ExprId} (h : ix.CountsSets entries)
    (hnone : ix.disjointnessId? (sortIds ids) = none) :
    CountsSets { ix with
      disjointSets := ix.disjointSets.push ⟨sortIds ids, 1⟩
      disjointnessIds := (sortIds ids, ⟨ix.disjointSets.size⟩) :: ix.disjointnessIds } (.disjointness ids :: entries) := by
  have hmoves : Edit.assert.Moves (.disjointness ids) entries (.disjointness ids :: entries) := .assert entries
  have hlists : IndexEntry.lists (sortIds ids) (.disjointness ids) = true := decide_eq_true rfl
  have hother {i : Nat} {set : DisjointSet} (hset : ix.disjointSets[i]? = some set) : set.members ≠ sortIds ids := by
    intro e
    rw [(h.found _ _).2 (members?_eq_some (d := ⟨i⟩) hset e)] at hnone
    cases hnone
  -- had an axiom listed the members before, there would be a set of them
  have hzero : entries.countP (IndexEntry.lists (sortIds ids)) = 0 := by
    refine List.countP_eq_zero.2 fun entry he hl => ?_
    cases entry with
    | disjointness ids' =>
      obtain ⟨d, set, hset, e⟩ := h.exists_set he
      exact hother hset (e.trans (of_decide_eq_true hl))
    | _ => cases hl
  have hpush (i : Nat) : (ix.disjointSets.push ⟨sortIds ids, 1⟩)[i]? =
      if i = ix.disjointSets.size then some ⟨sortIds ids, 1⟩ else ix.disjointSets[i]? := Array.getElem?_push
  refine ⟨fun {i set'} hset' => ?_, fun {i set'} hset' => ?_, ?_, fun {ids'} hids' => ?_⟩
  · rw [hpush] at hset'
    split at hset'
    · cases hset'
      rw [List.countP_cons_of_pos hlists, hzero]
    · rw [h.occurrences hset', hmoves.countP_eq]
      intro hlists'
      exact hother hset' (of_decide_eq_true hlists').symm
  · rw [hpush] at hset'
    split at hset'
    · cases hset'
      exact sortIds_sortIds ids
    · exact h.sorted hset'
  · have hfound := h.found.stepDisjointSet .assert (sortIds ids)
    rwa [Index.stepDisjointSet, hnone] at hfound
  · rcases List.mem_cons.1 hids' with e | hids'
    · cases e
      exact ⟨ix.disjointSets.size, _, by rw [hpush, if_pos rfl], rfl⟩
    · obtain ⟨i, set, hset, e⟩ := h.exists_set hids'
      have hlt := (Array.getElem?_eq_some_iff.1 hset).1
      exact ⟨i, set, by rw [hpush, if_neg (Nat.ne_of_lt hlt)]; exact hset, e⟩

/-- The first axiom for a set of disjoint classes. -/
private theorem Ledger.disjointness_of_none {ids : List ExprId} (h : ix.Ledger entries)
    (hids : ∀ id ∈ ids, id.val < ix.nodes.size) (hnone : ix.disjointnessId? (sortIds ids) = none) :
    (recordAll .assert (disjointnessContributions ⟨ix.disjointSets.size⟩ (sortIds ids))
      { ix with
        disjointSets := ix.disjointSets.push ⟨sortIds ids, 1⟩
        disjointnessIds := (sortIds ids, ⟨ix.disjointSets.size⟩) :: ix.disjointnessIds }).Ledger
      (.disjointness ids :: entries) := by
  have hmoves : Edit.assert.Moves (.disjointness ids) entries (.disjointness ids :: entries) := .assert entries
  refine Ledger.of_recordAll _ h hmoves hids rfl rfl ((h.nodes.of_moves hmoves fun _ _ e => by cases e).congr rfl)
    ((h.roles.of_moves hmoves (fun _ _ e => by cases e) fun _ _ _ e => by cases e).congr rfl rfl) (h.sets.push hnone)
    (fun _ => rfl) rfl fun g => ?_
  rw [due, due, toldShare_of_moves hmoves (fun _ _ e => by cases e)]
  dsimp only
  rw [Array.toList_push, shares_append]
  simp [shares, setShare, Edit.sign]
  omega

private theorem Ledger.disjointness {ids : List ExprId} (h : ix.Ledger entries)
    (hmoves : edit.Moves (.disjointness ids) entries entries') (hids : ∀ id ∈ ids, id.val < ix.nodes.size) :
    (ix.bumpSet edit (sortIds ids)).Ledger entries' := by
  cases hfind : ix.disjointnessId? (sortIds ids) with
  | some d =>
    obtain ⟨set, hset, hmembers⟩ := Option.map_eq_some_iff.1 ((h.sets.found _ _).1 hfind)
    have hstep : ix.stepDisjointSet edit (sortIds ids) = (some (d, edit.step set.occurrences),
        { ix with disjointSets := ix.disjointSets.setIfInBounds d.val ⟨sortIds ids, edit.step set.occurrences⟩ }) := by
      simp [stepDisjointSet, hfind, hset]
    rw [bumpSet_eq hstep]
    exact h.disjointness_of_some hmoves hids hset hmembers
  | none =>
    cases hmoves with
    | assert =>
      have hstep : ix.stepDisjointSet .assert (sortIds ids) = (some (⟨ix.disjointSets.size⟩, 1),
          { ix with
            disjointSets := ix.disjointSets.push ⟨sortIds ids, 1⟩
            disjointnessIds := (sortIds ids, ⟨ix.disjointSets.size⟩) :: ix.disjointnessIds }) := by
        simp [stepDisjointSet, hfind]
      rw [bumpSet_eq hstep]
      exact h.disjointness_of_none hids hfind
    | retract =>
      obtain ⟨d, set, hset, e⟩ := h.sets.exists_set (List.mem_cons_self ..)
      rw [(h.sets.found _ _).2 (members?_eq_some (d := ⟨d⟩) hset e)] at hfind
      cases hfind

private theorem Ledger.role {ix₁ : Index} (h : ix.Ledger entries) (hmoves : edit.Moves entry entries entries')
    (hentry : entry.Within ix) (hroles : ix₁.CountsRoles entries')
    (heq : ix₁ = { ix with toldInclusions := ix₁.toldInclusions, toldCompositions := ix₁.toldCompositions })
    (hoccurrence : ∀ polarity id, Entry.occurrence polarity id ≠ entry)
    (hinclusion : ∀ sub sup, Entry.inclusion sub sup ≠ entry) (hdisjointness : ∀ ids, Entry.disjointness ids ≠ entry) :
    ix₁.Ledger entries' := by
  rw [heq] at hroles ⊢
  refine Ledger.of_recordAll [] h hmoves hentry rfl rfl ((h.nodes.of_moves hmoves hoccurrence).congr rfl) hroles
    ((h.sets.of_moves hmoves hdisjointness).congr rfl rfl) (fun _ => rfl) rfl fun g => ?_
  rw [due, due, toldShare_of_moves hmoves hinclusion]
  simp

/-- Lists that grow and shrink with the entries of one kind. -/
private theorem count_told {α : Type} [DecidableEq α] [BEq α] [LawfulBEq α] {told : List α} (x : α) (read : α → IndexEntry)
    (hmoves : edit.Moves (read x) entries entries') (hread : ∀ y, read y = read x → y = x)
    (h : ∀ y, told.count y = entries.count (read y)) (y : α) :
    (match edit with
      | .assert => told ++ [x]
      | .retract => swapErase x told).count y = entries'.count (read y) := by
  by_cases e : y = x
  · subst e
    rw [hmoves.count_self, ← h]
    cases hmoves with
    | assert => simp [Edit.step]
    | retract => simp [Edit.step, count_swapErase]
  · have hne : ¬ x = y := fun e' => e e'.symm
    rw [hmoves.count_of_ne fun e' => e (hread y e'), ← h]
    cases hmoves with
    | assert => simp [hne]
    | retract => simp [count_swapErase, e]

/-- Entering an entry, or striking it out, moves all counts along. -/
theorem Ledger.enter (h : ix.Ledger entries) (hmoves : edit.Moves entry entries entries') (hentry : entry.Within ix) :
    (ix.enterEntry edit entry).Ledger entries' := by
  cases entry with
  | occurrence polarity id => exact h.occurrence hmoves hentry
  | inclusion sub sup => exact h.inclusion hmoves hentry
  | disjointness ids => exact h.disjointness hmoves hentry
  | roleInclusion sub sup =>
    have hcount := count_told (sub, sup) (fun p => .roleInclusion p.1 p.2) hmoves
      (fun p e => Prod.ext (Entry.roleInclusion.inj e).1 (Entry.roleInclusion.inj e).2) fun p => h.roles.inclusions p.1 p.2
    refine h.role hmoves hentry ⟨fun sub' sup' => ?_, fun left right sup' => ?_⟩ (by cases edit <;> rfl)
      (fun _ _ e => by cases e) (fun _ _ e => by cases e) fun _ e => by cases e
    · rw [← hcount (sub', sup')]
      cases edit <;> rfl
    · rw [hmoves.count_of_ne (fun e => by cases e), ← h.roles.compositions]
      cases edit <;> rfl
  | composition left right sup =>
    have hcount := count_told (left, right, sup) (fun p => .composition p.1 p.2.1 p.2.2) hmoves
      (fun p e => Prod.ext (Entry.composition.inj e).1
        (Prod.ext (Entry.composition.inj e).2.1 (Entry.composition.inj e).2.2))
      fun p => h.roles.compositions p.1 p.2.1 p.2.2
    refine h.role hmoves hentry ⟨fun sub' sup' => ?_, fun left' right' sup' => ?_⟩ (by cases edit <;> rfl)
      (fun _ _ e => by cases e) (fun _ _ e => by cases e) fun _ e => by cases e
    · rw [hmoves.count_of_ne (fun e => by cases e), ← h.roles.inclusions]
      cases edit <;> rfl
    · rw [← hcount (left', right', sup')]
      cases edit <;> rfl

/-! ### Frames -/

/-- Numbers stand for the same, the same rules are in force and the same axioms are asserted. -/
structure SameFrame (ix ix' : Index) : Prop where
  alike : ix.Alike ix'
  rulesOf (id : ExprId) : ix'.rulesOf id = ix.rulesOf id
  axioms : ix'.axioms = ix.axioms

namespace SameFrame

variable {ix₁ : Index}

theorem of_nodes (hnodes : ix₁.nodes = ix.nodes) (hroles : ix₁.roles = ix.roles) (hshapeIds : ix₁.shapeIds = ix.shapeIds)
    (hroleIds : ix₁.roleIds = ix.roleIds) (haxioms : ix₁.axioms = ix.axioms) : ix.SameFrame ix₁ :=
  ⟨.of_nodes hnodes hroles hshapeIds hroleIds, fun id => by rw [Index.rulesOf, Index.rulesOf, node?, node?, hnodes], haxioms⟩

/-- What is recorded is not in force yet. -/
theorem recordAll (h : ix.SameFrame ix₁) (cs : List Contribution) : ix.SameFrame (ix₁.recordAll edit cs) := by
  rw [recordAll_eq]
  exact ⟨h.alike.trans (.of_nodes rfl rfl rfl rfl), h.rulesOf, h.axioms⟩

theorem bump (edit : Edit) (polarity : Polarity) (id : ExprId) (ix : Index) : ix.SameFrame (ix.bump edit polarity id) := by
  cases hnode : ix.node? id with
  | none =>
    unfold Index.bump
    rw [hnode]
    exact .of_nodes rfl rfl rfl rfl rfl
  | some node =>
    rw [bump_eq hnode]
    exact recordAll ⟨alike_step hnode edit polarity, rulesOf_step hnode edit polarity, rfl⟩ _

theorem bumpSet (edit : Edit) (members : List ExprId) (ix : Index) : ix.SameFrame (ix.bumpSet edit members) := by
  have hsame : ix.SameFrame (ix.stepDisjointSet edit members).2 := by
    unfold stepDisjointSet
    split
    · exact .of_nodes rfl rfl rfl rfl rfl
    · cases edit <;> exact .of_nodes rfl rfl rfl rfl rfl
  rcases hstep : ix.stepDisjointSet edit members with ⟨_ | counted, ix₁⟩ <;> rw [hstep] at hsame
  · unfold Index.bumpSet
    rw [hstep]
    exact hsame
  · rw [bumpSet_eq hstep]
    exact hsame.recordAll _

end SameFrame

/-- Sets of disjoint classes are found after any entry. -/
theorem SetsFound.enterEntry (h : ix.SetsFound) (edit : Edit) (entry : IndexEntry) : (ix.enterEntry edit entry).SetsFound := by
  cases entry with
  | occurrence polarity id =>
    show (ix.bump edit polarity id).SetsFound
    cases hnode : ix.node? id with
    | none =>
      unfold Index.bump
      rwa [hnode]
    | some node =>
      rw [bump_eq hnode, recordAll_eq]
      exact h.congr rfl rfl
  | inclusion => cases edit <;> exact h.congr rfl rfl
  | disjointness ids =>
    have hstep := h.stepDisjointSet edit (sortIds ids)
    show (ix.bumpSet edit (sortIds ids)).SetsFound
    rcases hstepped : ix.stepDisjointSet edit (sortIds ids) with ⟨_ | counted, ix₁⟩ <;> rw [hstepped] at hstep
    · unfold Index.bumpSet
      rwa [hstepped]
    · rw [bumpSet_eq hstepped, recordAll_eq]
      exact hstep.congr rfl rfl
  | roleInclusion | composition => cases edit <;> exact h.congr rfl rfl

/-- Entering an entry concerns neither what numbers stand for, nor rules in force, nor which axioms are asserted. -/
theorem sameFrame_enterEntry (edit : Edit) (entry : IndexEntry) (ix : Index) : ix.SameFrame (ix.enterEntry edit entry) := by
  cases entry with
  | occurrence polarity id => exact .bump edit polarity id ix
  | inclusion sub sup => exact SameFrame.recordAll (.of_nodes rfl rfl rfl rfl rfl) [.toldSuper sub sup]
  | disjointness ids => exact .bumpSet edit (sortIds ids) ix
  | roleInclusion | composition => cases edit <;> exact .of_nodes rfl rfl rfl rfl rfl

/-- The list of axioms and the flag for role axioms do not matter. -/
theorem Ledger.congr {ix' : Index} (h : ix.Ledger entries) (hnodes : ix'.nodes = ix.nodes) (hroles : ix'.roles = ix.roles)
    (hinclusions : ix'.toldInclusions = ix.toldInclusions) (hcompositions : ix'.toldCompositions = ix.toldCompositions)
    (hsets : ix'.disjointSets = ix.disjointSets) (hids : ix'.disjointnessIds = ix.disjointnessIds)
    (hpending : ix'.pending = ix.pending) : ix'.Ledger entries := by
  obtain ⟨nodes, shapeIds, roles, roleIds, inclusions, compositions, sets, setIds, axioms, pending, changed⟩ := ix
  obtain ⟨nodes', shapeIds', roles', roleIds', inclusions', compositions', sets', setIds', axioms', pending', changed'⟩ := ix'
  subst hnodes hroles hinclusions hcompositions hsets hids hpending
  exact ⟨h.within, h.nodes.congr rfl, h.roles.congr rfl rfl, h.sets.congr rfl rfl, h.standing,
    ⟨h.committable.removed_le, h.committable.exclusive, h.committable.kinds⟩⟩

/-- The order of entries does not matter. -/
theorem Ledger.perm (h : ix.Ledger entries) (hperm : entries.Perm entries') : ix.Ledger entries' := by
  have hcount (e : IndexEntry) : entries'.count e = entries.count e := hperm.symm.count_eq e
  have htold (g : Contribution) : toldShare entries' g = toldShare entries g := by
    cases g <;> simp only [toldShare, hcount]
  refine ⟨fun he => h.within (hperm.mem_iff.2 he), ⟨fun hnode => ?_, fun hnode => ?_⟩,
    ⟨fun sub sup => ?_, fun left right sup => ?_⟩, ⟨fun hset => ?_, h.sets.sorted, h.sets.found, fun hids => ?_⟩, fun g => ?_,
    h.committable⟩
  · rw [hcount, hcount, h.nodes.occurrences hnode]
  · rw [hcount, h.nodes.negatives hnode]
  · rw [hcount, h.roles.inclusions]
  · rw [hcount, h.roles.compositions]
  · rw [h.sets.occurrences hset, hperm.countP_eq]
  · exact h.sets.exists_set (hperm.mem_iff.2 hids)
  · rw [h.standing, due, due, htold]

/-- Elements that are appended and add nothing. -/
private theorem shares_extend {α : Type} {f : Nat → α → Nat} {i : Nat} (xs ys : List α)
    (hold : ∀ (j : Nat) (x : α), xs[j]? = some x → ys[j]? = some x)
    (hnew : ∀ (j : Nat) (y : α), xs[j]? = none → ys[j]? = some y → f (i + j) y = 0) : shares f i ys = shares f i xs := by
  induction xs generalizing i ys with
  | nil =>
    refine Nat.eq_zero_of_not_pos fun hpos => ?_
    obtain ⟨j, y, hy, hpos⟩ := shares_pos_iff.1 hpos
    rw [hnew j y rfl hy] at hpos
    exact Nat.lt_irrefl 0 hpos
  | cons x xs ih =>
    cases ys with
    | nil => exact absurd (hold 0 x rfl) (by simp)
    | cons y ys =>
      obtain rfl : y = x := by simpa using hold 0 x rfl
      rw [shares, shares, ih ys (fun j z hz => hold (j + 1) z hz) fun j z hz hz' => ?_]
      rw [show i + 1 + j = i + (j + 1) by omega]
      exact hnew (j + 1) z hz hz'

theorem Grown.rulesOf_eq {ix' : Index} (hgrown : ix.Grown ix') (id : ExprId) : ix'.rulesOf id = ix.rulesOf id := by
  unfold rulesOf
  cases hnode : ix.node? id with
  | some node => rw [hgrown.node? hnode]
  | none =>
    cases hnode' : ix'.node? id with
    | none => rfl
    | some node => exact (hgrown.blank hnode hnode').2.2

theorem Grown.within {ix' : Index} (hgrown : ix.Grown ix') (h : entry.Within ix) : entry.Within ix' := by
  have hle := hgrown.names.size_le
  have hle' := hgrown.names.roles_size_le
  cases entry with
  | occurrence => exact Nat.lt_of_lt_of_le h hle
  | inclusion => exact ⟨Nat.lt_of_lt_of_le h.1 hle, Nat.lt_of_lt_of_le h.2 hle⟩
  | disjointness => exact fun id hid => Nat.lt_of_lt_of_le (h id hid) hle
  | roleInclusion => exact ⟨Nat.lt_of_lt_of_le h.1 hle', Nat.lt_of_lt_of_le h.2 hle'⟩
  | composition => exact ⟨Nat.lt_of_lt_of_le h.1 hle', Nat.lt_of_lt_of_le h.2.1 hle', Nat.lt_of_lt_of_le h.2.2 hle'⟩

/-- New nodes have not been counted, and no entry is about a node that was not there. -/
private theorem CountsNodes.grown {ix' : Index} (h : ix.CountsNodes entries) (hgrown : ix.Grown ix')
    (hwithin : ∀ {entry}, entry ∈ entries → entry.Within ix) : ix'.CountsNodes entries := by
  have hfresh {id : ExprId} (hnone : ix.node? id = none) (polarity : Polarity) :
      entries.count (.occurrence polarity id) = 0 := by
    refine List.count_eq_zero.2 fun he => ?_
    obtain ⟨node, hnode⟩ := node?_isSome_iff.2 (hwithin he : id.val < ix.nodes.size)
    rw [hnode] at hnone
    cases hnone
  refine ⟨fun {id node} hnode => ?_, fun {id node} hnode => ?_⟩
  · cases hold : ix.node? id with
    | some node' =>
      obtain rfl := Option.some.inj ((hgrown.node? hold).symm.trans hnode)
      exact h.occurrences hold
    | none => rw [(hgrown.blank hold hnode).1, hfresh hold, hfresh hold]
  · cases hold : ix.node? id with
    | some node' =>
      obtain rfl := Option.some.inj ((hgrown.node? hold).symm.trans hnode)
      exact h.negatives hold
    | none => rw [(hgrown.blank hold hnode).2.1, hfresh hold]

private theorem Grown.due_eq {ix' : Index} (hgrown : ix.Grown ix') (g : Contribution) :
    ix'.due entries g = ix.due entries g := by
  rw [due, due, hgrown.disjointSets, shares_extend ix.nodes.toList ix'.nodes.toList]
  · intro j node hnode
    rw [Array.getElem?_toList] at hnode ⊢
    exact @Grown.node? _ _ hgrown ⟨j⟩ _ hnode
  · intro j node hnone hnode
    rw [Array.getElem?_toList] at hnone hnode
    rw [nodeShare, (@Grown.blank _ _ hgrown ⟨j⟩ _ hnone hnode).2.1, if_neg (Nat.lt_irrefl 0)]

/-- New nodes and roles do not matter. -/
theorem Ledger.grown {ix' : Index} (h : ix.Ledger entries) (hgrown : ix.Grown ix') : ix'.Ledger entries := by
  have hrules := hgrown.rulesOf_eq
  refine ⟨fun he => hgrown.within (h.within he), h.nodes.grown hgrown h.within,
    h.roles.congr hgrown.toldInclusions hgrown.toldCompositions, h.sets.congr hgrown.disjointSets hgrown.disjointnessIds, fun g => ?_, ?_⟩
  · rw [hgrown.due_eq, ← h.standing, Index.standing, Index.standing, Index.contributionsOf, Index.contributionsOf, hrules,
      hgrown.pending]
  · refine ⟨fun g => ?_, fun g => ?_, fun id => ?_⟩
    · rw [hgrown.pending, Index.contributionsOf, hrules]
      exact h.committable.removed_le g
    · rw [hgrown.pending]
      exact h.committable.exclusive g
    · rw [hrules]
      exact h.committable.kinds id

end Index

end ELOntology
