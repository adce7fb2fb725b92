import ELOntology.Proofs.Index.Entries

/-!
# Committing

After a commit the contributions in force are those that are due, and `Due` says which these are: one for each told
inclusion, those that expressions make while they occur on a left side, and those of the sets of disjoint classes.

Key facts: `Ledger.commit`, `Ledger.mem_contributionsOf_iff` and, since what is due is regular, `Ledger.regular`.
-/

namespace ELOntology

namespace Index

variable {ix ix' : Index} {entries entries' : List IndexEntry}

/-! ### What is due -/

/-- The contribution is due for some of the entries. -/
inductive Due (ix : Index) (entries : List IndexEntry) : Contribution → Prop
  | told {sub sup : ExprId} (h : .inclusion sub sup ∈ entries) : Due ix entries (.toldSuper sub sup)
  | first {first second both : ExprId} (hshape : ix.shape? both = some (.conjunction first second))
      (h : .occurrence .negative both ∈ entries) : Due ix entries (.conjunction first second both)
  | second {first second both : ExprId} (hshape : ix.shape? both = some (.conjunction first second))
      (h : .occurrence .negative both ∈ entries) : Due ix entries (.conjunction second first both)
  | filler {role : RoleId} {filler existential : ExprId} (hshape : ix.shape? existential = some (.existential role filler))
      (h : .occurrence .negative existential ∈ entries) : Due ix entries (.propagation filler role existential)
  | repeated {ids : List ExprId} {member : ExprId} (h : .disjointness ids ∈ entries) (hmember : 1 < ids.count member) :
      Due ix entries (.toldSuper member .nothing)
  | member {ids : List ExprId} {member : ExprId} {d : DisjointnessId} {set : DisjointSet}
      (hset : ix.disjointSets[d.val]? = some set) (hmembers : set.members = sortIds ids)
      (h : .disjointness ids ∈ entries) (hmember : ids.count member = 1) : Due ix entries (.disjointness member d)

theorem mem_sortIds {ids : List ExprId} {id : ExprId} : id ∈ sortIds ids ↔ id ∈ ids := mem_sortBy

theorem count_sortIds (ids : List ExprId) (id : ExprId) : (sortIds ids).count id = ids.count id :=
  (sortBy_perm _ ids).count_eq id

private theorem mem_structural {id : ExprId} {shape : Shape} {g : Contribution} : g ∈ structural id shape ↔
    (∃ first second, shape = .conjunction first second ∧
      (g = .conjunction first second id ∨ g = .conjunction second first id)) ∨
    ∃ role filler, shape = .existential role filler ∧ g = .propagation filler role id := by
  cases shape with
  | conjunction first second =>
    simp only [structural, List.mem_cons]
    by_cases e : first = second
    · subst e
      simp
    · simp [e]
  | existential role filler => simp [structural]
  | _ => simp [structural]

private theorem mem_disjointnessContributions {d : DisjointnessId} {members : List ExprId} {g : Contribution} :
    g ∈ disjointnessContributions d members ↔ ∃ member,
      (1 < members.count member ∧ g = .toldSuper member .nothing) ∨
        (members.count member = 1 ∧ g = .disjointness member d) := by
  simp only [disjointnessContributions, List.mem_map, mem_distinct]
  constructor
  · rintro ⟨member, hmember, rfl⟩
    have hpos := List.count_pos_iff.2 hmember
    refine ⟨member, ?_⟩
    split
    · rename_i h
      exact .inl ⟨h, rfl⟩
    · exact .inr ⟨by omega, rfl⟩
  · rintro ⟨member, ⟨h, rfl⟩ | ⟨h, rfl⟩⟩
    · exact ⟨member, List.count_pos_iff.1 (by omega), by rw [if_pos h]⟩
    · exact ⟨member, List.count_pos_iff.1 (by omega), by rw [if_neg (by omega)]⟩

private theorem node?_of_getElem?_toList {i : Nat} {node : Node} :
    ix.nodes.toList[i]? = some node ↔ ix.node? ⟨i⟩ = some node := by
  rw [Array.getElem?_toList]
  rfl

private theorem toldShare_pos_iff {g : Contribution} :
    0 < toldShare entries g ↔ ∃ sub sup, g = .toldSuper sub sup ∧ .inclusion sub sup ∈ entries := by
  cases g with
  | toldSuper sub sup =>
    rw [toldShare, List.count_pos_iff]
    constructor
    · exact fun h => ⟨sub, sup, rfl, h⟩
    · rintro ⟨_, _, e, h⟩
      cases e
      exact h
  | _ => simp [toldShare]

private theorem nodeShare_pos_iff (h : ix.CountsNodes entries) {i : Nat} {node : Node} {g : Contribution}
    (hnode : ix.node? ⟨i⟩ = some node) :
    0 < nodeShare g i node ↔ .occurrence .negative ⟨i⟩ ∈ entries ∧ g ∈ structural ⟨i⟩ node.shape := by
  rw [nodeShare, h.negatives hnode, ← List.count_pos_iff, ← List.count_pos_iff]
  split <;> simp_all

/-- A set counts at least one axiom if and only if some entry lists its members. -/
theorem CountsSets.pos_iff (h : ix.CountsSets entries) {d : Nat} {set : DisjointSet}
    (hset : ix.disjointSets[d]? = some set) :
    0 < set.occurrences ↔ ∃ ids, .disjointness ids ∈ entries ∧ set.members = sortIds ids := by
  rw [h.occurrences hset, List.countP_pos_iff]
  constructor
  · rintro ⟨entry, he, hl⟩
    cases entry with
    | disjointness ids => exact ⟨ids, he, (of_decide_eq_true hl).symm⟩
    | _ => cases hl
  · rintro ⟨ids, he, e⟩
    exact ⟨_, he, decide_eq_true e.symm⟩

private theorem setShare_pos_iff (h : ix.CountsSets entries) {i : Nat} {set : DisjointSet} {g : Contribution}
    (hset : ix.disjointSets[i]? = some set) :
    0 < setShare g i set ↔ (∃ ids, .disjointness ids ∈ entries ∧ set.members = sortIds ids) ∧
      g ∈ disjointnessContributions ⟨i⟩ set.members := by
  rw [← h.pos_iff hset, ← List.count_pos_iff, setShare]
  split <;> simp_all

/-- A contribution is due for some of the entries if and only if it is due at least once. -/
theorem Ledger.due_pos_iff (h : ix.Ledger entries) {g : Contribution} : 0 < ix.due entries g ↔ ix.Due entries g := by
  -- each of the three shares is positive just where one of the reasons for being due holds
  have hsum : 0 < ix.due entries g ↔ 0 < toldShare entries g ∨ 0 < shares (nodeShare g) 0 ix.nodes.toList ∨
      0 < shares (setShare g) 0 ix.disjointSets.toList := by
    rw [due]
    omega
  rw [hsum, toldShare_pos_iff, shares_pos_iff, shares_pos_iff]
  constructor
  · rintro (⟨sub, sup, rfl, he⟩ | ⟨i, node, hnode, hpos⟩ | ⟨i, set, hset, hpos⟩)
    · exact .told he
    · rw [node?_of_getElem?_toList] at hnode
      rw [Nat.zero_add, nodeShare_pos_iff h.nodes hnode] at hpos
      have hshape : ix.shape? ⟨i⟩ = some node.shape := shape?_eq_some_iff.2 ⟨node, hnode, rfl⟩
      rcases mem_structural.1 hpos.2 with ⟨first, second, e, rfl | rfl⟩ | ⟨role, filler, e, rfl⟩
      · exact .first (e ▸ hshape) hpos.1
      · exact .second (e ▸ hshape) hpos.1
      · exact .filler (e ▸ hshape) hpos.1
    · rw [Array.getElem?_toList] at hset
      rw [Nat.zero_add, setShare_pos_iff h.sets hset] at hpos
      obtain ⟨⟨ids, hids, hmembers⟩, hg⟩ := hpos
      obtain ⟨member, ⟨hcount, rfl⟩ | ⟨hcount, rfl⟩⟩ := mem_disjointnessContributions.1 hg
      · exact .repeated hids (by rwa [hmembers, count_sortIds] at hcount)
      · exact .member hset hmembers hids (by rwa [hmembers, count_sortIds] at hcount)
  · have of_node {both : ExprId} {shape : Shape} (hshape : ix.shape? both = some shape)
        (he : .occurrence .negative both ∈ entries) (hg : g ∈ structural both shape) :
        ∃ i node, ix.nodes.toList[i]? = some node ∧ 0 < nodeShare g (0 + i) node := by
      obtain ⟨node, hnode, rfl⟩ := shape?_eq_some_iff.1 hshape
      refine ⟨both.val, node, node?_of_getElem?_toList.2 hnode, ?_⟩
      rw [Nat.zero_add, nodeShare_pos_iff h.nodes hnode]
      exact ⟨he, hg⟩
    have of_set {i : Nat} {set : DisjointSet} {ids : List ExprId} (hset : ix.disjointSets[i]? = some set)
        (hmembers : set.members = sortIds ids) (he : .disjointness ids ∈ entries)
        (hg : g ∈ disjointnessContributions ⟨i⟩ set.members) :
        ∃ i set, ix.disjointSets.toList[i]? = some set ∧ 0 < setShare g (0 + i) set := by
      refine ⟨i, set, by rwa [Array.getElem?_toList], ?_⟩
      rw [Nat.zero_add, setShare_pos_iff h.sets hset]
      exact ⟨⟨ids, he, hmembers⟩, hg⟩
    rintro (he | ⟨hshape, he⟩ | ⟨hshape, he⟩ | ⟨hshape, he⟩ | ⟨he, hcount⟩ | ⟨hset, hmembers, he, hcount⟩)
    · exact .inl ⟨_, _, rfl, he⟩
    · exact .inr (.inl (of_node hshape he (mem_structural.2 (.inl ⟨_, _, rfl, .inl rfl⟩))))
    · exact .inr (.inl (of_node hshape he (mem_structural.2 (.inl ⟨_, _, rfl, .inr rfl⟩))))
    · exact .inr (.inl (of_node hshape he (mem_structural.2 (.inr ⟨_, _, rfl, rfl⟩))))
    · obtain ⟨d, set, hset, e⟩ := h.sets.exists_set he
      refine .inr (.inr (of_set hset e he (mem_disjointnessContributions.2 ⟨_, .inl ⟨?_, rfl⟩⟩)))
      rwa [e, count_sortIds]
    · refine .inr (.inr (of_set hset hmembers he (mem_disjointnessContributions.2 ⟨_, .inr ⟨?_, rfl⟩⟩)))
      rwa [hmembers, count_sortIds]

/-- What is due concerns numbers in use. -/
theorem Due.within (hix : ix.Tidy) (h : ix.Ledger entries) {g : Contribution} (hg : ix.Due entries g) :
    g.premise.val < ix.nodes.size ∧ g.Within ix.nodes.size := by
  have hmember {ids : List ExprId} {member : ExprId} (he : .disjointness ids ∈ entries) (hpos : 0 < ids.count member) :
      member.val < ix.nodes.size := (h.within he : ∀ id ∈ ids, id.val < ix.nodes.size) _ (List.count_pos_iff.1 hpos)
  cases hg with
  | told he => exact h.within he
  | first hshape he | second hshape he =>
    have hlt := lt_size_of_shape? hshape
    have hparts := hix.conjuncts hshape
    exact ⟨Nat.lt_trans (by first | exact hparts.1 | exact hparts.2) hlt, hlt⟩
  | filler hshape he =>
    have hlt := lt_size_of_shape? hshape
    exact ⟨Nat.lt_trans (hix.filler hshape).1 hlt, hlt⟩
  | repeated he hcount => exact ⟨hmember he (Nat.lt_trans Nat.one_pos hcount), lt_size_of_shape? hix.nothing⟩
  | member _ _ he hcount =>
    have hlt := hmember he (hcount ▸ Nat.one_pos)
    exact ⟨hlt, hlt⟩

/-! ### Bringing contributions into force -/

/-- The second index is the first one with other rules and nothing pending. -/
structure OtherRules (ix ix' : Index) : Prop where
  node? (id : ExprId) : (ix'.node? id).map (fun node => { node with rules := [] }) =
    (ix.node? id).map fun node => { node with rules := [] }
  roles : ix'.roles = ix.roles
  shapeIds : ix'.shapeIds = ix.shapeIds
  roleIds : ix'.roleIds = ix.roleIds
  toldInclusions : ix'.toldInclusions = ix.toldInclusions
  toldCompositions : ix'.toldCompositions = ix.toldCompositions
  disjointSets : ix'.disjointSets = ix.disjointSets
  disjointnessIds : ix'.disjointnessIds = ix.disjointnessIds
  axioms : ix'.axioms = ix.axioms
  pending : ix'.pending = ix.pending
  rolesChanged : ix'.rolesChanged = ix.rolesChanged

namespace OtherRules

theorem refl (ix : Index) : ix.OtherRules ix := ⟨fun _ => rfl, rfl, rfl, rfl, rfl, rfl, rfl, rfl, rfl, rfl, rfl⟩

theorem trans {ix'' : Index} (h : ix.OtherRules ix') (h' : ix'.OtherRules ix'') : ix.OtherRules ix'' :=
  ⟨fun id => (h'.node? id).trans (h.node? id), h'.roles.trans h.roles, h'.shapeIds.trans h.shapeIds,
    h'.roleIds.trans h.roleIds, h'.toldInclusions.trans h.toldInclusions, h'.toldCompositions.trans h.toldCompositions,
    h'.disjointSets.trans h.disjointSets, h'.disjointnessIds.trans h.disjointnessIds, h'.axioms.trans h.axioms,
    h'.pending.trans h.pending, h'.rolesChanged.trans h.rolesChanged⟩

theorem of_modify {id : ExprId} {f : Node → Node}
    (hf : ∀ node, { f node with rules := [] } = { node with rules := [] }) :
    ix.OtherRules { ix with nodes := ix.nodes.modify id.val f } := by
  refine ⟨fun id' => ?_, rfl, rfl, rfl, rfl, rfl, rfl, rfl, rfl, rfl, rfl⟩
  unfold Index.node?
  rw [Array.getElem?_modify]
  split
  · rw [Option.map_map]
    exact congrArg (Option.map · _) (funext hf)
  · rfl

theorem alike (h : ix.OtherRules ix') : ix.Alike ix' := by
  refine ⟨fun id => ?_, h.roles, h.shapeIds, h.roleIds⟩
  have hnode := congrArg (Option.map fun node : Node => (node.shape, node.hash)) (h.node? id)
  rw [Option.map_map, Option.map_map] at hnode
  exact hnode

theorem exists_node (h : ix.OtherRules ix') {id : ExprId} {node' : Node} (hnode : ix'.node? id = some node') :
    ∃ node, ix.node? id = some node ∧ node'.shape = node.shape ∧ node'.occurrences = node.occurrences ∧
      node'.negativeOccurrences = node.negativeOccurrences := by
  have hpair := h.node? id
  rw [hnode] at hpair
  obtain ⟨node, hnode', e⟩ := Option.map_eq_some_iff.1 hpair.symm
  obtain ⟨e₁, -, e₂, e₃, -⟩ := Node.mk.inj e
  exact ⟨node, hnode', e₁.symm, e₂.symm, e₃.symm⟩

theorem countsNodes (h : ix.OtherRules ix') (hc : ix.CountsNodes entries) : ix'.CountsNodes entries := by
  refine ⟨fun hnode => ?_, fun hnode => ?_⟩
  · obtain ⟨node, hnode', -, e, -⟩ := h.exists_node hnode
    rw [e, hc.occurrences hnode']
  · obtain ⟨node, hnode', -, -, e⟩ := h.exists_node hnode
    rw [e, hc.negatives hnode']

theorem due_eq (h : ix.OtherRules ix') (g : Contribution) : ix'.due entries g = ix.due entries g := by
  have hmap : ix'.nodes.toList.map (fun node => { node with rules := [] }) =
      ix.nodes.toList.map fun node => { node with rules := [] } := by
    refine List.ext_getElem? fun i => ?_
    rw [List.getElem?_map, List.getElem?_map, Array.getElem?_toList, Array.getElem?_toList]
    exact h.node? ⟨i⟩
  have hshares (i : Nat) (nodes : List Node) : shares (nodeShare g) i nodes =
      shares (nodeShare g) i (nodes.map fun node => { node with rules := [] }) := by
    induction nodes generalizing i with
    | nil => rfl
    | cons node nodes ih => rw [shares, List.map_cons, shares, ih (i + 1)]; rfl
  rw [due, due, hshares, hmap, ← hshares, h.disjointSets]

end OtherRules

/-- How often the contribution is in force. -/
def inForce (ix : Index) (g : Contribution) : Nat := (ix.contributionsOf g.premise).count g

theorem mem_contributionsOf_iff {g : Contribution} : g ∈ ix.contributionsOf g.premise ↔ 0 < ix.inForce g :=
  List.count_pos_iff.symm

private theorem rulesOf_modify {id : ExprId} {f : RuleChain → RuleChain} (hid : id.val < ix.nodes.size) (other : ExprId) :
    rulesOf { ix with nodes := ix.nodes.modify id.val fun node => { node with rules := f node.rules } } other =
      if other = id then f (ix.rulesOf id) else ix.rulesOf other := by
  unfold rulesOf node?
  rw [Array.getElem?_modify]
  by_cases e : other = id
  · subst e
    obtain ⟨node, hnode⟩ := node?_isSome_iff.2 hid
    rw [node?] at hnode
    simp [hnode]
  · have hne : ¬ id.val = other.val := fun hval => e (ExprId.ext hval.symm)
    simp [e, hne]

private theorem inForce_modify {c : Contribution} {f : RuleChain → RuleChain} (hc : c.premise.val < ix.nodes.size)
    (g : Contribution) :
    inForce { ix with nodes := ix.nodes.modify c.premise.val fun node => { node with rules := f node.rules } } g =
      if g.premise = c.premise then ((f (ix.rulesOf c.premise)).contributions c.premise).count g else ix.inForce g := by
  unfold inForce contributionsOf
  rw [rulesOf_modify hc]
  split
  · rename_i e
    rw [e]
  · rfl

theorem inForce_attach {c : Contribution} (hc : c.premise.val < ix.nodes.size) (g : Contribution) :
    (ix.attach c).inForce g = ix.inForce g + if g = c then 1 else 0 := by
  refine (inForce_modify (f := fun rules => rules.add c) hc g).trans ?_
  split
  · rename_i e
    rw [(RuleChain.add_perm c _).count_eq, count_cons_eq, inForce, contributionsOf, e]
  · rename_i e
    have hg : ¬ g = c := fun hg => e (by rw [hg])
    rw [if_neg hg, Nat.add_zero]

theorem inForce_detach {c : Contribution} (hkinds : (ix.rulesOf c.premise).Kinds) (hc : 0 < ix.inForce c)
    (g : Contribution) : (ix.detach c).inForce g = ix.inForce g - if g = c then 1 else 0 := by
  have hmem := mem_contributionsOf_iff.2 hc
  have hlt : c.premise.val < ix.nodes.size := by
    refine node?_isSome_iff.1 ?_
    cases hnode : ix.node? c.premise with
    | some node => exact ⟨node, rfl⟩
    | none =>
      rw [contributionsOf, rulesOf, hnode] at hmem
      cases hmem
  refine (inForce_modify (f := fun rules => (rules.remove? c).getD rules) hlt g).trans ?_
  split
  · rename_i e
    rw [inForce, contributionsOf, e, (RuleChain.perm_remove hkinds hmem).count_eq g, count_cons_eq, Nat.add_sub_cancel]
  · rename_i e
    have hg : ¬ g = c := fun hg => e (by rw [hg])
    rw [if_neg hg, Nat.sub_zero]

private theorem forall_rulesOf_modify {P : RuleChain → Prop} {id : ExprId} {f : RuleChain → RuleChain}
    (hf : ∀ rules, P rules → P (f rules)) (h : ∀ other, P (ix.rulesOf other)) (other : ExprId) :
    P (rulesOf { ix with nodes := ix.nodes.modify id.val fun node => { node with rules := f node.rules } } other) := by
  by_cases hid : id.val < ix.nodes.size
  · rw [rulesOf_modify hid]
    split
    · exact hf _ (h id)
    · exact h other
  · have hsame : ix.nodes.modify id.val (fun node => { node with rules := f node.rules }) = ix.nodes := by
      refine Array.ext_getElem? fun i => ?_
      rw [Array.getElem?_modify]
      split
      · rename_i e
        rw [← e, Array.getElem?_eq_none (Nat.le_of_not_lt hid)]
        rfl
      · rfl
    rw [hsame]
    exact h other

private theorem forall_rulesOf_attach {P : RuleChain → Prop} {c : Contribution} (hc : ∀ rules, P rules → P (rules.add c))
    (h : ∀ id, P (ix.rulesOf id)) : ∀ id, P ((ix.attach c).rulesOf id) :=
  forall_rulesOf_modify (f := fun rules => rules.add c) hc h

private theorem forall_rulesOf_detach {P : RuleChain → Prop} {c : Contribution}
    (hc : ∀ rules : RuleChain, P rules → P ((rules.remove? c).getD rules)) (h : ∀ id, P (ix.rulesOf id)) :
    ∀ id, P ((ix.detach c).rulesOf id) :=
  forall_rulesOf_modify (f := fun rules => (rules.remove? c).getD rules) hc h

/-- Contributions are brought into force one by one. -/
theorem attachAll (cs : List Contribution) (hcs : ∀ c ∈ cs, c.premise.val < ix.nodes.size)
    (hkinds : ∀ id, (ix.rulesOf id).Kinds) :
    ix.OtherRules (cs.foldl (fun ix c => ix.attach c) ix) ∧
      (∀ g, (cs.foldl (fun ix c => ix.attach c) ix).inForce g = ix.inForce g + cs.count g) ∧
      ∀ id, ((cs.foldl (fun ix c => ix.attach c) ix).rulesOf id).Kinds := by
  induction cs generalizing ix with
  | nil => exact ⟨.refl ix, fun g => rfl, hkinds⟩
  | cons c cs ih =>
    have hother : ix.OtherRules (ix.attach c) := .of_modify fun _ => rfl
    obtain ⟨h₁, h₂, h₃⟩ := @ih (ix.attach c)
      (fun c' hc' => hother.alike.size_eq ▸ hcs c' (List.mem_cons_of_mem _ hc'))
      (forall_rulesOf_attach (P := RuleChain.Kinds) (fun _ h => h.add c) hkinds)
    rw [List.foldl_cons]
    refine ⟨hother.trans h₁, fun g => ?_, h₃⟩
    rw [h₂, inForce_attach (hcs c (List.mem_cons_self ..)), count_cons_eq]
    omega

/-- Contributions that are in force are put out of force one by one. -/
theorem detachAll (cs : List Contribution) (hcs : ∀ g, cs.count g ≤ ix.inForce g)
    (hkinds : ∀ id, (ix.rulesOf id).Kinds) :
    ix.OtherRules (cs.foldl (fun ix c => ix.detach c) ix) ∧
      (∀ g, (cs.foldl (fun ix c => ix.detach c) ix).inForce g = ix.inForce g - cs.count g) ∧
      ∀ id, ((cs.foldl (fun ix c => ix.detach c) ix).rulesOf id).Kinds := by
  induction cs generalizing ix with
  | nil => exact ⟨.refl ix, fun g => rfl, hkinds⟩
  | cons c cs ih =>
    have hother : ix.OtherRules (ix.detach c) := .of_modify fun _ => rfl
    have hpos : 0 < ix.inForce c := by
      have := hcs c
      rw [List.count_cons_self] at this
      omega
    have hforce (g : Contribution) := inForce_detach (hkinds c.premise) hpos g
    obtain ⟨h₁, h₂, h₃⟩ := @ih (ix.detach c)
      (fun g => by
        have := hcs g
        rw [count_cons_eq] at this
        rw [hforce]
        omega)
      (forall_rulesOf_detach (P := RuleChain.Kinds) (fun _ h => h.remove c) hkinds)
    rw [List.foldl_cons]
    refine ⟨hother.trans h₁, fun g => ?_, h₃⟩
    rw [h₂, hforce, count_cons_eq]
    omega

/-- A commit keeps what adding and removing single contributions keeps of all chains. -/
theorem forall_rulesOf_commit {P : RuleChain → Prop} (hadd : ∀ c rules, P rules → P (rules.add c))
    (hremove : ∀ c (rules : RuleChain), P rules → P ((rules.remove? c).getD rules)) (h : ∀ id, P (ix.rulesOf id)) :
    ∀ id, P (ix.commit.2.rulesOf id) := by
  have hattached : ∀ id, P (rulesOf (ix.pending.added.foldl (fun ix c => ix.attach c) { ix with pending := .empty }) id) :=
    List.foldlRecOn (motive := fun ix : Index => ∀ id, P (ix.rulesOf id)) _ _ h fun _ hix c _ =>
      forall_rulesOf_attach (hadd c) hix
  exact List.foldlRecOn (motive := fun ix : Index => ∀ id, P (ix.rulesOf id)) _ _ hattached fun _ hix c _ =>
    forall_rulesOf_detach (hremove c) hix

namespace Ledger

/-- What is pending to be added is due. -/
theorem due_of_mem_added (h : ix.Ledger entries) {c : Contribution} (hc : c ∈ ix.pending.added) : ix.Due entries c := by
  have hadded := List.count_pos_iff.2 hc
  have hremoved := (h.committable.exclusive c).resolve_left (by omega)
  have hstanding := h.standing c
  rw [Index.standing, hremoved] at hstanding
  exact h.due_pos_iff.1 (by omega)

/-- What is added to the rules has a premise in use. -/
private theorem premise_lt_of_mem_added (hix : ix.Tidy) (h : ix.Ledger entries) {c : Contribution}
    (hc : c ∈ ix.pending.added) : c.premise.val < ix.nodes.size := ((h.due_of_mem_added hc).within hix h).1

private theorem commit_spec (hix : ix.Tidy) (h : ix.Ledger entries) :
    OtherRules { ix with pending := .empty } ix.commit.2 ∧ (∀ g, ix.commit.2.inForce g = ix.due entries g) ∧
      ∀ id, (ix.commit.2.rulesOf id).Kinds := by
  obtain ⟨h₁, h₂, h₃⟩ := @attachAll { ix with pending := .empty } ix.pending.added
    (fun c hc => h.premise_lt_of_mem_added hix hc) h.committable.kinds
  have hforce (g : Contribution) : inForce { ix with pending := .empty } g = ix.inForce g := rfl
  obtain ⟨h₄, h₅, h₆⟩ := detachAll ix.pending.removed
    (fun g => by
      rw [h₂, hforce]
      have := h.committable.removed_le g
      rw [inForce]
      omega) h₃
  refine ⟨h₁.trans h₄, fun g => ?_, h₆⟩
  have hstanding := h.standing g
  have hle := h.committable.removed_le g
  rw [Index.standing] at hstanding
  refine (h₅ g).trans ?_
  rw [h₂, hforce, inForce]
  omega

theorem otherRules_commit (hix : ix.Tidy) (h : ix.Ledger entries) :
    OtherRules { ix with pending := .empty } ix.commit.2 := (h.commit_spec hix).1

theorem alike_commit (hix : ix.Tidy) (h : ix.Ledger entries) : ix.Alike ix.commit.2 := by
  have halike : ix.Alike { ix with pending := .empty } := .of_nodes rfl rfl rfl rfl
  exact halike.trans (h.otherRules_commit hix).alike

/-- A commit changes what is in force, not what is counted. -/
theorem commit (hix : ix.Tidy) (h : ix.Ledger entries) : ix.commit.2.Ledger entries := by
  obtain ⟨hother, hforce, hkinds⟩ := h.commit_spec hix
  have hpending : ix.commit.2.pending = .empty := hother.pending
  have hdue (g : Contribution) : ix.commit.2.due entries g = ix.due entries g := hother.due_eq g
  refine ⟨fun he => ?_, hother.countsNodes (h.nodes.congr rfl), h.roles.congr hother.toldInclusions
    hother.toldCompositions, h.sets.congr hother.disjointSets hother.disjointnessIds, fun g => ?_, ⟨fun g => ?_, fun g => ?_, hkinds⟩⟩
  · exact (within_congr (h.alike_commit hix).size_eq (congrArg Array.size hother.roles)).2 (h.within he)
  · rw [Index.standing, hpending, hdue, ← hforce, inForce]
    simp [Changes.empty]
  · rw [hpending]
    exact Nat.zero_le _
  · rw [hpending]
    exact .inl rfl

/-- With nothing pending, the contributions in force are those that are due. -/
theorem mem_contributionsOf_iff_due (h : ix.Ledger entries) (hpending : ix.pending = .empty) {g : Contribution} :
    g ∈ ix.contributionsOf g.premise ↔ ix.Due entries g := by
  have hstanding := h.standing g
  rw [Index.standing, hpending] at hstanding
  rw [mem_contributionsOf_iff, ← h.due_pos_iff, inForce]
  simp [Changes.empty] at hstanding
  omega

end Ledger

/-! ### What is in force between commits -/

/-- The contributions in force agree with the shapes of what they conclude, and conjunctions are concluded from both
sides. -/
structure Coherent (ix : Index) : Prop where
  symmetric {conjunct other both : ExprId} : .conjunction conjunct other both ∈ ix.contributionsOf conjunct →
    .conjunction other conjunct both ∈ ix.contributionsOf other
  conjunction_shape {conjunct other both : ExprId} : .conjunction conjunct other both ∈ ix.contributionsOf conjunct →
    ix.shape? both = some (.conjunction conjunct other) ∨ ix.shape? both = some (.conjunction other conjunct)
  propagation_shape {filler existential : ExprId} {role : RoleId} :
    .propagation filler role existential ∈ ix.contributionsOf filler →
      ix.shape? existential = some (.existential role filler)
  within {g : Contribution} : g ∈ ix.contributionsOf g.premise → g.Within ix.nodes.size

namespace Coherent

/-- Other numbers and counts do not matter. -/
theorem congr (h : ix.Coherent) (hnames : ix.Names ix') (hrules : ∀ id, ix'.rulesOf id = ix.rulesOf id) :
    ix'.Coherent := by
  have hforce (id : ExprId) : ix'.contributionsOf id = ix.contributionsOf id := by
    rw [contributionsOf, contributionsOf, hrules]
  refine ⟨?_, ?_, ?_, ?_⟩
  · intro conjunct other both
    rw [hforce, hforce]
    exact h.symmetric
  · intro conjunct other both
    rw [hforce]
    exact fun hg => (h.conjunction_shape hg).imp hnames.shape? hnames.shape?
  · intro filler existential role
    rw [hforce]
    exact fun hg => hnames.shape? (h.propagation_shape hg)
  · intro g
    rw [hforce]
    intro hg
    have hlt := h.within hg
    cases g <;> exact Nat.lt_of_lt_of_le hlt hnames.size_le

end Coherent

/-- What is in force after a commit is coherent. -/
theorem Ledger.coherent (hix : ix.Tidy) (h : ix.Ledger entries) (hpending : ix.pending = .empty) : ix.Coherent := by
  have hdue {g : Contribution} : g ∈ ix.contributionsOf g.premise ↔ ix.Due entries g :=
    h.mem_contributionsOf_iff_due hpending
  refine ⟨fun {conjunct other both} hg => ?_, fun {conjunct other both} hg => ?_, fun {filler existential role} hg => ?_,
    fun {g} hg => ((hdue.1 hg).within hix h).2⟩
  · refine (hdue (g := .conjunction other conjunct both)).2 ?_
    cases (hdue (g := .conjunction conjunct other both)).1 hg with
    | first hshape he => exact .second hshape he
    | second hshape he => exact .first hshape he
  · cases (hdue (g := .conjunction conjunct other both)).1 hg with
    | first hshape he => exact .inl hshape
    | second hshape he => exact .inr hshape
  · cases (hdue (g := .propagation filler role existential)).1 hg with
    | filler hshape he => exact hshape

theorem Coherent.regular (h : ix.Coherent) {roles : RoleHierarchy}
    (hroles : ∀ {top middle bottom : RoleId},
      middle ∈ roles.subRoles top → bottom ∈ roles.subRoles middle → bottom ∈ roles.subRoles top) :
    (RuleBase.calculus ⟨ix, roles⟩).Regular :=
  ⟨h.symmetric, h.conjunction_shape, h.propagation_shape, hroles⟩

theorem Coherent.calculus_within (h : ix.Coherent) (hix : ix.Tidy) {roles : RoleHierarchy} :
    (RuleBase.calculus ⟨ix, roles⟩).Within ix.nodes.size where
  thing := lt_size_of_shape? hix.thing
  conjuncts hs := hix.shape_within hs
  filler hs := (hix.shape_within hs).2
  contributes := h.within

end Index

end ELOntology
