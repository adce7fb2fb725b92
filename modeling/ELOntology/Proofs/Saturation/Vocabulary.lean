import ELOntology.Proofs.Calculus.Derivation
import ELOntology.Proofs.Saturation.Steps
import ELOntology.Proofs.Saturation.Stored

/-!
# What a run can mention

Every conclusion of a run is over the vocabulary from which the run starts, and so is every root that gets a context.
Key facts: `RuleBase.over_of_mem_productions` (productions stay over a vocabulary), `Workspace.Over.steps` (whole runs do, in
either mode) and `Vocabulary.length_stored_le` (how much can be stored over it).
-/

namespace ELOntology

/-- The conclusion mentions the vocabulary only. -/
def Conclusion.Over (v : Vocabulary) : Conclusion → Prop
  | .init | .contradiction => True
  | .subsumer expr _ | .rulesChanged expr => expr ∈ v.exprs
  | .backwardLink expr role | .forwardLink role expr | .propagation role expr => expr ∈ v.exprs ∧ role ∈ v.roles
  | .disjointMember d member => member ∈ v.exprs ∧ d ∈ v.disjointnesses

/-- The contribution concludes only what mentions the vocabulary, from a premise of the vocabulary. -/
def Contribution.Over (v : Vocabulary) : Contribution → Prop
  | .toldSuper _ expr | .conjunction _ _ expr | .propagation _ _ expr => expr ∈ v.exprs
  | .disjointness _ d => d ∈ v.disjointnesses

/-- The rules lead to nothing outside the vocabulary. -/
structure Calculus.Over (K : Calculus) (v : Vocabulary) : Prop where
  thing : ExprId.thing ∈ v.exprs
  conjuncts {expr first second : ExprId} :
    K.shape? expr = some (.conjunction first second) → first ∈ v.exprs ∧ second ∈ v.exprs
  existential {expr filler : ExprId} {role : RoleId} :
    K.shape? expr = some (.existential role filler) → filler ∈ v.exprs ∧ role ∈ v.roles
  contributes {g : Contribution} : K.contributes g → g.Over v
  subRoles {top bottom : RoleId} : bottom ∈ K.roles.subRoles top → bottom ∈ v.roles
  told {left right sup : RoleId} : (left, right, sup) ∈ K.roles.told → sup ∈ v.roles

variable {v v' : Vocabulary} {K : Calculus} {root target : ExprId} {c : Conclusion}

@[simp] theorem Conclusion.over_unsigned : c.unsigned.Over v ↔ c.Over v := by
  cases c <;> exact Iff.rfl

/-- A conclusion of the other polarity mentions the same. -/
theorem Conclusion.Over.of_unsigned_eq {d : Conclusion} (hc : c.Over v) (e : d.unsigned = c.unsigned) : d.Over v :=
  over_unsigned.1 (e ▸ over_unsigned.2 hc)

theorem Facts.over_insert {facts : Facts} (hfacts : ∀ d, facts.contains d = true → d.Over v) (hc : c.Over v) (d : Conclusion)
    (hd : (facts.insert c).contains d = true) : d.Over v := by
  rw [contains_insert, Bool.or_eq_true, decide_eq_true_iff] at hd
  exact hd.elim (fun hd => hc.of_unsigned_eq hd.2) (hfacts d)

theorem Unfolds.over {expr : ExprId} (hK : K.Over v) (hroot : root ∈ v.exprs) (h : Unfolds K root expr target c) :
    target ∈ v.exprs ∧ c.Over v := by
  cases h with
  | first h => exact ⟨hroot, (hK.conjuncts h).1⟩
  | second h => exact ⟨hroot, (hK.conjuncts h).2⟩
  | link h => exact ⟨(hK.existential h).1, hroot, (hK.existential h).2⟩

theorem Combines.over {premises : List Conclusion} (hK : K.Over v) (hroot : root ∈ v.exprs)
    (hp : ∀ p ∈ premises, p.Over v) (h : Combines K root premises target c) : target ∈ v.exprs ∧ c.Over v := by
  cases h with
  | apply hg h =>
    have hg := hK.contributes hg
    refine ⟨hroot, ?_⟩
    cases h with
    | told | conjoin => exact hg
    | propagate hbelow => exact ⟨hg, hK.subRoles hbelow⟩
    | member => exact ⟨hp _ (List.mem_singleton_self _), hg⟩
  | bottom | clash => exact ⟨hroot, trivial⟩
  | @carry _ existential role =>
    have hlink : Conclusion.Over v (.backwardLink target role) := hp _ (List.mem_cons_self ..)
    have hprop : Conclusion.Over v (.propagation role existential) := hp _ (by simp)
    exact ⟨hlink.1, hprop.1⟩
  | @empty _ role =>
    have hlink : Conclusion.Over v (.backwardLink target role) := hp _ (List.mem_cons_self ..)
    exact ⟨hlink.1, trivial⟩
  | @forward _ role =>
    have hlink : Conclusion.Over v (.backwardLink target role) := hp _ (List.mem_cons_self ..)
    exact ⟨hlink.1, hroot, hlink.2⟩
  | @compose source _ left right composed hcomp =>
    have hlink : Conclusion.Over v (.backwardLink source left) := hp _ (List.mem_cons_self ..)
    have hforward : Conclusion.Over v (.forwardLink right target) := hp _ (by simp)
    obtain ⟨l, r, hmem, -, -⟩ := RoleHierarchy.mem_compositions.1 hcomp
    exact ⟨hforward.1, hlink.1, hK.told hmem⟩

/-- Productions stay over a vocabulary. -/
theorem RuleBase.over_of_mem_productions {rb : RuleBase} {mode : Mode} {facts : Facts} (hK : rb.calculus.Over v)
    (hroot : root ∈ v.exprs) (hfacts : ∀ p, facts.contains p = true → p.Over v) {d : Conclusion}
    (hd : d.isStorable = true → facts.contains d = true) (h : (target, c) ∈ rb.productions mode root facts d) :
    target ∈ v.exprs ∧ c.Over v ∧ c.isStorable = true := by
  cases produced_of_mem_productions hd h with
  | self => exact ⟨hroot, hroot, rfl⟩
  | thing => exact ⟨hroot, hK.thing, rfl⟩
  | unfold _ hu => exact ⟨(hu.over hK hroot).1, (hu.over hK hroot).2, hu.isStorable⟩
  | combine hp hc =>
    have hover := hc.over hK hroot fun p hmem => hfacts p (hp p hmem)
    exact ⟨hover.1, hover.2, hc.isStorable⟩

namespace Vocabulary

/-- All conclusions over the vocabulary that can be stored. -/
def storable (v : Vocabulary) : List Conclusion :=
  v.exprs.map Conclusion.isA
    ++ v.exprs.flatMap (fun expr => v.roles.map fun role => .backwardLink expr role)
    ++ v.exprs.flatMap (fun expr => v.roles.map fun role => .forwardLink role expr)
    ++ v.exprs.flatMap (fun expr => v.roles.map fun role => .propagation role expr)
    ++ v.exprs.flatMap (fun expr => v.disjointnesses.map fun d => .disjointMember d expr)
    ++ [.contradiction]

theorem length_storable (v : Vocabulary) : v.storable.length = v.factCount := by
  have hmul (n r d : Nat) : n * (3 * r + d + 1) = n + n * r + n * r + n * r + n * d := by
    rw [Nat.mul_succ, Nat.mul_add, Nat.mul_left_comm]
    omega
  simp only [storable, factCount, List.length_append, List.length_map, List.length_flatMap, List.length_singleton,
    List.map_const', List.sum_replicate_nat]
  rw [hmul]

theorem mem_storable (hc : c.Over v) (hstorable : c.isStorable = true) (hunsigned : c.unsigned = c) :
    c ∈ v.storable := by
  simp only [storable, List.mem_append, List.mem_map, List.mem_flatMap]
  cases c with
  | init | rulesChanged => cases hstorable
  | subsumer expr polarity => exact .inl (.inl (.inl (.inl (.inl ⟨expr, hc, hunsigned⟩))))
  | backwardLink expr role => exact .inl (.inl (.inl (.inl (.inr ⟨expr, hc.1, role, hc.2, rfl⟩))))
  | forwardLink role expr => exact .inl (.inl (.inl (.inr ⟨expr, hc.1, role, hc.2, rfl⟩)))
  | propagation role expr => exact .inl (.inl (.inr ⟨expr, hc.1, role, hc.2, rfl⟩))
  | disjointMember d expr => exact .inl (.inr ⟨expr, hc.1, d, hc.2, rfl⟩)
  | contradiction => exact .inr (List.mem_singleton_self _)

/-- Over a vocabulary, a context cannot store more than `factCount`. -/
theorem length_stored_le {facts : Facts} (h : ∀ c, facts.contains c = true → c.Over v) :
    facts.stored.length ≤ v.factCount := by
  rw [← length_storable]
  refine (facts.nodup_stored.subperm fun c hc => ?_).length_le
  obtain ⟨hunsigned, hcontains⟩ := Facts.mem_stored.1 hc
  exact mem_storable (h c hcontains) (Facts.isStorable_of_contains hcontains) hunsigned

/-! ### The vocabulary of a run -/

/-- The second vocabulary has all of the first. -/
structure Le (v v' : Vocabulary) : Prop where
  exprs {expr : ExprId} : expr ∈ v.exprs → expr ∈ v'.exprs
  roles {role : RoleId} : role ∈ v.roles → role ∈ v'.roles
  disjointnesses {d : DisjointnessId} : d ∈ v.disjointnesses → d ∈ v'.disjointnesses

theorem Le.trans {v'' : Vocabulary} (h : v.Le v') (h' : v'.Le v'') : v.Le v'' :=
  ⟨fun he => h'.exprs (h.exprs he), fun hr => h'.roles (h.roles hr), fun hd => h'.disjointnesses (h.disjointnesses hd)⟩

theorem le_append_left (v v' : Vocabulary) : v.Le (v.append v') :=
  ⟨List.mem_append_left _, List.mem_append_left _, List.mem_append_left _⟩

theorem le_append_right (v v' : Vocabulary) : v'.Le (v.append v') :=
  ⟨List.mem_append_right _, List.mem_append_right _, List.mem_append_right _⟩

theorem le_join {vs : List Vocabulary} (h : v ∈ vs) : v.Le (join vs) := by
  induction vs with
  | nil => cases h
  | cons v' vs ih =>
    rcases List.mem_cons.1 h with rfl | h
    · exact le_append_left ..
    · exact (ih h).trans (le_append_right ..)

end Vocabulary

theorem Conclusion.Over.mono (hv : v.Le v') (h : c.Over v) : c.Over v' := by
  cases c with
  | init | contradiction => trivial
  | subsumer | rulesChanged => exact hv.exprs h
  | backwardLink | forwardLink | propagation => exact ⟨hv.exprs h.1, hv.roles h.2⟩
  | disjointMember => exact ⟨hv.exprs h.1, hv.disjointnesses h.2⟩

theorem Conclusion.over_vocabulary (c : Conclusion) : c.Over c.vocabulary := by
  cases c <;> simp [Conclusion.Over, Conclusion.vocabulary]

/-- A conclusion is over a vocabulary if that has all that the conclusion mentions. -/
theorem Conclusion.Over.vocabulary_le (h : c.Over v) : c.vocabulary.Le v := by
  cases c with
  | init | contradiction => exact ⟨nofun, nofun, nofun⟩
  | subsumer expr _ | rulesChanged expr =>
    have hexpr : expr ∈ v.exprs := h
    exact ⟨by simpa [Conclusion.vocabulary] using hexpr, nofun, nofun⟩
  | backwardLink | forwardLink | propagation =>
    exact ⟨by simpa [Conclusion.vocabulary] using h.1, by simpa [Conclusion.vocabulary] using h.2, nofun⟩
  | disjointMember => exact ⟨by simpa [Conclusion.vocabulary] using h.1, nofun, by simpa [Conclusion.vocabulary] using h.2⟩

/-- A hierarchy mentions the roles below others and those that compositions are told to be below. -/
theorem RoleHierarchy.mem_roles_vocabulary {h : RoleHierarchy} {role : RoleId} : role ∈ h.vocabulary.roles ↔
    (∃ top, role ∈ h.subRoles top) ∨ ∃ left right, (left, right, role) ∈ h.told := by
  unfold RoleHierarchy.vocabulary
  rw [List.mem_append, List.mem_flatten, List.mem_map]
  refine or_congr ⟨?_, ?_⟩ ⟨?_, ?_⟩
  · rintro ⟨row, hrow, hmem⟩
    obtain ⟨i, hi⟩ := Array.mem_iff_getElem?.1 (Array.mem_toList_iff.1 hrow)
    refine ⟨⟨i⟩, ?_⟩
    rw [RoleHierarchy.subRoles, Array.getD_eq_getD_getElem?, hi]
    exact hmem
  · rintro ⟨top, hmem⟩
    rw [RoleHierarchy.subRoles, Array.getD_eq_getD_getElem?] at hmem
    cases hrow : h.below[top.val]? with
    | none =>
      rw [hrow] at hmem
      cases hmem
    | some row =>
      rw [hrow] at hmem
      exact ⟨row, Array.mem_toList_iff.2 (Array.mem_of_getElem? hrow), hmem⟩
  · rintro ⟨⟨left, right, sup⟩, htold, rfl⟩
    exact ⟨left, right, htold⟩
  · rintro ⟨left, right, htold⟩
    exact ⟨_, htold, rfl⟩

theorem Rule.over_vocabulary {premise : ExprId} {rule : Rule} {g : Contribution} (hg : g ∈ rule.contributions premise) :
    g.Over rule.vocabulary := by
  cases rule with
  | toldSupers supers =>
    obtain ⟨sup, hsup, rfl⟩ := List.mem_map.1 hg
    exact hsup
  | conjunctions pairs =>
    obtain ⟨⟨other, both⟩, hpair, rfl⟩ := List.mem_map.1 hg
    exact List.mem_flatMap.2 ⟨_, hpair, by simp⟩
  | propagations pairs =>
    obtain ⟨⟨role, existential⟩, hpair, rfl⟩ := List.mem_map.1 hg
    exact List.mem_map.2 ⟨_, hpair, rfl⟩
  | disjointness memberships =>
    obtain ⟨d, hd, rfl⟩ := List.mem_map.1 hg
    exact hd

theorem Contribution.Over.mono {g : Contribution} (hv : v.Le v') (h : g.Over v) : g.Over v' := by
  cases g with
  | toldSuper | conjunction | propagation => exact hv.exprs h
  | disjointness => exact hv.disjointnesses h

namespace RuleBase

/-- The rules stay over their own vocabulary, extended in any way that has the top class. -/
theorem over_vocabulary {rb : RuleBase} (hv : rb.vocabulary.Le v) (hthing : ExprId.thing ∈ v.exprs) :
    rb.calculus.Over v := by
  have hnode {id : ExprId} {node : Node} (h : rb.index.node? id = some node) : node.vocabulary.Le v := by
    have hmem : node ∈ rb.index.nodes.toList := Array.mem_toList_iff.2 (Array.mem_of_getElem? h)
    refine .trans ?_ hv
    exact (Vocabulary.le_join (List.mem_map_of_mem hmem)).trans (Vocabulary.le_append_right ..)
  have hshape {id : ExprId} {shape : Shape} (h : rb.index.shape? id = some shape) : shape.vocabulary.Le v := by
    obtain ⟨node, hid, rfl⟩ := Option.map_eq_some_iff.1 h
    exact (Vocabulary.le_append_left ..).trans (hnode hid)
  have hroles : rb.roles.vocabulary.Le v := (Vocabulary.le_append_left ..).trans hv
  refine ⟨hthing, fun h => ?_, fun h => ?_, fun {g} h => ?_, fun {top bottom} h => ?_, fun {left right sup} h => ?_⟩
  · have hle := hshape h
    exact ⟨hle.exprs (List.mem_cons_self ..), hle.exprs (List.mem_cons_of_mem _ (List.mem_singleton_self _))⟩
  · have hle := hshape h
    exact ⟨hle.exprs (List.mem_singleton_self _), hle.roles (List.mem_singleton_self _)⟩
  · obtain ⟨rule, hrule, hg⟩ := List.mem_flatMap.1 h
    unfold Index.rulesOf at hrule
    cases hnode' : rb.index.node? g.premise with
    | none =>
      rw [hnode'] at hrule
      cases hrule
    | some node =>
      rw [hnode'] at hrule
      have hle : rule.vocabulary.Le node.vocabulary :=
        (Vocabulary.le_join (List.mem_map_of_mem hrule)).trans (Vocabulary.le_append_right ..)
      exact (Rule.over_vocabulary hg).mono (hle.trans (hnode hnode'))
  · exact hroles.roles (RoleHierarchy.mem_roles_vocabulary.2 (.inl ⟨top, h⟩))
  · exact hroles.roles (RoleHierarchy.mem_roles_vocabulary.2 (.inr ⟨left, right, h⟩))

end RuleBase

namespace Workspace

variable {w : Workspace}

/-- All that a workspace holds is over the vocabulary. -/
structure Over (w : Workspace) (v : Vocabulary) : Prop where
  roots {root : ExprId} : root.val < w.contexts.size → root ∈ v.exprs
  stores {root : ExprId} {c : Conclusion} : w.Stores root c → c.Over v
  waits {root : ExprId} {c : Conclusion} : w.Waits root c → c.Over v

theorem mem_conclusions_of_context? {ctx : Context} (hctx : w.context? root = some ctx) (hc : c ∈ conclusionsOf (some ctx)) :
    c ∈ w.conclusions := by
  have hget : w.contexts[root.val]? = some (some ctx) := Option.join_eq_some_iff.1 hctx
  exact List.mem_flatMap.2 ⟨some ctx, Array.mem_toList_iff.2 (Array.mem_of_getElem? hget), hc⟩

theorem over_vocabulary (hv : w.vocabulary.Le v) : w.Over v := by
  have hconclusion {c : Conclusion} (hc : c ∈ w.conclusions) : c.Over v := by
    refine (Conclusion.over_vocabulary c).mono (.trans ?_ hv)
    exact (Vocabulary.le_join (List.mem_map_of_mem hc)).trans (Vocabulary.le_append_right ..)
  refine ⟨fun {root} hroot => hv.exprs ?_, fun {root c} h => ?_, fun {root c} h => ?_⟩
  · refine List.mem_append_left _ (List.mem_cons_of_mem _ ?_)
    exact List.mem_map.2 ⟨root.val, List.mem_range.2 hroot, rfl⟩
  · obtain ⟨ctx, hctx, hc⟩ := h
    refine Conclusion.over_unsigned.1 (hconclusion (mem_conclusions_of_context? hctx ?_))
    exact List.mem_append_right _ (Facts.mem_stored.2 ⟨by simp, by simpa using hc⟩)
  · obtain ⟨ctx, hctx, hc⟩ := h
    exact hconclusion (mem_conclusions_of_context? hctx (List.mem_append_left _ hc))

/-! ### Runs -/

namespace Over

variable {w' w₀ : Workspace} {rb : RuleBase}

theorem sameWork (h : w.Over v) (hsame : w.SameWork w') : w'.Over v :=
  ⟨fun hroot => h.roots (hsame.size ▸ hroot), fun hc => h.stores (hsame.stores_iff.1 hc),
    fun hc => h.waits (hsame.waits_iff.1 hc)⟩

theorem popped (h : w.Over v) (hpop : Popped w root c w₀) : w₀.Over v :=
  ⟨fun hroot => h.roots (hpop.size ▸ hroot), fun hc => h.stores ((hpop.stores _ _).1 hc), fun hc => h.waits (hpop.waits_of hc)⟩

/-- A conclusion over the vocabulary may be processed in either mode. -/
theorem process (h : w.Over v) (hK : rb.calculus.Over v) (mode : Mode) (hc : c.Over v) :
    (rb.process mode root c w).2.Over v := by
  have hfacts {ctx : Context} (hctx : w.context? root = some ctx) (d : Conclusion) (hd : ctx.facts.contains d = true) :
      d.Over v := h.stores ⟨ctx, hctx, hd⟩
  obtain e | ⟨ctx, rfl, hctx, hnew, -⟩ | ⟨ctx, rfl, hctx, hstored, -⟩ := rb.process_cases mode root c w
  · rwa [e]
  · have hroot : root ∈ v.exprs := h.roots (Has.lt_size ⟨ctx, hctx⟩)
    have hin := RuleBase.takenIn_process rb hctx hnew
    refine ⟨fun hlt => h.roots (hin.size ▸ hlt), fun {other d} hd => ?_, fun {other d} hd => ?_⟩
    · exact ((hin.stores other d).1 hd).elim h.stores fun hd => hc.of_unsigned_eq hd.2.2
    · rcases (hin.waits other d).1 hd with hd | ⟨hd, -⟩ | ⟨rfl, -⟩
      · exact h.waits hd
      · have hinserted := Facts.over_insert (hfacts hctx) hc
        exact (RuleBase.over_of_mem_productions hK hroot hinserted (fun hcs => by simp [hcs]) hd).2.1
      · trivial
  · have hroot : root ∈ v.exprs := h.roots (Has.lt_size ⟨ctx, hctx⟩)
    have hup := RuleBase.givenUp_process rb hctx hstored
    refine ⟨fun hlt => h.roots (hup.size ▸ hlt), fun {other d} hd => h.stores ((hup.stores other d).1 hd).1,
      fun {other d} hd => ?_⟩
    rcases (hup.waits other d).1 hd with hd | ⟨hd, -⟩
    · exact h.waits hd
    · exact (RuleBase.over_of_mem_productions hK hroot (hfacts hctx) (fun _ => hstored) hd).2.1

/-- Whatever steps a run takes, it stays over the vocabulary. -/
theorem steps (h : w.Over v) (hK : rb.calculus.Over v) {mode : Mode} (hsteps : Steps rb mode w w') : w'.Over v := by
  refine Steps.preserve (P := fun w => w.Over v) (fun w w' hw hstep => ?_) hsteps h
  cases hstep with
  | process hctx htodo hrest =>
    have hpop := Popped.put hctx htodo hrest
    exact (hw.popped hpop).process hK mode (hw.waits hpop.waits)
  | schedule hsame => exact hw.sameWork hsame

end Over

end Workspace

end ELOntology
