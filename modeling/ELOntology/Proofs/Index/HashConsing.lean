import Mathlib.Logic.Relation
import ELOntology.Proofs.Index.Interning
import ELOntology.Proofs.Index.RoleNames

/-!
# Hash consing

An index numbers shapes, names of roles and sorted lists of disjoint classes.  Each of the three has a table in which no
key is repeated, and a map beside the table, which is its inverse.  The parts of a node have smaller numbers than the node,
and what has a number keeps it.

A call changes the tables step by step, and it may fail in the middle.  Each step that makes an entry puts it into both the
table and the map, so the maps are inverse to the tables at every moment of a call, not only between calls.

Key facts: `Step.mapped` (each step keeps the maps inverse to the tables), `stepwise_enter` (whatever an axiom says, and
whether or not it can be indexed, it is entered by such steps), `Tidy.countWithin_congr` (counting ends by itself),
`Call.keeps_apply` (no call changes what has a number) and `tables_wellFormed`.
-/

namespace ELOntology

namespace Index

variable {ix ix' ix'' : Index} {edit : Edit}

/-! ### The maps beside the tables -/

/-- The three maps are inverse to the three tables. -/
structure Mapped (ix : Index) : Prop where
  shapes : ix.ShapesFound
  roles : ix.RolesFound
  sets : ix.SetsFound

/-- What an index does at once while a call is under way. -/
inductive Step (ix : Index) : Index → Prop
  | intern (shape : Shape) : Step ix (ix.intern shape).2
  | internRole (name : String) : Step ix (ix.internRole name).2
  | count (edit : Edit) (polarity : Polarity) (id : ExprId) : Step ix (ix.count edit polarity id)
  | record (edit : Edit) (c : Contribution) : Step ix (ix.record edit c)
  | stepDisjointSet (edit : Edit) (members : List ExprId) : Step ix (ix.stepDisjointSet edit members).2
  | inclusion (edit : Edit) (sub sup : RoleId) : Step ix (ix.inclusion edit sub sup)
  | composition (edit : Edit) (left right sup : RoleId) : Step ix (ix.composition edit left right sup)
  | noteRoles : Step ix ix.noteRoles

private theorem SetsFound.countWithin (h : ix.SetsFound) (polarity : Polarity) (fuel : Nat) (id : ExprId) :
    (ix.countWithin edit polarity fuel id).SetsFound := by
  induction fuel generalizing id ix with
  | zero => exact h
  | succ fuel ih =>
    cases hnode : ix.node? id with
    | none => rwa [countWithin_of_none hnode]
    | some node =>
      have hbump : (ix.bump edit polarity id).SetsFound := h.enterEntry edit (.occurrence polarity id)
      rw [countWithin_succ hnode]
      cases node.shape with
      | named | data | nominal => exact hbump
      | conjunction first second => exact ih (ih hbump first) second
      | existential role filler => exact ih hbump filler

/-- Each step keeps the maps inverse to the tables. -/
theorem Step.mapped (h : ix.Step ix') (hix : ix.Mapped) : ix'.Mapped := by
  -- where nodes, roles and their maps stay as they are, only the sets are left to look at
  have alike {ix' : Index} (halike : ix.Alike ix') (hsets : ix'.SetsFound) : ix'.Mapped :=
    ⟨halike.shapesFound hix.shapes, halike.rolesFound hix.roles, hsets⟩
  cases h with
  | intern shape =>
    refine ⟨hix.shapes.intern shape, ?_, ?_⟩ <;> unfold Index.intern <;> split
    · exact hix.roles
    · exact hix.roles
    · exact hix.sets
    · exact hix.sets.congr rfl rfl
  | internRole name =>
    refine ⟨?_, hix.roles.internRole name, ?_⟩ <;> unfold Index.internRole <;> split
    · exact hix.shapes
    · exact hix.shapes
    · exact hix.sets
    · exact hix.sets.congr rfl rfl
  | count edit polarity id => exact alike (alike_countWithin edit polarity _ id ix) (hix.sets.countWithin polarity _ id)
  | stepDisjointSet edit members =>
    refine alike ?_ (hix.sets.stepDisjointSet edit members)
    unfold Index.stepDisjointSet
    split
    · exact .of_nodes rfl rfl rfl rfl
    · cases edit <;> exact .of_nodes rfl rfl rfl rfl
  | record edit | inclusion edit | composition edit =>
    cases edit <;> exact alike (.of_nodes rfl rfl rfl rfl) (hix.sets.congr rfl rfl)
  | noteRoles => exact alike (.of_nodes rfl rfl rfl rfl) (hix.sets.congr rfl rfl)

/-- Any number of steps. -/
abbrev Steps : Index → Index → Prop := Relation.ReflTransGen Step

theorem Steps.mapped (h : Steps ix ix') (hix : ix.Mapped) : ix'.Mapped := by
  induction h with
  | refl => exact hix
  | tail _ hstep ih => exact hstep.mapped ih

end Index

/-! ### Calls go by steps -/

namespace Indexing

open Index

variable {α β : Type}

/-- Whether it succeeds or fails, the computation takes the index along by steps. -/
def Stepwise (m : Indexing α) : Prop := ∀ ix, Steps ix (m ix).2

namespace Stepwise

theorem bind {m : Indexing α} {f : α → Indexing β} (hm : m.Stepwise) (hf : ∀ a, (f a).Stepwise) : (m >>= f).Stepwise := by
  intro ix
  have hfirst := hm ix
  rw [bind_apply]
  split <;> rename_i heq <;> rw [heq] at hfirst
  · exact hfirst.trans (hf _ _)
  · exact hfirst

theorem pure (a : α) : Stepwise (Pure.pure a : Indexing α) := fun _ => .refl

theorem throw (e : IndexError) : Stepwise (α := α) (MonadExcept.throw e) := fun _ => .refl

theorem change {f : Index → Index} (h : ∀ ix, Steps ix (f ix)) : (Indexing.change f).Stepwise := h

theorem intern (shape : Shape) : (Indexing.intern shape).Stepwise := fun _ => .single (.intern shape)

theorem internRole (name : String) : (Indexing.internRole name).Stepwise := fun _ => .single (.internRole name)

theorem internRoles (names : List String) : (Indexing.internRoles names).Stepwise := by
  induction names with
  | nil => exact pure []
  | cons name names ih => exact (internRole name).bind fun _ => ih.bind fun _ => pure _

end Stepwise

end Indexing

open Indexing

private theorem stepwise_internConjunction (conjuncts : List ExprId) : (internConjunction conjuncts).Stepwise := by
  have hfold (acc : ExprId) (rest : List ExprId) : (internFold acc rest).Stepwise := by
    induction rest generalizing acc with
    | nil => exact .pure acc
    | cons next rest ih => exact (Stepwise.intern _).bind ih
  refine Stepwise.bind (fun _ => .refl) fun ix => ?_
  split
  · exact .throw _
  · exact .throw _
  · exact hfold _ _

namespace ClassExpression

mutual

theorem stepwise_intern : (e : ClassExpression) → e.intern.Stepwise
  | named _ => .intern _
  | thing => .pure _
  | nothing => .pure _
  | intersection operands => by
    rw [intern]
    exact (stepwise_internConjuncts operands).bind stepwise_internConjunction
  | someValues role filler => by
    rw [intern]
    exact (stepwise_intern filler).bind fun _ => (Stepwise.internRole role).bind fun _ => .intern _
  | hasValue role individual => by
    rw [intern]
    exact (Stepwise.intern _).bind fun _ => (Stepwise.internRole role).bind fun _ => .intern _
  | oneOf _ => .intern _
  | dataHasValue .. => .intern _
  | dataSomeValues .. => .intern _

theorem stepwise_internConjuncts : (es : List ClassExpression) → (internConjuncts es).Stepwise
  | [] => .pure []
  | e :: es => by
    cases e with
    | intersection operands =>
      rw [internConjuncts]
      exact (stepwise_internConjuncts operands).bind fun _ => (stepwise_internConjuncts es).bind fun _ => .pure _
    | _ =>
      rw [internConjuncts]
      · exact (stepwise_intern _).bind fun _ => (stepwise_internConjuncts es).bind fun _ => .pure _
      · simp

end

theorem stepwise_internAll (es : List ClassExpression) : (internAll es).Stepwise := by
  induction es with
  | nil => exact .pure []
  | cons e es ih => exact (stepwise_intern e).bind fun _ => ih.bind fun _ => .pure _

end ClassExpression

namespace Index

variable {ix ix' ix'' : Index} {edit : Edit}

private theorem steps_foldl {α : Type} {f : Index → α → Index} (h : ∀ ix x, Steps ix (f ix x)) (xs : List α) (ix : Index) :
    Steps ix (xs.foldl f ix) := by
  induction xs generalizing ix with
  | nil => exact .refl
  | cons x xs ih => exact (h ix x).trans (ih _)

private theorem steps_subsumption (sub sup : ExprId) (ix : Index) : Steps ix (ix.subsumption edit sub sup) :=
  .head (.count edit .negative sub) (.head (.count edit .positive sup) (.single (.record edit _)))

private theorem steps_equivalence (first : ExprId) (rest : List ExprId) (ix : Index) :
    Steps ix (ix.equivalence edit first rest) := by
  induction rest generalizing ix with
  | nil => exact .refl
  | cons other rest ih =>
    exact (steps_subsumption first other ix).trans ((steps_subsumption other first _).trans (ih _))

private theorem steps_disjointness (ids : List ExprId) (ix : Index) : Steps ix (ix.disjointness edit ids) := by
  have hcounts := steps_foldl (fun ix member => .single (.count edit .negative member)) (sortIds ids) ix
  have hstep := hcounts.tail (.stepDisjointSet edit (sortIds ids))
  unfold disjointness
  dsimp only
  split <;> rename_i heq <;> rw [heq] at hstep
  · split
    · exact hstep.trans (steps_foldl (fun ix c => .single (.record edit c)) _ _)
    · exact hstep
  · exact hstep

private theorem steps_roleEquivalence (first : RoleId) (rest : List RoleId) (ix : Index) :
    Steps ix (ix.roleEquivalence edit first rest) := by
  induction rest generalizing ix with
  | nil => exact .refl
  | cons other rest ih => exact .head (.inclusion edit first other) (.head (.inclusion edit other first) (ih _))

private theorem stepwise_internSuffix : (names : List (String × RoleId)) → (internSuffix edit names).Stepwise
  | [] => .throw _
  | [_] => .pure _
  | (name, id) :: next :: rest => by
    rw [internSuffix]
    · refine (stepwise_internSuffix (next :: rest)).bind fun composed => (Stepwise.internRole _).bind fun _ => ?_
      exact Stepwise.bind (.change fun _ => .single (.composition edit _ _ _)) fun _ => .pure _
    · simp

private theorem stepwise_chain (names : List String) (sup : RoleId) : (chain edit names sup).Stepwise := by
  rw [chain]
  refine (Stepwise.internRoles names).bind fun ids => ?_
  split
  · exact .throw _
  · exact .change fun _ => .single (.inclusion edit _ _)
  · exact (stepwise_internSuffix _).bind fun _ => .change fun _ => .single (.composition edit _ _ _)

/-- Whatever an axiom says, and whether or not it can be indexed, it is entered by steps. -/
theorem stepwise_enter (edit : Edit) (a : Axiom) : (enter edit a).Stepwise := by
  have hnote : (Indexing.change noteRoles).Stepwise := .change fun _ => .single .noteRoles
  cases a with
  | declaration entity =>
    cases entity with
    | namedClass iri => exact (Stepwise.intern _).bind fun _ => .change fun _ => .single (.count edit _ _)
    | individual iri => exact (Stepwise.intern _).bind fun _ => .change fun _ => .single (.count edit _ _)
    | objectProperty iri => exact (Stepwise.internRole iri).bind fun _ => .pure _
  | subClassOf sub sup =>
    exact sub.stepwise_intern.bind fun _ => sup.stepwise_intern.bind fun _ => .change (steps_subsumption _ _)
  | equivalentClasses members =>
    refine (ClassExpression.stepwise_internAll members).bind fun ids => ?_
    cases ids with
    | nil => exact .pure _
    | cons first rest => exact .change (steps_equivalence first rest)
  | disjointClasses members =>
    exact (ClassExpression.stepwise_internAll members).bind fun ids => .change (steps_disjointness ids)
  | classAssertion type individual =>
    exact type.stepwise_intern.bind fun _ => (Stepwise.intern _).bind fun _ => .change (steps_subsumption _ _)
  | roleAssertion role subject object =>
    exact (Stepwise.intern _).bind fun _ => (Stepwise.intern _).bind fun _ => (Stepwise.internRole role).bind fun _ =>
      (Stepwise.intern _).bind fun _ => .change (steps_subsumption _ _)
  | subRoleOf sub sup =>
    refine (Stepwise.internRole sup).bind fun sup' => ?_
    cases sub with
    | role sub =>
      exact (Stepwise.internRole sub).bind fun _ =>
        Stepwise.bind (.change fun _ => .single (.inclusion edit _ _)) fun _ => hnote
    | chain roles => exact (stepwise_chain roles sup').bind fun _ => hnote
  | equivalentRoles roles =>
    refine (Stepwise.internRoles roles).bind fun ids => ?_
    cases ids with
    | nil => exact hnote
    | cons first rest => exact .change fun ix => (steps_roleEquivalence first rest ix).tail .noteRoles
  | transitiveRole role =>
    exact (Stepwise.internRole role).bind fun id =>
      .change fun _ => .head (.composition edit id id id) (.single .noteRoles)

theorem Accounts.mapped (h : ix.Accounts) : ix.Mapped := ⟨h.tidy.shapes, h.tidy.roles, h.found⟩

/-! ### The tables -/

/-- The shapes of the nodes, in the order of their numbers. -/
def shapes (ix : Index) : List Shape := ix.nodes.toList.map (·.shape)

/-- The members of the sets of disjoint classes, in the order of their numbers. -/
def memberLists (ix : Index) : List (List ExprId) := ix.disjointSets.toList.map (·.members)

theorem getElem?_memberLists {i : Nat} : ix.memberLists[i]? = ix.members? ⟨i⟩ := by simp [memberLists, members?]

/-- No table has the same key twice, and the lists of disjoint classes are sorted. -/
structure Distinct (ix : Index) : Prop where
  shapes : ix.shapes.Nodup
  roles : ix.roles.toList.Nodup
  memberLists : ix.memberLists.Nodup
  sorted {members : List ExprId} (h : members ∈ ix.memberLists) : members.Pairwise fun a b => a.val ≤ b.val

/-- A list in which every entry is found at its place has no entry twice. -/
private theorem nodup_of_found {κ ν : Type} {keys : List κ} (number : Nat → ν) (hnumber : Function.Injective number)
    (find? : κ → Option ν) (h : ∀ (i : Nat) (key : κ), keys[i]? = some key → find? key = some (number i)) : keys.Nodup := by
  refine List.pairwise_iff_getElem.2 fun i j hi hj hlt e => ?_
  have hfirst := h i _ (List.getElem?_eq_getElem hi)
  rw [e, h j _ (List.getElem?_eq_getElem hj)] at hfirst
  exact Nat.ne_of_gt hlt (hnumber (Option.some.inj hfirst))

theorem Accounts.distinct (h : ix.Accounts) : ix.Distinct where
  shapes := by
    refine nodup_of_found ExprId.mk (fun _ _ e => congrArg ExprId.val e) ix.find? fun i shape hi => ?_
    refine h.tidy.find?_iff.2 (Eq.trans ?_ hi)
    simp [Index.shapes, shape?, node?]
  roles := by
    refine nodup_of_found RoleId.mk (fun _ _ e => congrArg RoleId.val e) ix.roleId? fun i name hi => ?_
    exact h.tidy.roleId?_iff.2 (Array.getElem?_toList.symm.trans hi)
  memberLists := by
    refine nodup_of_found DisjointnessId.mk (fun _ _ e => congrArg DisjointnessId.val e) ix.disjointnessId?
      fun i members hi => ?_
    exact (h.found members ⟨i⟩).2 (getElem?_memberLists.symm.trans hi)
  sorted {members} hmem := by
    obtain ⟨entries, hledger⟩ := h.exists_ledger
    obtain ⟨set, hset, rfl⟩ := List.mem_map.1 hmem
    obtain ⟨d, hd⟩ := Array.mem_iff_getElem?.1 (Array.mem_toList_iff.1 hset)
    rw [← hledger.sets.sorted hd]
    exact pairwise_sortIds _

/-! ### Going down to the parts -/

/-- Rendering and counting end by themselves: any number of steps above the number of the node is enough. -/
structure Descends (ix : Index) : Prop where
  renderWithin_eq {id : ExprId} {fuel : Nat} (h : id.val < fuel) : ix.renderWithin fuel id = ix.render id
  countWithin_eq (edit : Edit) (polarity : Polarity) {id : ExprId} {fuel : Nat} (h : id.val < fuel) :
    ix.countWithin edit polarity fuel id = ix.count edit polarity id

/-- Counting goes down to smaller numbers, so it does not matter how much further it may go. -/
theorem Tidy.countWithin_congr (hix : ix.Tidy) {edit : Edit} {polarity : Polarity} {id : ExprId} {fuel fuel' : Nat}
    (h : id.val < fuel) (h' : id.val < fuel') :
    ix.countWithin edit polarity fuel id = ix.countWithin edit polarity fuel' id := by
  induction fuel generalizing fuel' id ix with
  | zero => omega
  | succ fuel ih =>
    obtain ⟨fuel', rfl⟩ : ∃ n, fuel' = n + 1 := ⟨fuel' - 1, by omega⟩
    cases hnode : ix.node? id with
    | none => rw [countWithin_of_none hnode, countWithin_of_none hnode]
    | some node =>
      have hbump := (alike_bump edit polarity id ix).tidy hix
      have hshape : ix.shape? id = some node.shape := shape?_eq_some_iff.2 ⟨node, hnode, rfl⟩
      rw [countWithin_succ hnode, countWithin_succ hnode]
      cases hparts : node.shape with
      | named | data | nominal => rfl
      | conjunction first second =>
        rw [hparts] at hshape
        obtain ⟨hfirst, hsecond⟩ := hix.conjuncts hshape
        have hcount := (alike_countWithin edit polarity fuel first _).tidy hbump
        dsimp only
        rw [ih hcount (by omega) (show second.val < fuel' by omega), ih hbump (by omega) (show first.val < fuel' by omega)]
      | existential role filler =>
        rw [hparts] at hshape
        obtain ⟨hfiller, -⟩ := hix.filler hshape
        exact ih hbump (by omega) (by omega)

theorem Tidy.descends (hix : ix.Tidy) : ix.Descends where
  renderWithin_eq {id fuel} h := by
    cases hnode : ix.node? id with
    | none =>
      obtain ⟨fuel, rfl⟩ := Nat.exists_eq_add_one.2 (Nat.zero_lt_of_lt h)
      simp [render, renderWithin, shape?, hnode]
    | some node =>
      obtain ⟨t, ht⟩ := hix.exists_denotes (lt_size_of_node? hnode)
      rw [hix.renderWithin_eq ht h, hix.render_eq ht]
  countWithin_eq edit polarity id fuel h := hix.countWithin_congr h (Nat.lt_succ_self _)

/-! ### What stays -/

/-- What has a number in the first index keeps it in the second: nodes with their shapes and hashes, roles, and sets of
disjoint classes. -/
structure Keeps (ix ix' : Index) : Prop where
  node? {id : ExprId} {node : Node} (h : ix.node? id = some node) :
    ∃ node', ix'.node? id = some node' ∧ node'.shape = node.shape ∧ node'.hash = node.hash
  role? {role : RoleId} {name : String} (h : ix.role? role = some name) : ix'.role? role = some name
  find? {shape : Shape} {id : ExprId} (h : ix.find? shape = some id) : ix'.find? shape = some id
  roleId? {name : String} {role : RoleId} (h : ix.roleId? name = some role) : ix'.roleId? name = some role
  disjointnessId? {members : List ExprId} {d : DisjointnessId} (h : ix.disjointnessId? members = some d) :
    ix'.disjointnessId? members = some d

namespace Keeps

theorem refl (ix : Index) : ix.Keeps ix := ⟨fun h => ⟨_, h, rfl, rfl⟩, id, id, id, id⟩

theorem trans (h : ix.Keeps ix') (h' : ix'.Keeps ix'') : ix.Keeps ix'' where
  node? hnode := by
    obtain ⟨middle, hmiddle, hshape, hhash⟩ := h.node? hnode
    obtain ⟨node', hnode', hshape', hhash'⟩ := h'.node? hmiddle
    exact ⟨node', hnode', hshape'.trans hshape, hhash'.trans hhash⟩
  role? hrole := h'.role? (h.role? hrole)
  find? hfind := h'.find? (h.find? hfind)
  roleId? hfind := h'.roleId? (h.roleId? hfind)
  disjointnessId? hfind := h'.disjointnessId? (h.disjointnessId? hfind)

end Keeps

theorem Call.keeps_apply (h : ix.Accounts) (call : Call) : ix.Keeps (call.apply ix) := by
  have h' := call.accounts_apply h
  have hnames := call.names_apply h
  have hsets := call.setsKept_apply h
  refine ⟨fun {id node} hnode => ?_, hnames.role?, fun hfind => ?_, fun hfind => ?_, fun hfind => ?_⟩
  · obtain ⟨t, ht⟩ := h.tidy.exists_denotes (lt_size_of_node? hnode)
    have hhash : (call.apply ix).hashOf id = ix.hashOf id :=
      (h'.tidy.hashOf_eq (hnames.denotes ht)).trans (h.tidy.hashOf_eq ht).symm
    obtain ⟨node', hnode', hshape⟩ := shape?_eq_some_iff.1 (hnames.shape? (shape?_eq_some_iff.2 ⟨node, hnode, rfl⟩))
    exact ⟨node', hnode', hshape, by simpa [hashOf, hnode, hnode'] using hhash⟩
  · exact h'.tidy.find?_iff.2 (hnames.shape? (h.tidy.find?_iff.1 hfind))
  · exact h'.tidy.roleId?_iff.2 (hnames.role? (h.tidy.roleId?_iff.1 hfind))
  · obtain ⟨set, hset, hmembers⟩ := Option.map_eq_some_iff.1 ((h.found _ _).1 hfind)
    obtain ⟨set', hset', e⟩ := hsets.kept hset
    exact (h'.found _ _).2 (members?_eq_some hset' (e.trans hmembers))

/-- No history changes what has a number already. -/
theorem Accounts.keeps_foldl (h : ix.Accounts) (calls : List Call) : ix.Keeps (calls.foldl Call.apply ix) := by
  induction calls generalizing ix with
  | nil => exact .refl ix
  | cons call calls ih => exact (call.keeps_apply h).trans (ih (call.accounts_apply h))

/-- The tables of an index are well formed after every history of calls, failing ones included.  The maps are inverse to
the tables, and they stay so at every moment of any later call, which goes by steps also when it fails.  No table has the
same key twice; the parts of a node have smaller numbers than the node, so whatever goes down to them ends; and the hash of a
node is that of its shape (`Tidy`).  Later calls leave what has a number as it is. -/
theorem tables_wellFormed (calls : List Call) :
    (after calls).Tidy ∧ (∀ ix, Steps (after calls) ix → ix.Mapped) ∧
      (∀ edit a, Steps (after calls) (enter edit a (after calls)).2) ∧ (after calls).Distinct ∧ (after calls).Descends ∧
      ∀ later, (after calls).Keeps (after (calls ++ later)) := by
  have h := accounts_after calls
  refine ⟨h.tidy, fun ix hsteps => hsteps.mapped h.mapped, fun edit a => stepwise_enter edit a _, h.distinct,
    h.tidy.descends, fun later => ?_⟩
  have hkeeps := h.keeps_foldl later
  rwa [after, ← List.foldl_append] at hkeeps

/-- A failing addition leaves the names that it numbered. -/
example : (after [.assert (.subClassOf (.named "A") (.intersection []))]).find? (.named "A") = some ⟨2⟩ := by
  decide +kernel

end Index

end ELOntology
