import ELOntology.Proofs.Index.History

/-!
# The roles that axioms name

Numbering the roles of an axiom is a side effect of indexing it, and an axiom may name a role without saying anything of
it: a declaration, or an equivalence with one member.

Key fact: `Index.knowsRole_of_names` (every role that an asserted axiom names has a number).
-/

namespace ELOntology

namespace ClassExpression

mutual

/-- The roles that occur in the expression. -/
def roleNames : ClassExpression → List String
  | intersection operands => roleNamesAll operands
  | someValues role filler => filler.roleNames ++ [role]
  | hasValue role _ => [role]
  | named _ | thing | nothing | oneOf _ | dataHasValue .. | dataSomeValues .. => []

def roleNamesAll : List ClassExpression → List String
  | [] => []
  | e :: es => e.roleNames ++ roleNamesAll es

end

end ClassExpression

/-- The roles of the left side of a role inclusion. -/
def RoleExpression.roleNames : RoleExpression → List String
  | role iri => [iri]
  | chain roles => roles

/-- The roles that occur in the axiom. -/
def Axiom.roleNames : Axiom → List String
  | declaration (.objectProperty iri) => [iri]
  | declaration _ => []
  | subClassOf sub sup => sub.roleNames ++ sup.roleNames
  | equivalentClasses members | disjointClasses members => ClassExpression.roleNamesAll members
  | classAssertion type _ => type.roleNames
  | roleAssertion role _ _ => [role]
  | subRoleOf sub sup => sup :: sub.roleNames
  | equivalentRoles roles => roles
  | transitiveRole role => [role]

namespace Index

variable {ix : Index} {name : String}

/-- The role has a number. -/
def KnowsRole (ix : Index) (name : String) : Prop := ∃ role, ix.roleId? name = some role

theorem KnowsRole.congr {ix' : Index} (h : ix.KnowsRole name) (hids : ix'.roleIds = ix.roleIds) : ix'.KnowsRole name := by
  rwa [KnowsRole, roleId?, hids]

end Index

/-! ### Numbering roles -/

namespace Indexing

variable {α β : Type} {names names' : List String}

/-- After the computation has succeeded the given roles have numbers, and so have those that had numbers before. -/
def Learns (names : List String) (m : Indexing α) : Prop :=
  ∀ ix a ix', m ix = (.ok a, ix') → ∀ name, ix.KnowsRole name ∨ name ∈ names → ix'.KnowsRole name

namespace Learns

theorem mono {m : Indexing α} (hm : m.Learns names) (hsub : ∀ name ∈ names', name ∈ names) : m.Learns names' :=
  fun ix a ix' hok name hname => hm ix a ix' hok name (hname.imp_right (hsub name))

theorem bind {m : Indexing α} {f : α → Indexing β} (hm : m.Learns names) (hf : ∀ a, (f a).Learns names') :
    (m >>= f).Learns (names ++ names') := by
  intro ix b ix'' hok name hname
  rw [bind_apply] at hok
  split at hok
  · rename_i a ix' ha
    rw [List.mem_append, ← or_assoc] at hname
    exact hf a ix' b ix'' hok name (hname.imp_left (hm ix a ix' ha name))
  · cases hok

/-- The last step numbers no roles. -/
theorem andThen {m : Indexing α} {f : α → Indexing β} (hm : m.Learns names) (hf : ∀ a, (f a).Learns []) :
    (m >>= f).Learns names := (hm.bind hf).mono fun _ => List.mem_append_left []

/-- A computation that keeps the roles, whatever else it does. -/
theorem of_roleIds_eq {m : Indexing α} (h : ∀ ix a ix', m ix = (.ok a, ix') → ix'.roleIds = ix.roleIds) : m.Learns [] := by
  intro ix a ix' hok name hname
  exact (hname.resolve_right List.not_mem_nil).congr (h ix a ix' hok)

theorem pure (a : α) : Learns [] (Pure.pure a : Indexing α) := of_roleIds_eq fun ix a ix' hok => by cases hok; rfl

theorem throw (e : IndexError) : Learns (α := α) [] (MonadExcept.throw e) := of_roleIds_eq fun ix a ix' hok => by cases hok

theorem change {f : Index → Index} (h : ∀ ix, (f ix).roleIds = ix.roleIds) : (Indexing.change f).Learns [] :=
  of_roleIds_eq fun ix a ix' hok => by cases hok; exact h ix

theorem intern (shape : Shape) : (Indexing.intern shape).Learns [] := by
  refine of_roleIds_eq fun ix id ix' hok => ?_
  obtain rfl : (ix.intern shape).2 = ix' := congrArg Prod.snd hok
  unfold Index.intern
  split <;> rfl

theorem internRole (name : String) : (Indexing.internRole name).Learns [name] := by
  intro ix id ix' hok other hother
  obtain rfl : (ix.internRole name).2 = ix' := congrArg Prod.snd hok
  rw [List.mem_singleton] at hother
  unfold Index.internRole
  cases hfind : ix.roleId? name with
  | some role =>
    rcases hother with hold | rfl
    · exact hold
    · exact ⟨role, hfind⟩
  | none =>
    by_cases e : other = name
    · exact ⟨⟨ix.roles.size⟩, by simp [Index.roleId?, e]⟩
    · obtain ⟨role, hrole⟩ := hother.resolve_right e
      exact ⟨role, by rwa [Index.roleId?, List.lookup_cons, beq_eq_false_iff_ne.2 e]⟩

theorem internRoles (names : List String) : (Indexing.internRoles names).Learns names := by
  induction names with
  | nil => exact .pure []
  | cons name names ih => exact (internRole name).bind fun _ => ih.andThen fun _ => .pure _

end Learns

end Indexing

open Indexing

private theorem learns_internConjunction (conjuncts : List ExprId) : (internConjunction conjuncts).Learns [] := by
  have hfold (acc : ExprId) (rest : List ExprId) : (internFold acc rest).Learns [] := by
    induction rest generalizing acc with
    | nil => exact .pure acc
    | cons next rest ih => exact (Learns.intern _).andThen ih
  refine Learns.andThen (.of_roleIds_eq fun ix a ix' hok => by cases hok; rfl) fun ix => ?_
  split
  · exact .throw _
  · exact .throw _
  · exact hfold _ _

namespace ClassExpression

mutual

theorem learns_intern : (e : ClassExpression) → e.intern.Learns e.roleNames
  | named _ => .intern _
  | thing => .pure _
  | nothing => .pure _
  | intersection operands => by
    rw [intern]
    exact (learns_internConjuncts operands).andThen learns_internConjunction
  | someValues role filler => by
    rw [intern]
    exact (learns_intern filler).bind fun _ => (Learns.internRole role).andThen fun _ => .intern _
  | hasValue role individual => by
    rw [intern]
    exact (Learns.intern _).bind fun _ => (Learns.internRole role).andThen fun _ => .intern _
  | oneOf _ => .intern _
  | dataHasValue .. => .intern _
  | dataSomeValues .. => .intern _

theorem learns_internConjuncts : (es : List ClassExpression) → (internConjuncts es).Learns (roleNamesAll es)
  | [] => .pure []
  | e :: es => by
    cases e with
    | intersection operands =>
      rw [internConjuncts]
      exact (learns_internConjuncts operands).bind fun _ => (learns_internConjuncts es).andThen fun _ => .pure _
    | _ =>
      rw [internConjuncts]
      · exact (learns_intern _).bind fun _ => (learns_internConjuncts es).andThen fun _ => .pure _
      · simp

end

theorem learns_internAll (es : List ClassExpression) : (internAll es).Learns (roleNamesAll es) := by
  induction es with
  | nil => exact .pure []
  | cons e es ih => exact (learns_intern e).bind fun _ => ih.andThen fun _ => .pure _

end ClassExpression

namespace Index

variable {ix : Index} {edit : Edit}

/-! ### Edits that keep the roles -/

private theorem roleIds_record (c : Contribution) : (ix.record edit c).roleIds = ix.roleIds := by
  cases edit <;> rfl

private theorem roleIds_recordAll (cs : List Contribution) :
    (cs.foldl (fun ix c => ix.record edit c) ix).roleIds = ix.roleIds := by
  induction cs generalizing ix with
  | nil => rfl
  | cons c cs ih => exact ih.trans (roleIds_record c)

private theorem roleIds_count {polarity : Polarity} {id : ExprId} : (ix.count edit polarity id).roleIds = ix.roleIds :=
  (alike_countWithin edit polarity _ id ix).roleIds

private theorem roleIds_subsumption {sub sup : ExprId} : (ix.subsumption edit sub sup).roleIds = ix.roleIds := by
  rw [subsumption, roleIds_record, roleIds_count, roleIds_count]

private theorem roleIds_equivalence {first : ExprId} {rest : List ExprId} :
    (ix.equivalence edit first rest).roleIds = ix.roleIds := by
  induction rest generalizing ix with
  | nil => rfl
  | cons other rest ih => rw [equivalence, ih, roleIds_subsumption, roleIds_subsumption]

private theorem roleIds_countAll {ids : List ExprId} :
    (ids.foldl (fun ix member => ix.count edit .negative member) ix).roleIds = ix.roleIds := by
  induction ids generalizing ix with
  | nil => rfl
  | cons id ids ih => exact ih.trans roleIds_count

private theorem roleIds_stepDisjointSet {members : List ExprId} :
    (ix.stepDisjointSet edit members).2.roleIds = ix.roleIds := by
  unfold stepDisjointSet
  split
  · rfl
  · cases edit <;> rfl

private theorem roleIds_disjointness {ids : List ExprId} : (ix.disjointness edit ids).roleIds = ix.roleIds := by
  have hstep : (((sortIds ids).foldl (fun ix member => ix.count edit .negative member) ix).stepDisjointSet edit
      (sortIds ids)).2.roleIds = ix.roleIds := roleIds_stepDisjointSet.trans roleIds_countAll
  unfold disjointness
  dsimp only
  split <;> rename_i heq <;> rw [heq] at hstep
  · split
    · exact (roleIds_recordAll _).trans hstep
    · exact hstep
  · exact hstep

private theorem roleIds_inclusion {sub sup : RoleId} : (ix.inclusion edit sub sup).roleIds = ix.roleIds := by
  cases edit <;> rfl

private theorem roleIds_composition {left right sup : RoleId} : (ix.composition edit left right sup).roleIds = ix.roleIds := by
  cases edit <;> rfl

private theorem roleIds_roleEquivalence {first : RoleId} {rest : List RoleId} :
    (ix.roleEquivalence edit first rest).roleIds = ix.roleIds := by
  induction rest generalizing ix with
  | nil => rfl
  | cons other rest ih => rw [roleEquivalence, ih, roleIds_inclusion, roleIds_inclusion]

/-! ### Axioms -/

private theorem learns_internSuffix : (names : List (String × RoleId)) → (internSuffix edit names).Learns []
  | [] => .throw _
  | [_] => .pure _
  | (name, id) :: next :: rest => by
    rw [internSuffix]
    · refine (learns_internSuffix (next :: rest)).andThen fun composed => ?_
      refine Learns.mono ((Learns.internRole _).andThen fun _ => ?_) fun _ h => absurd h List.not_mem_nil
      exact Learns.andThen (.change fun _ => roleIds_composition) fun _ => .pure _
    · simp

private theorem learns_chain (names : List String) (sup : RoleId) : (chain edit names sup).Learns names := by
  rw [chain]
  refine (Learns.internRoles names).andThen fun ids => ?_
  split
  · exact .throw _
  · exact .change fun _ => roleIds_inclusion
  · exact (learns_internSuffix _).andThen fun _ => .change fun _ => roleIds_composition

/-- Indexing an axiom gives numbers to the roles that it names. -/
theorem learns_enter (edit : Edit) (a : Axiom) : (enter edit a).Learns a.roleNames := by
  cases a with
  | declaration entity =>
    cases entity with
    | namedClass iri => exact (Learns.intern _).andThen fun _ => .change fun _ => roleIds_count
    | individual iri => exact (Learns.intern _).andThen fun _ => .change fun _ => roleIds_count
    | objectProperty iri => exact (Learns.internRole iri).andThen fun _ => .pure _
  | subClassOf sub sup =>
    exact sub.learns_intern.bind fun _ => sup.learns_intern.andThen fun _ => .change fun _ => roleIds_subsumption
  | equivalentClasses members =>
    refine (ClassExpression.learns_internAll members).andThen fun ids => ?_
    cases ids with
    | nil => exact .pure _
    | cons first rest => exact .change fun _ => roleIds_equivalence
  | disjointClasses members =>
    exact (ClassExpression.learns_internAll members).andThen fun _ => .change fun _ => roleIds_disjointness
  | classAssertion type individual =>
    exact type.learns_intern.andThen fun _ => (Learns.intern _).andThen fun _ => .change fun _ => roleIds_subsumption
  | roleAssertion role subject object =>
    exact (Learns.intern _).bind fun _ => (Learns.intern _).bind fun _ => (Learns.internRole role).andThen fun _ =>
      (Learns.intern _).andThen fun _ => .change fun _ => roleIds_subsumption
  | subRoleOf sub sup =>
    refine (Learns.internRole sup).bind fun sup' => ?_
    cases sub with
    | role sub =>
      exact (Learns.internRole sub).andThen fun _ => Learns.andThen (.change fun _ => roleIds_inclusion) fun _ =>
        .change fun _ => rfl
    | chain roles => exact (learns_chain roles sup').andThen fun _ => .change fun _ => rfl
  | equivalentRoles roles =>
    refine (Learns.internRoles roles).andThen fun ids => ?_
    cases ids with
    | nil => exact .change fun _ => rfl
    | cons first rest => exact .change fun _ => roleIds_roleEquivalence
  | transitiveRole role => exact (Learns.internRole role).andThen fun _ => .change fun _ => roleIds_composition

/-! ### Histories -/

/-- The role occurs in an asserted axiom. -/
def NamesRole (ix : Index) (name : String) : Prop := ∃ a, ix.containsAxiom a = true ∧ name ∈ a.roleNames

theorem Names.knowsRole {ix' : Index} (h : ix.Names ix') (hix : ix.Tidy) (hix' : ix'.Tidy) {name : String}
    (hname : ix.KnowsRole name) : ix'.KnowsRole name := by
  obtain ⟨role, hrole⟩ := hname
  exact ⟨role, hix'.roleId?_iff.2 (h.role? (hix.roleId?_iff.1 hrole))⟩

/-- An axiom that is asserted for the first time has been entered. -/
private theorem roleIds_assert (h : ix.Accounts) {a : Axiom} (hnew : ix.assertions a = 0) {said : List TermEntry}
    (hsaid : a.entries? = some said) :
    ∃ ix', enter .assert a ix = (.ok (), ix') ∧ (ix.assert a).2.roleIds = ix'.roleIds := by
  have hspec := enter_spec .assert h.tidy a
  rw [hsaid] at hspec
  obtain ⟨ix', hok, -⟩ := hspec
  refine ⟨ix', hok, ?_⟩
  rw [Index.assert, hnew]
  dsimp only
  rw [hok]

private theorem knowsRole_assert (h : ix.Accounts) (hknown : ∀ name, ix.NamesRole name → ix.KnowsRole name) (a : Axiom)
    {name : String} (hname : (ix.assert a).2.NamesRole name) : (ix.assert a).2.KnowsRole name := by
  obtain ⟨haccounts, hnames, -, hspec⟩ := h.assert a
  obtain ⟨b, hb, hmem⟩ := hname
  by_cases hold : ix.containsAxiom b = true
  · exact hnames.knowsRole h.tidy haccounts.tidy (hknown name ⟨b, hold, hmem⟩)
  · cases hentries : a.entries? with
    | none =>
      rw [hentries] at hspec
      rw [containsAxiom, hspec.2.axioms] at hb
      exact absurd hb hold
    | some said =>
      rw [hentries] at hspec
      rw [haccounts.containsAxiom_iff, hspec.2 b] at hb
      rw [h.containsAxiom_iff] at hold
      -- the only axiom that can be new is the one that was asserted
      obtain rfl : b = a := by
        by_contra hne
        rw [if_neg hne] at hb
        exact hold hb
      obtain ⟨ix', hok, hroles⟩ := roleIds_assert h (Nat.eq_zero_of_not_pos hold) hentries
      exact (learns_enter .assert b ix () ix' hok name (.inr hmem)).congr hroles

private theorem knowsRole_retract (h : ix.Accounts) (hknown : ∀ name, ix.NamesRole name → ix.KnowsRole name) (a : Axiom)
    {name : String} (hname : (ix.retract a).2.NamesRole name) : (ix.retract a).2.KnowsRole name := by
  obtain ⟨haccounts, hnames, -, -, hcounts⟩ := h.retract a
  obtain ⟨b, hb, hmem⟩ := hname
  rw [haccounts.containsAxiom_iff, hcounts b] at hb
  refine hnames.knowsRole h.tidy haccounts.tidy (hknown name ⟨b, h.containsAxiom_iff.2 ?_, hmem⟩)
  omega

private theorem knowsRole_apply (h : ix.Accounts) (hknown : ∀ name, ix.NamesRole name → ix.KnowsRole name) (call : Call)
    {name : String} (hname : (call.apply ix).NamesRole name) : (call.apply ix).KnowsRole name := by
  cases call with
  | assert a => exact knowsRole_assert h hknown a hname
  | retract a => exact knowsRole_retract h hknown a hname
  | commit =>
    obtain ⟨-, halike, -, haxioms⟩ := h.commit
    obtain ⟨a, ha, hmem⟩ := hname
    rw [containsAxiom, Call.apply, haxioms] at ha
    exact (hknown name ⟨a, ha, hmem⟩).congr halike.roleIds
  | takeRolesChanged => exact hknown name hname

/-- Every role that an asserted axiom names has a number. -/
theorem knowsRole_of_names (calls : List Call) {name : String} (h : (after calls).NamesRole name) :
    (after calls).KnowsRole name := by
  suffices hrun : ∀ ix : Index, ix.Accounts → (∀ name, ix.NamesRole name → ix.KnowsRole name) →
      ∀ name, (calls.foldl Call.apply ix).NamesRole name → (calls.foldl Call.apply ix).KnowsRole name by
    refine hrun .empty accounts_empty (fun name hname => ?_) name h
    obtain ⟨a, ha, -⟩ := hname
    rw [containsAxiom, axioms_empty] at ha
    cases ha
  clear h
  induction calls with
  | nil => exact fun _ _ hknown => hknown
  | cons call calls ih =>
    exact fun ix hix hknown => ih _ (call.accounts_apply hix) fun _ => knowsRole_apply hix hknown call

end Index

end ELOntology
