import Mathlib.Data.List.Perm.Basic
import ELOntology.Proofs.Index.Canonical
import ELOntology.Proofs.Index.Commit

/-!
# What axioms say

`Axiom.entries?` lists what an axiom says, in terms and role names and so without any index; there is no such list for an
axiom that cannot be indexed.  Asserting the axiom enters these entries under the numbers of an index, and retracting it
strikes them out.

Key facts: `Index.enter_spec` (either edit does just this, or fails and has only made nodes and roles) and
`Index.Reads.unique` (an entry has one reading in numbers at most).
-/

namespace ELOntology

/-- An entry in terms and names of roles. -/
abbrev TermEntry := Entry Term String

namespace Term

/-- The occurrences of a term and of its parts. -/
def occurrences (polarity : Polarity) : Term → List TermEntry
  | conjunction first second =>
    .occurrence polarity (.conjunction first second) :: (first.occurrences polarity ++ second.occurrences polarity)
  | existential role filler => .occurrence polarity (.existential role filler) :: filler.occurrences polarity
  | t => [.occurrence polarity t]

/-- What is said by the inclusion of one term in another. -/
def inclusionEntries (sub sup : Term) : List TermEntry :=
  sub.occurrences .negative ++ sup.occurrences .positive ++ [.inclusion sub sup]

/-- What is said by the equivalence of a term to others. -/
def equivalenceEntries (first : Term) : List Term → List TermEntry
  | [] => []
  | other :: rest => first.inclusionEntries other ++ other.inclusionEntries first ++ equivalenceEntries first rest

def disjointnessEntries (ts : List Term) : List TermEntry :=
  ts.flatMap (occurrences .negative) ++ [.disjointness ts]

end Term

namespace RoleExpression

/-- The name of the auxiliary role for a composition of roles. -/
def suffixName : List String → String
  | [] => ""
  | [last] => last
  | name :: rest => name ++ "∘" ++ suffixName rest

/-- What is said of the auxiliary roles of a composition. -/
def suffixEntries : List String → List TermEntry
  | [] | [_] => []
  | name :: rest => suffixEntries rest ++ [.composition name (suffixName rest) (name ++ "∘" ++ suffixName rest)]

def chainEntries? (sup : String) : List String → Option (List TermEntry)
  | [] => none
  | [only] => some [.roleInclusion only sup]
  | first :: rest => some (suffixEntries rest ++ [.composition first (suffixName rest) sup])

def equivalenceEntries (first : String) : List String → List TermEntry
  | [] => []
  | other :: rest => .roleInclusion first other :: .roleInclusion other first :: equivalenceEntries first rest

end RoleExpression

/-- What an axiom says; none for an axiom that cannot be indexed. -/
def Axiom.entries? : Axiom → Option (List TermEntry)
  | .declaration (.namedClass iri) => some [.occurrence .positive (.named iri)]
  | .declaration (.individual iri) => some [.occurrence .positive (.nominal iri)]
  | .declaration (.objectProperty _) => some []
  | .subClassOf sub sup => do
    let t ← sub.term?
    let u ← sup.term?
    return t.inclusionEntries u
  | .equivalentClasses members => do
    let ts ← ClassExpression.terms? members
    match ts with
    | [] => return []
    | first :: rest => return first.equivalenceEntries rest
  | .disjointClasses members => do
    let ts ← ClassExpression.terms? members
    return Term.disjointnessEntries ts
  | .classAssertion type individual => do
    let t ← type.term?
    return (Term.nominal individual).inclusionEntries t
  | .roleAssertion role subject object =>
    some ((Term.nominal subject).inclusionEntries (.existential role (.nominal object)))
  | .subRoleOf (.role sub) sup => some [.roleInclusion sub sup]
  | .subRoleOf (.chain roles) sup => RoleExpression.chainEntries? sup roles
  | .equivalentRoles [] => some []
  | .equivalentRoles (first :: rest) => some (RoleExpression.equivalenceEntries first rest)
  | .transitiveRole role => some [.composition role role role]

namespace Index

variable {ix ix' ix'' : Index} {edit : Edit}

/-- The entry in numbers says what the entry in terms says. -/
inductive Reads (ix : Index) : IndexEntry → TermEntry → Prop
  | occurrence {polarity : Polarity} {id : ExprId} {t : Term} (h : ix.Denotes id t) :
      Reads ix (.occurrence polarity id) (.occurrence polarity t)
  | inclusion {sub sup : ExprId} {t u : Term} (hsub : ix.Denotes sub t) (hsup : ix.Denotes sup u) :
      Reads ix (.inclusion sub sup) (.inclusion t u)
  | disjointness {ids : List ExprId} {ts : List Term} (h : ix.DenoteAll ids ts) :
      Reads ix (.disjointness ids) (.disjointness ts)
  | roleInclusion {sub sup : RoleId} {n m : String} (hsub : ix.role? sub = some n) (hsup : ix.role? sup = some m) :
      Reads ix (.roleInclusion sub sup) (.roleInclusion n m)
  | composition {left right sup : RoleId} {l r s : String} (hleft : ix.role? left = some l)
      (hright : ix.role? right = some r) (hsup : ix.role? sup = some s) :
      Reads ix (.composition left right sup) (.composition l r s)

abbrev ReadsAll (ix : Index) : List IndexEntry → List TermEntry → Prop := List.Forall₂ ix.Reads

theorem Names.reads (h : ix.Names ix') {entry : IndexEntry} {said : TermEntry} (hr : ix.Reads entry said) :
    ix'.Reads entry said := by
  cases hr with
  | occurrence hd => exact .occurrence (h.denotes hd)
  | inclusion hsub hsup => exact .inclusion (h.denotes hsub) (h.denotes hsup)
  | disjointness hd => exact .disjointness (h.denoteAll hd)
  | roleInclusion hsub hsup => exact .roleInclusion (h.role? hsub) (h.role? hsup)
  | composition hl hr hs => exact .composition (h.role? hl) (h.role? hr) (h.role? hs)

theorem Names.readsAll (h : ix.Names ix') {entries : List IndexEntry} {said : List TermEntry}
    (hr : ix.ReadsAll entries said) : ix'.ReadsAll entries said := hr.imp fun _ _ => h.reads

theorem Reads.within {entry : IndexEntry} {said : TermEntry} (h : ix.Reads entry said) : entry.Within ix := by
  cases h with
  | occurrence h => exact h.lt_size
  | inclusion hsub hsup => exact ⟨hsub.lt_size, hsup.lt_size⟩
  | disjointness h =>
    intro id hid
    obtain ⟨t, -, ht⟩ := exists_right_of_mem h hid
    exact ht.lt_size
  | roleInclusion hsub hsup => exact ⟨lt_size_of_role? hsub, lt_size_of_role? hsup⟩
  | composition hl hr hs => exact ⟨lt_size_of_role? hl, lt_size_of_role? hr, lt_size_of_role? hs⟩

theorem Tidy.denoteAll_unique (hix : ix.Tidy) {ids ids' : List ExprId} {ts : List Term} (h : ix.DenoteAll ids ts)
    (h' : ix.DenoteAll ids' ts) : ids = ids' := by
  have hunique : Relator.LeftUnique ix.Denotes := fun _ _ _ hd hd' => hix.id_unique hd hd'
  exact List.left_unique_forall₂' hunique h h'

/-- An entry has one reading in numbers at most. -/
theorem Reads.unique (hix : ix.Tidy) {entry entry' : IndexEntry} {said : TermEntry} (h : ix.Reads entry said)
    (h' : ix.Reads entry' said) : entry = entry' := by
  cases h with
  | occurrence h =>
    cases h' with
    | occurrence h' => rw [hix.id_unique h h']
  | inclusion hsub hsup =>
    cases h' with
    | inclusion hsub' hsup' => rw [hix.id_unique hsub hsub', hix.id_unique hsup hsup']
  | disjointness h =>
    cases h' with
    | disjointness h' => rw [hix.denoteAll_unique h h']
  | roleInclusion hsub hsup =>
    cases h' with
    | roleInclusion hsub' hsup' => rw [hix.role_unique hsub hsub', hix.role_unique hsup hsup']
  | composition hl hr hs =>
    cases h' with
    | composition hl' hr' hs' => rw [hix.role_unique hl hl', hix.role_unique hr hr', hix.role_unique hs hs']

theorem Tidy.readsAll_unique (hix : ix.Tidy) {entries entries' : List IndexEntry} {said : List TermEntry}
    (h : ix.ReadsAll entries said) (h' : ix.ReadsAll entries' said) : entries = entries' := by
  have hunique : Relator.LeftUnique ix.Reads := fun _ _ _ hr hr' => hr.unique hix hr'
  exact List.left_unique_forall₂' hunique h h'

/-! ### Entering many entries -/

/-- What the entries become when some of them are asserted or retracted. -/
def MovesAll (edit : Edit) (moved entries entries' : List IndexEntry) : Prop :=
  match edit with
  | .assert => entries'.Perm (moved ++ entries)
  | .retract => entries.Perm (moved ++ entries')

/-- No set of disjoint classes goes, each keeps its members, and the members of a new one are in use. -/
structure SetsKept (ix ix' : Index) : Prop where
  kept {d : Nat} {set : DisjointSet} : ix.disjointSets[d]? = some set →
    ∃ set', ix'.disjointSets[d]? = some set' ∧ set'.members = set.members
  members {d : Nat} {set : DisjointSet} : ix'.disjointSets[d]? = some set →
    (∃ old, ix.disjointSets[d]? = some old ∧ old.members = set.members) ∨ ∀ id ∈ set.members, id.val < ix'.nodes.size

namespace SetsKept

theorem of_eq (h : ix'.disjointSets = ix.disjointSets) : ix.SetsKept ix' :=
  ⟨fun {_ set} hset => ⟨set, h ▸ hset, rfl⟩, fun {_ set} hset => .inl ⟨set, h ▸ hset, rfl⟩⟩

theorem size_le (h : ix.SetsKept ix') : ix.disjointSets.size ≤ ix'.disjointSets.size := by
  refine Nat.le_of_not_lt fun hlt => ?_
  obtain ⟨set, hset, -⟩ := h.kept (Array.getElem?_eq_getElem hlt)
  exact Nat.lt_irrefl _ (Array.getElem?_eq_some_iff.1 hset).1

theorem trans (h : ix.SetsKept ix') (h' : ix'.SetsKept ix'') (hnames : ix'.Names ix'') : ix.SetsKept ix'' := by
  refine ⟨fun {d set} hset => ?_, fun {d set} hset => ?_⟩
  · obtain ⟨middle, hmiddle, e⟩ := h.kept hset
    obtain ⟨new, hnew, e'⟩ := h'.kept hmiddle
    exact ⟨new, hnew, e'.trans e⟩
  · rcases h'.members hset with ⟨middle, hmiddle, e⟩ | hnew
    · rcases h.members hmiddle with ⟨old, hold, e'⟩ | hnew
      · exact .inl ⟨old, hold, e'.trans e⟩
      · exact .inr fun id hid => Nat.lt_of_lt_of_le (hnew id (e ▸ hid)) hnames.size_le
    · exact .inr hnew

private theorem stepDisjointSet (edit : Edit) {members : List ExprId} (hfound : ix.SetsFound)
    (h : ∀ id ∈ members, id.val < ix.nodes.size) : ix.SetsKept (ix.stepDisjointSet edit members).2 := by
  unfold Index.stepDisjointSet
  cases hfind : ix.disjointnessId? members with
  | some d =>
    obtain ⟨old, hold, hmembers⟩ := Option.map_eq_some_iff.1 ((hfound members d).1 hfind)
    have hstep {i : Nat} {set : DisjointSet} : (ix.disjointSets.setIfInBounds d.val set)[i]? =
        if i = d.val then some set else ix.disjointSets[i]? := getElem?_setSet hold
    refine ⟨fun {i set} hset => ?_, fun {i set} hset => ?_⟩ <;> dsimp only at hset ⊢
    · rw [hstep]
      split
      · rename_i e
        obtain rfl := Option.some.inj (hold.symm.trans (e ▸ hset))
        exact ⟨_, rfl, hmembers.symm⟩
      · exact ⟨set, hset, rfl⟩
    · rw [hstep] at hset
      split at hset
      · rename_i e
        cases hset
        exact .inl ⟨old, e ▸ hold, hmembers⟩
      · exact .inl ⟨set, hset, rfl⟩
  | none =>
    cases edit with
    | retract => exact .of_eq rfl
    | assert =>
      refine ⟨fun {i set} hset => ⟨set, ?_, rfl⟩, fun {i set} hset => ?_⟩
      · rw [Array.getElem?_push_lt (Array.getElem?_eq_some_iff.1 hset).1, ← Array.getElem?_eq_getElem, hset]
      · rw [Array.getElem?_push] at hset
        split at hset
        · cases hset
          exact .inr h
        · exact .inl ⟨set, hset, rfl⟩

/-- Only an entry of disjoint classes concerns the sets. -/
theorem enterEntry (edit : Edit) {entry : IndexEntry} (hfound : ix.SetsFound) (h : entry.Within ix) :
    ix.SetsKept (ix.enterEntry edit entry) := by
  cases entry with
  | occurrence polarity id =>
    refine .of_eq ?_
    show (ix.bump edit polarity id).disjointSets = _
    cases hnode : ix.node? id with
    | none =>
      unfold bump
      rw [hnode]
    | some node => rw [bump_eq hnode, recordAll_eq]
  | inclusion => cases edit <;> exact .of_eq rfl
  | disjointness ids =>
    have hstep : ix.SetsKept (ix.stepDisjointSet edit (sortIds ids)).2 :=
      stepDisjointSet edit hfound fun id hid => h id (mem_sortIds.1 hid)
    show ix.SetsKept (ix.bumpSet edit (sortIds ids))
    unfold bumpSet
    generalize ix.stepDisjointSet edit (sortIds ids) = stepped at hstep ⊢
    obtain ⟨_ | ⟨d, n⟩, ix₁⟩ := stepped
    · exact hstep
    · dsimp only
      split
      · rw [recordAll_eq]
        exact ⟨hstep.kept, hstep.members⟩
      · exact hstep
  | roleInclusion | composition => cases edit <;> exact .of_eq rfl

end SetsKept

/-- The second index is the first one with the given entries asserted or retracted, and perhaps more nodes and roles. -/
structure Enters (edit : Edit) (ix : Index) (moved : List IndexEntry) (ix' : Index) : Prop where
  names : ix.Names ix'
  tidy : ix.Tidy → ix'.Tidy
  rulesOf_eq (id : ExprId) : ix'.rulesOf id = ix.rulesOf id
  found : ix.SetsFound → ix'.SetsFound
  sets : ix.SetsFound → ix.SetsKept ix'
  axioms : ix'.axioms = ix.axioms
  ledger {entries entries' : List IndexEntry} : MovesAll edit moved entries entries' → ix.Ledger entries →
    ix'.Ledger entries'

namespace Enters

variable {moved moved' : List IndexEntry}

theorem of_grown (h : ix.Grown ix') (htidy : ix'.Tidy) : Enters edit ix [] ix' where
  names := h.names
  tidy _ := htidy
  rulesOf_eq := h.rulesOf_eq
  found hfound := hfound.congr h.disjointSets h.disjointnessIds
  sets _ := .of_eq h.disjointSets
  axioms := h.axioms
  ledger hmoves hledger := by
    refine Ledger.perm (hledger.grown h) ?_
    cases edit with
    | assert => exact List.Perm.symm hmoves
    | retract => exact hmoves

theorem entry (edit : Edit) {entry : IndexEntry} (h : entry.Within ix) : Enters edit ix [entry] (ix.enterEntry edit entry) where
  names := (sameFrame_enterEntry edit entry ix).alike.names
  tidy := (sameFrame_enterEntry edit entry ix).alike.tidy
  rulesOf_eq := (sameFrame_enterEntry edit entry ix).rulesOf
  found hfound := hfound.enterEntry edit entry
  sets hfound := .enterEntry edit hfound h
  axioms := (sameFrame_enterEntry edit entry ix).axioms
  ledger {entries entries'} hmoves hledger := by
    cases edit with
    | assert => exact (hledger.enter (.assert entries) h).perm (List.Perm.symm hmoves)
    | retract => exact (hledger.perm hmoves).enter (.retract entries') h

theorem trans (h : Enters edit ix moved ix') (h' : Enters edit ix' moved' ix'') :
    Enters edit ix (moved ++ moved') ix'' where
  names := h.names.trans h'.names
  tidy hix := h'.tidy (h.tidy hix)
  rulesOf_eq id := (h'.rulesOf_eq id).trans (h.rulesOf_eq id)
  found hfound := h'.found (h.found hfound)
  sets hfound := (h.sets hfound).trans (h'.sets (h.found hfound)) h'.names
  axioms := h'.axioms.trans h.axioms
  ledger {entries entries'} hmoves hledger := by
    cases edit with
    | assert =>
      refine h'.ledger ?_ (h.ledger (List.Perm.refl (moved ++ entries)) hledger)
      exact List.Perm.trans hmoves (by
        rw [← List.append_assoc]
        exact List.Perm.append_right _ List.perm_append_comm)
    | retract =>
      refine h'.ledger (List.Perm.refl (moved' ++ entries')) (h.ledger ?_ hledger)
      exact List.Perm.trans hmoves (by rw [List.append_assoc])

theorem perm (h : Enters edit ix moved ix') (hperm : moved.Perm moved') : Enters edit ix moved' ix' where
  names := h.names
  tidy := h.tidy
  rulesOf_eq := h.rulesOf_eq
  found := h.found
  sets := h.sets
  axioms := h.axioms
  ledger hmoves hledger := by
    refine h.ledger ?_ hledger
    cases edit with
    | assert => exact List.Perm.trans hmoves (hperm.symm.append_right _)
    | retract => exact List.Perm.trans hmoves (hperm.symm.append_right _)

theorem noteRoles (h : Enters edit ix moved ix') : Enters edit ix moved ix'.noteRoles where
  names := h.names.trans (Alike.names (.of_nodes rfl rfl rfl rfl))
  tidy hix := (show ix'.Alike ix'.noteRoles from .of_nodes rfl rfl rfl rfl).tidy (h.tidy hix)
  rulesOf_eq := h.rulesOf_eq
  found hfound := (h.found hfound).congr rfl rfl
  sets hfound := ⟨(h.sets hfound).kept, (h.sets hfound).members⟩
  axioms := h.axioms
  ledger hmoves hledger := (h.ledger hmoves hledger).congr rfl rfl rfl rfl rfl rfl rfl

end Enters

/-! ### Class axioms -/

/-- A state of an index in which an edit has been made, with the entries that it concerns. -/
def Entered (edit : Edit) (ix : Index) (said : List TermEntry) (ix' : Index) : Prop :=
  ∃ moved, Enters edit ix moved ix' ∧ ix'.ReadsAll moved said

namespace Entered

variable {said said' : List TermEntry}

theorem trans (h : Entered edit ix said ix') (h' : Entered edit ix' said' ix'') :
    Entered edit ix (said ++ said') ix'' := by
  obtain ⟨moved, henters, hreads⟩ := h
  obtain ⟨moved', henters', hreads'⟩ := h'
  exact ⟨moved ++ moved', henters.trans henters', List.rel_append (henters'.names.readsAll hreads) hreads'⟩

theorem of_grown (h : ix.Grown ix') (htidy : ix'.Tidy) : Entered edit ix [] ix' := ⟨[], .of_grown h htidy, .nil⟩

theorem entry {entry : IndexEntry} {s : TermEntry} (h : ix.Reads entry s) :
    Entered edit ix [s] (ix.enterEntry edit entry) :=
  ⟨[entry], .entry edit h.within, .cons ((Enters.entry edit h.within).names.reads h) .nil⟩

theorem names (h : Entered edit ix said ix') : ix.Names ix' := h.choose_spec.1.names

theorem noteRoles (h : Entered edit ix said ix') : Entered edit ix said ix'.noteRoles := by
  obtain ⟨moved, henters, hreads⟩ := h
  have hnames : ix'.Names ix'.noteRoles := Alike.names (.of_nodes rfl rfl rfl rfl)
  exact ⟨moved, henters.noteRoles, hnames.readsAll hreads⟩

end Entered

theorem countWithin_succ {polarity : Polarity} {fuel : Nat} {id : ExprId} {node : Node}
    (h : ix.node? id = some node) : ix.countWithin edit polarity (fuel + 1) id =
      match node.shape with
      | .conjunction first second =>
        countWithin edit polarity fuel second (countWithin edit polarity fuel first (ix.bump edit polarity id))
      | .existential _ filler => countWithin edit polarity fuel filler (ix.bump edit polarity id)
      | _ => ix.bump edit polarity id := by
  simp only [countWithin, bump, h]
  rfl

theorem alike_bump (edit : Edit) (polarity : Polarity) (id : ExprId) (ix : Index) :
    ix.Alike (ix.bump edit polarity id) := (SameFrame.bump edit polarity id ix).alike

theorem countWithin_of_none {polarity : Polarity} {id : ExprId} (h : ix.node? id = none) (fuel : Nat) :
    ix.countWithin edit polarity fuel id = ix := by
  cases fuel with
  | zero => rfl
  | succ fuel => simp [countWithin, h]

theorem alike_countWithin (edit : Edit) (polarity : Polarity) (fuel : Nat) (id : ExprId) (ix : Index) :
    ix.Alike (ix.countWithin edit polarity fuel id) := by
  induction fuel generalizing id ix with
  | zero => exact .refl ix
  | succ fuel ih =>
    cases hnode : ix.node? id with
    | none =>
      rw [countWithin_of_none hnode]
      exact .refl ix
    | some node =>
      have hbump := alike_bump edit polarity id ix
      rw [countWithin_succ hnode]
      cases node.shape with
      | named | data | nominal => exact hbump
      | conjunction first second => exact (hbump.trans (ih first _)).trans (ih second _)
      | existential role filler => exact hbump.trans (ih filler _)

private theorem entered_countWithin {polarity : Polarity} {fuel : Nat} {id : ExprId} {t : Term} (hix : ix.Tidy)
    (h : ix.Denotes id t) (hfuel : id.val < fuel) :
    Entered edit ix (t.occurrences polarity) (ix.countWithin edit polarity fuel id) := by
  induction fuel generalizing ix id t with
  | zero => exact absurd hfuel (Nat.not_lt_zero _)
  | succ fuel ih =>
    have hbump : Entered edit ix [.occurrence polarity t] (ix.bump edit polarity id) := .entry (.occurrence h)
    have htidy := hbump.choose_spec.1.tidy hix
    cases h with
    | named hs | data hs | nominal hs =>
      obtain ⟨node, hnode, hshape⟩ := shape?_eq_some_iff.1 hs
      rw [countWithin_succ hnode, hshape]
      exact hbump
    | conjunction hs hfirst hsecond =>
      obtain ⟨node, hnode, hshape⟩ := shape?_eq_some_iff.1 hs
      rw [countWithin_succ hnode, hshape]
      have hlt := hix.conjuncts hs
      have hfirst' := ih htidy (hbump.names.denotes hfirst) (by omega)
      have hsecond' := ih (hfirst'.choose_spec.1.tidy htidy)
        (hfirst'.names.denotes (hbump.names.denotes hsecond)) (by omega)
      exact hbump.trans (hfirst'.trans hsecond')
    | existential hs hrole hfiller =>
      obtain ⟨node, hnode, hshape⟩ := shape?_eq_some_iff.1 hs
      rw [countWithin_succ hnode, hshape]
      have hlt := hix.filler hs
      exact hbump.trans (ih htidy (hbump.names.denotes hfiller) (by omega))

theorem Entered.tidy {said : List TermEntry} (h : Entered edit ix said ix') (hix : ix.Tidy) : ix'.Tidy :=
  h.choose_spec.1.tidy hix

/-- Counting an expression enters its occurrences. -/
theorem entered_count (edit : Edit) (polarity : Polarity) {id : ExprId} {t : Term} (hix : ix.Tidy) (h : ix.Denotes id t) :
    Entered edit ix (t.occurrences polarity) (ix.count edit polarity id) :=
  entered_countWithin hix h (Nat.lt_succ_self _)

theorem entered_subsumption (edit : Edit) {sub sup : ExprId} {t u : Term} (hix : ix.Tidy) (hsub : ix.Denotes sub t)
    (hsup : ix.Denotes sup u) : Entered edit ix (t.inclusionEntries u) (ix.subsumption edit sub sup) := by
  have h₁ := entered_count edit .negative hix hsub
  have h₂ := entered_count edit .positive (h₁.tidy hix) (h₁.names.denotes hsup)
  have hnames := h₁.names.trans h₂.names
  exact (h₁.trans h₂).trans (.entry (.inclusion (hnames.denotes hsub) (hnames.denotes hsup)))

theorem entered_equivalence {first : ExprId} {t : Term} {ids : List ExprId} {ts : List Term} (hix : ix.Tidy)
    (hfirst : ix.Denotes first t) (h : ix.DenoteAll ids ts) :
    Entered edit ix (t.equivalenceEntries ts) (ix.equivalence edit first ids) := by
  induction ids generalizing ix ts with
  | nil =>
    cases h
    exact .of_grown (.refl ix) hix
  | cons other rest ih =>
    cases h with
    | cons hother hrest =>
      have h₁ := entered_subsumption edit hix hfirst hother
      have h₂ := entered_subsumption edit (h₁.tidy hix) (h₁.names.denotes hother) (h₁.names.denotes hfirst)
      have hnames := h₁.names.trans h₂.names
      exact (h₁.trans h₂).trans (ih (h₂.tidy (h₁.tidy hix)) (hnames.denotes hfirst) (hnames.denoteAll hrest))

private theorem entered_countAll (edit : Edit) {ids : List ExprId} {ts : List Term} (hix : ix.Tidy) (h : ix.DenoteAll ids ts) :
    Entered edit ix (ts.flatMap (Term.occurrences .negative))
      (ids.foldl (fun ix member => ix.count edit .negative member) ix) := by
  induction ids generalizing ix ts with
  | nil =>
    cases h
    exact .of_grown (.refl ix) hix
  | cons id ids ih =>
    cases h with
    | cons hid hids =>
      have hcount := entered_count edit .negative hix hid
      exact hcount.trans (ih (hcount.tidy hix) (hcount.names.denoteAll hids))

theorem Entered.perm {said said' : List TermEntry} (h : Entered edit ix said ix') (hperm : said.Perm said') :
    Entered edit ix said' ix' := by
  obtain ⟨moved, henters, hreads⟩ := h
  have hcomp : Relation.Comp (List.Forall₂ ix'.Reads) List.Perm moved said' := ⟨said, hreads, hperm⟩
  rw [List.forall₂_comp_perm_eq_perm_comp_forall₂] at hcomp
  obtain ⟨moved', hperm', hreads'⟩ := hcomp
  exact ⟨moved', henters.perm hperm', hreads'⟩

/-- Members are counted in the order of their numbers, which the ledger does not see. -/
theorem entered_disjointness {ids : List ExprId} {ts : List Term} (hix : ix.Tidy) (h : ix.DenoteAll ids ts) :
    Entered edit ix (Term.disjointnessEntries ts) (ix.disjointness edit ids) := by
  obtain ⟨us, hsorted, hperm⟩ := List.perm_comp_forall₂ (sortBy_perm _ ids : (sortIds ids).Perm ids) h
  have hcount := (entered_countAll edit hix hsorted).perm (hperm.flatMap_right _)
  exact hcount.trans (.entry (.disjointness (hcount.names.denoteAll h)))

/-! ### Role axioms -/

theorem entered_inclusion (edit : Edit) {sub sup : RoleId} {n m : String} (hsub : ix.role? sub = some n)
    (hsup : ix.role? sup = some m) : Entered edit ix [.roleInclusion n m] (ix.inclusion edit sub sup) := .entry (.roleInclusion hsub hsup)

theorem entered_composition (edit : Edit) {left right sup : RoleId} {l r s : String} (hleft : ix.role? left = some l)
    (hright : ix.role? right = some r) (hsup : ix.role? sup = some s) :
    Entered edit ix [.composition l r s] (ix.composition edit left right sup) := .entry (.composition hleft hright hsup)

/-- The numbers belong to the roles, one by one. -/
abbrev RolesNamed (ix : Index) : List RoleId → List String → Prop :=
  List.Forall₂ fun role name => ix.role? role = some name

theorem Names.rolesNamed (h : ix.Names ix') {roles : List RoleId} {names : List String}
    (hr : ix.RolesNamed roles names) : ix'.RolesNamed roles names := hr.imp fun _ _ => h.role?

theorem entered_roleEquivalence {first : RoleId} {n : String} {roles : List RoleId} {names : List String}
    (hix : ix.Tidy) (hfirst : ix.role? first = some n) (h : ix.RolesNamed roles names) :
    Entered edit ix (RoleExpression.equivalenceEntries n names) (ix.roleEquivalence edit first roles) := by
  induction roles generalizing ix names with
  | nil =>
    cases h
    exact .of_grown (.refl ix) hix
  | cons other rest ih =>
    cases h with
    | cons hother hrest =>
      have h₁ := entered_inclusion edit hfirst hother
      have h₂ := entered_inclusion edit (h₁.names.role? hother) (h₁.names.role? hfirst)
      have hnames := h₁.names.trans h₂.names
      exact (h₁.trans h₂).trans (ih (h₂.tidy (h₁.tidy hix)) (hnames.role? hfirst) (hnames.rolesNamed hrest))

end Index

/-! ### Axioms -/

namespace Indexing

variable {ix : Index} {edit : Edit} {α β : Type}

/-- The computation makes the edit if there is something said, and otherwise fails having made nodes and roles only. -/
def Enters (edit : Edit) (m : Indexing Unit) (said? : Option (List TermEntry)) (ix : Index) : Prop :=
  match said? with
  | some said => ∃ ix', m ix = (.ok (), ix') ∧ ix'.Tidy ∧ Index.Entered edit ix said ix'
  | none => ∃ e ix', m ix = (.error e, ix') ∧ ix'.Tidy ∧ ix.Grown ix'

theorem Enters.change {f : Index → Index} {said : List TermEntry} (hix : ix.Tidy) (h : Index.Entered edit ix said (f ix)) :
    Enters edit (change f) (some said) ix :=
  ⟨f ix, rfl, h.tidy hix, h⟩

theorem Enters.grown {ix' : Index} {m : Indexing Unit} {said? : Option (List TermEntry)} (h : Enters edit m said? ix')
    (hgrown : ix.Grown ix') (hix' : ix'.Tidy) {m' : Indexing Unit} (hm : m' ix = m ix') : Enters edit m' said? ix := by
  cases said? with
  | none =>
    obtain ⟨e, ix'', he, htidy, hgrown'⟩ := h
    exact ⟨e, ix'', hm.trans he, htidy, hgrown.trans hgrown'⟩
  | some said =>
    obtain ⟨ix'', hok, htidy, hentered⟩ := h
    exact ⟨ix'', hm.trans hok, htidy, (Index.Entered.of_grown hgrown hix').trans hentered⟩

theorem Follows.enters {m : Indexing α} {v : Option β} {R : Index → α → β → Prop} (hm : m.Follows v R ix)
    {f : α → Indexing Unit} {g : β → Option (List TermEntry)}
    (hf : ∀ a b ix', ix'.Tidy → ix.Grown ix' → R ix' a b → Enters edit (f a) (g b) ix') :
    Enters edit (m >>= f) (v >>= g) ix := by
  obtain ⟨ix', htidy, hgrown, h⟩ := hm
  cases v with
  | none =>
    obtain ⟨e, he⟩ := h
    exact ⟨e, ix', by rw [bind_apply, he], htidy, hgrown⟩
  | some b =>
    obtain ⟨a, ha, hR⟩ := h
    exact (hf a b ix' htidy hgrown hR).grown hgrown htidy (by rw [bind_apply, ha])

theorem Follows.andEnters {m : Indexing α} {b : β} {R : Index → α → β → Prop} (hm : m.Follows (some b) R ix)
    {f : α → Indexing Unit} {said? : Option (List TermEntry)}
    (hf : ∀ a ix', ix'.Tidy → ix.Grown ix' → R ix' a b → Enters edit (f a) said? ix') : Enters edit (m >>= f) said? ix := by
  obtain ⟨ix', htidy, hgrown, a, ha, hR⟩ := hm
  exact (hf a ix' htidy hgrown hR).grown hgrown htidy (by rw [bind_apply, ha])

theorem internRoles_follows (hix : ix.Tidy) (names : List String) :
    (internRoles names).Follows (some names) Index.RolesNamed ix := by
  induction names generalizing ix with
  | nil => exact .pure hix .nil
  | cons name names ih =>
    rw [internRoles]
    refine (internRole_follows hix name).andThen fun role ix' htidy _ hrole => ?_
    refine (ih htidy).andThen fun roles ix'' htidy' hgrown hroles => ?_
    exact .pure htidy' (.cons (hgrown.role? hrole) hroles)

/-- The composition of several roles gets auxiliary roles. -/
private theorem internSuffix_enters (edit : Edit) (hix : ix.Tidy) {names : List String} {roles : List RoleId}
    (h : ix.RolesNamed roles names) (hne : names ≠ []) :
    ∃ ix' id, Index.internSuffix edit (names.zip roles) ix = (.ok (RoleExpression.suffixName names, id), ix') ∧ ix'.Tidy ∧
      Index.Entered edit ix (RoleExpression.suffixEntries names) ix' ∧
        ix'.role? id = some (RoleExpression.suffixName names) := by
  induction names generalizing ix roles with
  | nil => exact absurd rfl hne
  | cons name names ih =>
    cases h with
    | @cons role _ roles _ hrole hrest =>
      cases hrest with
      | nil => exact ⟨ix, role, rfl, hix, .of_grown (.refl ix) hix, hrole⟩
      | @cons role' name' roles' names' hrole' hrest' =>
        obtain ⟨ix₁, id, hsuffix, htidy, hentered, hid⟩ := ih hix (.cons hrole' hrest') (List.cons_ne_nil _ _)
        obtain ⟨ix₂, htidy', hgrown, composed, hcomposed, hname⟩ := internRole_follows htidy
          (name ++ "∘" ++ RoleExpression.suffixName (name' :: names'))
        have hcomposition := Index.entered_composition edit
          (hgrown.role? (hentered.names.role? hrole)) (hgrown.role? hid) hname
        refine ⟨_, composed, ?_, hcomposition.tidy htidy', ?_, hcomposition.names.role? hname⟩
        · rw [List.zip_cons_cons, List.zip_cons_cons, Index.internSuffix]
          · rw [← List.zip_cons_cons, bind_apply, hsuffix]
            dsimp only
            rw [bind_apply, hcomposed]
            rfl
          · simp
        · exact hentered.trans ((Index.Entered.of_grown hgrown htidy').trans hcomposition)

private theorem chain_enters (hix : ix.Tidy) (names : List String) {sup : RoleId} {s : String}
    (hsup : ix.role? sup = some s) :
    Enters edit (Index.chain edit names sup) (RoleExpression.chainEntries? s names) ix := by
  rw [Index.chain]
  refine (internRoles_follows hix names).andEnters fun roles ix' htidy hgrown hroles => ?_
  have hsup' := hgrown.role? hsup
  cases hroles with
  | nil => exact ⟨_, ix', rfl, htidy, .refl ix'⟩
  | @cons first name roles names hfirst hrest =>
    cases hrest with
    | nil => exact .change htidy (Index.entered_inclusion edit hfirst hsup')
    | @cons role' name' roles' names' hrole' hrest' =>
      obtain ⟨ix₁, id, hsuffix, htidy₁, hentered, hid⟩ := internSuffix_enters edit htidy
        (.cons hrole' hrest') (List.cons_ne_nil _ _)
      have hcomposition := Index.entered_composition edit (hentered.names.role? hfirst) hid
        (hentered.names.role? hsup')
      refine ⟨_, ?_, hcomposition.tidy htidy₁, hentered.trans hcomposition⟩
      simp only [List.zip_cons_cons]
      rw [← List.zip_cons_cons, bind_apply, hsuffix]
      rfl

/-- Some more is noted after an edit. -/
private theorem Enters.noteRoles {m : Indexing Unit} {said? : Option (List TermEntry)} (h : Enters edit m said? ix) :
    Enters edit (do m; Indexing.change Index.noteRoles) said? ix := by
  cases said? with
  | none =>
    obtain ⟨e, ix', he, htidy, hgrown⟩ := h
    exact ⟨e, ix', by rw [bind_apply, he], htidy, hgrown⟩
  | some said =>
    obtain ⟨ix', hok, htidy, hentered⟩ := h
    exact ⟨ix'.noteRoles, by rw [bind_apply, hok]; rfl,
      (show ix'.Alike ix'.noteRoles from .of_nodes rfl rfl rfl rfl).tidy htidy, hentered.noteRoles⟩

end Indexing

/-- Asserting or retracting an axiom does what the axiom says, or fails having made nodes and roles only. -/
theorem Index.enter_spec {ix : Index} (edit : Edit) (hix : ix.Tidy) (a : Axiom) :
    Indexing.Enters edit (Index.enter edit a) a.entries? ix := by
  cases a with
  | declaration entity =>
    cases entity with
    | namedClass iri =>
      exact (Indexing.intern_named_follows hix iri).andEnters fun id ix' htidy _ hid =>
        .change htidy (entered_count edit _ htidy hid)
    | individual iri =>
      exact (Indexing.intern_nominal_follows hix iri).andEnters fun id ix' htidy _ hid =>
        .change htidy (entered_count edit _ htidy hid)
    | objectProperty iri =>
      exact (Indexing.internRole_follows hix iri).andEnters fun id ix' htidy _ hid =>
        ⟨ix', rfl, htidy, .of_grown (.refl ix') htidy⟩
  | subClassOf sub sup =>
    refine (ClassExpression.intern_follows hix sub).enters fun id t ix' htidy _ hid => ?_
    refine (ClassExpression.intern_follows htidy sup).enters fun id' u ix'' htidy' hgrown hid' => ?_
    exact .change htidy' (entered_subsumption edit htidy' (hgrown.names.denotes hid) hid')
  | equivalentClasses members =>
    refine (ClassExpression.internAll_follows hix members).enters fun ids ts ix' htidy _ hids => ?_
    cases hids with
    | nil => exact ⟨ix', rfl, htidy, .of_grown (.refl ix') htidy⟩
    | cons hfirst hrest => exact .change htidy (entered_equivalence htidy hfirst hrest)
  | disjointClasses members =>
    refine (ClassExpression.internAll_follows hix members).enters fun ids ts ix' htidy _ hids => ?_
    exact .change htidy (entered_disjointness htidy hids)
  | classAssertion type individual =>
    refine (ClassExpression.intern_follows hix type).enters fun id t ix' htidy _ hid => ?_
    refine (Indexing.intern_nominal_follows htidy individual).andEnters fun id' ix'' htidy' hgrown hid' => ?_
    exact .change htidy' (entered_subsumption edit htidy' hid' (hgrown.names.denotes hid))
  | roleAssertion role subject object =>
    refine (Indexing.intern_nominal_follows hix subject).andEnters fun subject' ix₁ htidy₁ _ hsubject => ?_
    refine (Indexing.intern_nominal_follows htidy₁ object).andEnters fun object' ix₂ htidy₂ hgrown₂ hobject => ?_
    refine (Indexing.internRole_follows htidy₂ role).andEnters fun role' ix₃ htidy₃ hgrown₃ hrole => ?_
    refine (Indexing.intern_existential_follows htidy₃ hrole (hgrown₃.names.denotes hobject)).andEnters
      fun existential ix₄ htidy₄ hgrown₄ hexistential => ?_
    -- the number of the subject was given first, so it has to outlive the three other insertions
    have hnames := (hgrown₂.trans (hgrown₃.trans hgrown₄)).names
    exact .change htidy₄ (entered_subsumption edit htidy₄ (hnames.denotes hsubject) hexistential)
  | subRoleOf sub sup =>
    refine (Indexing.internRole_follows hix sup).andEnters fun sup' ix' htidy _ hsup => ?_
    cases sub with
    | role sub =>
      -- the flag is raised last, so the rest of the block is named
      refine Indexing.Enters.noteRoles (m := do
        let sub ← Indexing.internRole sub
        Indexing.change (inclusion edit sub sup')) ?_
      refine (Indexing.internRole_follows htidy sub).andEnters fun sub' ix'' htidy' hgrown hsub => ?_
      exact .change htidy' (entered_inclusion edit hsub (hgrown.role? hsup))
    | chain roles => exact (Indexing.chain_enters htidy roles hsup).noteRoles
  | equivalentRoles roles =>
    cases roles with
    | nil => exact ⟨ix.noteRoles, rfl, (show ix.Alike ix.noteRoles from .of_nodes rfl rfl rfl rfl).tidy hix,
        (Entered.of_grown (.refl ix) hix).noteRoles⟩
    | cons first rest =>
      refine (Indexing.internRoles_follows hix (first :: rest)).andEnters fun roles ix' htidy _ hroles => ?_
      cases hroles with
      | cons hfirst hrest => exact .change htidy (entered_roleEquivalence htidy hfirst hrest).noteRoles
  | transitiveRole role =>
    refine (Indexing.internRole_follows hix role).andEnters fun id ix' htidy _ hid => ?_
    exact .change htidy (entered_composition edit hid hid hid).noteRoles

end ELOntology
