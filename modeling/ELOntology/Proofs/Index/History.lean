import ELOntology.Proofs.Index.Enter
import ELOntology.Proofs.Role.Closure

/-!
# Indices and their history

An index comes about by asserting and retracting axioms and by commits, in any order.  `Accounts` is what holds of every
such index: its tables are in order, its rules are coherent, and it counts just what its asserted axioms say.

Key facts: `Index.accounts_after` (every history leads to such an index), `Accounts.assert` and `Accounts.retract` (what
either does to the number of assertions, and that a retraction never fails).
-/

namespace ELOntology

namespace Index

variable {ix ix' : Index}

/-- The entries are what an asserted axiom says. -/
def Records (ix : Index) (asserted : Axiom × Nat) (moved : List IndexEntry) : Prop :=
  0 < asserted.2 ∧ ∃ said, asserted.1.entries? = some said ∧ ix.ReadsAll moved said

theorem Names.records (h : ix.Names ix') {asserted : Axiom × Nat} {moved : List IndexEntry}
    (hr : ix.Records asserted moved) : ix'.Records asserted moved := by
  obtain ⟨hpos, said, hsaid, hreads⟩ := hr
  exact ⟨hpos, said, hsaid, h.readsAll hreads⟩

/-- The index counts what its asserted axioms say. -/
structure Accounts (ix : Index) : Prop where
  tidy : ix.Tidy
  coherent : ix.Coherent
  axioms_nodup : (ix.axioms.map Prod.fst).Nodup
  readings : ∃ readings, List.Forall₂ ix.Records ix.axioms readings ∧ ix.Ledger readings.flatten

/-- What is counted is what some entries say. -/
theorem Accounts.exists_ledger (h : ix.Accounts) : ∃ entries, ix.Ledger entries :=
  let ⟨readings, _, hledger⟩ := h.readings
  ⟨readings.flatten, hledger⟩

/-- Sets of disjoint classes are found by their members. -/
theorem Accounts.found (h : ix.Accounts) : ix.SetsFound :=
  let ⟨_, hledger⟩ := h.exists_ledger
  hledger.sets.found

/-! ### Assertions -/

theorem assertions_of_mem (h : (ix.axioms.map Prod.fst).Nodup) {a : Axiom} {n : Nat} (ha : (a, n) ∈ ix.axioms) :
    ix.assertions a = n := by
  have hfind : ix.axioms.find? (fun entry => decide (entry.1 = a)) = some (a, n) := by
    obtain ⟨pre, post, e⟩ := List.append_of_mem ha
    rw [e] at h ⊢
    rw [List.map_append, List.map_cons, List.nodup_append] at h
    have hpre : pre.find? (fun entry => decide (entry.1 = a)) = none := by
      refine List.find?_eq_none.2 fun entry hentry e => ?_
      exact h.2.2 entry.1 (List.mem_map_of_mem hentry) a (List.mem_cons_self ..) (of_decide_eq_true e)
    rw [List.find?_append, hpre]
    simp
  rw [assertions, hfind]
  rfl

theorem assertions_eq_zero {a : Axiom} (ha : a ∉ ix.axioms.map Prod.fst) : ix.assertions a = 0 := by
  have hfind : ix.axioms.find? (fun entry => decide (entry.1 = a)) = none := by
    refine List.find?_eq_none.2 fun entry hentry e => ha ?_
    exact List.mem_map.2 ⟨entry, hentry, of_decide_eq_true e⟩
  rw [assertions, hfind]
  rfl

theorem mem_axioms_of_assertions {a : Axiom} {n : Nat} (h : ix.assertions a = n + 1) : (a, n + 1) ∈ ix.axioms := by
  unfold assertions at h
  cases hfind : ix.axioms.find? (fun entry => decide (entry.1 = a)) with
  | none =>
    rw [hfind] at h
    cases h
  | some entry =>
    rw [hfind] at h
    have hmem := List.mem_of_find?_eq_some hfind
    have hkey := List.find?_some hfind
    obtain ⟨b, m⟩ := entry
    obtain rfl : m = n + 1 := h
    obtain rfl : b = a := of_decide_eq_true hkey
    exact hmem

theorem assertions_setAssertions {a : Axiom} {n : Nat} (ha : a ∈ ix.axioms.map Prod.fst) (b : Axiom) :
    (ix.setAssertions a n).assertions b = if b = a then n else ix.assertions b := by
  unfold assertions setAssertions
  dsimp only
  rw [List.find?_map]
  have hkey : ((fun entry : Axiom × Nat => decide (entry.1 = b)) ∘ fun entry => if entry.1 = a then (a, n) else entry) =
      fun entry => decide (entry.1 = b) := by
    funext entry
    simp only [Function.comp_apply]
    split
    · rename_i e
      rw [e]
    · rfl
  rw [hkey]
  cases hfind : ix.axioms.find? fun entry => decide (entry.1 = b) with
  | none =>
    have hne : ¬ b = a := by
      rintro rfl
      obtain ⟨entry, hentry, e⟩ := List.mem_map.1 ha
      exact List.find?_eq_none.1 hfind entry hentry (decide_eq_true e)
    simp [hne]
  | some entry =>
    have e : entry.1 = b := by simpa using List.find?_some hfind
    by_cases hb : b = a <;> simp [e, hb]

/-- An axiom that is new to the list is asserted once. -/
private theorem assertions_concat {a : Axiom} (haxioms : ix'.axioms = ix.axioms) (hnew : a ∉ ix.axioms.map Prod.fst)
    (b : Axiom) : assertions { ix' with axioms := ix'.axioms ++ [(a, 1)] } b = ix.assertions b + if b = a then 1 else 0 := by
  unfold assertions
  dsimp only
  rw [haxioms, List.find?_append]
  by_cases hb : b = a
  · subst hb
    have hfind : ix.axioms.find? (fun entry => decide (entry.1 = b)) = none :=
      List.find?_eq_none.2 fun entry hentry e => hnew (List.mem_map.2 ⟨entry, hentry, of_decide_eq_true e⟩)
    simp [hfind]
  · have hb' : ¬ a = b := fun e => hb e.symm
    simp [hb, hb']

/-- An axiom that is struck off the list is not asserted any more. -/
private theorem assertions_filter {a : Axiom} (haxioms : ix'.axioms = ix.axioms) (b : Axiom) :
    assertions { ix' with axioms := ix'.axioms.filter fun entry => entry.1 ≠ a } b = if b = a then 0 else ix.assertions b := by
  unfold assertions
  dsimp only
  rw [haxioms]
  split
  · rename_i hb
    have hfind : (ix.axioms.filter fun entry => decide (entry.1 ≠ a)).find? (fun entry => decide (entry.1 = b)) = none := by
      refine List.find?_eq_none.2 fun entry hentry e => ?_
      exact of_decide_eq_true (List.mem_filter.1 hentry).2 ((of_decide_eq_true e).trans hb)
    rw [hfind]
    rfl
  · rename_i hb
    have hsame : (fun entry : Axiom × Nat => decide (entry.1 ≠ a ∧ decide (entry.1 = b) = true)) =
        fun entry => decide (entry.1 = b) := by
      funext entry
      by_cases e : entry.1 = b
      · simp [e, hb]
      · simp [e]
    rw [List.find?_filter]
    simp only [decide_eq_true_eq] at hsame ⊢
    rw [hsame]

namespace Accounts

theorem exists_reading (h : ix.Accounts) {a : Axiom} {n : Nat} (ha : (a, n) ∈ ix.axioms) :
    0 < n ∧ ∃ said, a.entries? = some said := by
  obtain ⟨readings, hreadings, -⟩ := h.readings
  obtain ⟨moved, -, hpos, said, hsaid, -⟩ := exists_right_of_mem hreadings ha
  exact ⟨hpos, said, hsaid⟩

theorem mem_axioms_iff (h : ix.Accounts) {a : Axiom} : a ∈ ix.axioms.map Prod.fst ↔ 0 < ix.assertions a := by
  constructor
  · intro ha
    obtain ⟨⟨b, n⟩, hmem, rfl⟩ := List.mem_map.1 ha
    rw [assertions_of_mem h.axioms_nodup hmem]
    exact (h.exists_reading hmem).1
  · intro hpos
    refine Classical.byContradiction fun ha => ?_
    rw [assertions_eq_zero ha] at hpos
    exact Nat.lt_irrefl 0 hpos

theorem containsAxiom_iff (h : ix.Accounts) {a : Axiom} : ix.containsAxiom a = true ↔ 0 < ix.assertions a := by
  rw [← h.mem_axioms_iff, containsAxiom, List.any_eq_true, List.mem_map]
  exact exists_congr fun entry => and_congr_right fun _ => decide_eq_true_iff

/-- Only the list of assertions is another one. -/
private theorem with_axioms (h : ix.Accounts) {asserted : List (Axiom × Nat)} (hnodup : (asserted.map Prod.fst).Nodup)
    (hreadings : ∃ readings, List.Forall₂ ix.Records asserted readings ∧ ix.Ledger readings.flatten) :
    Accounts { ix with axioms := asserted } := by
  have halike : ix.Alike { ix with axioms := asserted } := .of_nodes rfl rfl rfl rfl
  obtain ⟨readings, hrecords, hledger⟩ := hreadings
  exact ⟨halike.tidy h.tidy, h.coherent.congr halike.names fun _ => rfl, hnodup, readings,
    hrecords.imp fun _ _ => halike.names.records, hledger.congr rfl rfl rfl rfl rfl rfl rfl⟩

theorem setAssertions (h : ix.Accounts) {a : Axiom} {n : Nat} (hn : 0 < n) : (ix.setAssertions a n).Accounts := by
  obtain ⟨readings, hrecords, hledger⟩ := h.readings
  refine h.with_axioms ?_ ⟨readings, ?_, hledger⟩
  · rw [List.map_map]
    have hkeys : (Prod.fst ∘ fun entry : Axiom × Nat => if entry.1 = a then (a, n) else entry) = Prod.fst := by
      funext entry
      simp only [Function.comp_apply]
      split
      · rename_i e
        exact e.symm
      · rfl
    rw [hkeys]
    exact h.axioms_nodup
  · rw [List.forall₂_map_left_iff]
    refine hrecords.imp fun entry moved hr => ?_
    split
    · rename_i e
      exact ⟨hn, e ▸ hr.2⟩
    · exact hr

/-- An index that has only grown accounts for the same assertions. -/
theorem of_grown (h : ix.Accounts) (htidy : ix'.Tidy) (hgrown : ix.Grown ix') : ix'.Accounts := by
  obtain ⟨readings, hrecords, hledger⟩ := h.readings
  refine ⟨htidy, h.coherent.congr hgrown.names hgrown.rulesOf_eq, ?_, readings, ?_, hledger.grown hgrown⟩
  · rw [hgrown.axioms]
    exact h.axioms_nodup
  · rw [hgrown.axioms]
    exact hrecords.imp fun _ _ => hgrown.names.records

/-- Entering the first assertion of an axiom adds what it says to what the others say. -/
private theorem assert_first (h : ix.Accounts) {a : Axiom} (hnew : a ∉ ix.axioms.map Prod.fst)
    {said : List TermEntry} (hentries : a.entries? = some said) :
    ∃ ix', enter .assert a ix = (.ok (), ix') ∧ ix.Names ix' ∧ (∀ id, ix'.rulesOf id = ix.rulesOf id) ∧
      ix'.axioms = ix.axioms ∧ Accounts { ix' with axioms := ix'.axioms ++ [(a, 1)] } := by
  have hspec := enter_spec .assert h.tidy a
  rw [hentries] at hspec
  obtain ⟨ix', hok, htidy, moved, henters, hreads⟩ := hspec
  obtain ⟨readings, hrecords, hledger⟩ := h.readings
  have hledger' : ix'.Ledger (moved ++ readings.flatten) := henters.ledger (List.Perm.refl _) hledger
  have halike : ix'.Alike { ix' with axioms := ix'.axioms ++ [(a, 1)] } := .of_nodes rfl rfl rfl rfl
  have hrecords' : List.Forall₂ ix'.Records (ix'.axioms ++ [(a, 1)]) (readings ++ [moved]) := by
    rw [henters.axioms]
    refine List.rel_append (hrecords.imp fun _ _ => henters.names.records) (.cons ?_ .nil)
    exact ⟨Nat.one_pos, said, hentries, hreads⟩
  refine ⟨ix', hok, henters.names, henters.rulesOf_eq, henters.axioms, halike.tidy htidy,
    (h.coherent.congr henters.names henters.rulesOf_eq).congr halike.names fun _ => rfl, ?_, readings ++ [moved],
    hrecords'.imp fun _ _ => halike.names.records, ?_⟩
  · rw [henters.axioms, List.map_append, List.nodup_append]
    refine ⟨h.axioms_nodup, List.pairwise_singleton _ _, fun b hb c hc e => ?_⟩
    rw [List.map_singleton, List.mem_singleton] at hc
    rw [e, hc] at hb
    exact hnew hb
  · refine (hledger'.perm ?_).congr rfl rfl rfl rfl rfl rfl rfl
    rw [List.flatten_append, List.flatten_singleton]
    exact List.perm_append_comm

/-- What an assertion does: it counts one more if the axiom can be indexed, and fails without counting if not. -/
theorem assert (h : ix.Accounts) (a : Axiom) :
    (ix.assert a).2.Accounts ∧ ix.Names (ix.assert a).2 ∧ (∀ id, (ix.assert a).2.rulesOf id = ix.rulesOf id) ∧
      match a.entries? with
      | some _ => (ix.assert a).1 = .ok (decide (ix.assertions a = 0)) ∧
          ∀ b, (ix.assert a).2.assertions b = ix.assertions b + if b = a then 1 else 0
      | none => (∃ e, (ix.assert a).1 = .error e) ∧ ix.Grown (ix.assert a).2 := by
  unfold Index.assert
  cases hcount : ix.assertions a with
  | succ n =>
    have hmem := mem_axioms_of_assertions hcount
    obtain ⟨-, said, hsaid⟩ := h.exists_reading hmem
    have halike : ix.Alike (ix.setAssertions a (n + 2)) := .of_nodes rfl rfl rfl rfl
    rw [hsaid]
    refine ⟨h.setAssertions (Nat.succ_pos _), halike.names, fun _ => rfl, rfl, fun b => ?_⟩
    rw [assertions_setAssertions (List.mem_map_of_mem hmem)]
    by_cases hb : b = a
    · simp [hb, hcount]
    · simp [hb]
  | zero =>
    have hnew : a ∉ ix.axioms.map Prod.fst := fun ha => by
      have := h.mem_axioms_iff.1 ha
      omega
    dsimp only
    cases hentries : a.entries? with
    | none =>
      have hspec := enter_spec .assert h.tidy a
      rw [hentries] at hspec
      obtain ⟨e, ix', he, htidy, hgrown⟩ := hspec
      rw [he]
      exact ⟨h.of_grown htidy hgrown, hgrown.names, hgrown.rulesOf_eq, ⟨e, rfl⟩, hgrown⟩
    | some said =>
      obtain ⟨ix', hok, hnames, hrules, haxioms, haccounts⟩ := h.assert_first hnew hentries
      rw [hok]
      have halike : ix'.Alike { ix' with axioms := ix'.axioms ++ [(a, 1)] } := .of_nodes rfl rfl rfl rfl
      exact ⟨haccounts, hnames.trans halike.names, hrules, rfl, assertions_concat haxioms hnew⟩

/-- Striking out the last assertion of an axiom leaves what the others say. -/
private theorem retract_last (h : ix.Accounts) {a : Axiom} (ha : (a, 1) ∈ ix.axioms) :
    ∃ ix', enter .retract a ix = (.ok (), ix') ∧ ix.Names ix' ∧ (∀ id, ix'.rulesOf id = ix.rulesOf id) ∧
      ix'.axioms = ix.axioms ∧ Accounts { ix' with axioms := ix'.axioms.filter fun entry => entry.1 ≠ a } := by
  obtain ⟨readings, hrecords, hledger⟩ := h.readings
  obtain ⟨pre, post, hsplit⟩ := List.append_of_mem ha
  have hnodup := h.axioms_nodup
  rw [hsplit] at hrecords hnodup
  obtain ⟨rpre, struck, rpost, rfl, hpre, hstruck, hpost⟩ := forall₂_split hrecords
  obtain ⟨-, said, hsaid, hreads⟩ := hstruck
  have hspec := enter_spec .retract h.tidy a
  rw [hsaid] at hspec
  obtain ⟨ix', hok, htidy, moved, henters, hreads'⟩ := hspec
  -- what is struck out is what was entered when the axiom was asserted
  obtain rfl : struck = moved := htidy.readsAll_unique (henters.names.readsAll hreads) hreads'
  have hfilter : ix'.axioms.filter (fun entry => entry.1 ≠ a) = pre ++ post := by
    rw [henters.axioms, hsplit, List.filter_append, List.filter_cons]
    rw [List.map_append, List.map_cons, List.nodup_append, List.nodup_cons] at hnodup
    obtain ⟨-, ⟨hnotin, -⟩, hne⟩ := hnodup
    rw [List.filter_eq_self.2, List.filter_eq_self.2]
    · simp
    · intro entry hentry
      refine decide_eq_true fun e => hnotin ?_
      exact List.mem_map.2 ⟨entry, hentry, e⟩
    · intro entry hentry
      exact decide_eq_true (hne entry.1 (List.mem_map_of_mem hentry) a (List.mem_cons_self ..))
  have hledger' : ix'.Ledger (rpre ++ rpost).flatten := by
    refine henters.ledger (show List.Perm _ _ from ?_) hledger
    rw [List.flatten_append, List.flatten_append, List.flatten_cons]
    exact List.perm_append_comm_assoc ..
  have hremaining : List.Sublist (pre ++ post) (pre ++ (a, 1) :: post) :=
    List.Sublist.append_left (List.sublist_cons_self ..) pre
  refine ⟨ix', hok, henters.names, henters.rulesOf_eq, henters.axioms, ?_⟩
  rw [hfilter]
  have halike : ix'.Alike { ix' with axioms := pre ++ post } := .of_nodes rfl rfl rfl rfl
  refine ⟨halike.tidy htidy, (h.coherent.congr henters.names henters.rulesOf_eq).congr halike.names fun _ => rfl,
    (hremaining.map _).nodup hnodup, rpre ++ rpost, ?_, hledger'.congr rfl rfl rfl rfl rfl rfl rfl⟩
  exact List.rel_append (hpre.imp fun _ _ hr => halike.names.records (henters.names.records hr))
    (hpost.imp fun _ _ hr => halike.names.records (henters.names.records hr))

/-- What a retraction does: it counts one less, and never fails. -/
theorem retract (h : ix.Accounts) (a : Axiom) :
    (ix.retract a).2.Accounts ∧ ix.Names (ix.retract a).2 ∧ (∀ id, (ix.retract a).2.rulesOf id = ix.rulesOf id) ∧
      (ix.retract a).1 = .ok (decide (ix.assertions a = 1)) ∧
      ∀ b, (ix.retract a).2.assertions b = ix.assertions b - if b = a then 1 else 0 := by
  unfold Index.retract
  cases hcount : ix.assertions a with
  | zero =>
    refine ⟨h, .refl ix, fun _ => rfl, rfl, fun b => ?_⟩
    by_cases hb : b = a
    · simp [hb, hcount]
    · simp [hb]
  | succ n =>
    have hmem := mem_axioms_of_assertions hcount
    cases n with
    | succ n =>
      have halike : ix.Alike (ix.setAssertions a (n + 1)) := .of_nodes rfl rfl rfl rfl
      refine ⟨h.setAssertions (Nat.succ_pos _), halike.names, fun _ => rfl, by simp, fun b => ?_⟩
      rw [assertions_setAssertions (List.mem_map_of_mem hmem)]
      by_cases hb : b = a
      · simp [hb, hcount]
      · simp [hb]
    | zero =>
      obtain ⟨ix', hok, hnames, hrules, haxioms, haccounts⟩ := h.retract_last hmem
      rw [hok]
      have halike : ix'.Alike { ix' with axioms := ix'.axioms.filter fun entry => entry.1 ≠ a } := .of_nodes rfl rfl rfl rfl
      refine ⟨haccounts, hnames.trans halike.names, hrules, rfl, fun b => ?_⟩
      rw [assertions_filter haxioms]
      by_cases hb : b = a
      · rw [if_pos hb, if_pos hb, hb, hcount]
      · rw [if_neg hb, if_neg hb, Nat.sub_zero]

/-- A commit changes neither the axioms nor the numbers, and leaves nothing pending. -/
theorem commit (h : ix.Accounts) : ix.commit.2.Accounts ∧ ix.Alike ix.commit.2 ∧ ix.commit.2.pending = .empty ∧
    ix.commit.2.axioms = ix.axioms := by
  obtain ⟨readings, hrecords, hledger⟩ := h.readings
  have hother := hledger.otherRules_commit h.tidy
  have halike := hledger.alike_commit h.tidy
  have hcommitted := hledger.commit h.tidy
  have haxioms : ix.commit.2.axioms = ix.axioms := hother.axioms
  refine ⟨⟨halike.tidy h.tidy, hcommitted.coherent (halike.tidy h.tidy) hother.pending, ?_, readings, ?_, hcommitted⟩,
    halike, hother.pending, haxioms⟩
  · rw [haxioms]
    exact h.axioms_nodup
  · rw [haxioms]
    exact hrecords.imp fun _ _ => halike.names.records

theorem takeRolesChanged (h : ix.Accounts) : ix.takeRolesChanged.2.Accounts := by
  obtain ⟨readings, hrecords, hledger⟩ := h.readings
  have halike : ix.Alike ix.takeRolesChanged.2 := .of_nodes rfl rfl rfl rfl
  exact ⟨halike.tidy h.tidy, h.coherent.congr halike.names fun _ => rfl, h.axioms_nodup, readings,
    hrecords.imp fun _ _ => halike.names.records, hledger.congr rfl rfl rfl rfl rfl rfl rfl⟩

end Accounts

/-! ### Sets of disjoint classes -/

/-- Whatever an axiom says, and whether it can be indexed or not, the sets of disjoint classes are kept. -/
theorem setsKept_enter (edit : Edit) (hix : ix.Tidy) (hfound : ix.SetsFound) (a : Axiom) : ix.SetsKept (enter edit a ix).2 := by
  have hspec := enter_spec edit hix a
  cases hentries : a.entries? with
  | none =>
    rw [hentries] at hspec
    obtain ⟨e, entered, he, -, hgrown⟩ := hspec
    rw [he]
    exact .of_eq hgrown.disjointSets
  | some said =>
    rw [hentries] at hspec
    obtain ⟨entered, hok, -, moved, henters, -⟩ := hspec
    rw [hok]
    exact henters.sets hfound

theorem setsKept_assert (hix : ix.Tidy) (hfound : ix.SetsFound) (a : Axiom) : ix.SetsKept (ix.assert a).2 := by
  have hsets := setsKept_enter .assert hix hfound a
  unfold Index.assert
  split
  · exact .of_eq rfl
  · split <;> rename_i henter <;> rw [henter] at hsets
    · exact ⟨hsets.kept, hsets.members⟩
    · exact hsets

theorem setsKept_retract (hix : ix.Tidy) (hfound : ix.SetsFound) (a : Axiom) : ix.SetsKept (ix.retract a).2 := by
  have hsets := setsKept_enter .retract hix hfound a
  unfold Index.retract
  split
  · exact .of_eq rfl
  · exact .of_eq rfl
  · split <;> rename_i henter <;> rw [henter] at hsets
    · exact ⟨hsets.kept, hsets.members⟩
    · exact hsets

/-! ### The rules of an index -/

/-- The rules of an index, with the role hierarchy computed from it. -/
def ruleBase (ix : Index) : RuleBase := ⟨ix, .build ix⟩

namespace Accounts

theorem regular (h : ix.Accounts) : ix.ruleBase.calculus.Regular :=
  h.coherent.regular RoleHierarchy.subRoles_build_trans

theorem within (h : ix.Accounts) : ix.ruleBase.calculus.Within ix.nodes.size := h.coherent.calculus_within h.tidy

end Accounts

/-! ### Histories -/

theorem empty_eq : Index.empty = ⟨#[⟨.named owlThing, Term.thing.hash, 0, 0, []⟩,
    ⟨.named owlNothing, Term.nothing.hash, 0, 0, []⟩], [(.named owlNothing, .nothing), (.named owlThing, .thing)],
    #[], [], [], [], #[], [], [], .empty, false⟩ := by
  have hne : (Shape.named owlNothing == .named owlThing) = false := by decide
  simp [Index.empty, Index.intern, Index.find?, List.lookup_cons, hne, Index.shapeHash, Index.shapeBytes, Term.hash,
    Term.thing, Term.nothing, ExprId.thing, ExprId.nothing]

private theorem node?_empty {id : ExprId} {node : Node} (h : Index.empty.node? id = some node) :
    (id = .thing ∧ node = ⟨.named owlThing, Term.thing.hash, 0, 0, []⟩) ∨
      (id = .nothing ∧ node = ⟨.named owlNothing, Term.nothing.hash, 0, 0, []⟩) := by
  rw [empty_eq] at h
  obtain ⟨i⟩ := id
  match i with
  | 0 => exact .inl ⟨rfl, (Option.some.inj h).symm⟩
  | 1 => exact .inr ⟨rfl, (Option.some.inj h).symm⟩
  | i + 2 => cases h

theorem rulesOf_empty (id : ExprId) : Index.empty.rulesOf id = [] := by
  unfold rulesOf
  cases hnode : Index.empty.node? id with
  | none => rfl
  | some node => rcases node?_empty hnode with ⟨-, rfl⟩ | ⟨-, rfl⟩ <;> rfl

private theorem tidy_empty : Index.empty.Tidy where
  shapes shape id := by
    have hne : (Shape.named owlThing == .named owlNothing) = false := by decide
    rw [Index.find?, shape?_eq_some_iff]
    constructor
    · intro h
      rw [empty_eq] at h ⊢
      simp only [List.lookup_cons, List.lookup_nil] at h
      split at h <;> rename_i e
      · cases h
        exact ⟨_, rfl, (eq_of_beq e).symm⟩
      · split at h <;> rename_i e
        · cases h
          exact ⟨_, rfl, (eq_of_beq e).symm⟩
        · cases h
    · rintro ⟨node, hnode, rfl⟩
      rcases node?_empty hnode with ⟨rfl, rfl⟩ | ⟨rfl, rfl⟩ <;> rw [empty_eq] <;> simp [List.lookup_cons, hne]
  roles name role := by
    rw [roleId?, role?, empty_eq]
    simp
  conjuncts {id first second} h := by
    obtain ⟨node, hnode, e⟩ := shape?_eq_some_iff.1 h
    rcases node?_empty hnode with ⟨-, rfl⟩ | ⟨-, rfl⟩ <;> cases e
  filler {id filler role} h := by
    obtain ⟨node, hnode, e⟩ := shape?_eq_some_iff.1 h
    rcases node?_empty hnode with ⟨-, rfl⟩ | ⟨-, rfl⟩ <;> cases e
  hash {id node} h := by
    rcases node?_empty h with ⟨-, rfl⟩ | ⟨-, rfl⟩ <;> rfl
  thing := by rw [empty_eq]; rfl
  nothing := by rw [empty_eq]; rfl

private theorem ledger_empty : Index.empty.Ledger [] where
  within h := absurd h List.not_mem_nil
  nodes := by
    constructor <;> intro id node hnode <;> rcases node?_empty hnode with ⟨-, rfl⟩ | ⟨-, rfl⟩ <;> rfl
  roles := by
    constructor <;> intros <;> rw [empty_eq] <;> rfl
  sets := by
    constructor
    · intro d set hset
      rw [empty_eq] at hset
      cases hset
    · intro d set hset
      rw [empty_eq] at hset
      cases hset
    · intro members d
      rw [disjointnessId?, members?, empty_eq]
      simp
    · intro ids h
      cases h
  standing g := by
    rw [Index.standing, contributionsOf, rulesOf_empty, due, toldShare.eq_def, empty_eq]
    cases g <;> rfl
  committable := by
    refine ⟨fun g => ?_, fun g => ?_, fun id => ?_⟩
    · rw [empty_eq]
      exact Nat.zero_le _
    · rw [empty_eq]
      exact .inl rfl
    · rw [rulesOf_empty]
      exact List.Pairwise.nil

theorem axioms_empty : Index.empty.axioms = [] := by rw [empty_eq]

theorem rolesChanged_empty : Index.empty.rolesChanged = false := by rw [empty_eq]

theorem accounts_empty : Index.empty.Accounts where
  tidy := tidy_empty
  coherent := ledger_empty.coherent tidy_empty (by rw [empty_eq])
  axioms_nodup := by rw [empty_eq]; exact List.nodup_nil
  readings := ⟨[], by rw [empty_eq]; exact .nil, ledger_empty⟩

/-- What can be done to an index. -/
inductive Call where
  | assert (a : Axiom)
  | retract (a : Axiom)
  | commit
  | takeRolesChanged

namespace Call

/-- The index that a call leaves. -/
def apply (ix : Index) : Call → Index
  | assert a => (ix.assert a).2
  | retract a => (ix.retract a).2
  | commit => ix.commit.2
  | takeRolesChanged => ix.takeRolesChanged.2

theorem accounts_apply (h : ix.Accounts) (call : Call) : (call.apply ix).Accounts := by
  cases call with
  | assert a => exact (h.assert a).1
  | retract a => exact (h.retract a).1
  | commit => exact h.commit.1
  | takeRolesChanged => exact h.takeRolesChanged

theorem setsKept_apply (h : ix.Accounts) (call : Call) : ix.SetsKept (call.apply ix) := by
  cases call with
  | assert a => exact setsKept_assert h.tidy h.found a
  | retract a => exact setsKept_retract h.tidy h.found a
  | commit =>
    obtain ⟨entries, hledger⟩ := h.exists_ledger
    exact .of_eq (hledger.otherRules_commit h.tidy).disjointSets
  | takeRolesChanged => exact .of_eq rfl

end Call

/-- The index after a history of calls. -/
def after (calls : List Call) : Index := calls.foldl Call.apply .empty

/-- Every history leads to an index that counts what its asserted axioms say. -/
theorem accounts_after (calls : List Call) : (after calls).Accounts := by
  suffices h : ∀ ix : Index, ix.Accounts → (calls.foldl Call.apply ix).Accounts from h .empty accounts_empty
  induction calls with
  | nil => exact fun _ h => h
  | cons call calls ih => exact fun ix h => ih _ (call.accounts_apply h)

end Index

end ELOntology
