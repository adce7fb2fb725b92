import ELOntology.Proofs.Index.Balance

/-!
# An index does not depend on its history

Indices with the same asserted axioms have the same rules once they are committed, up to numbers and order (`Matches`),
and which axioms are asserted is a matter of counting: the additions that succeeded against the removals of an axiom that
was there.

Key fact: `Index.history_independent`.
-/

namespace ELOntology

namespace RuleChain

variable {chain chain' : RuleChain} {rule : Rule}

/-- In a chain, the contributions of one kind are those of a single rule. -/
theorem Kinds.filter_contributions (h : chain.Kinds) (hrule : rule ∈ chain) (premise : ExprId) :
    (chain.contributions premise).filter (fun g => g.kind = rule.kind) = rule.contributions premise := by
  induction chain with
  | nil => cases hrule
  | cons head rules ih =>
    obtain ⟨hhead, hrules⟩ := List.pairwise_cons.1 h
    have hself : (rule.contributions premise).filter (fun g => g.kind = rule.kind) = rule.contributions premise :=
      List.filter_eq_self.2 fun g hg => decide_eq_true (Rule.kind_of_mem_contributions hg)
    rw [contributions_cons, List.filter_append]
    rcases List.mem_cons.1 hrule with rfl | hrule
    · have hrest : (contributions premise rules).filter (fun g => g.kind = rule.kind) = [] := by
        refine List.filter_eq_nil_iff.2 fun g hg e => ?_
        obtain ⟨rule', hmem, hg⟩ := List.mem_flatMap.1 hg
        exact hhead rule' hmem ((of_decide_eq_true e).symm.trans (Rule.kind_of_mem_contributions hg))
      rw [hself, hrest, List.append_nil]
    · have hnone : (head.contributions premise).filter (fun g => g.kind = rule.kind) = [] := by
        refine List.filter_eq_nil_iff.2 fun g hg e => ?_
        exact hhead rule hrule ((Rule.kind_of_mem_contributions hg).symm.trans (of_decide_eq_true e))
      rw [hnone, ih hrules hrule, List.nil_append]

theorem Kinds.nodup (h : chain.Kinds) : chain.Nodup := h.imp fun hne e => hne (congrArg Rule.kind e)

theorem Kinds.eq_of_kind (h : chain.Kinds) {rule' : Rule} (hrule : rule ∈ chain) (hrule' : rule' ∈ chain)
    (hkind : rule.kind = rule'.kind) : rule = rule' := by
  have : Std.Symm fun rule rule' : Rule => rule.kind ≠ rule'.kind := ⟨fun _ _ => Ne.symm⟩
  exact Classical.byContradiction fun hne => h.forall hrule hrule' hne hkind

/-- A chain that gathers nothing is empty. -/
theorem Filled.eq_nil (h : chain.Filled) {premise : ExprId} (hnone : chain.contributions premise = []) : chain = [] := by
  cases chain with
  | nil => rfl
  | cons rule rules =>
    rw [contributions_cons, List.append_eq_nil_iff] at hnone
    have hsize := h rule (List.mem_cons_self ..)
    rw [← Rule.length_contributions premise, hnone.1] at hsize
    exact absurd hsize (Nat.lt_irrefl 0)

section Matching

variable {premise premise' : ExprId} {S : Contribution → Contribution → Prop}

/-- If all contributions match, so do those of each rule with those of the rule of the same kind. -/
private theorem exists_match (hkinds : chain.Kinds) (hkinds' : chain'.Kinds) (hfilled : chain.Filled)
    (hS : ∀ g g', S g g' → g.kind = g'.kind) (h : Multiset.Rel S (chain.contributions premise) (chain'.contributions premise'))
    (hrule : rule ∈ chain) : ∃ rule' ∈ chain', rule.kind = rule'.kind ∧
      Multiset.Rel S (rule.contributions premise) (rule'.contributions premise') := by
  have hsize := hfilled rule hrule
  rw [← Rule.length_contributions premise] at hsize
  obtain ⟨g, hg⟩ := List.exists_mem_of_length_pos hsize
  have hgathered : g ∈ chain.contributions premise := List.mem_flatMap.2 ⟨rule, hrule, hg⟩
  -- one contribution of the rule is enough to find the other rule, as kinds do not repeat in a chain
  obtain ⟨g', hg', hgg'⟩ := exists_right_of_rel h (Multiset.mem_coe.2 hgathered)
  obtain ⟨rule', hrule', hg'⟩ := List.mem_flatMap.1 (Multiset.mem_coe.1 hg')
  have hkind : rule.kind = rule'.kind := by
    rw [← Rule.kind_of_mem_contributions hg, hS g g' hgg', Rule.kind_of_mem_contributions hg']
  refine ⟨rule', hrule', hkind, ?_⟩
  rw [← hkinds.filter_contributions hrule, ← hkinds'.filter_contributions hrule', ← hkind]
  exact rel_filter (p := fun g => g.kind = rule.kind) (q := fun g => g.kind = rule.kind) h fun g g' hgg' => by rw [hS g g' hgg']

/-- Chains whose contributions match consist of rules that match. -/
theorem rel_of_contributions (hkinds : chain.Kinds) (hkinds' : chain'.Kinds) (hfilled : chain.Filled)
    (hfilled' : chain'.Filled) (hS : ∀ g g', S g g' → g.kind = g'.kind)
    (h : Multiset.Rel S (chain.contributions premise) (chain'.contributions premise')) :
    Multiset.Rel (fun rule rule' : Rule => rule.kind = rule'.kind ∧
      Multiset.Rel S (rule.contributions premise) (rule'.contributions premise')) (chain : Multiset Rule) chain' := by
  refine rel_of_nodup hkinds.nodup hkinds'.nodup (fun rule hrule => exists_match hkinds hkinds' hfilled hS h hrule)
    (fun rule' hrule' => ?_) (fun rule hrule rule' hrule' _ e e' => ?_) fun _ rule hrule rule' hrule' e e' => ?_
  · obtain ⟨rule, hrule, hkind, hrel⟩ := exists_match (S := flip S) hkinds' hkinds hfilled'
      (fun g g' hgg' => (hS g' g hgg').symm) (Multiset.rel_flip.2 h) hrule'
    exact ⟨rule, hrule, hkind.symm, Multiset.rel_flip.1 hrel⟩
  · exact hkinds.eq_of_kind hrule hrule' (e.1.trans e'.1.symm)
  · exact hkinds'.eq_of_kind hrule hrule' (e.1.symm.trans e'.1)

end Matching

end RuleChain

namespace Index

variable {ix ix' : Index}

/-! ### Indices with the same axioms -/

/-- The contributions say the same, each under the numbers of its own index. -/
def Synonyms (ix ix' : Index) (g g' : Contribution) : Prop := ∃ c, ix.Means g c ∧ ix'.Means g' c

/-- The rules are of the same kind and gather the same, up to numbers and order. -/
def SameRule (ix ix' : Index) (id id' : ExprId) (rule rule' : Rule) : Prop :=
  rule.kind = rule'.kind ∧ Multiset.Rel (ix.Synonyms ix') (rule.contributions id) (rule'.contributions id')

/-- Both indices have the same rules in force, up to numbers and order: expressions that both have carry the same chains,
and those that only one of them has carry none. -/
structure Matches (ix ix' : Index) : Prop where
  chains {id id' : ExprId} {t : Term} : ix.Denotes id t → ix'.Denotes id' t →
    Multiset.Rel (ix.SameRule ix' id id') (ix.rulesOf id : Multiset Rule) (ix'.rulesOf id')
  left {id : ExprId} {t : Term} : ix.Denotes id t → (∀ id', ¬ ix'.Denotes id' t) → ix.rulesOf id = []
  right {id' : ExprId} {t : Term} : ix'.Denotes id' t → (∀ id, ¬ ix.Denotes id t) → ix'.rulesOf id' = []

theorem Synonyms.kind {g g' : Contribution} (h : ix.Synonyms ix' g g') : g.kind = g'.kind := by
  obtain ⟨c, hc, hc'⟩ := h
  exact hc.kind.trans hc'.kind.symm

/-- No rule in force is empty. -/
def Filled (ix : Index) : Prop := ∀ id, (ix.rulesOf id).Filled

namespace Accounts

/-- With nothing pending, the contributions in force for an expression are those due for its term. -/
theorem rel_contributionsOf (h : ix.Accounts) (hpending : ix.pending = .empty) {id : ExprId} {t : Term}
    (hd : ix.Denotes id t) : Multiset.Rel ix.Means (ix.contributionsOf id)
      ((contributionsDue (∑ a ∈ ix.asserted, a.said)).filter fun c => c.premise = t) := by
  have hrel := h.reflects.contributions hd
  have hbalance : ix.balance id = ix.contributionsOf id := by
    rw [balance, hpending]
    simp [Changes.empty]
  rwa [hbalance] at hrel

/-- Nothing is due for a term that the index does not have. -/
theorem due_eq_zero (h : ix.Accounts) {t : Term} (hnone : ∀ id, ¬ ix.Denotes id t) :
    ((contributionsDue (∑ a ∈ ix.asserted, a.said)).filter fun c => c.premise = t) = 0 := by
  obtain ⟨entries, hledger, hreads⟩ := h.exists_entries
  rw [h.sum_said]
  refine Multiset.filter_eq_nil.2 fun c hc e => ?_
  obtain ⟨g, -, hmeans⟩ := exists_left_of_rel (hledger.rel_dueAll h.tidy hreads) hc
  exact hnone g.premise (e ▸ hmeans.premise)

/-- An expression that only one of two indices with the same axioms has carries no rules. -/
private theorem rulesOf_eq_nil (h : ix.Accounts) (h' : ix'.Accounts) (hpending : ix.pending = .empty) (hfilled : ix.Filled)
    (hsame : ix.asserted = ix'.asserted) {id : ExprId} {t : Term} (hd : ix.Denotes id t)
    (hnone : ∀ id', ¬ ix'.Denotes id' t) : ix.rulesOf id = [] := by
  have hrel := h.rel_contributionsOf hpending hd
  rw [hsame, h'.due_eq_zero hnone, Multiset.rel_zero_right] at hrel
  exact (hfilled id).eq_nil ((Multiset.coe_eq_zero _).1 hrel)

theorem matches_of_same (h : ix.Accounts) (h' : ix'.Accounts) (hpending : ix.pending = .empty) (hpending' : ix'.pending = .empty)
    (hfilled : ix.Filled) (hfilled' : ix'.Filled) (hsame : ix.asserted = ix'.asserted) : ix.Matches ix' where
  chains {id id' t} hd hd' := by
    have hrel := h.rel_contributionsOf hpending hd
    have hrel' := h'.rel_contributionsOf hpending' hd'
    rw [← hsame] at hrel'
    obtain ⟨entries, hledger, -⟩ := h.exists_entries
    obtain ⟨entries', hledger', -⟩ := h'.exists_entries
    -- both match the contributions due for the same axioms, so they match each other
    have hsynonyms : Multiset.Rel (ix.Synonyms ix') (ix.contributionsOf id) (ix'.contributionsOf id') :=
      rel_comp hrel (Multiset.rel_flip.2 hrel')
    exact RuleChain.rel_of_contributions (hledger.committable.kinds id) (hledger'.committable.kinds id') (hfilled id)
      (hfilled' id') (fun _ _ => Synonyms.kind) hsynonyms
  left hd hnone := h.rulesOf_eq_nil h' hpending hfilled hsame hd hnone
  right hd hnone := h'.rulesOf_eq_nil h hpending' hfilled' hsame.symm hd hnone

end Accounts

/-- Nothing is pending, and the contributions in force for each expression are those due for its term. -/
structure Settled (ix : Index) : Prop where
  pending : ix.pending = .empty
  contributions {id : ExprId} {t : Term} : ix.Denotes id t → Multiset.Rel ix.Means (ix.contributionsOf id)
    ((contributionsDue (∑ a ∈ ix.asserted, a.said)).filter fun c => c.premise = t)

theorem Accounts.asserted_commit (h : ix.Accounts) : ix.commit.2.asserted = ix.asserted := by
  obtain ⟨-, -, -, haxioms⟩ := h.commit
  rw [asserted, asserted, haxioms]

/-- A commit settles the index. -/
theorem Accounts.settled_commit (h : ix.Accounts) : ix.commit.2.Settled :=
  have ⟨hcommitted, _, hpending, _⟩ := h.commit
  ⟨hpending, hcommitted.rel_contributionsOf hpending⟩

/-! ### Retractions -/

theorem Accounts.mem_asserted_iff (h : ix.Accounts) {a : Axiom} : a ∈ ix.asserted ↔ 0 < ix.assertions a := by
  rw [mem_asserted, h.containsAxiom_iff]

/-- What retracting an axiom strikes out: all that the axiom says, if this is its last assertion. -/
def struck (ix : Index) (a : Axiom) : Multiset TermEntry := if ix.assertions a = 1 then a.said else 0

/-- Retracting the axiom steps each counter down by just what is struck out, so that none is at zero when it is stepped
down. -/
structure RetractsExactly (ix : Index) (a : Axiom) : Prop where
  occurrences {id : ExprId} {node node' : Node} {t : Term} : ix.node? id = some node →
    (ix.retract a).2.node? id = some node' → ix.Denotes id t → node.occurrences = node'.occurrences +
      ((ix.struck a).count (.occurrence .positive t) + (ix.struck a).count (.occurrence .negative t))
  negatives {id : ExprId} {node node' : Node} {t : Term} : ix.node? id = some node →
    (ix.retract a).2.node? id = some node' → ix.Denotes id t →
    node.negativeOccurrences = node'.negativeOccurrences + (ix.struck a).count (.occurrence .negative t)
  sets {d d' : Nat} {set set' : DisjointSet} {ts : Multiset Term} : ix.disjointSets[d]? = some set →
    (ix.retract a).2.disjointSets[d']? = some set' → Multiset.Rel ix.Denotes set.members ts →
    Multiset.Rel (ix.retract a).2.Denotes set'.members ts →
    set.occurrences = set'.occurrences + ((ix.struck a).filterMap Entry.disjoint?).count ts

namespace Accounts

/-- A retraction takes the share of its axiom from every sum over the asserted axioms. -/
private theorem sum_retract (h : ix.Accounts) (a : Axiom) (f : Axiom → Nat) : ∑ b ∈ ix.asserted, f b =
    ∑ b ∈ (ix.retract a).2.asserted, f b + if ix.assertions a = 1 then f a else 0 := by
  obtain ⟨h', -, -, -, hcount⟩ := h.retract a
  by_cases hlast : ix.assertions a = 1
  -- the last assertion takes the axiom away, an earlier one changes no sum
  · have herase : (ix.retract a).2.asserted = ix.asserted.erase a := by
      ext b
      rw [h'.mem_asserted_iff, Finset.mem_erase, h.mem_asserted_iff, hcount]
      by_cases hb : b = a
      · simp [hb, hlast]
      · simp [hb]
    rw [herase, if_pos hlast, Finset.sum_erase_add _ _ (h.mem_asserted_iff.2 (by omega))]
  · have hsame : (ix.retract a).2.asserted = ix.asserted := by
      ext b
      rw [h'.mem_asserted_iff, h.mem_asserted_iff, hcount]
      by_cases hb : b = a
      · subst hb
        rw [if_pos rfl]
        omega
      · rw [if_neg hb, Nat.sub_zero]
    rw [hsame, if_neg hlast, Nat.add_zero]

theorem retractsExactly (h : ix.Accounts) (a : Axiom) : ix.RetractsExactly a := by
  obtain ⟨h', hnames, -, -, -⟩ := h.retract a
  have hcount (entry : TermEntry) : (ix.struck a).count entry = if ix.assertions a = 1 then a.said.count entry else 0 := by
    rw [struck]
    split <;> rfl
  have hsets (ts : Multiset Term) : ((ix.struck a).filterMap Entry.disjoint?).count ts =
      if ix.assertions a = 1 then (a.said.filterMap Entry.disjoint?).count ts else 0 := by
    rw [struck]
    split <;> rfl
  refine ⟨fun hnode hnode' hd => ?_, fun hnode hnode' hd => ?_, fun hset hset' hts hts' => ?_⟩
  · rw [h.reflects.occurrences hnode hd, h'.reflects.occurrences hnode' (hnames.denotes hd), h.sum_retract a, hcount, hcount]
    split <;> rfl
  · rw [h.reflects.negatives hnode hd, h'.reflects.negatives hnode' (hnames.denotes hd), h.sum_retract a, hcount]
  · rw [h.reflects.sets hset hts, h'.reflects.sets hset' hts', h.sum_retract a, hsets]

end Accounts

/-! ### Histories -/

namespace Call

/-- Whether the call asserts the axiom and succeeds. -/
def adds (a : Axiom) (ix : Index) : Call → Bool
  | assert b => decide (b = a) && (ix.assert b).1.isOk
  | _ => false

/-- Whether the call retracts the axiom while the index contains it. -/
def removes (a : Axiom) (ix : Index) : Call → Bool
  | retract b => decide (b = a) && ix.containsAxiom b
  | _ => false

/-- A call counts one assertion up if it adds the axiom, and one down if it removes it. -/
theorem assertions_apply (h : ix.Accounts) (call : Call) (a : Axiom) :
    (call.apply ix).assertions a + (if call.removes a ix then 1 else 0) =
      ix.assertions a + if call.adds a ix then 1 else 0 := by
  cases call with
  | assert b =>
    obtain ⟨-, -, -, hspec⟩ := h.assert b
    cases hentries : b.entries? with
    | some said =>
      rw [hentries] at hspec
      by_cases hb : b = a
      · subst hb
        simp [apply, adds, removes, hspec.1, hspec.2, Except.isOk, Except.toBool]
      · have hb' : ¬ a = b := fun e => hb e.symm
        simp [apply, adds, removes, hspec.2, hb, hb']
    | none =>
      rw [hentries] at hspec
      obtain ⟨⟨e, he⟩, hgrown⟩ := hspec
      have hsame : (ix.assert b).2.assertions a = ix.assertions a := by rw [assertions, hgrown.axioms, assertions]
      simp [apply, adds, removes, hsame, he, Except.isOk, Except.toBool]
  | retract b =>
    obtain ⟨-, -, -, -, hcount⟩ := h.retract b
    by_cases hb : b = a
    · subst hb
      have hcontains := h.containsAxiom_iff (a := b)
      simp only [apply, adds, removes, hcount, if_true, decide_true, Bool.true_and, hcontains]
      split <;> simp <;> omega
    · have hb' : ¬ a = b := fun e => hb e.symm
      simp [apply, adds, removes, hcount, hb, hb']
  | commit =>
    obtain ⟨-, -, -, haxioms⟩ := h.commit
    simp [apply, adds, removes, assertions, haxioms]
  | takeRolesChanged => rfl

end Call

/-- How many of the calls, made one after another, have a property that depends on the index they find. -/
def countCalls (p : Index → Call → Bool) : Index → List Call → Nat
  | _, [] => 0
  | ix, call :: calls => (if p ix call then 1 else 0) + countCalls p (call.apply ix) calls

/-- How often adding the axiom has succeeded. -/
def additions (a : Axiom) (calls : List Call) : Nat := countCalls (Call.adds a) .empty calls

/-- How often the axiom was removed while it was there. -/
def removals (a : Axiom) (calls : List Call) : Nat := countCalls (Call.removes a) .empty calls

/-- The assertions of an axiom are the additions that no removal has undone. -/
theorem assertions_after (calls : List Call) (a : Axiom) :
    (after calls).assertions a + removals a calls = additions a calls := by
  suffices h : ∀ ix : Index, ix.Accounts → (calls.foldl Call.apply ix).assertions a + countCalls (Call.removes a) ix calls =
      ix.assertions a + countCalls (Call.adds a) ix calls by
    have hempty : Index.empty.assertions a = 0 := assertions_eq_zero (by rw [axioms_empty]; exact List.not_mem_nil)
    have := h .empty accounts_empty
    rwa [hempty, Nat.zero_add] at this
  induction calls with
  | nil => exact fun _ _ => rfl
  | cons call calls ih =>
    intro ix h
    have hstep := call.assertions_apply h a
    have hrest := ih (call.apply ix) (call.accounts_apply h)
    rw [List.foldl_cons, countCalls, countCalls]
    omega

theorem Call.filled_apply (h : ix.Accounts) (hfilled : ix.Filled) (call : Call) : (call.apply ix).Filled := by
  cases call with
  | assert a =>
    intro id
    rw [apply, (h.assert a).2.2.1]
    exact hfilled id
  | retract a =>
    intro id
    rw [apply, (h.retract a).2.2.1]
    exact hfilled id
  | commit => exact forall_rulesOf_commit (fun c _ h => h.add c) (fun c _ h => h.remove c) hfilled
  | takeRolesChanged => exact hfilled

/-- No history leaves an empty rule in force. -/
theorem filled_after (calls : List Call) : (after calls).Filled := by
  suffices h : ∀ ix : Index, ix.Accounts → ix.Filled → (calls.foldl Call.apply ix).Filled by
    refine h .empty accounts_empty fun id => ?_
    rw [rulesOf_empty]
    exact fun _ hrule => absurd hrule List.not_mem_nil
  induction calls with
  | nil => exact fun _ _ hfilled => hfilled
  | cons call calls ih => exact fun ix h hfilled => ih _ (call.accounts_apply h) (call.filled_apply h hfilled)

/-- Axioms that can be indexed are asserted one by one. -/
theorem Accounts.mem_asserted_assertAll (h : ix.Accounts) {axioms : List Axiom}
    (haxioms : ∀ a ∈ axioms, ∃ said, a.entries? = some said) (a : Axiom) :
    a ∈ ((axioms.map Call.assert).foldl Call.apply ix).asserted ↔ a ∈ ix.asserted ∨ a ∈ axioms := by
  induction axioms generalizing ix with
  | nil => simp
  | cons b axioms ih =>
    obtain ⟨said, hsaid⟩ := haxioms b (List.mem_cons_self ..)
    obtain ⟨h', -, -, hspec⟩ := h.assert b
    rw [hsaid] at hspec
    rw [List.map_cons, List.foldl_cons, ih (Call.accounts_apply h _) fun c hc => haxioms c (List.mem_cons_of_mem _ hc),
      Call.apply, h'.mem_asserted_iff, h.mem_asserted_iff, hspec.2, List.mem_cons]
    by_cases ha : a = b <;> simp [ha]

/-- A new index to which the asserted axioms are given has the same asserted axioms. -/
theorem asserted_assertAll (calls : List Call) {axioms : List Axiom} (haxioms : ∀ a, a ∈ axioms ↔ a ∈ (after calls).asserted) :
    (after (axioms.map .assert)).asserted = (after calls).asserted := by
  have h := accounts_after calls
  have hindexed (a : Axiom) (ha : a ∈ axioms) : ∃ said, a.entries? = some said := by
    obtain ⟨n, hn⟩ := Nat.exists_eq_succ_of_ne_zero (Nat.ne_of_gt (h.mem_asserted_iff.1 ((haxioms a).1 ha)))
    exact (h.exists_reading (mem_axioms_of_assertions hn)).2
  ext a
  rw [after, accounts_empty.mem_asserted_assertAll hindexed, haxioms, asserted, axioms_empty]
  simp

/-- An index depends on its asserted axioms alone, whatever calls were made before, failing and repeated ones included.
An axiom is contained if and only if the additions that succeeded outnumber the removals made while it was there; no
removal fails, and each steps the counters down by just what it strikes out.  The index reflects its asserted axioms.  Once
committed it matches every index with the same asserted axioms, such as a new one to which they are given in any order. -/
theorem history_independent (calls : List Call) :
    (∀ a, (after calls).containsAxiom a = true ↔ removals a calls < additions a calls) ∧
      (∀ a, ∃ last, ((after calls).retract a).1 = .ok last) ∧
      (∀ a, (after calls).RetractsExactly a) ∧
      (after calls).Reflects ∧
      (∀ calls', (after calls').asserted = (after calls).asserted →
        (after calls).commit.2.Matches (after calls').commit.2) ∧
      (∀ axioms : List Axiom, (∀ a, a ∈ axioms ↔ a ∈ (after calls).asserted) →
        (after (axioms.map .assert)).asserted = (after calls).asserted) ∧
      (after calls).commit.2.Settled ∧ (after calls).commit.2.asserted = (after calls).asserted := by
  have h := accounts_after calls
  refine ⟨fun a => ?_, fun a => ⟨_, (h.retract a).2.2.2.1⟩, h.retractsExactly, h.reflects, fun calls' hsame => ?_,
    fun axioms => asserted_assertAll calls, h.settled_commit, h.asserted_commit⟩
  · have hcount := assertions_after calls a
    rw [h.containsAxiom_iff]
    omega
  · have h' := accounts_after calls'
    obtain ⟨hcommitted, -, hpending, -⟩ := h.commit
    obtain ⟨hcommitted', -, hpending', -⟩ := h'.commit
    refine hcommitted.matches_of_same hcommitted' hpending hpending'
      (Call.filled_apply h (filled_after calls) .commit) (Call.filled_apply h' (filled_after calls') .commit) ?_
    rw [h.asserted_commit, h'.asserted_commit, hsame]

/-- An axiom that has come and gone leaves no trace in the rules. -/
theorem history_independent_retracted :
    (after [.assert (.subClassOf (.someValues "r" (.named "A")) (.named "B")),
        .assert (.disjointClasses [.named "B", .named "A"]),
        .retract (.subClassOf (.someValues "r" (.named "A")) (.named "B"))]).commit.2.Matches
      (after [.assert (.disjointClasses [.named "B", .named "A"])]).commit.2 :=
  (history_independent _).2.2.2.2.1 _ (by decide +kernel)

end Index

end ELOntology
