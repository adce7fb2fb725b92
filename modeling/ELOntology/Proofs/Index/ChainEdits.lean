import Mathlib.Data.Multiset.Bind
import ELOntology.Index.Assert
import ELOntology.Proofs.Index.Contribution

/-!
# Rule chains as multisets of contributions

A chain of rules that was edited from the empty one stands for a multiset of contributions: what was added and not yet
taken back.  Which rule gathers a contribution, and where in it, is a matter of the representation.  Removing one of
several equal contributions leaves the others, and removing one that is not there leaves the chain.

The rules of a chain conclude what its contributions conclude one by one, each as often as it is contributed.

Key facts: `RuleChain.contributions_edited` (the chain and the multiset agree) and `RuleChain.isSome_remove_iff` (a removal
succeeds exactly if the contribution is there).
-/

namespace ELOntology

namespace RuleChain

/-- Add a contribution to the chain, or take one away if it is there. -/
def edit (chain : RuleChain) : Edit × Contribution → RuleChain
  | (.assert, c) => chain.add c
  | (.retract, c) => (chain.remove? c).getD chain

/-- The chain after edits of the empty one. -/
def edited (edits : List (Edit × Contribution)) : RuleChain := edits.foldl edit []

/-- The contributions that are still in after one more edit. -/
def keep (held : Multiset Contribution) : Edit × Contribution → Multiset Contribution
  | (.assert, c) => c ::ₘ held
  | (.retract, c) => held.erase c

/-- The contributions that were added and not taken back, with multiplicity. -/
def remaining (edits : List (Edit × Contribution)) : Multiset Contribution := edits.foldl keep 0

variable {chain : RuleChain} {c : Contribution} {premise : ExprId}

theorem Kinds.edit (h : chain.Kinds) (e : Edit × Contribution) : Kinds (chain.edit e) := by
  obtain ⟨_ | _, c⟩ := e
  · exact h.add c
  · exact h.remove c

theorem Filled.edit (h : chain.Filled) (e : Edit × Contribution) : Filled (chain.edit e) := by
  obtain ⟨_ | _, c⟩ := e
  · exact h.add c
  · exact h.remove c

/-- A removal succeeds exactly if the chain gathers the contribution. -/
theorem isSome_remove_iff (h : chain.Kinds) :
    (chain.remove? c).isSome = true ↔ c ∈ contributions c.premise chain := by
  induction chain with
  | nil => simp [remove?, contributions]
  | cons rule rules ih =>
    obtain ⟨hrule, hrules⟩ := List.pairwise_cons.1 h
    rw [contributions_cons, List.mem_append, remove?]
    split
    · rename_i hkind
      -- the one rule of this kind decides
      have hrest : c ∉ contributions c.premise rules := fun hc => by
        obtain ⟨rule', hmem, hc⟩ := List.mem_flatMap.1 hc
        exact hrule rule' hmem (hkind.trans (Rule.kind_of_mem_contributions hc))
      rw [← Rule.contains_iff hkind]
      split <;> simp_all
    · rename_i hkind
      have hhead : c ∉ rule.contributions c.premise := fun hc => hkind (Rule.kind_of_mem_contributions hc).symm
      rw [Option.isSome_map, ih hrules]
      exact (or_iff_right hhead).symm

/-- An edit does to the multiset of contributions what it does to the chain. -/
theorem contributions_edit (h : chain.Kinds) (e : Edit × Contribution) (he : e.2.premise = premise) :
    (contributions premise (chain.edit e) : Multiset Contribution) = keep (contributions premise chain) e := by
  obtain ⟨_ | _, c⟩ := e <;> subst he
  · exact Multiset.coe_eq_coe.2 (add_perm c chain)
  · by_cases hc : c ∈ contributions c.premise chain
    · have hperm := Multiset.coe_eq_coe.2 (perm_remove h hc)
      rw [keep, hperm, ← Multiset.cons_coe, Multiset.erase_cons_head]
      rfl
    · have hnone : chain.remove? c = none := by
        rw [← Option.not_isSome_iff_eq_none, isSome_remove_iff h]
        exact hc
      rw [keep, Multiset.erase_of_notMem (by exact hc), edit, hnone]
      rfl

/-- What a chain that was edited from the empty one gathers. -/
theorem contributions_edited (edits : List (Edit × Contribution)) (hpremise : ∀ e ∈ edits, e.2.premise = premise) :
    (edited edits).Kinds ∧ (edited edits).Filled ∧
      (contributions premise (edited edits) : Multiset Contribution) = remaining edits := by
  -- the last edit is put on top of what the edits before it have made
  induction edits using List.reverseRecOn with
  | nil => exact ⟨List.Pairwise.nil, fun _ hrule => absurd hrule List.not_mem_nil, rfl⟩
  | append_singleton edits e ih =>
    obtain ⟨hkinds, hfilled, hheld⟩ := ih fun e' he' => hpremise e' (List.mem_append_left _ he')
    have he : e.2.premise = premise := hpremise e (by simp)
    rw [edited, List.foldl_append, remaining, List.foldl_append]
    exact ⟨hkinds.edit e, hfilled.edit e, (contributions_edit hkinds e he).trans (congrArg (keep · e) hheld)⟩

/-- A chain that was edited from the empty one has one rule of each kind at most and no empty one.  A removal succeeds
exactly if the contribution was added and not yet taken back.  The rules of the chain conclude what the contributions
that are still in conclude, each as often as it is in. -/
theorem edited_refines_remaining (edits : List (Edit × Contribution))
    (hpremise : ∀ e ∈ edits, e.2.premise = premise) :
    (edited edits).Kinds ∧ (edited edits).Filled ∧
      (∀ c, c.premise = premise → (((edited edits).remove? c).isSome = true ↔ c ∈ remaining edits)) ∧
      ∀ (rb : RuleBase) (facts : Facts), rb.index.rulesOf premise = edited edits →
        (rb.compose facts premise : Multiset Conclusion) =
          (remaining edits).bind fun c => (c.conclusions facts rb.roles : Multiset Conclusion) := by
  obtain ⟨hkinds, hfilled, hheld⟩ := contributions_edited edits hpremise
  refine ⟨hkinds, hfilled, fun c hc => ?_, fun rb facts hrules => ?_⟩
  · subst hc
    rw [isSome_remove_iff hkinds, ← hheld, Multiset.mem_coe]
  · rw [RuleBase.compose_eq, Index.contributionsOf, hrules, ← hheld, Multiset.coe_bind]

/-- Of a told super that was contributed twice and taken back once, one is left, and is concluded once. -/
theorem edited_refines_remaining_twice :
    let told : Contribution := .toldSuper ⟨2⟩ ⟨3⟩
    let edits := [(Edit.assert, told), (.assert, .disjointness ⟨2⟩ ⟨0⟩), (.assert, told), (.retract, told)]
    let node : Node := { (default : Node) with rules := edited edits }
    let rb : RuleBase := ⟨{ (default : Index) with nodes := #[default, default, node] }, default⟩
    ((edited edits).remove? told).isSome = true ∧
      ((edited edits).remove? (.toldSuper ⟨2⟩ ⟨4⟩)).isSome = false ∧
      (rb.compose .empty ⟨2⟩ : Multiset Conclusion) = {.disjointMember ⟨0⟩ ⟨2⟩, .isA ⟨3⟩} := by
  intro told edits node rb
  have hpremise : ∀ e ∈ edits, e.2.premise = ⟨2⟩ := by decide
  obtain ⟨-, -, hremove, hcompose⟩ := edited_refines_remaining edits hpremise
  exact ⟨(hremove told rfl).2 (by decide), Bool.eq_false_iff.2 ((hremove (.toldSuper ⟨2⟩ ⟨4⟩) rfl).not.2 (by decide)),
    (hcompose rb .empty rfl).trans (by decide)⟩

end RuleChain

end ELOntology
