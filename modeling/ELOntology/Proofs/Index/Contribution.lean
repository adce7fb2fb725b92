import Mathlib.Data.List.Basic
import ELOntology.Proofs.Calculus.Rules

/-!
# Contributions in chains

Up to order, adding a contribution to a chain of rules puts it among those that the chain gathers, and removing one that
is gathered takes it away.  This rests on a chain having one rule of each kind at most (`RuleChain.Kinds`).

Key facts: `RuleChain.add_perm` and `RuleChain.perm_remove`.
-/

namespace ELOntology

namespace Rule

theorem kind_of_mem_contributions {premise : ExprId} {rule : Rule} {c : Contribution}
    (h : c ∈ rule.contributions premise) : c.kind = rule.kind := by
  cases rule <;> simp only [contributions, List.mem_map] at h <;> obtain ⟨_, _, rfl⟩ := h <;> rfl

theorem contributions_single (c : Contribution) : (single c).contributions c.premise = [c] := by
  cases c <;> rfl

theorem contributions_push {rule : Rule} {c : Contribution} (h : rule.kind = c.kind) :
    (rule.push c).contributions c.premise = rule.contributions c.premise ++ [c] := by
  cases rule <;> cases c <;> cases h <;> simp [push, contributions, Contribution.premise]

@[simp] theorem kind_push (rule : Rule) (c : Contribution) : (rule.push c).kind = rule.kind := by
  cases rule <;> cases c <;> rfl

@[simp] theorem kind_erase (rule : Rule) (c : Contribution) : (rule.erase c).kind = rule.kind := by
  cases rule <;> cases c <;> rfl

@[simp] theorem kind_single (c : Contribution) : (single c).kind = c.kind := by
  cases c <;> rfl

theorem contributions_erase {rule : Rule} {c : Contribution} (h : rule.kind = c.kind) :
    (rule.erase c).contributions c.premise = (rule.contributions c.premise).erase c := by
  cases rule <;> cases c <;> cases h <;> simp only [erase, contributions, Contribution.premise]
  · exact List.map_erase (fun _ _ e => (Contribution.toldSuper.inj e).2) _
  · exact List.map_erase (fun _ _ e => Prod.ext (Contribution.conjunction.inj e).2.1 (Contribution.conjunction.inj e).2.2) _
  · exact List.map_erase (fun _ _ e => Prod.ext (Contribution.propagation.inj e).2.1 (Contribution.propagation.inj e).2.2) _
  · exact List.map_erase (fun _ _ e => (Contribution.disjointness.inj e).2) _

theorem size_push {rule : Rule} {c : Contribution} (h : rule.kind = c.kind) : (rule.push c).size = rule.size + 1 := by
  cases rule <;> cases c <;> cases h <;> simp [push, size]

@[simp] theorem size_single (c : Contribution) : (single c).size = 1 := by
  cases c <;> rfl

theorem length_contributions (premise : ExprId) (rule : Rule) : (rule.contributions premise).length = rule.size := by
  cases rule <;> simp [contributions, size]

theorem contains_iff {rule : Rule} {c : Contribution} (h : rule.kind = c.kind) :
    rule.contains c = true ↔ c ∈ rule.contributions c.premise := by
  cases rule <;> cases c <;> cases h <;> simp [contains, contributions, Contribution.premise]

theorem contributions_eq_nil {rule : Rule} {premise : ExprId} (h : rule.size = 0) : rule.contributions premise = [] := by
  cases rule <;> simp only [size, List.length_eq_zero_iff] at h <;> simp [contributions, h]

end Rule

namespace RuleChain

/-- The chain has one rule of each kind at most. -/
def Kinds (chain : RuleChain) : Prop := chain.Pairwise fun rule rule' : Rule => rule.kind ≠ rule'.kind

theorem contributions_cons (premise : ExprId) (rule : Rule) (chain : RuleChain) :
    contributions premise (rule :: chain) = rule.contributions premise ++ contributions premise chain := rfl

/-- Adding a contribution puts it among those that the chain gathers. -/
theorem add_perm (c : Contribution) (chain : RuleChain) :
    (contributions c.premise (add c chain)).Perm (c :: contributions c.premise chain) := by
  induction chain with
  | nil =>
    rw [add, contributions_cons, Rule.contributions_single]
    exact .refl _
  | cons rule rules ih =>
    unfold add
    split
    · rename_i hkind
      rw [contributions_cons, contributions_cons, Rule.contributions_push hkind, List.append_assoc]
      exact List.perm_middle
    · rw [contributions_cons, contributions_cons]
      exact (List.Perm.append_left _ ih).trans List.perm_middle

theorem kind_of_mem_add {c : Contribution} {chain : RuleChain} {rule : Rule} (h : rule ∈ add c chain) :
    rule.kind = c.kind ∨ ∃ rule' ∈ chain, rule'.kind = rule.kind := by
  induction chain with
  | nil =>
    obtain rfl := List.mem_singleton.1 h
    exact .inl (Rule.kind_single c)
  | cons head rules ih =>
    unfold add at h
    split at h
    · rename_i hkind
      rcases List.mem_cons.1 h with rfl | h
      · exact .inl ((Rule.kind_push head c).trans hkind)
      · exact .inr ⟨rule, List.mem_cons_of_mem _ h, rfl⟩
    · rcases List.mem_cons.1 h with rfl | h
      · exact .inr ⟨rule, List.mem_cons_self .., rfl⟩
      · exact (ih h).imp_right fun ⟨rule', hmem, e⟩ => ⟨rule', List.mem_cons_of_mem _ hmem, e⟩

theorem Kinds.add {chain : RuleChain} (h : chain.Kinds) (c : Contribution) : Kinds (chain.add c) := by
  unfold Kinds at h ⊢
  induction chain with
  | nil => exact List.pairwise_singleton _ _
  | cons rule rules ih =>
    obtain ⟨hrule, hrules⟩ := List.pairwise_cons.1 h
    unfold RuleChain.add
    split
    · exact List.pairwise_cons.2 ⟨fun rule' hmem => by rw [Rule.kind_push]; exact hrule rule' hmem, hrules⟩
    · rename_i hkind
      refine List.pairwise_cons.2 ⟨fun rule' hmem => ?_, ih hrules⟩
      rcases kind_of_mem_add hmem with e | ⟨old, hold, e⟩
      · exact fun e' => hkind (e'.trans e)
      · exact e ▸ hrule old hold

/-- Removing a contribution that the chain gathers takes it away. -/
theorem perm_remove {chain : RuleChain} (h : chain.Kinds) {c : Contribution} (hc : c ∈ contributions c.premise chain) :
    (contributions c.premise chain).Perm (c :: contributions c.premise ((chain.remove? c).getD chain)) := by
  induction chain with
  | nil => cases hc
  | cons rule rules ih =>
    obtain ⟨hrule, hrules⟩ := List.pairwise_cons.1 h
    unfold remove?
    split
    · rename_i hkind
      have hmem : c ∈ rule.contributions c.premise := by
        refine (List.mem_append.1 (contributions_cons c.premise rule rules ▸ hc)).resolve_right fun hc => ?_
        obtain ⟨rule', hmem', hc'⟩ := List.mem_flatMap.1 hc
        exact hrule rule' hmem' (hkind.trans (Rule.kind_of_mem_contributions hc'))
      rw [if_pos ((Rule.contains_iff hkind).2 hmem), Option.getD_some]
      have herase := Rule.contributions_erase hkind
      have hperm : (contributions c.premise (rule :: rules)).Perm
          (c :: ((rule.erase c).contributions c.premise ++ contributions c.premise rules)) := by
        rw [contributions_cons, herase]
        exact List.Perm.append_right _ (List.perm_cons_erase hmem)
      split
      · rename_i hsize
        rwa [Rule.contributions_eq_nil hsize, List.nil_append] at hperm
      · exact hperm
    · rename_i hkind
      have hmem : c ∈ contributions c.premise rules := by
        refine (List.mem_append.1 (contributions_cons c.premise rule rules ▸ hc)).resolve_left fun hc => ?_
        exact hkind (Rule.kind_of_mem_contributions hc).symm
      have hrest := ih hrules hmem
      cases hremove : remove? c rules with
      | none =>
        rw [hremove, Option.getD_none] at hrest
        have := hrest.length_eq
        simp at this
      | some rest =>
        rw [hremove, Option.getD_some] at hrest
        rw [Option.map_some, Option.getD_some, contributions_cons, contributions_cons]
        exact (List.Perm.append_left _ hrest).trans List.perm_middle

theorem kind_of_mem_remove {c : Contribution} {chain chain' : RuleChain} (h : chain.remove? c = some chain')
    {rule : Rule} (hrule : rule ∈ chain') : ∃ rule' ∈ chain, rule'.kind = rule.kind := by
  induction chain generalizing chain' with
  | nil => cases h
  | cons head rules ih =>
    unfold remove? at h
    split at h
    · split at h
      · obtain rfl := Option.some.inj h
        split at hrule
        · exact ⟨rule, List.mem_cons_of_mem _ hrule, rfl⟩
        · rcases List.mem_cons.1 hrule with rfl | hrule
          · exact ⟨head, List.mem_cons_self .., (Rule.kind_erase head c).symm⟩
          · exact ⟨rule, List.mem_cons_of_mem _ hrule, rfl⟩
      · cases h
    · obtain ⟨rest, hrest, rfl⟩ := Option.map_eq_some_iff.1 h
      rcases List.mem_cons.1 hrule with rfl | hrule
      · exact ⟨rule, List.mem_cons_self .., rfl⟩
      · obtain ⟨rule', hmem, e⟩ := ih hrest hrule
        exact ⟨rule', List.mem_cons_of_mem _ hmem, e⟩

theorem Kinds.remove {chain : RuleChain} (h : chain.Kinds) (c : Contribution) : Kinds ((chain.remove? c).getD chain) := by
  cases hremove : chain.remove? c with
  | none => exact h
  | some chain' =>
    unfold Kinds at h ⊢
    rw [Option.getD_some]
    induction chain generalizing chain' with
    | nil => cases hremove
    | cons head rules ih =>
      obtain ⟨hhead, hrules⟩ := List.pairwise_cons.1 h
      unfold remove? at hremove
      split at hremove
      · split at hremove
        · obtain rfl := Option.some.inj hremove
          split
          · exact hrules
          · exact List.pairwise_cons.2 ⟨fun rule hmem => by rw [Rule.kind_erase]; exact hhead rule hmem, hrules⟩
        · cases hremove
      · obtain ⟨rest, hrest, rfl⟩ := Option.map_eq_some_iff.1 hremove
        refine List.pairwise_cons.2 ⟨fun rule hmem => ?_, ih hrules rest hrest⟩
        obtain ⟨old, hold, e⟩ := kind_of_mem_remove hrest hmem
        exact e ▸ hhead old hold

/-- Every rule of the chain gathers something. -/
def Filled (chain : RuleChain) : Prop := ∀ rule ∈ chain, 0 < rule.size

theorem Filled.add {chain : RuleChain} (h : chain.Filled) (c : Contribution) : Filled (chain.add c) := by
  unfold Filled at h ⊢
  induction chain with
  | nil => simp [RuleChain.add]
  | cons rule rules ih =>
    obtain ⟨hrule, hrules⟩ := List.forall_mem_cons.1 h
    unfold RuleChain.add
    split
    · rename_i hkind
      refine List.forall_mem_cons.2 ⟨?_, hrules⟩
      rw [Rule.size_push hkind]
      exact Nat.succ_pos _
    · exact List.forall_mem_cons.2 ⟨hrule, ih hrules⟩

theorem Filled.remove {chain : RuleChain} (h : chain.Filled) (c : Contribution) : Filled ((chain.remove? c).getD chain) := by
  cases hremove : chain.remove? c with
  | none => exact h
  | some chain' =>
    unfold Filled at h ⊢
    rw [Option.getD_some]
    induction chain generalizing chain' with
    | nil => cases hremove
    | cons head rules ih =>
      obtain ⟨hhead, hrules⟩ := List.forall_mem_cons.1 h
      unfold remove? at hremove
      split at hremove
      · split at hremove
        · obtain rfl := Option.some.inj hremove
          split
          · exact hrules
          · rename_i hsize
            exact List.forall_mem_cons.2 ⟨Nat.pos_of_ne_zero hsize, hrules⟩
        · cases hremove
      · obtain ⟨rest, hrest, rfl⟩ := Option.map_eq_some_iff.1 hremove
        exact List.forall_mem_cons.2 ⟨hhead, ih hrules rest hrest⟩

end RuleChain

end ELOntology
