import Mathlib.Data.Finset.Basic
import Mathlib.Data.List.Induction
import ELOntology.Proofs.Saturation.Stored
import ELOntology.Proofs.Saturation.Workspace

/-!
# Facts as a finite set

The facts of a context are kept by kind, in a set, four relations and a flag.  To whoever takes conclusions in and gives
them up they are one finite set of conclusions, in which subsumers have no polarity and the two commands never are.

Key facts: `Facts.Stands.call` (a call keeps the agreement with the set), `Facts.Stands.answer_eq` and
`Facts.erase_all_eq_empty` (nothing is left once all that is stored was given up, in whatever order).
-/

namespace ELOntology

namespace Facts

/-! ### Calls and their answers -/

/-- Take a conclusion in, or give it up. -/
def call (facts : Facts) : Mode × Conclusion → Facts
  | (.derive, c) => facts.insert c
  | (.retract, c) => facts.erase c

/-- What taking a conclusion in answers: whether it was missing where conclusions of its kind are kept.  A command is kept
nowhere and counts as new each time. -/
def isNew (facts : Facts) : Conclusion → Bool
  | .subsumer expr _ => !facts.subsumerSet.contains expr.val
  | .backwardLink source role => !(facts.backwardLinks.row role.val).contains source.val
  | .forwardLink role target => !(facts.forwardLinks.row role.val).contains target.val
  | .propagation role carry => !(facts.propagations.row role.val).contains carry.val
  | .disjointMember d member => !(facts.memberships.row d.val).contains member.val
  | .contradiction => !facts.contradictory
  | .init | .rulesChanged _ => true

/-- What giving a conclusion up answers: whether it was found in a row of its kind. -/
def isFound (facts : Facts) : Conclusion → Bool
  | .subsumer expr _ => facts.subsumerSet.contains expr.val
  | .backwardLink source role => found facts.backwardLinks role.val source.val
  | .forwardLink role target => found facts.forwardLinks role.val target.val
  | .propagation role carry => found facts.propagations role.val carry.val
  | .disjointMember d member => found facts.memberships d.val member.val
  | .contradiction => facts.contradictory
  | .init | .rulesChanged _ => false
where
  /-- A row that is missing has nothing to give up. -/
  found (r : NatRelation) (i x : Nat) : Bool := r.rows.any fun row => row.1 = i && row.2.contains x

def answer (facts : Facts) : Mode × Conclusion → Bool
  | (.derive, c) => facts.isNew c
  | (.retract, c) => facts.isFound c

/-- The facts after calls, beginning with none. -/
def after (calls : List (Mode × Conclusion)) : Facts := calls.foldl call empty

theorem isNew_eq (facts : Facts) (c : Conclusion) : facts.isNew c = !facts.contains c := by
  cases c <;> rfl

private theorem found_eq (r : NatRelation) (i x : Nat) : isFound.found r i x = r.holds i x := by
  rw [Bool.eq_iff_iff, NatRelation.holds_iff, isFound.found, List.any_eq_true]
  simp

theorem isFound_eq (facts : Facts) (c : Conclusion) : facts.isFound c = facts.contains c := by
  cases c <;> first | rfl | exact found_eq ..

/-! ### The set -/

/-- The set after one more call.  It has storable conclusions only. -/
def keep (held : Finset Conclusion) : Mode × Conclusion → Finset Conclusion
  | (.derive, c) => if c.isStorable then Insert.insert c.unsigned held else held
  | (.retract, c) => held.erase c.unsigned

/-- What the set answers to a call. -/
def setAnswer (held : Finset Conclusion) : Mode × Conclusion → Bool
  | (.derive, c) => c.unsigned ∉ held
  | (.retract, c) => c.unsigned ∈ held

/-- The set after calls, beginning with the empty one. -/
def held (calls : List (Mode × Conclusion)) : Finset Conclusion := calls.foldl keep ∅

/-- The facts stand for the set. -/
def Stands (facts : Facts) (held : Finset Conclusion) : Prop := ∀ c, facts.contains c = true ↔ c.unsigned ∈ held

variable {facts : Facts} {set : Finset Conclusion}

theorem stands_empty : empty.Stands ∅ := fun c => by simp

theorem Stands.call (h : facts.Stands set) (call : Mode × Conclusion) : (facts.call call).Stands (keep set call) := by
  obtain ⟨_ | _, c⟩ := call <;> intro d
  · rw [Facts.call, contains_insert, keep, Bool.or_eq_true, decide_eq_true_eq, h d]
    split <;> simp_all
  · rw [Facts.call, contains_erase, keep, Finset.mem_erase, Bool.and_eq_true, decide_eq_true_eq, h d]

theorem stands_after (calls : List (Mode × Conclusion)) : (after calls).Stands (held calls) := by
  induction calls using List.reverseRecOn with
  | nil => exact stands_empty
  | append_singleton calls call ih =>
    rw [after, List.foldl_append, held, List.foldl_append]
    exact ih.call call

theorem Stands.answer_eq (h : facts.Stands set) (call : Mode × Conclusion) : facts.answer call = setAnswer set call := by
  obtain ⟨_ | _, c⟩ := call
  · rw [answer, isNew_eq, setAnswer, Bool.eq_iff_iff, Bool.not_eq_true', Bool.eq_false_iff, decide_eq_true_eq, Ne, h c]
  · rw [answer, isFound_eq, setAnswer, Bool.eq_iff_iff, decide_eq_true_eq, h c]

/-- What is stored lists the set. -/
theorem Stands.toFinset_stored (h : facts.Stands set) (hset : ∀ c ∈ set, c.unsigned = c) : facts.stored.toFinset = set := by
  ext c
  rw [List.mem_toFinset, mem_stored, h c]
  exact ⟨fun ⟨hc, hmem⟩ => hc ▸ hmem, fun hmem => ⟨hset c hmem, (hset c hmem).symm ▸ hmem⟩⟩

theorem unsigned_of_mem_held {calls : List (Mode × Conclusion)} {c : Conclusion} (h : c ∈ held calls) :
    c.unsigned = c ∧ c.isStorable = true := by
  induction calls using List.reverseRecOn with
  | nil => cases h
  | append_singleton calls call ih =>
    rw [held, List.foldl_append] at h
    obtain ⟨_ | _, d⟩ := call
    · rw [List.foldl_cons, List.foldl_nil, keep] at h
      split at h
      · rename_i hstorable
        rcases Finset.mem_insert.1 h with rfl | h
        · exact ⟨d.unsigned_unsigned, d.isStorable_unsigned.trans hstorable⟩
        · exact ih h
      · exact ih h
    · exact ih (Finset.mem_of_mem_erase h)

/-! ### Giving everything up -/

theorem contains_foldl_erase (cs : List Conclusion) (facts : Facts) (d : Conclusion) :
    (cs.foldl erase facts).contains d = true ↔ facts.contains d = true ∧ ∀ c ∈ cs, d.unsigned ≠ c.unsigned := by
  induction cs generalizing facts with
  | nil => simp
  | cons c cs ih =>
    rw [List.foldl_cons, ih, contains_erase, Bool.and_eq_true, decide_eq_true_eq, List.forall_mem_cons]
    tauto

/-- When all that is stored was given up, in whatever order, nothing is left. -/
theorem erase_all_eq_empty {cs : List Conclusion} (h : cs.Perm facts.stored) : cs.foldl erase facts = empty := by
  refine ext fun d => ?_
  rw [contains_empty, Bool.eq_false_iff, Ne, contains_foldl_erase]
  rintro ⟨hd, hne⟩
  have hstored : d.unsigned ∈ cs := h.mem_iff.2 (mem_stored.2 ⟨d.unsigned_unsigned, by rwa [contains_unsigned]⟩)
  exact hne _ hstored d.unsigned_unsigned.symm

theorem isEmpty_iff_stored : facts.isEmpty = true ↔ facts.stored = [] := by
  rw [isEmpty, decide_eq_true_eq]
  constructor
  · rintro rfl
    rfl
  · intro h
    have hnil : List.Perm [] facts.stored := by rw [h]
    exact erase_all_eq_empty hnil

/-- After whatever calls, the facts of a context are the finite set of the storable conclusions that were taken in and not
given up, subsumers without their polarity.  Lookups and calls answer as that set does, no relation keeps an empty row, and
what is stored lists the set without repetition.  Giving all of it up, in whatever order, leaves what there was at first,
which is told apart by storing nothing. -/
theorem facts_refine_set (calls : List (Mode × Conclusion)) :
    (∀ c, (after calls).contains c = true ↔ c.unsigned ∈ held calls) ∧
      (∀ call, (after calls).answer call = setAnswer (held calls) call) ∧
      (∀ r ∈ [(after calls).backwardLinks, (after calls).forwardLinks, (after calls).propagations,
        (after calls).memberships], ∀ row ∈ r.rows, row.2 ≠ .empty) ∧
      (after calls).stored.Nodup ∧ (after calls).stored.toFinset = held calls ∧
      (∀ cs : List Conclusion, cs.Perm (after calls).stored → cs.foldl erase (after calls) = empty) ∧
      ((after calls).isEmpty = true ↔ (after calls).stored = []) := by
  have h := stands_after calls
  have hunsigned : ∀ c ∈ held calls, c.unsigned = c := fun c hc => (unsigned_of_mem_held hc).1
  exact ⟨h, h.answer_eq, fun r _ => r.ne_empty, nodup_stored _, h.toFinset_stored hunsigned,
    fun _ hcs => erase_all_eq_empty hcs, isEmpty_iff_stored⟩

end Facts

/-- Whether a context changes when it processes a conclusion is what the call on its facts answers. -/
theorem RuleBase.process_fst {rb : RuleBase} {mode : Mode} {root : ExprId} {c : Conclusion} {w : Workspace}
    {ctx : Context} (hctx : w.context? root = some ctx) : (rb.process mode root c w).1 = ctx.facts.answer (mode, c) := by
  cases mode with
  | derive =>
    rw [process_derive hctx, Facts.answer, Facts.isNew_eq]
    cases ctx.facts.contains c <;> rfl
  | retract =>
    rw [process_retract hctx, Facts.answer, Facts.isFound_eq]
    cases ctx.facts.contains c <;> rfl

end ELOntology
