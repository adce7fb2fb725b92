import ELOntology.Proofs.Index.Canonical
import ELOntology.Index.Assert

/-!
# How an axiom fails to be indexed

The error that indexing an axiom ends with does not depend on the index, unless structural hashes collide: an empty
composition of roles makes an axiom about roles fail, and an empty intersection any other one.
-/

namespace ELOntology

/-- The error reports that structural hashes collide. -/
def IndexError.IsCollision (e : IndexError) : Prop := ∃ first second hash, e = .hashCollision first second hash

/-- What is wrong with an axiom that cannot be indexed though no hashes collide. -/
def Axiom.fault : Axiom → IndexError
  | subRoleOf .. => .emptyChain
  | _ => .emptyIntersection

namespace Indexing

variable {α β : Type} {fault : IndexError}

/-- All that the computation can fail with is the given error, or a collision. -/
def FailsWith (fault : IndexError) (m : Indexing α) : Prop :=
  ∀ ix e ix', m ix = (.error e, ix') → e = fault ∨ e.IsCollision

namespace FailsWith

theorem throw {e : IndexError} (h : e = fault ∨ e.IsCollision) : FailsWith (α := α) fault (MonadExcept.throw e) := by
  intro ix e' ix' he
  cases he
  exact h

theorem bind {m : Indexing α} {f : α → Indexing β} (hm : m.FailsWith fault) (hf : ∀ a, (f a).FailsWith fault) :
    (m >>= f).FailsWith fault := by
  intro ix e ix' he
  rw [bind_apply] at he
  split at he
  · exact hf _ _ _ _ he
  · rename_i hfail
    cases he
    exact hm _ _ _ hfail

/-- A step that always succeeds cannot fail. -/
theorem of_ok {m : Indexing α} (h : ∀ ix, ∃ a ix', m ix = (.ok a, ix')) : m.FailsWith fault := by
  intro ix e ix' he
  obtain ⟨a, ix'', hok⟩ := h ix
  rw [hok] at he
  cases he

theorem pure (a : α) : FailsWith fault (Pure.pure a : Indexing α) := .of_ok fun ix => ⟨a, ix, rfl⟩

theorem change (f : Index → Index) : (Indexing.change f).FailsWith fault := .of_ok fun ix => ⟨(), f ix, rfl⟩

theorem intern (shape : Shape) : (Indexing.intern shape).FailsWith fault := .of_ok fun _ => ⟨_, _, rfl⟩

theorem internRole (name : String) : (Indexing.internRole name).FailsWith fault := .of_ok fun _ => ⟨_, _, rfl⟩

theorem internRoles (names : List String) : (Indexing.internRoles names).FailsWith fault := by
  induction names with
  | nil => exact .pure []
  | cons name names ih => exact (internRole name).bind fun _ => ih.bind fun _ => .pure _

end FailsWith

end Indexing

open Indexing

private theorem failsWith_internConjunction (conjuncts : List ExprId) :
    (internConjunction conjuncts).FailsWith .emptyIntersection := by
  have hfold (acc : ExprId) (rest : List ExprId) : (internFold acc rest).FailsWith .emptyIntersection := by
    induction rest generalizing acc with
    | nil => exact .pure acc
    | cons next rest ih => exact (FailsWith.intern _).bind ih
  refine FailsWith.bind (.of_ok fun ix => ⟨ix, ix, rfl⟩) fun ix => ?_
  unfold orderConjuncts
  dsimp only
  split
  · rename_i horder
    split at horder <;> cases horder
    exact .throw (.inr ⟨_, _, _, rfl⟩)
  · exact .throw (.inl rfl)
  · exact hfold _ _

namespace ClassExpression

mutual

theorem failsWith_intern : (e : ClassExpression) → e.intern.FailsWith .emptyIntersection
  | named _ => .intern _
  | thing => .pure _
  | nothing => .pure _
  | intersection operands => by
    rw [intern]
    exact (failsWith_internConjuncts operands).bind failsWith_internConjunction
  | someValues role filler => by
    rw [intern]
    exact (failsWith_intern filler).bind fun _ => (FailsWith.internRole role).bind fun _ => .intern _
  | hasValue role individual => by
    rw [intern]
    exact (FailsWith.intern _).bind fun _ => (FailsWith.internRole role).bind fun _ => .intern _
  | oneOf _ => .intern _
  | dataHasValue .. => .intern _
  | dataSomeValues .. => .intern _

theorem failsWith_internConjuncts : (es : List ClassExpression) → (internConjuncts es).FailsWith .emptyIntersection
  | [] => .pure []
  | e :: es => by
    cases e with
    | intersection operands =>
      rw [internConjuncts]
      exact (failsWith_internConjuncts operands).bind fun _ => (failsWith_internConjuncts es).bind fun _ => .pure _
    | _ =>
      rw [internConjuncts]
      · exact (failsWith_intern _).bind fun _ => (failsWith_internConjuncts es).bind fun _ => .pure _
      · simp

end

theorem failsWith_internAll (es : List ClassExpression) : (internAll es).FailsWith .emptyIntersection := by
  induction es with
  | nil => exact .pure []
  | cons e es ih => exact (failsWith_intern e).bind fun _ => ih.bind fun _ => .pure _

end ClassExpression

namespace Index

private theorem failsWith_chain (edit : Edit) (names : List String) (sup : RoleId) :
    (chain edit names sup).FailsWith .emptyChain := by
  have hsuffix (parts : List (String × RoleId)) : (internSuffix edit parts).FailsWith .emptyChain := by
    induction parts with
    | nil => exact .throw (.inl rfl)
    | cons part rest ih =>
      cases rest with
      | nil => exact .pure part
      | cons next rest => exact ih.bind fun _ => (FailsWith.internRole _).bind fun _ => (FailsWith.change _).bind fun _ => .pure _
  refine (FailsWith.internRoles names).bind fun ids => ?_
  split
  · exact .throw (.inl rfl)
  · exact .change _
  · exact (hsuffix _).bind fun _ => .change _

/-- Apart from collisions, entering an axiom fails in one way only. -/
theorem failsWith_enter (edit : Edit) (a : Axiom) : (enter edit a).FailsWith a.fault := by
  cases a with
  | declaration entity =>
    cases entity <;> exact (FailsWith.of_ok fun _ => ⟨_, _, rfl⟩).bind fun _ => .of_ok fun _ => ⟨_, _, rfl⟩
  | subClassOf sub sup =>
    exact sub.failsWith_intern.bind fun _ => sup.failsWith_intern.bind fun _ => .change _
  | equivalentClasses members =>
    refine (ClassExpression.failsWith_internAll members).bind fun ids => ?_
    cases ids with
    | nil => exact .pure ()
    | cons first rest => exact .change _
  | disjointClasses members => exact (ClassExpression.failsWith_internAll members).bind fun _ => .change _
  | classAssertion type individual =>
    exact type.failsWith_intern.bind fun _ => (FailsWith.intern _).bind fun _ => .change _
  | roleAssertion role subject object =>
    exact (FailsWith.intern _).bind fun _ => (FailsWith.intern _).bind fun _ => (FailsWith.internRole _).bind fun _ =>
      (FailsWith.intern _).bind fun _ => .change _
  | subRoleOf sub sup =>
    refine (FailsWith.internRole sup).bind fun sup => ?_
    cases sub with
    | role sub => exact (FailsWith.internRole sub).bind fun _ => (FailsWith.change _).bind fun _ => .change _
    | chain roles => exact (failsWith_chain edit roles sup).bind fun _ => .change _
  | equivalentRoles roles =>
    refine (FailsWith.internRoles roles).bind fun ids => ?_
    cases ids <;> exact .change _
  | transitiveRole role => exact (FailsWith.internRole role).bind fun _ => .change _

/-- Apart from collisions, asserting an axiom fails in one way only. -/
theorem error_assert {ix : Index} {a : Axiom} {e : IndexError} (h : (ix.assert a).1 = .error e) :
    e = a.fault ∨ e.IsCollision := by
  unfold assert at h
  split at h
  · cases h
  · split at h
    · cases h
    · rename_i hfail
      cases h
      exact failsWith_enter .assert a _ _ _ hfail

end Index

end ELOntology
