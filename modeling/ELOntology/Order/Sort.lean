/-!
# Insertion sort

`sortBy le` is stable and keeps every element.  `sortTexts` orders strings by their code points, which is also the order
of their UTF-8 bytes.
-/

namespace ELOntology

def insertBy {α : Type} (le : α → α → Bool) (x : α) : List α → List α
  | [] => [x]
  | y :: ys => if le x y then x :: y :: ys else y :: insertBy le x ys

def sortBy {α : Type} (le : α → α → Bool) : List α → List α
  | [] => []
  | x :: xs => insertBy le x (sortBy le xs)

def sortTexts (texts : List String) : List String := sortBy (fun s t => decide (s ≤ t)) texts

/-- Each element once, the first of several equal ones. -/
def distinct {α : Type} [DecidableEq α] : List α → List α
  | [] => []
  | x :: xs => x :: (distinct xs).filter (· ≠ x)

/-- The strings as a set: sorted, each once. -/
def textSet (texts : List String) : List String := sortTexts (distinct texts)

theorem insertBy_perm {α : Type} (le : α → α → Bool) (x : α) (xs : List α) : (insertBy le x xs).Perm (x :: xs) := by
  induction xs with
  | nil => exact .refl _
  | cons y ys ih =>
    unfold insertBy
    split
    · exact .refl _
    · exact (List.Perm.cons y ih).trans (.swap x y ys)

theorem sortBy_perm {α : Type} (le : α → α → Bool) (xs : List α) : (sortBy le xs).Perm xs := by
  induction xs with
  | nil => exact .refl _
  | cons x xs ih => exact (insertBy_perm le x _).trans (ih.cons x)

theorem mem_sortBy {α : Type} {le : α → α → Bool} {x : α} {xs : List α} : x ∈ sortBy le xs ↔ x ∈ xs :=
  (sortBy_perm le xs).mem_iff

theorem mem_distinct {α : Type} [DecidableEq α] {x : α} {xs : List α} : x ∈ distinct xs ↔ x ∈ xs := by
  induction xs with
  | nil => simp [distinct]
  | cons y ys ih => by_cases h : x = y <;> simp [distinct, ih, h]

theorem nodup_distinct {α : Type} [DecidableEq α] (xs : List α) : (distinct xs).Nodup := by
  induction xs with
  | nil => simp [distinct]
  | cons y ys ih => exact List.nodup_cons.2 ⟨by simp, ih.filter _⟩

end ELOntology
