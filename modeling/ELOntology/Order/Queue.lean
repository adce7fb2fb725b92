/-!
# Queues

A queue gives its elements back in the order in which they were put in.  `Queue.toList` lists the elements, the oldest
first; the elements put in last are kept in reverse, so that putting one in takes no longer when there are many.
-/

namespace ELOntology

structure Queue (α : Type) where
  front : List α
  /-- What follows the front, the youngest element first. -/
  back : List α
deriving DecidableEq, Inhabited

namespace Queue

variable {α : Type}

def empty : Queue α := ⟨[], []⟩

/-- The elements, the oldest first. -/
def toList (q : Queue α) : List α := q.front ++ q.back.reverse

def isEmpty (q : Queue α) : Bool := q.front.isEmpty && q.back.isEmpty

def push (x : α) (q : Queue α) : Queue α := { q with back := x :: q.back }

/-- The oldest element, and the queue without it. -/
def pop? (q : Queue α) : Option (α × Queue α) :=
  match q.front with
  | x :: front => some (x, { q with front })
  | [] =>
    match q.back.reverse with
    | x :: front => some (x, ⟨front, []⟩)
    | [] => none

@[simp] theorem toList_empty : (empty : Queue α).toList = [] := rfl

@[simp] theorem toList_push (x : α) (q : Queue α) : (q.push x).toList = q.toList ++ [x] := by
  simp [push, toList]

theorem isEmpty_iff {q : Queue α} : q.isEmpty = true ↔ q.toList = [] := by
  simp [isEmpty, toList]

theorem pop?_eq_none_iff {q : Queue α} : q.pop? = none ↔ q.toList = [] := by
  unfold pop?
  split <;> rename_i h
  · simp [toList, h]
  · split <;> rename_i h' <;> simp_all [toList]

theorem toList_of_pop? {q q' : Queue α} {x : α} (h : q.pop? = some (x, q')) : q.toList = x :: q'.toList := by
  unfold pop? at h
  split at h <;> rename_i hf
  · cases h
    simp [toList, hf]
  · split at h <;> rename_i hb
    · cases h
      simp [toList, hf, hb]
    · cases h

end Queue

end ELOntology
