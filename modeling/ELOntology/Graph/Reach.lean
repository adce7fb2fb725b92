/-!
# Breadth-first search

`reach next fuel start` lists what can be reached from `start` by following `next`, `start` first and then in the order
of breadth-first search, each element once.  The fuel is the number of elements whose successors are looked at; as many
as there are elements to find is enough.
-/

namespace ELOntology

/-- The elements of the second list that are not in the first, each once. -/
def fresh {α : Type} [DecidableEq α] (seen : List α) : List α → List α
  | [] => []
  | x :: xs => if x ∈ seen then fresh seen xs else x :: fresh (x :: seen) xs

/-- `done` has been looked at, `queue` has been found. -/
def reachFrom {α : Type} [DecidableEq α] (next : α → List α) : Nat → (done queue : List α) → List α
  | 0, done, queue => done ++ queue
  | _ + 1, done, [] => done
  | fuel + 1, done, x :: queue =>
    reachFrom next fuel (done ++ [x]) (queue ++ fresh (done ++ x :: queue) (next x))

def reach {α : Type} [DecidableEq α] (next : α → List α) (fuel : Nat) (start : α) : List α :=
  reachFrom next fuel [] [start]

theorem mem_fresh {α : Type} [DecidableEq α] {seen xs : List α} {x : α} :
    x ∈ fresh seen xs ↔ x ∈ xs ∧ x ∉ seen := by
  induction xs generalizing seen with
  | nil => simp [fresh]
  | cons y ys ih =>
    unfold fresh
    split <;> rename_i h
    · rw [ih]
      by_cases e : x = y <;> simp [e, h]
    · rw [List.mem_cons, ih]
      by_cases e : x = y <;> simp [e, h]

theorem nodup_fresh {α : Type} [DecidableEq α] (seen xs : List α) : (fresh seen xs).Nodup := by
  induction xs generalizing seen with
  | nil => simp [fresh]
  | cons y ys ih =>
    unfold fresh
    split
    · exact ih seen
    · exact List.nodup_cons.2 ⟨by simp [mem_fresh], ih _⟩

end ELOntology
