/-!
# Erasing from an unordered list

`swapErase x l` removes the first `x` from `l` and moves the last element into its place.  Up to order it is
`List.erase`.
-/

namespace ELOntology

variable {α : Type} [DecidableEq α]

def swapErase (x : α) : List α → List α
  | [] => []
  | y :: ys =>
    if y = x then
      match ys.getLast? with
      | none => []
      | some z => z :: ys.dropLast
    else y :: swapErase x ys

theorem swapErase_perm (x : α) (l : List α) : (swapErase x l).Perm (l.erase x) := by
  induction l with
  | nil => exact .refl _
  | cons y ys ih =>
    by_cases h : y = x
    · subst h
      rw [swapErase, if_pos rfl, List.erase_cons_head]
      rcases List.eq_nil_or_concat ys with rfl | ⟨zs, z, rfl⟩
      · exact .refl _
      · simpa using (List.perm_append_singleton z zs).symm
    · rw [swapErase, if_neg h, List.erase_cons_tail (by simpa using h)]
      exact ih.cons y

theorem swapErase_of_not_mem {x : α} {l : List α} (h : x ∉ l) : swapErase x l = l := by
  induction l with
  | nil => rfl
  | cons y ys ih =>
    rw [List.mem_cons, not_or] at h
    rw [swapErase, if_neg (Ne.symm h.1), ih h.2]

end ELOntology
