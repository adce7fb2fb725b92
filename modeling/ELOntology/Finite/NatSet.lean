/-!
# Finite sets of natural numbers

A set keeps its members in ascending order and, beside them, a number whose binary digits mark them, so that a look-up
takes no longer when there are many.  Sets that contain the same numbers are equal (`NatSet.ext`).
-/

namespace ELOntology

/-- Put a number into its place in an ascending list, unless it is there. -/
def insertAscending (x : Nat) : List Nat → List Nat
  | [] => [x]
  | y :: ys => if x < y then x :: y :: ys else if x = y then y :: ys else y :: insertAscending x ys

theorem mem_insertAscending {x y : Nat} {xs : List Nat} : y ∈ insertAscending x xs ↔ y = x ∨ y ∈ xs := by
  induction xs with
  | nil => simp [insertAscending]
  | cons z zs ih =>
    unfold insertAscending
    split
    · simp
    · split
      · rename_i h
        subst h
        simp
      · simp only [List.mem_cons, ih]
        grind

theorem pairwise_insertAscending {x : Nat} {xs : List Nat} (h : xs.Pairwise (· < ·)) :
    (insertAscending x xs).Pairwise (· < ·) := by
  induction xs with
  | nil => simp [insertAscending]
  | cons y ys ih =>
    obtain ⟨hy, hys⟩ := List.pairwise_cons.1 h
    unfold insertAscending
    split
    · rename_i hx
      exact List.pairwise_cons.2 ⟨List.forall_mem_cons.2 ⟨hx, fun z hz => Nat.lt_trans hx (hy z hz)⟩, h⟩
    · split
      · exact h
      · refine List.pairwise_cons.2 ⟨fun z hz => ?_, ih hys⟩
        rcases mem_insertAscending.1 hz with rfl | hz
        · omega
        · exact hy z hz

/-- Ascending lists with the same members are equal. -/
theorem eq_of_ascending {xs ys : List Nat} (hxs : xs.Pairwise (· < ·)) (hys : ys.Pairwise (· < ·))
    (h : ∀ x, x ∈ xs ↔ x ∈ ys) : xs = ys := by
  induction xs generalizing ys with
  | nil =>
    cases ys with
    | nil => rfl
    | cons y ys => exact absurd ((h y).2 (by simp)) (by simp)
  | cons x xs ih =>
    cases ys with
    | nil => exact absurd ((h x).1 (by simp)) (by simp)
    | cons y ys =>
      obtain ⟨hx, hxs'⟩ := List.pairwise_cons.1 hxs
      obtain ⟨hy, hys'⟩ := List.pairwise_cons.1 hys
      have hxy : x = y := by
        rcases List.mem_cons.1 ((h x).1 (by simp)) with e | hmem
        · exact e
        · rcases List.mem_cons.1 ((h y).2 (by simp)) with e | hmem'
          · exact e.symm
          · have := hy x hmem
            have := hx y hmem'
            omega
      subst hxy
      refine congrArg _ (ih hxs' hys' fun z => ⟨fun hz => ?_, fun hz => ?_⟩)
      · have := hx z hz
        exact (List.mem_cons.1 ((h z).1 (.tail _ hz))).resolve_left (by omega)
      · have := hy z hz
        exact (List.mem_cons.1 ((h z).2 (.tail _ hz))).resolve_left (by omega)

structure NatSet where
  members : List Nat
  /-- The number whose digit at a place is one when the place is a member. -/
  marks : Nat
  ascending : members.Pairwise (· < ·)
  testBit_marks : ∀ x, marks.testBit x = decide (x ∈ members)
deriving DecidableEq

namespace NatSet

def empty : NatSet := ⟨[], 0, .nil, by simp⟩

instance : Inhabited NatSet := ⟨empty⟩

def contains (s : NatSet) (x : Nat) : Bool := s.marks.testBit x

def isEmpty (s : NatSet) : Bool := s.members.isEmpty

def insert (x : Nat) (s : NatSet) : NatSet where
  members := insertAscending x s.members
  marks := s.marks ||| 1 <<< x
  ascending := pairwise_insertAscending s.ascending
  testBit_marks y := by
    have h : decide (x = y) = decide (y = x) := decide_eq_decide.2 eq_comm
    simp [s.testBit_marks, mem_insertAscending, Nat.one_shiftLeft, Nat.testBit_two_pow, Bool.or_comm, h]

def erase (x : Nat) (s : NatSet) : NatSet where
  members := s.members.erase x
  marks := if s.contains x then s.marks ^^^ 1 <<< x else s.marks
  ascending := s.ascending.sublist List.erase_sublist
  testBit_marks y := by
    have hnodup : s.members.Nodup := s.ascending.imp fun h => Nat.ne_of_lt h
    simp only [contains, s.testBit_marks, hnodup.mem_erase_iff, decide_eq_true_eq]
    split
    · by_cases h : y = x
      · subst h
        simp_all [s.testBit_marks, Nat.one_shiftLeft]
      · have h' : ¬ x = y := fun e => h e.symm
        simp [s.testBit_marks, h, h', Nat.one_shiftLeft]
    · by_cases h : y = x
      · subst h
        simp_all [s.testBit_marks]
      · simp [s.testBit_marks, h]

theorem contains_iff {s : NatSet} {x : Nat} : s.contains x = true ↔ x ∈ s.members := by
  simp [contains, s.testBit_marks]

@[simp] theorem contains_empty (x : Nat) : empty.contains x = false := by simp [contains, empty]

@[simp] theorem contains_insert (x y : Nat) (s : NatSet) :
    (s.insert x).contains y = (decide (y = x) || s.contains y) := by
  rw [Bool.eq_iff_iff, contains_iff]
  simp [insert, mem_insertAscending, contains_iff]

@[simp] theorem contains_erase (x y : Nat) (s : NatSet) :
    (s.erase x).contains y = (decide (y ≠ x) && s.contains y) := by
  have hnodup : s.members.Nodup := s.ascending.imp fun h => Nat.ne_of_lt h
  rw [Bool.eq_iff_iff, contains_iff]
  simp [erase, hnodup.mem_erase_iff, contains_iff]

/-- Sets that contain the same numbers are equal. -/
theorem ext {s t : NatSet} (h : ∀ x, s.contains x = t.contains x) : s = t := by
  have hmembers : s.members = t.members := eq_of_ascending s.ascending t.ascending fun x => by
    rw [← contains_iff, ← contains_iff, h]
  have hmarks : s.marks = t.marks := Nat.eq_of_testBit_eq h
  cases s
  cases t
  simp_all

theorem isEmpty_iff {s : NatSet} : s.isEmpty = true ↔ s = empty := by
  constructor
  · intro h
    refine ext fun x => ?_
    have hs : s.members = [] := List.isEmpty_iff.1 h
    rw [contains_empty, contains, s.testBit_marks, hs]
    rfl
  · rintro rfl
    rfl

end NatSet

end ELOntology
