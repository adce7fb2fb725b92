import ELOntology.Finite.NatSet

/-!
# Finite relations between natural numbers

A relation keeps a row for each number that it relates to anything: the set of what it relates it to.  The rows ascend,
and none is empty, so relations that hold between the same numbers are equal (`NatRelation.ext`).
-/

namespace ELOntology

/-- What a list of rows has for a number. -/
def rowOf : List (Nat × NatSet) → Nat → NatSet
  | [], _ => .empty
  | (k, s) :: rows, i => if k = i then s else rowOf rows i

/-- Put a number into a row, which is made in its place if it is missing. -/
def insertIntoRow (i x : Nat) : List (Nat × NatSet) → List (Nat × NatSet)
  | [] => [(i, NatSet.empty.insert x)]
  | (k, s) :: rows =>
    if i < k then (i, NatSet.empty.insert x) :: (k, s) :: rows
    else if i = k then (k, s.insert x) :: rows
    else (k, s) :: insertIntoRow i x rows

/-- Take a number from a row, and the row away with its last number. -/
def eraseFromRow (i x : Nat) : List (Nat × NatSet) → List (Nat × NatSet)
  | [] => []
  | (k, s) :: rows =>
    if i = k then if (s.erase x).isEmpty then rows else (k, s.erase x) :: rows
    else (k, s) :: eraseFromRow i x rows

theorem rowOf_cons_self (row : Nat × NatSet) (rows : List (Nat × NatSet)) : rowOf (row :: rows) row.1 = row.2 :=
  if_pos rfl

theorem rowOf_eq_empty {rows : List (Nat × NatSet)} {i : Nat} (h : ∀ row ∈ rows, row.1 ≠ i) :
    rowOf rows i = .empty := by
  induction rows with
  | nil => rfl
  | cons row rows ih =>
    obtain ⟨hrow, hrows⟩ := List.forall_mem_cons.1 h
    simp [rowOf, hrow, ih hrows]

/-- In ascending rows, every row is what its number has. -/
theorem rowOf_of_mem {rows : List (Nat × NatSet)} (h : rows.Pairwise (·.1 < ·.1)) {i : Nat} {s : NatSet}
    (hmem : (i, s) ∈ rows) : rowOf rows i = s := by
  induction rows with
  | nil => simp at hmem
  | cons row rows ih =>
    obtain ⟨hrow, hrows⟩ := List.pairwise_cons.1 h
    rcases List.mem_cons.1 hmem with rfl | hmem
    · simp [rowOf]
    · have hne : row.1 ≠ i := Nat.ne_of_lt (hrow _ hmem)
      simp [rowOf, hne, ih hrows hmem]

theorem mem_of_rowOf {rows : List (Nat × NatSet)} {i : Nat} (h : rowOf rows i ≠ .empty) :
    (i, rowOf rows i) ∈ rows := by
  induction rows with
  | nil => exact absurd rfl h
  | cons row rows ih =>
    obtain ⟨k, s⟩ := row
    by_cases hk : k = i
    · simp [rowOf, hk]
    · simp only [rowOf, if_neg hk] at h ⊢
      exact .tail _ (ih h)

theorem key_of_mem_insertIntoRow {i x : Nat} {rows : List (Nat × NatSet)} {row : Nat × NatSet}
    (h : row ∈ insertIntoRow i x rows) : row.1 = i ∨ ∃ old ∈ rows, old.1 = row.1 := by
  induction rows with
  | nil => simp_all [insertIntoRow]
  | cons r rows ih =>
    obtain ⟨k, s⟩ := r
    unfold insertIntoRow at h
    split at h
    · rcases List.mem_cons.1 h with rfl | h
      · exact .inl rfl
      · exact .inr ⟨row, h, rfl⟩
    · split at h
      · rcases List.mem_cons.1 h with rfl | h
        · exact .inr ⟨(k, s), by simp, rfl⟩
        · exact .inr ⟨row, .tail _ h, rfl⟩
      · rcases List.mem_cons.1 h with rfl | h
        · exact .inr ⟨(k, s), by simp, rfl⟩
        · rcases ih h with h | ⟨old, hold, h⟩
          · exact .inl h
          · exact .inr ⟨old, .tail _ hold, h⟩

theorem pairwise_insertIntoRow {i x : Nat} {rows : List (Nat × NatSet)} (h : rows.Pairwise (·.1 < ·.1)) :
    (insertIntoRow i x rows).Pairwise (·.1 < ·.1) := by
  induction rows with
  | nil => simp [insertIntoRow]
  | cons row rows ih =>
    obtain ⟨k, s⟩ := row
    obtain ⟨hk, hrows⟩ := List.pairwise_cons.1 h
    unfold insertIntoRow
    split
    · rename_i hi
      exact List.pairwise_cons.2 ⟨List.forall_mem_cons.2 ⟨hi, fun row hrow => Nat.lt_trans hi (hk row hrow)⟩, h⟩
    · split
      · exact List.pairwise_cons.2 ⟨hk, hrows⟩
      · refine List.pairwise_cons.2 ⟨fun row hrow => ?_, ih hrows⟩
        rcases key_of_mem_insertIntoRow hrow with e | ⟨old, hold, e⟩
        · simp only [e]
          omega
        · exact e ▸ hk old hold

theorem ne_empty_of_mem_insertIntoRow {i x : Nat} {rows : List (Nat × NatSet)} (h : ∀ row ∈ rows, row.2 ≠ .empty) :
    ∀ row ∈ insertIntoRow i x rows, row.2 ≠ .empty := by
  have hne (s : NatSet) : s.insert x ≠ .empty := fun e => by
    have hx := NatSet.contains_insert x x s
    simp [e] at hx
  induction rows with
  | nil => simp [insertIntoRow, hne]
  | cons row rows ih =>
    obtain ⟨k, s⟩ := row
    obtain ⟨hs, hrows⟩ := List.forall_mem_cons.1 h
    unfold insertIntoRow
    split
    · exact List.forall_mem_cons.2 ⟨hne _, h⟩
    · split
      · exact List.forall_mem_cons.2 ⟨hne _, hrows⟩
      · exact List.forall_mem_cons.2 ⟨hs, ih hrows⟩

theorem rowOf_insertIntoRow {i x : Nat} {rows : List (Nat × NatSet)} (h : rows.Pairwise (·.1 < ·.1)) (j : Nat) :
    rowOf (insertIntoRow i x rows) j = if i = j then (rowOf rows i).insert x else rowOf rows j := by
  induction rows with
  | nil => rfl
  | cons row rows ih =>
    obtain ⟨k, s⟩ := row
    obtain ⟨hk, hrows⟩ := List.pairwise_cons.1 h
    unfold insertIntoRow
    split
    · rename_i hi
      have hempty : rowOf ((k, s) :: rows) i = .empty := rowOf_eq_empty <| List.forall_mem_cons.2
        ⟨Nat.ne_of_gt hi, fun row hrow => Nat.ne_of_gt (Nat.lt_trans hi (hk row hrow))⟩
      rw [hempty]
      rfl
    · split
      · rename_i hi
        subst hi
        by_cases hj : i = j <;> simp [rowOf, hj]
      · rename_i hi
        have hki : ¬ k = i := fun e => hi e.symm
        by_cases hj : i = j
        · subst hj
          simp [rowOf, hki, ih hrows]
        · simp [rowOf, ih hrows, hj]

theorem key_of_mem_eraseFromRow {i x : Nat} {rows : List (Nat × NatSet)} {row : Nat × NatSet}
    (h : row ∈ eraseFromRow i x rows) : ∃ old ∈ rows, old.1 = row.1 := by
  induction rows with
  | nil => simp [eraseFromRow] at h
  | cons r rows ih =>
    obtain ⟨k, s⟩ := r
    unfold eraseFromRow at h
    split at h
    · split at h
      · exact ⟨row, .tail _ h, rfl⟩
      · rcases List.mem_cons.1 h with rfl | h
        · exact ⟨(k, s), by simp, rfl⟩
        · exact ⟨row, .tail _ h, rfl⟩
    · rcases List.mem_cons.1 h with rfl | h
      · exact ⟨(k, s), by simp, rfl⟩
      · obtain ⟨old, hold, e⟩ := ih h
        exact ⟨old, .tail _ hold, e⟩

theorem pairwise_eraseFromRow {i x : Nat} {rows : List (Nat × NatSet)} (h : rows.Pairwise (·.1 < ·.1)) :
    (eraseFromRow i x rows).Pairwise (·.1 < ·.1) := by
  induction rows with
  | nil => exact .nil
  | cons row rows ih =>
    obtain ⟨k, s⟩ := row
    obtain ⟨hk, hrows⟩ := List.pairwise_cons.1 h
    unfold eraseFromRow
    split
    · split
      · exact hrows
      · exact List.pairwise_cons.2 ⟨hk, hrows⟩
    · refine List.pairwise_cons.2 ⟨fun row hrow => ?_, ih hrows⟩
      obtain ⟨old, hold, e⟩ := key_of_mem_eraseFromRow hrow
      exact e ▸ hk old hold

theorem ne_empty_of_mem_eraseFromRow {i x : Nat} {rows : List (Nat × NatSet)} (h : ∀ row ∈ rows, row.2 ≠ .empty) :
    ∀ row ∈ eraseFromRow i x rows, row.2 ≠ .empty := by
  induction rows with
  | nil => simp [eraseFromRow]
  | cons row rows ih =>
    obtain ⟨k, s⟩ := row
    obtain ⟨hs, hrows⟩ := List.forall_mem_cons.1 h
    unfold eraseFromRow
    split
    · split
      · exact hrows
      · rename_i hne
        exact List.forall_mem_cons.2 ⟨fun e => hne (NatSet.isEmpty_iff.2 e), hrows⟩
    · exact List.forall_mem_cons.2 ⟨hs, ih hrows⟩

theorem rowOf_eraseFromRow {i x : Nat} {rows : List (Nat × NatSet)} (h : rows.Pairwise (·.1 < ·.1)) (j : Nat) :
    rowOf (eraseFromRow i x rows) j = if i = j then (rowOf rows i).erase x else rowOf rows j := by
  induction rows with
  | nil =>
    have hempty : NatSet.empty.erase x = .empty := NatSet.ext fun y => by simp
    simp [eraseFromRow, rowOf, hempty]
  | cons row rows ih =>
    obtain ⟨k, s⟩ := row
    obtain ⟨hk, hrows⟩ := List.pairwise_cons.1 h
    unfold eraseFromRow
    split
    · rename_i hi
      subst hi
      split
      · rename_i hempty
        by_cases hj : i = j
        · subst hj
          rw [rowOf_eq_empty fun row hrow => Nat.ne_of_gt (hk row hrow)]
          simp [rowOf, NatSet.isEmpty_iff.1 hempty]
        · simp [rowOf, hj]
      · by_cases hj : i = j <;> simp [rowOf, hj]
    · rename_i hi
      have hki : ¬ k = i := fun e => hi e.symm
      by_cases hj : i = j
      · subst hj
        simp [rowOf, hki, ih hrows]
      · simp [rowOf, ih hrows, hj]

/-- Lists of rows that have the same for every number are equal. -/
theorem eq_of_rowOf {rows rows' : List (Nat × NatSet)}
    (h : rows.Pairwise (·.1 < ·.1)) (h' : rows'.Pairwise (·.1 < ·.1))
    (hne : ∀ row ∈ rows, row.2 ≠ .empty) (hne' : ∀ row ∈ rows', row.2 ≠ .empty)
    (heq : ∀ i, rowOf rows i = rowOf rows' i) : rows = rows' := by
  have hgt {row : Nat × NatSet} {l : List (Nat × NatSet)} {i : Nat} (hi : i < row.1) (hl : ∀ r ∈ l, row.1 < r.1) :
      rowOf (row :: l) i = .empty :=
    rowOf_eq_empty <| List.forall_mem_cons.2
      ⟨Nat.ne_of_gt hi, fun r hr => Nat.ne_of_gt (Nat.lt_trans hi (hl r hr))⟩
  induction rows generalizing rows' with
  | nil =>
    cases rows' with
    | nil => rfl
    | cons row' rows' =>
      exact absurd ((rowOf_cons_self row' rows').symm.trans (heq row'.1).symm) (hne' row' (by simp))
  | cons row rows ih =>
    cases rows' with
    | nil =>
      exact absurd ((rowOf_cons_self row rows).symm.trans (heq row.1)) (hne row (by simp))
    | cons row' rows' =>
      obtain ⟨hk, hrows⟩ := List.pairwise_cons.1 h
      obtain ⟨hk', hrows'⟩ := List.pairwise_cons.1 h'
      obtain ⟨hs, hne⟩ := List.forall_mem_cons.1 hne
      have hs' := hne' row' (by simp)
      have hrest : ∀ r ∈ rows', r.2 ≠ .empty := fun r hr => hne' r (by simp [hr])
      have hkey : row.1 = row'.1 := by
        rcases Nat.lt_trichotomy row.1 row'.1 with hlt | e | hlt
        · exact absurd ((rowOf_cons_self row rows).symm.trans ((heq _).trans (hgt hlt hk'))) hs
        · exact e
        · exact absurd ((rowOf_cons_self row' rows').symm.trans ((heq _).symm.trans (hgt hlt hk))) hs'
      have hrow : row = row' := Prod.ext hkey (by simpa [rowOf, hkey] using heq row.1)
      subst hrow
      refine congrArg _ (ih hrows hrows' hne hrest fun i => ?_)
      by_cases hi : row.1 = i
      · subst hi
        rw [rowOf_eq_empty fun r hr => Nat.ne_of_gt (hk r hr), rowOf_eq_empty fun r hr => Nat.ne_of_gt (hk' r hr)]
      · simpa [rowOf, hi] using heq i

structure NatRelation where
  rows : List (Nat × NatSet)
  ascending : rows.Pairwise (·.1 < ·.1)
  ne_empty : ∀ row ∈ rows, row.2 ≠ .empty
deriving DecidableEq

namespace NatRelation

def empty : NatRelation := ⟨[], .nil, by simp⟩

instance : Inhabited NatRelation := ⟨empty⟩

/-- What the relation relates a number to. -/
def row (r : NatRelation) (i : Nat) : NatSet := rowOf r.rows i

def holds (r : NatRelation) (i x : Nat) : Bool := (r.row i).contains x

def insert (i x : Nat) (r : NatRelation) : NatRelation where
  rows := insertIntoRow i x r.rows
  ascending := pairwise_insertIntoRow r.ascending
  ne_empty := ne_empty_of_mem_insertIntoRow r.ne_empty

def erase (i x : Nat) (r : NatRelation) : NatRelation where
  rows := eraseFromRow i x r.rows
  ascending := pairwise_eraseFromRow r.ascending
  ne_empty := ne_empty_of_mem_eraseFromRow r.ne_empty

theorem holds_iff {r : NatRelation} {i x : Nat} :
    r.holds i x = true ↔ ∃ s, (i, s) ∈ r.rows ∧ s.contains x = true := by
  constructor
  · intro h
    refine ⟨r.row i, mem_of_rowOf fun e => ?_, h⟩
    simp [holds, row, e] at h
  · rintro ⟨s, hmem, hx⟩
    rwa [holds, row, rowOf_of_mem r.ascending hmem]

@[simp] theorem holds_empty (i x : Nat) : empty.holds i x = false := NatSet.contains_empty x

@[simp] theorem holds_insert (i x j y : Nat) (r : NatRelation) :
    (r.insert i x).holds j y = (decide (j = i ∧ y = x) || r.holds j y) := by
  simp only [holds, row, insert, rowOf_insertIntoRow r.ascending]
  by_cases h : i = j
  · subst h
    simp
  · have h' : ¬ j = i := fun e => h e.symm
    simp [h, h']

@[simp] theorem holds_erase (i x j y : Nat) (r : NatRelation) :
    (r.erase i x).holds j y = (decide (¬ (j = i ∧ y = x)) && r.holds j y) := by
  simp only [holds, row, erase, rowOf_eraseFromRow r.ascending]
  by_cases h : i = j
  · subst h
    simp
  · have h' : ¬ j = i := fun e => h e.symm
    simp [h, h']

/-- Relations that hold between the same numbers are equal. -/
theorem ext {r s : NatRelation} (h : ∀ i x, r.holds i x = s.holds i x) : r = s := by
  have hrows : r.rows = s.rows :=
    eq_of_rowOf r.ascending s.ascending r.ne_empty s.ne_empty fun i => NatSet.ext (h i)
  cases r
  cases s
  simp_all

end NatRelation

end ELOntology
