import ELOntology.Json.Value

/-!
# Nesting

How many arrays and objects of a value are inside each other.  The numbers and texts of a value do not count, so an object
nests one deeper than the deepest of its members.
-/

namespace ELOntology

namespace Json

mutual

/-- How many arrays and objects of a value are inside each other. -/
def nesting : Json → Nat
  | array items => itemsNesting items + 1
  | object members => membersNesting members + 1
  | null | bool _ | number _ | string _ => 0

def itemsNesting : List Json → Nat
  | [] => 0
  | item :: items => max item.nesting (itemsNesting items)

def membersNesting : List (Option String × Json) → Nat
  | [] => 0
  | (_, value) :: members => max value.nesting (membersNesting members)

end

@[simp] theorem nesting_text (s : String) : (text s).nesting = 0 := rfl

theorem itemsNesting_le {items : List Json} {d : Nat} : itemsNesting items ≤ d ↔ ∀ item ∈ items, item.nesting ≤ d := by
  induction items with
  | nil => simp [itemsNesting]
  | cons item items ih => rw [itemsNesting, Nat.max_le, ih, List.forall_mem_cons]

@[simp] theorem nesting_array_le {items : List Json} {d : Nat} :
    (array items).nesting ≤ d ↔ 0 < d ∧ ∀ item ∈ items, item.nesting ≤ d - 1 := by
  rw [nesting, ← itemsNesting_le]
  omega

@[simp] theorem nesting_record_le {members : List (String × Json)} {d : Nat} :
    (record members).nesting ≤ d ↔ 0 < d ∧ ∀ m ∈ members, m.2.nesting ≤ d - 1 := by
  have hrecord : (record members).nesting = membersNesting (members.map fun m => (some m.1, m.2)) + 1 := rfl
  have hmembers : membersNesting (members.map fun m => (some m.1, m.2)) ≤ d - 1 ↔ ∀ m ∈ members, m.2.nesting ≤ d - 1 := by
    induction members with
    | nil => simp [membersNesting]
    | cons m members ih => rw [List.map_cons, membersNesting, Nat.max_le, ih rfl, List.forall_mem_cons]
  rw [hrecord, ← hmembers]
  omega

theorem exists_of_array_le {items : List Json} {d : Nat} (h : (array items).nesting ≤ d) :
    ∃ k, d = k + 1 ∧ ∀ item ∈ items, item.nesting ≤ k := by
  obtain ⟨hd, hitems⟩ := nesting_array_le.1 h
  exact ⟨d - 1, by omega, hitems⟩

/-- An object with one member leaves room for its content. -/
theorem exists_of_variant_le {name : String} {content : Json} {d : Nat} (h : (record [(name, content)]).nesting ≤ d) :
    ∃ k, d = k + 1 ∧ content.nesting ≤ k := by
  obtain ⟨hd, hcontent⟩ := nesting_record_le.1 h
  exact ⟨d - 1, by omega, hcontent (name, content) (List.mem_singleton_self _)⟩

/-- An object with one member that has fields leaves room for each of them. -/
theorem exists_of_fields_le {name : String} {fields : List (String × Json)} {d : Nat}
    (h : (record [(name, record fields)]).nesting ≤ d) : ∃ k, d = k + 2 ∧ ∀ m ∈ fields, m.2.nesting ≤ k := by
  obtain ⟨k, rfl, hcontent⟩ := exists_of_variant_le h
  obtain ⟨hk, hfields⟩ := nesting_record_le.1 hcontent
  exact ⟨k - 1, by omega, hfields⟩

end Json

end ELOntology
