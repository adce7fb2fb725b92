import Mathlib.Data.Fintype.EquivFin
import Mathlib.Logic.Relation
import Mathlib.Order.WellFounded

/-!
# Covering pairs

In a preorder, one element covers another one if it is strictly above it with nothing strictly in between; up to
equivalence these are the edges of the Hasse diagram.  In a finite preorder every element below another one leads up to it
along such edges.

Key facts: `exists_covers_le`, `exists_le_covers` and `exists_path_of_le`.
-/

namespace ELOntology

variable {α : Type} {le : α → α → Prop}

/-- The first element is below the second, and not equivalent to it. -/
def Strict (le : α → α → Prop) (a b : α) : Prop := le a b ∧ ¬ le b a

/-- The second element is strictly above the first, and nothing is strictly in between. -/
def Covers (le : α → α → Prop) (a b : α) : Prop := Strict le a b ∧ ∀ c, Strict le a c → ¬ Strict le c b

namespace Strict

variable {a b c : α}

theorem irrefl (a : α) : ¬ Strict le a a := fun h => h.2 h.1

theorem trans_le (htrans : ∀ a b c, le a b → le b c → le a c) (h : Strict le a b) (h' : le b c) : Strict le a c :=
  ⟨htrans a b c h.1 h', fun hca => h.2 (htrans b c a h' hca)⟩

theorem le_trans (htrans : ∀ a b c, le a b → le b c → le a c) (h : le a b) (h' : Strict le b c) : Strict le a c :=
  ⟨htrans a b c h h'.1, fun hca => h'.2 (htrans c a b hca h)⟩

theorem trans (htrans : ∀ a b c, le a b → le b c → le a c) (h : Strict le a b) (h' : Strict le b c) : Strict le a c :=
  h.trans_le htrans h'.1

end Strict

/-- Covering does not distinguish equivalent elements. -/
theorem Covers.congr (htrans : ∀ a b c, le a b → le b c → le a c) {a a' b b' : α} (ha : le a a' ∧ le a' a)
    (hb : le b b' ∧ le b' b) (h : Covers le a b) : Covers le a' b' := by
  refine ⟨.le_trans htrans ha.2 (h.1.trans_le htrans hb.1), fun c hac hcb => ?_⟩
  exact h.2 c (.le_trans htrans ha.1 hac) (hcb.trans_le htrans hb.2)

section Finite

variable [Finite α] (htrans : ∀ a b c, le a b → le b c → le a c)
include htrans

/-- In a finite preorder there is no endless descent. -/
theorem wellFounded_strict : WellFounded (Strict le) := by
  have : IsTrans α (Strict le) := ⟨fun _ _ _ => Strict.trans htrans⟩
  have : Std.Irrefl (Strict le) := ⟨Strict.irrefl⟩
  exact Finite.wellFounded_of_trans_of_irrefl _

/-- Between an element and one strictly above it there is one that covers it. -/
theorem exists_covers_le (hrefl : ∀ a, le a a) {a b : α} (h : Strict le a b) : ∃ c, Covers le a c ∧ le c b := by
  obtain ⟨c, ⟨hac, hcb⟩, hmin⟩ :=
    (wellFounded_strict htrans).has_min {c | Strict le a c ∧ le c b} ⟨b, h, hrefl b⟩
  refine ⟨c, ⟨hac, fun d had hdc => ?_⟩, hcb⟩
  exact hmin d ⟨had, htrans d c b hdc.1 hcb⟩ hdc

/-- Between an element and one strictly above it there is one that is covered by the latter. -/
theorem exists_le_covers (hrefl : ∀ a, le a a) {a b : α} (h : Strict le a b) : ∃ c, le a c ∧ Covers le c b := by
  have hflip : ∀ a b c, flip le a b → flip le b c → flip le a c := fun a b c hab hbc => htrans c b a hbc hab
  obtain ⟨c, hc, hac⟩ := exists_covers_le hflip hrefl (a := b) (b := a) h
  exact ⟨c, hac, hc.1, fun d hcd hdb => hc.2 d hdb hcd⟩

/-- An element below another one leads up to it, or to one equivalent to it, by covering pairs.  By induction from the
top. -/
theorem exists_path_of_le (hrefl : ∀ a, le a a) {a b : α} (h : le a b) :
    ∃ c, Relation.ReflTransGen (Covers le) a c ∧ le c b ∧ le b c := by
  have hflip : ∀ a b c, flip le a b → flip le b c → flip le a c := fun a b c hab hbc => htrans c b a hbc hab
  induction a using (wellFounded_strict hflip).induction with
  | h a ih =>
    by_cases hba : le b a
    · exact ⟨a, .refl, h, hba⟩
    · obtain ⟨c, hac, hcb⟩ := exists_covers_le htrans hrefl ⟨h, hba⟩
      obtain ⟨d, hpath, hd⟩ := ih c hac.1 hcb
      exact ⟨d, .head hac hpath, hd⟩

end Finite

end ELOntology
