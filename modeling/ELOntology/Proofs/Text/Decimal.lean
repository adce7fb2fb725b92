/-!
# Numbers in decimal

The digits that a number is written with: there is one at least, none of them is anything but a digit, and the first is a
zero only if it is the only one.
-/

namespace ELOntology

namespace Decimal

variable {n : Nat} {c : Char}

theorem isDigit_of_mem_toDigits (h : c ∈ Nat.toDigits 10 n) : '0' ≤ c ∧ c ≤ '9' := by
  have hdigit := Nat.isDigit_of_mem_toDigits (by omega) (by omega) h
  simpa [Char.isDigit, Char.le_def] using hdigit

/-- The first digit is not a zero, unless the number is zero.  By induction on the digits, the last one coming off. -/
theorem head?_toDigits_ne_zero (hn : 0 < n) : (Nat.toDigits 10 n).head? ≠ some '0' := by
  induction n using Nat.base_induction 10 (by omega) with
  | single m hm =>
    rw [Nat.toDigits_of_lt_base hm, List.head?_cons]
    simpa using Nat.ne_of_gt hn
  | digit m k hk hm ih =>
    have hfirst := ih hm
    rw [← Nat.toDigits_append_toDigits (by omega) hm hk, List.head?_append]
    obtain ⟨c, cs, hdigits⟩ := List.exists_cons_of_ne_nil (Nat.toDigits_ne_nil (n := m) (b := 10))
    rw [hdigits] at hfirst ⊢
    exact hfirst

theorem exists_toDigits_eq_cons (n : Nat) : ∃ c cs, Nat.toDigits 10 n = c :: cs ∧ (c = '0' → cs = []) := by
  rcases Nat.eq_zero_or_pos n with rfl | hn
  · exact ⟨'0', [], Nat.toDigits_zero 10, fun _ => rfl⟩
  · obtain ⟨c, cs, hdigits⟩ := List.exists_cons_of_ne_nil (Nat.toDigits_ne_nil (n := n) (b := 10))
    refine ⟨c, cs, hdigits, fun e => absurd ?_ (head?_toDigits_ne_zero hn)⟩
    rw [hdigits, e, List.head?_cons]

end Decimal

end ELOntology
