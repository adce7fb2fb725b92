import ELOntology.Json.Reader
import ELOntology.Json.Writer
import ELOntology.Proofs.Text.Decimal
import Mathlib.Data.List.TakeDrop

/-!
# String and number literals

What is written between quotes is read as the text it was written for: an escape is read as the one code unit that it
stands for, and no character of a text is a surrogate, so the units are not paired.  The literal that is written for no text
is read as no text.  The digits of a number are read up to what ends a value (`Ends`).

Key facts: `scanText_quoteText` and `scanNumber_toDigits`.
-/

namespace ELOntology

namespace Json

/-! ### Strings -/

private theorem scanUnits_of_plain {c : Char} (hquote : c ≠ '"') (hbackslash : c ≠ '\\') (hlarge : ¬ c.toNat < 0x20)
    (rest : List Char) : scanUnits (c :: rest) = (scanUnits rest).map fun (units, rest) => (c.toNat :: units, rest) := by
  rw [scanUnits.eq_def]
  split
  case h_5 =>
    rename_i e
    obtain ⟨rfl, rfl⟩ := List.cons.inj e
    rw [if_neg hlarge]
  case h_1 =>
    rename_i e
    cases e
  case h_2 =>
    rename_i e
    exact absurd (List.cons.inj e).1 hquote
  all_goals
    rename_i e
    exact absurd (List.cons.inj e).1 hbackslash

/-- A character, escaped if need be, is read as its code unit. -/
private theorem scanUnits_escapeChar (c : Char) (rest : List Char) :
    scanUnits (escapeChar c ++ rest) = (scanUnits rest).map fun (units, rest) => (c.toNat :: units, rest) := by
  have hcontrol : ∀ n < 0x20, hexUnit? '0' '0' (hexChar (n / 16)) (hexChar (n % 16)) = some n := by decide
  by_cases hnamed : c = '"' ∨ c = '\\' ∨ c = '\x08' ∨ c = '\x0c' ∨ c = '\n' ∨ c = '\r' ∨ c = '\t'
  · rcases hnamed with rfl | rfl | rfl | rfl | rfl | rfl | rfl <;> rfl
  · simp only [not_or] at hnamed
    by_cases hsmall : c.toNat < 0x20
    · have hescape : escapeChar c = ['\\', 'u', '0', '0', hexChar (c.toNat / 16), hexChar (c.toNat % 16)] := by
        simp [escapeChar, hnamed, hsmall]
      simp only [hescape, List.cons_append, List.nil_append]
      rw [scanUnits, hcontrol _ hsmall]
    · have hescape : escapeChar c = [c] := by simp [escapeChar, hnamed, hsmall]
      rw [hescape, List.cons_append, List.nil_append]
      exact scanUnits_of_plain hnamed.1 hnamed.2.1 hsmall rest

private theorem scanUnits_flatMap (cs rest : List Char) :
    scanUnits (cs.flatMap escapeChar ++ '"' :: rest) = some (cs.map Char.toNat, rest) := by
  induction cs with
  | nil => rfl
  | cons c cs ih =>
    rw [List.flatMap_cons, List.append_assoc, scanUnits_escapeChar, ih]
    rfl

/-- Characters are no surrogates, so their units are not paired. -/
private theorem pairSurrogates_toNat (cs : List Char) : pairSurrogates (cs.map Char.toNat) = some cs := by
  have hchar (c : Char) : isHighSurrogate c.toNat = false ∧ isLowSurrogate c.toNat = false := by
    have hvalid : c.toNat < 0xD800 ∨ 0xDFFF < c.toNat ∧ c.toNat < 0x110000 := c.valid
    simp only [isHighSurrogate, isLowSurrogate, Bool.and_eq_false_iff, decide_eq_false_iff_not]
    omega
  induction cs with
  | nil => rfl
  | cons c cs ih =>
    obtain ⟨hhigh, hlow⟩ := hchar c
    cases cs with
    | nil => simp [pairSurrogates, hhigh, hlow]
    | cons d cs =>
      rw [List.map_cons] at ih
      rw [List.map_cons, List.map_cons, pairSurrogates, hhigh, hlow, ih]
      simp

/-- What is written for a text, or for none, is read as that. -/
theorem scanText_quoteText (text : Option String) (rest : List Char) :
    ∃ tail, quoteText text ++ rest = '"' :: tail ∧ scanText tail = some (text, rest) := by
  cases text with
  | none =>
    have hunit : hexUnit? 'd' '8' '0' '0' = some 0xD800 := by decide
    refine ⟨'\\' :: 'u' :: 'd' :: '8' :: '0' :: '0' :: '"' :: rest, rfl, ?_⟩
    rw [scanText, scanUnits, hunit]
    simp [scanUnits, pairSurrogates, isHighSurrogate]
  | some text =>
    refine ⟨text.toList.flatMap escapeChar ++ '"' :: rest, by simp [quoteText], ?_⟩
    rw [scanText, scanUnits_flatMap, Option.map_some]
    dsimp only
    rw [pairSurrogates_toNat, Option.map_some, String.ofList_toList]

/-! ### Numbers -/

/-- A value may end before this text. -/
def Ends (rest : List Char) : Prop := ∀ c ∈ rest.head?, c = ',' ∨ c = ']' ∨ c = '}' ∨ isBlank c = true

section Number

variable {rest : List Char} (hrest : Ends rest)

include hrest

/-- What ends a value is not a part of a number. -/
private theorem Ends.head_ne {c : Char} {cs : List Char} (e : rest = c :: cs) :
    isDigit c = false ∧ c ≠ '.' ∧ c ≠ 'e' ∧ c ≠ 'E' := by
  have hc := hrest c (by rw [e]; rfl)
  simp only [isBlank, Bool.or_eq_true, decide_eq_true_eq] at hc
  rcases hc with rfl | rfl | rfl | ((rfl | rfl) | rfl) | rfl <;> decide

private theorem scanDigits_append {digits : List Char} (hne : digits ≠ []) (hdigits : ∀ c ∈ digits, isDigit c = true) :
    scanDigits (digits ++ rest) = some (digits, rest) := by
  have hstop : rest.takeWhile isDigit = [] ∧ rest.dropWhile isDigit = rest := by
    cases rest with
    | nil => exact ⟨rfl, rfl⟩
    | cons c cs => simp [(hrest.head_ne rfl).1]
  have hspan : (digits ++ rest).span isDigit = (digits, rest) := by
    rw [List.span_eq_takeWhile_dropWhile, List.takeWhile_append_of_pos hdigits, List.dropWhile_append_of_pos hdigits, hstop.1,
      hstop.2, List.append_nil]
  rw [scanDigits, hspan]
  split
  · rename_i e
    exact absurd (Prod.mk.inj e).1 hne
  · rfl

private theorem scanFraction_eq : scanFraction rest = some ([], rest) := by
  rw [scanFraction.eq_def]
  split
  · exact absurd rfl (hrest.head_ne rfl).2.1
  · rfl

private theorem scanExponent_eq : scanExponent rest = some ([], rest) := by
  rw [scanExponent.eq_def]
  split
  · obtain ⟨-, -, hlower, hupper⟩ := hrest.head_ne rfl
    rw [if_neg (not_or.2 ⟨hlower, hupper⟩)]
  · rfl

/-- The digits of a number are read to the end of the value. -/
theorem scanNumber_toDigits (n : Nat) : scanNumber (Nat.toDigits 10 n ++ rest) = some (Nat.toDigits 10 n, rest) := by
  obtain ⟨c, cs, hcons, hzero⟩ := Decimal.exists_toDigits_eq_cons n
  have hdigits : ∀ d ∈ c :: cs, isDigit d = true := fun d hd => by
    simpa [isDigit] using Decimal.isDigit_of_mem_toDigits (n := n) (hcons.symm ▸ hd)
  have hwhole : scanWhole (c :: cs ++ rest) = some (c :: cs, rest) := by
    rw [List.cons_append, scanWhole.eq_def]
    split
    · rename_i e
      obtain ⟨rfl, rfl⟩ := List.cons.inj e
      rw [hzero rfl]
      rfl
    · exact scanDigits_append hrest (List.cons_ne_nil c cs) hdigits
  have hunsigned : scanUnsigned (c :: cs ++ rest) = some (c :: cs, rest) := by
    rw [scanUnsigned, hwhole]
    simp [scanFraction_eq hrest, scanExponent_eq hrest]
  rw [hcons, scanNumber.eq_def]
  split
  · rename_i e
    have hminus := hdigits c (List.mem_cons_self ..)
    rw [(List.cons.inj e).1] at hminus
    exact absurd hminus (by decide)
  · exact hunsigned

end Number

end Json

end ELOntology
