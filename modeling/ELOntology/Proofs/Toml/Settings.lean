import ELOntology.Proofs.Text.Decimal
import ELOntology.Toml.Reader

/-!
# Documents of settings

A document that has one line `key = value` for each setting, where keys are bare and values are numbers or switches, is read
as the table of these settings in order.

Key facts: `Spells.digits` and `Spells.switch` (how values are written), and `parse?_settings`.
-/

namespace ELOntology

namespace Toml

/-- A value is written with these characters, if a line end follows. -/
structure Spells (chars : List Char) (value : Toml) : Prop where
  skipSpace (rest : List Char) : Toml.skipSpace (chars ++ '\n' :: rest) = chars ++ '\n' :: rest
  scan (fuel room : Nat) (rest : List Char) : scanValue (fuel + 1) room (chars ++ '\n' :: rest) = some (value, '\n' :: rest)

/-- A line that gives a key a value. -/
def settingLine (key : String) (chars : List Char) : List Char := key.toList ++ ' ' :: '=' :: ' ' :: (chars ++ ['\n'])

/-- A key that needs no quotes. -/
def IsBare (key : String) : Prop := key.toList ≠ [] ∧ ∀ c ∈ key.toList, isBareKey c = true

theorem isBare_of_all {key : String} (h : (!key.toList.isEmpty && key.toList.all isBareKey) = true) : IsBare key := by
  obtain ⟨hne, hall⟩ := Bool.and_eq_true_iff.1 h
  exact ⟨by simpa using hne, List.all_eq_true.1 hall⟩

/-! ### Switches -/

theorem Spells.switch (b : Bool) : Spells (if b then "true" else "false").toList (boolean b) := by
  cases b with
  | true => exact ⟨fun _ => rfl, fun _ _ _ => rfl⟩
  | false => exact ⟨fun _ => rfl, fun _ _ _ => rfl⟩

/-! ### Numbers -/

/-- The digits of a number, added up, give the number. -/
theorem number_toDigits (n : Nat) : number 10 (Nat.toDigits 10 n) = n := by
  have hvalue {c : Char} (hc : '0' ≤ c ∧ c ≤ '9') : Json.hexDigit? c = some (c.toNat - '0'.toNat) := by
    rw [Json.hexDigit?, if_pos hc]
    rfl
  have hfold (digits : List Char) (hdigits : ∀ c ∈ digits, '0' ≤ c ∧ c ≤ '9') (init : Nat) :
      digits.foldl (fun acc c => acc * 10 + (Json.hexDigit? c).getD 0) init = Nat.ofDigitChars 10 digits init := by
    induction digits generalizing init with
    | nil => rw [Nat.ofDigitChars_nil, List.foldl_nil]
    | cons c cs ih =>
      obtain ⟨hc, hcs⟩ := List.forall_mem_cons.1 hdigits
      rw [List.foldl_cons, ih hcs, Nat.ofDigitChars_cons, hvalue hc, Option.getD_some, Nat.mul_comm]
  rw [number, hfold _ fun c hc => Decimal.isDigit_of_mem_toDigits hc, Nat.ofDigitChars_toDigits (by omega) (by omega)]

section Digits

variable {digits rest : List Char} (hdigits : ∀ c ∈ digits, '0' ≤ c ∧ c ≤ '9')

include hdigits

/-- After digits and a line end there is no other character. -/
private theorem scanChar_eq_none {c : Char} (hdigit : ¬ ('0' ≤ c ∧ c ≤ '9')) (hbreak : c ≠ '\n') :
    scanChar c (digits ++ '\n' :: rest) = none := by
  cases digits with
  | nil => exact if_neg hbreak
  | cons d ds =>
    have hne : c ≠ d := fun e => hdigit (e ▸ hdigits d (List.mem_cons_self ..))
    exact if_neg hne

/-- Of digits and a line end only digits can be taken. -/
private theorem exists_of_scanFixed {n k : Nat} {s : List Char} (h : scanFixed n (digits ++ '\n' :: rest) = some (k, s)) :
    ∃ digits', s = digits' ++ '\n' :: rest ∧ ∀ c ∈ digits', '0' ≤ c ∧ c ≤ '9' := by
  unfold scanFixed at h
  dsimp only at h
  split at h
  · rename_i htaken
    have hle : n ≤ digits.length := Nat.le_of_not_lt fun hlt => by
      have hmem : '\n' ∈ (digits ++ '\n' :: rest).take n := by
        rw [List.take_append]
        obtain ⟨m, hm⟩ : ∃ m, n - digits.length = m + 1 := ⟨n - digits.length - 1, by omega⟩
        rw [hm, List.take_succ_cons]
        exact List.mem_append_right _ (List.mem_cons_self ..)
      exact absurd (List.all_eq_true.1 htaken.2 _ hmem) (by decide)
    obtain ⟨-, rfl⟩ := Prod.mk.inj (Option.some.inj h)
    refine ⟨digits.drop n, List.drop_append_of_le_length hle, fun c hc => hdigits c (List.mem_of_mem_drop hc)⟩
  · cases h

private theorem skipDay_eq_none : skipDay (digits ++ '\n' :: rest) = none := by
  unfold skipDay
  cases hyear : scanFixed 4 (digits ++ '\n' :: rest) with
  | none => rfl
  | some year =>
    obtain ⟨digits', hrest, hdigits'⟩ := exists_of_scanFixed hdigits hyear
    have hdash : scanChar '-' (digits' ++ '\n' :: rest) = none := scanChar_eq_none hdigits' (by decide) (by decide)
    simp [hrest, hdash]

private theorem skipTime_eq_none : skipTime (digits ++ '\n' :: rest) = none := by
  unfold skipTime scanWithin
  cases hhour : scanFixed 2 (digits ++ '\n' :: rest) with
  | none => rfl
  | some hour =>
    obtain ⟨digits', hrest, hdigits'⟩ := exists_of_scanFixed hdigits hhour
    have hcolon : scanChar ':' (digits' ++ '\n' :: rest) = none := scanChar_eq_none hdigits' (by decide) (by decide)
    simp [hrest, hcolon]

/-- Digits are no date. -/
private theorem skipDate_eq_none : skipDate (digits ++ '\n' :: rest) = none := by
  unfold skipDate
  rw [skipDay_eq_none hdigits]
  exact skipTime_eq_none hdigits

private theorem scanMoreDigits_eq : scanMoreDigits isDigit (digits ++ '\n' :: rest) = (digits, '\n' :: rest) := by
  induction digits with
  | nil => rfl
  | cons c cs ih =>
    obtain ⟨hc, hcs⟩ := List.forall_mem_cons.1 hdigits
    have hdigit : isDigit c = true := by simpa [isDigit] using hc
    have hne : c ≠ '_' := fun e => absurd (e ▸ hc) (by decide)
    rw [List.cons_append, scanMoreDigits.eq_def]
    split
    · rename_i e
      exact absurd (List.cons.inj e).1 hne
    · rename_i e
      obtain ⟨rfl, rfl⟩ := List.cons.inj e
      rw [if_pos hdigit, ih hcs]
      rfl
    · rename_i e
      cases e

end Digits

section Number

variable (n : Nat) (rest : List Char)

private theorem scanWhole_toDigits :
    scanWhole (Nat.toDigits 10 n ++ '\n' :: rest) = some (Nat.toDigits 10 n, '\n' :: rest) := by
  obtain ⟨c, cs, hcons, hzero⟩ := Decimal.exists_toDigits_eq_cons n
  have hdigits : ∀ d ∈ c :: cs, '0' ≤ d ∧ d ≤ '9' := fun d hd => Decimal.isDigit_of_mem_toDigits (hcons.symm ▸ hd)
  rw [hcons, List.cons_append, scanWhole.eq_def]
  split
  · rename_i e
    obtain ⟨rfl, rfl⟩ := List.cons.inj e
    rw [hzero rfl]
    rfl
  · obtain ⟨hc, hcs⟩ := List.forall_mem_cons.1 hdigits
    have hdigit : isDigit c = true := by simpa [isDigit] using hc
    rw [scanDigits, if_pos hdigit, scanMoreDigits_eq hcs]
    rfl

/-- A number starts with a digit, so its first character starts nothing else. -/
private theorem exists_digit_cons : ∃ c cs, Nat.toDigits 10 n ++ '\n' :: rest = c :: cs ∧ '0' ≤ c ∧ c ≤ '9' := by
  obtain ⟨c, cs, hcons, -⟩ := Decimal.exists_toDigits_eq_cons n
  have hmem : c ∈ Nat.toDigits 10 n := by
    rw [hcons]
    exact List.mem_cons_self ..
  refine ⟨c, cs ++ '\n' :: rest, ?_, Decimal.isDigit_of_mem_toDigits hmem⟩
  rw [hcons, List.cons_append]

private theorem scanSign_of_digit {s : List Char} (hs : ∃ c cs, s = c :: cs ∧ '0' ≤ c ∧ c ≤ '9') :
    scanSign s = (false, s) := by
  obtain ⟨c, cs, rfl, hc⟩ := hs
  rw [scanSign.eq_def]
  split
  · rename_i e
    exact absurd ((List.cons.inj e).1 ▸ hc) (by decide)
  · rename_i e
    exact absurd ((List.cons.inj e).1 ▸ hc) (by decide)
  · rfl

/-- A number without point and exponent is not read as a real one. -/
private theorem skipReal_eq_none : skipReal (Nat.toDigits 10 n ++ '\n' :: rest) = none := by
  have hfirst := exists_digit_cons n rest
  have hwhole := scanWhole_toDigits n rest
  unfold skipReal
  rw [scanSign_of_digit hfirst]
  generalize Nat.toDigits 10 n ++ '\n' :: rest = s at hfirst hwhole ⊢
  obtain ⟨c, cs, rfl, hc⟩ := hfirst
  dsimp only
  split
  · rename_i e
    exact absurd ((List.cons.inj e).1 ▸ hc) (by decide)
  · rename_i e
    exact absurd ((List.cons.inj e).1 ▸ hc) (by decide)
  · rw [hwhole]
    rfl

private theorem scanInteger_toDigits (hn : n ≤ 9223372036854775807) :
    scanInteger (Nat.toDigits 10 n ++ '\n' :: rest) = some ((n : Int), '\n' :: rest) := by
  have hfirst := exists_digit_cons n rest
  have hwhole := scanWhole_toDigits n rest
  -- a zero at the front stands alone, so it starts no number to another base
  have hzero {c : Char} {tail : List Char} (e : Nat.toDigits 10 n ++ '\n' :: rest = '0' :: c :: tail) : c = '\n' := by
    obtain ⟨d, ds, hcons, hzero⟩ := Decimal.exists_toDigits_eq_cons n
    rw [hcons, List.cons_append] at e
    obtain ⟨hd, e⟩ := List.cons.inj e
    rw [hzero hd, List.nil_append] at e
    exact (List.cons.inj e).1.symm
  have hrange : inRange n = true := by
    simp only [inRange, Bool.and_eq_true, decide_eq_true_eq]
    omega
  unfold scanInteger
  split
  case h_4 =>
    rw [scanSign_of_digit hfirst]
    simp [hwhole, number_toDigits, hrange]
  all_goals
    rename_i e
    exact absurd (hzero e) (by decide)

end Number

/-- Numbers up to the greatest integer are written with their digits. -/
theorem Spells.digits {n : Nat} (hn : n ≤ 9223372036854775807) : Spells (Nat.toDigits 10 n) (integer n) := by
  constructor
  · intro rest
    obtain ⟨c, cs, hcons, hc⟩ := exists_digit_cons n rest
    have hspace : ¬ isSpace c = true := by
      simp only [isSpace, Bool.or_eq_true, decide_eq_true_eq]
      rintro (rfl | rfl)
      · exact absurd hc (by decide)
      · exact absurd hc (by decide)
    rw [hcons, Toml.skipSpace, if_neg hspace]
  · intro fuel room rest
    have hfirst := exists_digit_cons n rest
    have hnumeric : scanNumeric (Nat.toDigits 10 n ++ '\n' :: rest) = some (integer n, '\n' :: rest) := by
      rw [scanNumeric, skipDate_eq_none fun c hc => Decimal.isDigit_of_mem_toDigits hc]
      dsimp only
      rw [skipReal_eq_none n rest]
      dsimp only
      rw [scanInteger_toDigits n rest hn]
      rfl
    generalize Nat.toDigits 10 n ++ '\n' :: rest = s at hfirst hnumeric ⊢
    obtain ⟨c, cs, rfl, hc⟩ := hfirst
    have hne {d : Char} (hd : ¬ ('0' ≤ d ∧ d ≤ '9')) : c ≠ d := fun e => hd (e ▸ hc)
    have hscalar : scanScalar (c :: cs) = some (integer n, '\n' :: rest) := by
      rw [← hnumeric, scanScalar.eq_def]
      split
      case h_5 => rfl
      all_goals
        rename_i e
        exact absurd (List.cons.inj e).1 (hne (by decide))
    rw [← hscalar, scanValue.eq_def]
    dsimp only
    split
    case h_5 => rfl
    all_goals
      rename_i e
      exact absurd (List.cons.inj e).1 (hne (by decide))

/-! ### Lines -/

private theorem scanBareKey_append {key rest : List Char} {c : Char} (hkey : ∀ d ∈ key, isBareKey d = true)
    (hc : isBareKey c = false) : scanBareKey (key ++ c :: rest) = (key, c :: rest) := by
  induction key with
  | nil => simp [scanBareKey, hc]
  | cons d ds ih =>
    obtain ⟨hd, hds⟩ := List.forall_mem_cons.1 hkey
    rw [List.cons_append, scanBareKey, if_pos hd, ih hds]
    rfl

section Key

variable {c : Char} {cs : List Char} (hc : isBareKey c = true)

include hc

private theorem ne_of_isBareKey {d : Char} (hd : isBareKey d = false) : c ≠ d := by
  rintro rfl
  rw [hc] at hd
  cases hd

private theorem skipSpace_of_isBareKey : skipSpace (c :: cs) = c :: cs := by
  have hspace : ¬ isSpace c = true := by
    simp [isSpace, ne_of_isBareKey hc (d := ' ') (by decide), ne_of_isBareKey hc (d := '\t') (by decide)]
  rw [skipSpace, if_neg hspace]

/-- A line that starts with a key is not blank. -/
private theorem endLine_eq_none : endLine (c :: cs) = none := by
  have hcomment : c ≠ '#' := ne_of_isBareKey hc (by decide)
  have hbreak : newline? (c :: cs) = none := by
    rw [newline?.eq_def]
    split
    case h_3 => rfl
    all_goals
      rename_i e
      exact absurd (List.cons.inj e).1 (ne_of_isBareKey hc (by decide))
  unfold endLine
  rw [skipSpace_of_isBareKey hc]
  split
  · rename_i e
    exact absurd (List.cons.inj e).1 hcomment
  · exact hbreak

end Key

variable {key : String} {chars : List Char} {value : Toml}

private theorem IsBare.exists_cons (h : IsBare key) (rest : List Char) :
    ∃ c cs, key.toList ++ rest = c :: cs ∧ isBareKey c = true := by
  obtain ⟨c, cs, hcons⟩ := List.exists_cons_of_ne_nil h.1
  refine ⟨c, cs ++ rest, by rw [hcons, List.cons_append], h.2 c ?_⟩
  rw [hcons]
  exact List.mem_cons_self ..

private theorem scanKey_of_isBare (h : IsBare key) (parts : Nat) (rest : List Char) :
    scanKey (parts + 1) (key.toList ++ ' ' :: '=' :: rest) = some ([key], '=' :: rest) := by
  have hpart : scanKeyPart (key.toList ++ ' ' :: '=' :: rest) = some (key, ' ' :: '=' :: rest) := by
    have hbare : scanBareKey (key.toList ++ ' ' :: '=' :: rest) = (key.toList, ' ' :: '=' :: rest) :=
      scanBareKey_append h.2 (by decide)
    obtain ⟨c, cs, hcons, hc⟩ := h.exists_cons (' ' :: '=' :: rest)
    rw [hcons] at hbare ⊢
    unfold scanKeyPart
    split
    case h_3 => simp [hbare, h.1]
    all_goals
      rename_i e
      exact absurd (List.cons.inj e).1 (ne_of_isBareKey hc (by decide))
  have hspace : skipSpace (key.toList ++ ' ' :: '=' :: rest) = key.toList ++ ' ' :: '=' :: rest := by
    obtain ⟨c, cs, hcons, hc⟩ := h.exists_cons (' ' :: '=' :: rest)
    rw [hcons]
    exact skipSpace_of_isBareKey hc
  rw [scanKey, hspace, hpart]
  rfl

/-- A line that gives a bare key a value is read as that, and the lines after it follow. -/
theorem scanLines_settingLine (hkey : IsBare key) (hvalue : Spells chars value) (fuel : Nat) (rest : List Char) :
    scanLines (fuel + 2) (settingLine key chars ++ rest) =
      (scanLines (fuel + 1) rest).map (Line.defines [key] value :: ·) := by
  have hline : settingLine key chars ++ rest = key.toList ++ ' ' :: '=' :: (' ' :: (chars ++ '\n' :: rest)) := by
    simp [settingLine]
  have hscan : scanLine (fuel + 1) (settingLine key chars ++ rest) = some (.defines [key] value, '\n' :: rest) := by
    have hscanKey : scanKey maxNesting (settingLine key chars ++ rest) = some ([key], '=' :: ' ' :: (chars ++ '\n' :: rest)) := by
      rw [hline]
      exact scanKey_of_isBare hkey 78 _
    have hblank : skipSpace (' ' :: (chars ++ '\n' :: rest)) = chars ++ '\n' :: rest := hvalue.skipSpace rest
    obtain ⟨c, cs, hcons, hc⟩ := hkey.exists_cons (' ' :: '=' :: (' ' :: (chars ++ '\n' :: rest)))
    rw [← hline] at hcons
    rw [hcons] at hscanKey ⊢
    unfold scanLine
    split
    case h_3 => simp [hscanKey, scanChar, hblank, hvalue.scan]
    all_goals
      rename_i e
      exact absurd (List.cons.inj e).1 (ne_of_isBareKey hc (by decide))
  obtain ⟨c, cs, hcons, hc⟩ := hkey.exists_cons (' ' :: '=' :: (' ' :: (chars ++ '\n' :: rest)))
  rw [← hline] at hcons
  rw [hcons] at hscan ⊢
  have hend : endLine ('\n' :: rest) = some rest := rfl
  rw [scanLines, endLine_eq_none hc, skipSpace_of_isBareKey hc]
  simp only [List.isEmpty_cons, Bool.false_eq_true, if_false, hscan, Option.bind_eq_bind, Option.bind_some, hend]
  cases scanLines (fuel + 1) rest <;> rfl

/-! ### Documents -/

/-- A key, the characters of its value and the value. -/
structure Setting where
  key : String
  chars : List Char
  value : Toml
  bare : IsBare key
  spells : Spells chars value

namespace Setting

/-- The text of settings, each on a line. -/
def text (settings : List Setting) : List Char := settings.flatMap fun s => settingLine s.key s.chars

def entries (settings : List Setting) : Entries := settings.map fun s => (s.key, s.value)

private theorem scanLines_text (settings : List Setting) {fuel : Nat} (h : settings.length < fuel) :
    scanLines fuel (text settings) = some (settings.map fun s => .defines [s.key] s.value) := by
  induction settings generalizing fuel with
  | nil =>
    obtain ⟨fuel, rfl⟩ := Nat.exists_eq_succ_of_ne_zero (Nat.ne_of_gt h)
    rfl
  | cons s settings ih =>
    obtain ⟨fuel, rfl⟩ : ∃ k, fuel = k + 2 := ⟨fuel - 2, by simp at h; omega⟩
    have hrest : settings.length < fuel + 1 := by
      simp at h
      omega
    rw [text, List.flatMap_cons, scanLines_settingLine s.bare s.spells, ← text, ih hrest]
    rfl

private theorem put_eq_append {key : String} {value : Toml} {entries : Entries} (h : ∀ e ∈ entries, e.1 ≠ key) :
    put key value entries = entries ++ [(key, value)] := by
  induction entries with
  | nil => rfl
  | cons e es ih =>
    obtain ⟨he, hes⟩ := List.forall_mem_cons.1 h
    rw [put, if_neg he, ih hes, List.cons_append]

private theorem lookup_eq_none {key : String} {entries : Entries} (h : ∀ e ∈ entries, e.1 ≠ key) : lookup key entries = none := by
  rw [lookup, List.find?_eq_none.2 fun e he => by simpa using h e he]
  rfl

/-- Lines with new keys add their values to the table. -/
private theorem gather_defines (settings : List Setting) {given : Entries} (hnodup : (settings.map (·.key)).Nodup)
    (hnew : ∀ e ∈ given, e.1 ∉ settings.map (·.key)) :
    gather [] given (settings.map fun s => .defines [s.key] s.value) = some (given ++ entries settings) := by
  induction settings generalizing given with
  | nil => simp [gather, entries]
  | cons s settings ih =>
    rw [List.map_cons, List.nodup_cons] at hnodup
    have hne : ∀ e ∈ given, e.1 ≠ s.key := fun e he heq => hnew e he (heq ▸ List.mem_cons_self ..)
    have hdefine : modifyAt false (fun _ inner => define [s.key] s.value inner) [] .header given =
        some (given ++ [(s.key, s.value)]) := by
      simp [modifyAt, define, lookup_eq_none hne, put_eq_append hne]
    have hrest : ∀ e ∈ given ++ [(s.key, s.value)], e.1 ∉ settings.map (·.key) := by
      intro e he
      rcases List.mem_append.1 he with he | he
      · exact fun hmem => hnew e he (List.mem_cons_of_mem _ hmem)
      · rw [List.mem_singleton.1 he]
        exact hnodup.1
    rw [List.map_cons, gather, hdefine]
    simpa [entries] using ih hnodup.2 hrest

private theorem length_le_text (settings : List Setting) : settings.length ≤ (text settings).length := by
  induction settings with
  | nil => exact Nat.le_refl 0
  | cons s settings ih =>
    have hline : 0 < (settingLine s.key s.chars).length := by
      simp only [settingLine, List.length_append, List.length_cons]
      omega
    rw [text, List.flatMap_cons, List.length_append, List.length_cons, ← text]
    omega

private theorem dropMark_text (settings : List Setting) : dropMark (text settings) = text settings := by
  cases settings with
  | nil => rfl
  | cons s settings =>
    obtain ⟨c, cs, hcons, hc⟩ := s.bare.exists_cons (' ' :: '=' :: ' ' :: (s.chars ++ ['\n']) ++ text settings)
    have htext : text (s :: settings) = c :: cs := by
      rw [← hcons, text, List.flatMap_cons, ← text]
      simp [settingLine]
    rw [htext, dropMark.eq_def]
    split
    · rename_i e
      exact absurd (List.cons.inj e).1 (ne_of_isBareKey hc (by decide))
    · rfl

end Setting

/-- A document of settings with different keys is read as the table of these settings. -/
theorem parse?_settings {settings : List Setting} (hnodup : (settings.map (·.key)).Nodup) :
    parse? (String.ofList (Setting.text settings)) = some (Setting.entries settings) := by
  have hfuel : settings.length < 2 * (Setting.text settings).length + 2 := by
    have hle := Setting.length_le_text settings
    omega
  have hgather : gather [] [] (settings.map fun s => .defines [s.key] s.value) = some ([] ++ Setting.entries settings) :=
    Setting.gather_defines settings hnodup fun e he => absurd he List.not_mem_nil
  unfold parse?
  rw [String.toList_ofList, Setting.dropMark_text]
  simp only [Setting.scanLines_text settings hfuel, Option.bind_eq_bind, Option.bind_some]
  simpa using hgather

end Toml

end ELOntology
