import ELOntology.Proofs.Json.Literals

/-!
# Reading what was written

Both layouts of a value are read as the value.  A text is read as a value if the reader gives the value and leaves what
follows, as long as the fuel is not less than the length of the text (`Reads`); such texts are put together as the reader
takes them apart, with blanks where it passes over them.  Only numbers limit what can be written: a value is `Plain` if
its numbers are natural and in decimal.

Key facts: `Reads.array` and `Reads.object`, `Plain.parse?_compact` and `Plain.parse?_pretty`.
-/

namespace ELOntology

namespace Json

/-! ### Blanks -/

section Blanks

variable {blanks : List Char} (hblanks : ∀ c ∈ blanks, isBlank c = true)

include hblanks

theorem skipBlank_append (s : List Char) : skipBlank (blanks ++ s) = skipBlank s := by
  induction blanks with
  | nil => rfl
  | cons c cs ih =>
    obtain ⟨hc, hcs⟩ := List.forall_mem_cons.1 hblanks
    rw [List.cons_append, skipBlank, if_pos hc, ih hcs]

theorem Ends.blanks_append {rest : List Char} (h : Ends rest) : Ends (blanks ++ rest) := by
  cases blanks with
  | nil => exact h
  | cons c cs =>
    intro d hd
    obtain rfl := Option.some.inj hd
    exact .inr (.inr (.inr (hblanks c (List.mem_cons_self ..))))

end Blanks

theorem skipBlank_skipBlank (s : List Char) : skipBlank (skipBlank s) = skipBlank s := by
  induction s with
  | nil => rfl
  | cons c cs ih =>
    by_cases hc : isBlank c = true
    · rw [skipBlank, if_pos hc, ih]
    · rw [skipBlank, if_neg hc, skipBlank, if_neg hc]

theorem scanValue_of_skipBlank_eq {s t : List Char} (h : skipBlank s = skipBlank t) (fuel : Nat) :
    scanValue fuel s = scanValue fuel t := by
  cases fuel with
  | zero => rfl
  | succ fuel => rw [scanValue, scanValue, h]

theorem scanItems_skipBlank (fuel : Nat) (s : List Char) : scanItems fuel (skipBlank s) = scanItems fuel s := by
  cases fuel with
  | zero => rfl
  | succ fuel => rw [scanItems, scanItems, scanValue_of_skipBlank_eq (skipBlank_skipBlank s)]

theorem scanMembers_of_skipBlank_eq {s t : List Char} (h : skipBlank s = skipBlank t) (fuel : Nat) :
    scanMembers fuel s = scanMembers fuel t := by
  cases fuel with
  | zero => rfl
  | succ fuel => rw [scanMembers, scanMembers, h]

/-! ### Texts that are read as a value -/

/-- A text is read as a value. -/
def Reads (s : List Char) (json : Json) : Prop :=
  ∀ fuel rest, s.length ≤ fuel → Ends rest → scanValue fuel (s ++ rest) = some (json, rest)

/-- A text with a closing bracket is read as the items of an array. -/
def ReadsItems (s : List Char) (items : List Json) : Prop :=
  ∀ fuel rest, s.length ≤ fuel → scanItems fuel (s ++ rest) = some (items, rest)

/-- A text with a closing brace is read as the members of an object. -/
def ReadsMembers (s : List Char) (members : List (Option String × Json)) : Prop :=
  ∀ fuel rest, s.length ≤ fuel → scanMembers fuel (s ++ rest) = some (members, rest)

variable {s t : List Char} {json : Json} {name : Option String} {blanks closing : List Char}

section Blanks

variable (hblanks : ∀ c ∈ blanks, isBlank c = true)

include hblanks

theorem Reads.blanks_append (h : Reads s json) : Reads (blanks ++ s) json := by
  intro fuel rest hfuel hrest
  rw [List.length_append] at hfuel
  rw [List.append_assoc, scanValue_of_skipBlank_eq (skipBlank_append hblanks _)]
  exact h fuel rest (by omega) hrest

theorem ReadsMembers.blanks_append {members : List (Option String × Json)} (h : ReadsMembers s members) :
    ReadsMembers (blanks ++ s) members := by
  intro fuel rest hfuel
  rw [List.length_append] at hfuel
  rw [List.append_assoc, scanMembers_of_skipBlank_eq (skipBlank_append hblanks _)]
  exact h fuel rest (by omega)

end Blanks

/-- A text that is not empty leaves a unit of fuel. -/
private theorem exists_fuel {fuel : Nat} (hs : s ≠ []) (hfuel : s.length ≤ fuel) : ∃ k, fuel = k + 1 := by
  have hpos : 0 < s.length := List.length_pos_iff.2 hs
  exact ⟨fuel - 1, by omega⟩

theorem Reads.null : Reads "null".toList null := by
  intro fuel rest hfuel _
  obtain ⟨fuel, rfl⟩ := exists_fuel (by decide) hfuel
  rfl

theorem Reads.bool (b : Bool) : Reads (if b then "true" else "false").toList (bool b) := by
  intro fuel rest hfuel _
  obtain ⟨fuel, rfl⟩ := exists_fuel (by cases b <;> decide) hfuel
  cases b <;> rfl

theorem Reads.string (text : Option String) : Reads (quoteText text) (string text) := by
  intro fuel rest hfuel _
  obtain ⟨fuel, rfl⟩ := exists_fuel (by cases text <;> simp [quoteText]) hfuel
  obtain ⟨tail, hquote, htail⟩ := scanText_quoteText text rest
  have hskip : skipBlank ('"' :: tail) = '"' :: tail := rfl
  rw [hquote, scanValue, hskip]
  simp [htail]

/-- A number starts with a digit, which no other value does. -/
theorem Reads.nat (n : Nat) : Reads (toString n).toList (nat n) := by
  intro fuel rest hfuel hrest
  have htext : (toString n).toList = Nat.toDigits 10 n := String.toList_ofList
  obtain ⟨c, cs, hcons, -⟩ := Decimal.exists_toDigits_eq_cons n
  have hc : '0' ≤ c ∧ c ≤ '9' := Decimal.isDigit_of_mem_toDigits (n := n) (by rw [hcons]; exact List.mem_cons_self ..)
  have hblank : ¬ isBlank c = true := by
    simp only [isBlank, Bool.or_eq_true, decide_eq_true_eq]
    rintro (((rfl | rfl) | rfl) | rfl) <;> exact absurd hc (by decide)
  have hskip : skipBlank (c :: (cs ++ rest)) = c :: (cs ++ rest) := by rw [skipBlank, if_neg hblank]
  have hscan := scanNumber_toDigits hrest n
  obtain ⟨fuel, rfl⟩ := exists_fuel (by simp [hcons]) hfuel
  rw [htext]
  rw [hcons, List.cons_append] at hscan ⊢
  rw [scanValue, hskip]
  split
  case h_7 =>
    rw [hscan, ← hcons]
    rfl
  all_goals
    rename_i e
    exact absurd ((List.cons.inj e).1 ▸ hc) (by decide)

/-! ### Arrays -/

private theorem scanItems_close (fuel : Nat) (rest : List Char) : scanItems fuel (']' :: rest) = none := by
  cases fuel with
  | zero => rfl
  | succ fuel => cases fuel <;> rfl

theorem Reads.array_nil : Reads "[]".toList (array []) := by
  intro fuel rest hfuel _
  obtain ⟨fuel, rfl⟩ := exists_fuel (by decide) hfuel
  rfl

theorem Reads.array {items : List Json} (h : ReadsItems s items) : Reads ('[' :: s) (array items) := by
  intro fuel rest hfuel _
  obtain ⟨fuel, rfl⟩ := exists_fuel (by simp) hfuel
  have hitems := h fuel rest (by simpa using hfuel)
  rw [← scanItems_skipBlank] at hitems
  have hskip : skipBlank ('[' :: (s ++ rest)) = '[' :: (s ++ rest) := rfl
  simp only [List.cons_append, scanValue, hskip]
  split
  · -- a closing bracket right away would leave no items
    rename_i e
    rw [e, scanItems_close] at hitems
    cases hitems
  · rw [hitems]
    rfl

theorem ReadsItems.single (h : Reads s json) (hclosing : ∀ c ∈ closing, isBlank c = true) :
    ReadsItems (s ++ (closing ++ [']'])) [json] := by
  intro fuel rest hfuel
  obtain ⟨fuel, rfl⟩ := exists_fuel (by simp) hfuel
  have hends : Ends (closing ++ ']' :: rest) := Ends.blanks_append hclosing fun c hc => .inr (.inl (Option.some.inj hc).symm)
  have hskip : skipBlank (closing ++ ']' :: rest) = ']' :: rest := skipBlank_append hclosing _
  have hvalue : scanValue fuel (s ++ (closing ++ ']' :: rest)) = some (json, closing ++ ']' :: rest) := by
    refine h fuel _ ?_ hends
    simp only [List.length_append, List.length_singleton] at hfuel
    omega
  have htext : s ++ (closing ++ [']']) ++ rest = s ++ (closing ++ ']' :: rest) := by simp
  rw [htext, scanItems, hvalue]
  simp [hskip]

theorem ReadsItems.cons {items : List Json} (h : Reads s json) (ht : ReadsItems t items) :
    ReadsItems (s ++ ',' :: t) (json :: items) := by
  intro fuel rest hfuel
  obtain ⟨fuel, rfl⟩ := exists_fuel (by simp) hfuel
  simp only [List.length_append, List.length_cons] at hfuel
  have hvalue : scanValue fuel (s ++ ',' :: (t ++ rest)) = some (json, ',' :: (t ++ rest)) :=
    h fuel _ (by omega) fun c hc => .inl (Option.some.inj hc).symm
  have hitems : scanItems fuel (t ++ rest) = some (items, rest) := ht fuel rest (by omega)
  rw [List.append_assoc, List.cons_append, scanItems, hvalue]
  simp [skipBlank, isBlank, hitems]

/-! ### Objects -/

private theorem scanMembers_close (fuel : Nat) (rest : List Char) : scanMembers fuel ('\x7d' :: rest) = none := by
  cases fuel <;> rfl

theorem Reads.object_nil : Reads "\x7b\x7d".toList (object []) := by
  intro fuel rest hfuel _
  obtain ⟨fuel, rfl⟩ := exists_fuel (by decide) hfuel
  rfl

theorem Reads.object {members : List (Option String × Json)} (h : ReadsMembers s members) :
    Reads ('{' :: s) (object members) := by
  intro fuel rest hfuel _
  obtain ⟨fuel, rfl⟩ := exists_fuel (by simp) hfuel
  have hmembers := h fuel rest (by simpa using hfuel)
  rw [← scanMembers_of_skipBlank_eq (skipBlank_skipBlank _)] at hmembers
  have hskip : skipBlank ('{' :: (s ++ rest)) = '{' :: (s ++ rest) := rfl
  simp only [List.cons_append, scanValue, hskip]
  split
  · -- a closing brace right away would leave no members
    rename_i e
    rw [e, scanMembers_close] at hmembers
    cases hmembers
  · rw [hmembers]
    rfl

theorem ReadsMembers.single (name : Option String) (h : Reads s json) (hclosing : ∀ c ∈ closing, isBlank c = true) :
    ReadsMembers (quoteText name ++ ':' :: (s ++ (closing ++ ['}']))) [(name, json)] := by
  intro fuel rest hfuel
  obtain ⟨fuel, rfl⟩ := exists_fuel (by simp) hfuel
  have hends : Ends (closing ++ '}' :: rest) := Ends.blanks_append hclosing fun c hc => .inr (.inr (.inl (Option.some.inj hc).symm))
  have hskip : skipBlank (closing ++ '}' :: rest) = '}' :: rest := skipBlank_append hclosing _
  have hvalue : scanValue fuel (s ++ (closing ++ '}' :: rest)) = some (json, closing ++ '}' :: rest) := by
    refine h fuel _ ?_ hends
    simp only [List.length_append, List.length_cons] at hfuel
    omega
  obtain ⟨tail, hquote, htail⟩ := scanText_quoteText name (':' :: (s ++ (closing ++ '}' :: rest)))
  have htext : quoteText name ++ ':' :: (s ++ (closing ++ ['}'])) ++ rest = '"' :: tail := by simp [← hquote]
  rw [htext, scanMembers]
  simp [skipBlank, isBlank, htail, hvalue, hskip]

theorem ReadsMembers.cons (name : Option String) {members : List (Option String × Json)} (h : Reads s json)
    (ht : ReadsMembers t members) : ReadsMembers (quoteText name ++ ':' :: (s ++ ',' :: t)) ((name, json) :: members) := by
  intro fuel rest hfuel
  obtain ⟨fuel, rfl⟩ := exists_fuel (by simp) hfuel
  simp only [List.length_append, List.length_cons] at hfuel
  have hvalue : scanValue fuel (s ++ ',' :: (t ++ rest)) = some (json, ',' :: (t ++ rest)) :=
    h fuel _ (by omega) fun c hc => .inl (Option.some.inj hc).symm
  have hmembers : scanMembers fuel (t ++ rest) = some (members, rest) := ht fuel rest (by omega)
  obtain ⟨tail, hquote, htail⟩ := scanText_quoteText name (':' :: (s ++ ',' :: (t ++ rest)))
  have htext : quoteText name ++ ':' :: (s ++ ',' :: t) ++ rest = '"' :: tail := by simp [← hquote]
  rw [htext, scanMembers]
  simp [skipBlank, isBlank, htail, hvalue, hmembers]

/-! ### The layouts -/

/-- Numbers are natural and in decimal. -/
inductive Plain : Json → Prop
  | null : Plain null
  | bool (b : Bool) : Plain (bool b)
  | nat (n : Nat) : Plain (nat n)
  | string (text : Option String) : Plain (string text)
  | array {items : List Json} (h : ∀ item ∈ items, Plain item) : Plain (array items)
  | object {members : List (Option String × Json)} (h : ∀ m ∈ members, Plain m.2) : Plain (object members)

@[simp] theorem plain_text (s : String) : (text s).Plain := .string (some s)

@[simp] theorem plain_array_iff {items : List Json} : (array items).Plain ↔ ∀ item ∈ items, item.Plain :=
  ⟨fun | .array h => h, .array⟩

@[simp] theorem plain_record_iff {members : List (String × Json)} : (record members).Plain ↔ ∀ m ∈ members, m.2.Plain := by
  have hrecord : record members = object (members.map fun m => (some m.1, m.2)) := rfl
  rw [hrecord]
  constructor
  · rintro (_ | _ | _ | _ | _ | h) m hm
    exact h (some m.1, m.2) (List.mem_map_of_mem hm)
  · refine fun h => .object fun field hfield => ?_
    obtain ⟨m, hm, rfl⟩ := List.mem_map.1 hfield
    exact h m hm

private theorem readsItems_compactItems {items : List Json} (hne : items ≠ [])
    (h : ∀ item ∈ items, Reads (compactChars item) item) : ReadsItems (compactItems items) items := by
  have hnone : ∀ c ∈ ([] : List Char), isBlank c = true := by simp
  induction items with
  | nil => exact absurd rfl hne
  | cons item items ih =>
    obtain ⟨hitem, hitems⟩ := List.forall_mem_cons.1 h
    cases items with
    | nil => exact ReadsItems.single hitem hnone
    | cons next items => exact ReadsItems.cons hitem (ih (by simp) hitems)

private theorem readsMembers_compactMembers {members : List (Option String × Json)} (hne : members ≠ [])
    (h : ∀ m ∈ members, Reads (compactChars m.2) m.2) : ReadsMembers (compactMembers members) members := by
  have hnone : ∀ c ∈ ([] : List Char), isBlank c = true := by simp
  induction members with
  | nil => exact absurd rfl hne
  | cons m members ih =>
    obtain ⟨name, value⟩ := m
    obtain ⟨hvalue, hmembers⟩ := List.forall_mem_cons.1 h
    cases members with
    | nil => simpa [compactMembers] using ReadsMembers.single name hvalue hnone
    | cons next members => simpa [compactMembers] using ReadsMembers.cons name hvalue (ih (by simp) hmembers)

theorem Plain.reads_compactChars (h : Plain json) : Reads json.compactChars json := by
  induction h with
  | null => exact .null
  | bool b =>
    cases b with
    | true => exact .bool true
    | false => exact .bool false
  | nat n => exact .nat n
  | string text => exact .string text
  | @array items _ ih =>
    cases items with
    | nil => exact .array_nil
    | cons item items => exact .array (readsItems_compactItems (by simp) ih)
  | @object members _ ih =>
    cases members with
    | nil => exact .object_nil
    | cons m members => exact .object (readsMembers_compactMembers (by simp) ih)

private theorem isBlank_newline (level : Nat) : ∀ c ∈ newline level, isBlank c = true := by
  intro c hc
  rcases List.mem_cons.1 hc with rfl | hc
  · rfl
  · rw [List.eq_of_mem_replicate hc]
    rfl

section Pretty

variable {level : Nat} (closing : Nat)

private theorem readsItems_prettyItems {items : List Json} (hne : items ≠ [])
    (h : ∀ item ∈ items, Reads (prettyChars level item) item) :
    ReadsItems (prettyItems level items ++ newline closing ++ [']']) items := by
  induction items with
  | nil => exact absurd rfl hne
  | cons item items ih =>
    obtain ⟨hitem, hitems⟩ := List.forall_mem_cons.1 h
    have hline := hitem.blanks_append (isBlank_newline level)
    cases items with
    | nil => simpa [prettyItems] using ReadsItems.single hline (isBlank_newline closing)
    | cons next items => simpa [prettyItems] using ReadsItems.cons hline (ih (by simp) hitems)

private theorem readsMembers_prettyMembers {members : List (Option String × Json)} (hne : members ≠ [])
    (h : ∀ m ∈ members, Reads (prettyChars level m.2) m.2) :
    ReadsMembers (prettyMembers level members ++ newline closing ++ ['}']) members := by
  induction members with
  | nil => exact absurd rfl hne
  | cons m members ih =>
    obtain ⟨name, value⟩ := m
    obtain ⟨hvalue, hmembers⟩ := List.forall_mem_cons.1 h
    have hspace : ∀ c ∈ [' '], isBlank c = true := fun c hc => List.mem_singleton.1 hc ▸ rfl
    have hspaced : Reads (' ' :: prettyChars level value) value := hvalue.blanks_append hspace
    cases members with
    | nil =>
      have hline := (ReadsMembers.single name hspaced (isBlank_newline closing)).blanks_append (isBlank_newline level)
      simpa [prettyMembers] using hline
    | cons next members =>
      have hline := (ReadsMembers.cons name hspaced (ih (by simp) hmembers)).blanks_append (isBlank_newline level)
      simpa [prettyMembers] using hline

end Pretty

theorem Plain.reads_prettyChars (h : Plain json) (level : Nat) : Reads (json.prettyChars level) json := by
  induction h generalizing level with
  | null => exact .null
  | bool b =>
    cases b with
    | true => exact .bool true
    | false => exact .bool false
  | nat n => exact .nat n
  | string text => exact .string text
  | @array items _ ih =>
    cases items with
    | nil => exact .array_nil
    | cons item items => exact .array (readsItems_prettyItems level (by simp) fun item hitem => ih item hitem (level + 1))
  | @object members _ ih =>
    cases members with
    | nil => exact .object_nil
    | cons m members => exact .object (readsMembers_prettyMembers level (by simp) fun m hm => ih m hm (level + 1))

/-! ### Whole texts -/

/-- A text that is read as a value is a text of the value. -/
theorem Reads.parse? (h : Reads s json) : parse? (String.ofList s) = some json := by
  have hscan := h (2 * s.length + 2) [] (by omega) (by simp [Ends])
  rw [List.append_nil] at hscan
  rw [Json.parse?, String.toList_ofList]
  simp [hscan, skipBlank]

theorem Plain.parse?_compact (h : Plain json) : Json.parse? json.compact = some json := h.reads_compactChars.parse?

theorem Plain.parse?_pretty (h : Plain json) : Json.parse? json.pretty = some json := (h.reads_prettyChars 0).parse?

end Json

end ELOntology
