import ELOntology.Proofs.Json.Nesting
import ELOntology.Proofs.Json.Reading
import ELOntology.Syntax.Exchange

/-!
# Axioms written and read again

An axiom that is written and read again is the same axiom, if what is written does not nest deeper than the reader goes; and
what the reader has accepted never does, since each field of an axiom is written at the depth at which it is read at least.
So both layouts of a list of axioms give the list again (`axioms_round_trip`): whenever it can be written within the limit,
and always if it has been read before.

Key facts: `ClassExpression.ofJson?_toJson` and `ClassExpression.nesting_le_of_ofJson?`, by induction on the expression and on
the depth.
-/

namespace ELOntology

namespace Json

theorem nesting_texts_le {items : List String} {d : Nat} : (texts items).nesting ≤ d ↔ 0 < d := by
  simp [texts]

@[simp] theorem plain_texts (items : List String) : (texts items).Plain := by simp [texts]

@[simp] theorem text?_text (s : String) : (text s).text? = some s := rfl

theorem nat?_nat (n : Nat) : (nat n).nat? = some n := by
  have hdigits : (Nat.toDigits 10 n).all Char.isDigit = true :=
    List.all_eq_true.2 fun _ => Nat.isDigit_of_mem_toDigits (by decide) (by decide)
  have hspelling : (toString n).toList = Nat.toDigits 10 n := Nat.toList_repr
  rw [nat, nat?, hspelling, if_pos ⟨Nat.toDigits_ne_nil, hdigits⟩, Nat.ofDigitChars_ten_toDigits]

@[simp] theorem variant?_record (name : String) (content : Json) : (record [(name, content)]).variant? = some (name, content) := rfl

@[simp] theorem record_ne_string (members : List (String × Json)) (t : Option String) : record members ≠ string t := nofun

@[simp] theorem pair?_record {first second : String} (h : first ≠ second) (a b : Json) :
    (record [(first, a), (second, b)]).pair? first second = some (a, b) := by
  simp [record, pair?, fields?, h, h.symm]

end Json

/-! ### Lists -/

private theorem mapM_map_eq_some {α β : Type} {f : α → β} {g : β → Option α} {as : List α} (h : ∀ a ∈ as, g (f a) = some a) :
    (as.map f).mapM g = some as := by
  induction as with
  | nil => rfl
  | cons a as ih =>
    obtain ⟨ha, has⟩ := List.forall_mem_cons.1 h
    simp [ha, ih has]

private theorem exists_of_mapM_eq_some {α β : Type} {g : β → Option α} {bs : List β} {as : List α} (h : bs.mapM g = some as) {a : α}
    (ha : a ∈ as) : ∃ b ∈ bs, g b = some a := by
  induction bs generalizing as with
  | nil =>
    obtain rfl := Option.some.inj h
    exact absurd ha List.not_mem_nil
  | cons b bs ih =>
    rw [List.mapM_cons] at h
    obtain ⟨first, hfirst, h⟩ := Option.bind_eq_some_iff.1 h
    obtain ⟨others, hothers, h⟩ := Option.bind_eq_some_iff.1 h
    obtain rfl := Option.some.inj h
    rcases List.mem_cons.1 ha with rfl | ha
    · exact ⟨b, List.mem_cons_self .., hfirst⟩
    · obtain ⟨b', hb', ha⟩ := ih hothers ha
      exact ⟨b', List.mem_cons_of_mem _ hb', ha⟩

theorem Json.texts?_texts (d : Nat) (items : List String) : Json.texts? (d + 1) (Json.texts items) = some items :=
  mapM_map_eq_some fun _ _ => rfl

/-! ### Data -/

theorem Literal.ofJson?_toJson (l : Literal) {d : Nat} (h : l.toJson.nesting ≤ d) : ofJson? d l.toJson = some l := by
  obtain ⟨hd, -⟩ := Json.nesting_record_le.1 h
  obtain ⟨k, rfl⟩ := Nat.exists_eq_succ_of_ne_zero (Nat.ne_of_gt hd)
  rfl

theorem Literal.nesting_le_of_ofJson? {d : Nat} {json : Json} {l : Literal} (h : ofJson? d json = some l) : l.toJson.nesting ≤ d := by
  cases d with
  | zero => cases h
  | succ d => simp [toJson]

namespace DataRange

theorem bound?_boundJson (bound : Option UInt32) : bound? (some (boundJson bound)) = some bound := by
  cases bound with
  | none => rfl
  | some n =>
    change (do
      let n ← (Json.nat n.toNat).nat?
      if n < 4294967296 then some (some (UInt32.ofNat n)) else none) = _
    rw [Json.nat?_nat, Option.bind_eq_bind, Option.bind_some, if_pos n.toNat_lt, UInt32.ofNat_toNat]

theorem ofJson?_toJson (range : DataRange) {d : Nat} (h : range.toJson.nesting ≤ d) : ofJson? d range.toJson = some range := by
  cases range with
  | datatype iri =>
    obtain ⟨k, rfl, -⟩ := Json.exists_of_variant_le h
    rfl
  | length iri min max =>
    obtain ⟨k, rfl, -⟩ := Json.exists_of_fields_le h
    simp [toJson, ofJson?, Json.record, Json.variant?, Json.fields?, bound?_boundJson]

theorem nesting_le_of_ofJson? {d : Nat} {json : Json} {range : DataRange} (h : ofJson? d json = some range) :
    range.toJson.nesting ≤ d := by
  unfold ofJson? at h
  split at h
  · cases h
  · split at h
    · obtain ⟨iri, -, rfl⟩ := Option.map_eq_some_iff.1 h
      simp [toJson]
    · split at h
      · cases h
      · split at h
        · obtain ⟨iri, -, h⟩ := Option.bind_eq_some_iff.1 h
          obtain ⟨min, -, h⟩ := Option.bind_eq_some_iff.1 h
          obtain ⟨max, -, h⟩ := Option.bind_eq_some_iff.1 h
          obtain rfl := Option.some.inj h
          have hbound (bound : Option UInt32) : (boundJson bound).nesting = 0 := by cases bound <;> rfl
          simp [toJson, hbound]
          omega
        · cases h
    · cases h

theorem plain_toJson (range : DataRange) : range.toJson.Plain := by
  cases range with
  | datatype iri => simp [toJson]
  | length iri min max =>
    have hbound (bound : Option UInt32) : (boundJson bound).Plain := by
      cases bound with
      | none => exact .null
      | some n => exact .nat _
    simp [toJson, hbound]

end DataRange

/-! ### Class expressions -/

namespace ClassExpression

theorem listToJson_eq_map (es : List ClassExpression) : listToJson es = es.map toJson := by
  induction es with
  | nil => rfl
  | cons e es ih => rw [listToJson, ih, List.map_cons]

mutual

theorem ofJson?_toJson : (e : ClassExpression) → {d : Nat} → e.toJson.nesting ≤ d → ofJson? d e.toJson = some e
  | named iri, d, h => by
    obtain ⟨k, rfl, -⟩ := Json.exists_of_variant_le h
    cases k <;> rfl
  | thing, _, _ => by simp [toJson, ofJson?, Json.text]
  | nothing, _, _ => by simp [toJson, ofJson?, Json.text]
  | intersection operands, d, h => by
    obtain ⟨_, rfl, harray⟩ := Json.exists_of_variant_le h
    obtain ⟨k, rfl, hitems⟩ := Json.exists_of_array_le harray
    have hoperands := mapM_ofJson?_listToJson operands hitems
    simpa [toJson, ofJson?, Json.record, Json.variant?] using hoperands
  | someValues role filler, d, h => by
    obtain ⟨k, rfl, hfields⟩ := Json.exists_of_fields_le h
    have hfiller := ofJson?_toJson filler (hfields ("filler", filler.toJson) (by simp))
    simp [toJson, ofJson?, hfiller]
  | hasValue role individual, d, h => by
    obtain ⟨k, rfl, -⟩ := Json.exists_of_fields_le h
    rfl
  | oneOf individual, d, h => by
    obtain ⟨k, rfl, -⟩ := Json.exists_of_variant_le h
    cases k <;> rfl
  | dataHasValue property literal, d, h => by
    obtain ⟨k, rfl, hfields⟩ := Json.exists_of_fields_le h
    have hliteral := literal.ofJson?_toJson (hfields ("literal", literal.toJson) (by simp))
    simp [toJson, ofJson?, hliteral]
  | dataSomeValues property range, d, h => by
    obtain ⟨k, rfl, hfields⟩ := Json.exists_of_fields_le h
    have hrange := range.ofJson?_toJson (hfields ("range", range.toJson) (by simp))
    simp [toJson, ofJson?, hrange]

theorem mapM_ofJson?_listToJson : (es : List ClassExpression) → {d : Nat} → (∀ json ∈ listToJson es, json.nesting ≤ d) →
    (listToJson es).mapM (ofJson? d) = some es
  | [], _, _ => rfl
  | e :: es, d, h => by
    obtain ⟨he, hes⟩ := List.forall_mem_cons.1 h
    simp [listToJson, ofJson?_toJson e he, mapM_ofJson?_listToJson es hes]

end

/-- By induction on the depth: what is read inside is read at the depth where it is written again. -/
theorem nesting_le_of_ofJson? {d : Nat} {json : Json} {e : ClassExpression} (h : ofJson? d json = some e) :
    e.toJson.nesting ≤ d := by
  induction d using Nat.strongRecOn generalizing json e with
  | ind d ih =>
    unfold ofJson? at h
    split at h
    · obtain rfl := Option.some.inj h
      simp [toJson]
    · obtain rfl := Option.some.inj h
      simp [toJson]
    · -- with room for one object there are the variants that hold a name or nothing
      split at h
      · obtain ⟨iri, -, rfl⟩ := Option.map_eq_some_iff.1 h
        simp [toJson]
      · obtain ⟨individual, -, rfl⟩ := Option.map_eq_some_iff.1 h
        simp [toJson]
      · obtain rfl := Option.some.inj h
        simp [toJson]
      · obtain rfl := Option.some.inj h
        simp [toJson]
      · cases h
    · -- with room for two there are those as well, and the variants with an array or with fields
      rename_i depth _ _
      split at h
      · obtain ⟨iri, -, rfl⟩ := Option.map_eq_some_iff.1 h
        simp [toJson]
      · obtain ⟨individual, -, rfl⟩ := Option.map_eq_some_iff.1 h
        simp [toJson]
      · obtain rfl := Option.some.inj h
        simp [toJson]
      · obtain rfl := Option.some.inj h
        simp [toJson]
      · obtain ⟨operands, hoperands, rfl⟩ := Option.map_eq_some_iff.1 h
        have hnesting : ∀ e ∈ operands, e.toJson.nesting ≤ depth := by
          intro e he
          obtain ⟨item, -, hitem⟩ := exists_of_mapM_eq_some hoperands he
          exact ih depth (by omega) hitem
        simpa [toJson, listToJson_eq_map] using hnesting
      · obtain ⟨⟨role, filler⟩, -, h⟩ := Option.bind_eq_some_iff.1 h
        obtain ⟨role, -, h⟩ := Option.bind_eq_some_iff.1 h
        obtain ⟨filler, hfiller, h⟩ := Option.bind_eq_some_iff.1 h
        obtain rfl := Option.some.inj h
        have hnesting := ih depth (by omega) hfiller
        simpa [toJson] using hnesting
      · obtain ⟨⟨role, individual⟩, -, h⟩ := Option.bind_eq_some_iff.1 h
        obtain ⟨role, -, h⟩ := Option.bind_eq_some_iff.1 h
        obtain ⟨individual, -, h⟩ := Option.bind_eq_some_iff.1 h
        obtain rfl := Option.some.inj h
        simp [toJson]
      · obtain ⟨⟨property, literal⟩, -, h⟩ := Option.bind_eq_some_iff.1 h
        obtain ⟨property, -, h⟩ := Option.bind_eq_some_iff.1 h
        obtain ⟨literal, hliteral, h⟩ := Option.bind_eq_some_iff.1 h
        obtain rfl := Option.some.inj h
        have hnesting := Literal.nesting_le_of_ofJson? hliteral
        simpa [toJson] using hnesting
      · obtain ⟨⟨property, range⟩, -, h⟩ := Option.bind_eq_some_iff.1 h
        obtain ⟨property, -, h⟩ := Option.bind_eq_some_iff.1 h
        obtain ⟨range, hrange, h⟩ := Option.bind_eq_some_iff.1 h
        obtain rfl := Option.some.inj h
        have hnesting := DataRange.nesting_le_of_ofJson? hrange
        simpa [toJson] using hnesting
      · cases h
    · cases h

end ClassExpression

/-! ### Axioms -/

theorem RoleExpression.ofJson?_toJson (e : RoleExpression) {d : Nat} (h : e.toJson.nesting ≤ d) : ofJson? d e.toJson = some e := by
  cases e with
  | role iri =>
    obtain ⟨k, rfl, -⟩ := Json.exists_of_variant_le h
    rfl
  | chain roles =>
    obtain ⟨_, rfl, harray⟩ := Json.exists_of_variant_le h
    obtain ⟨k, rfl, -⟩ := Json.exists_of_array_le harray
    simp [toJson, ofJson?, Json.texts?_texts]

theorem RoleExpression.nesting_le_of_ofJson? {d : Nat} {json : Json} {e : RoleExpression} (h : ofJson? d json = some e) :
    e.toJson.nesting ≤ d := by
  unfold ofJson? at h
  split at h
  · cases h
  · split at h
    · obtain ⟨iri, -, rfl⟩ := Option.map_eq_some_iff.1 h
      simp [toJson]
    · obtain ⟨roles, hroles, rfl⟩ := Option.map_eq_some_iff.1 h
      unfold Json.texts? at hroles
      split at hroles
      · simp [toJson, Json.nesting_texts_le]
      · cases hroles
    · cases h

theorem Entity.nesting_toJson (entity : Entity) : entity.toJson.nesting = 1 := by
  cases entity <;> rfl

theorem Entity.ofJson?_toJson (entity : Entity) (d : Nat) : ofJson? (d + 1) entity.toJson = some entity := by
  cases entity <;> rfl

theorem ClassExpression.listOfJson?_toJson (es : List ClassExpression) {d : Nat}
    (h : (Json.array (listToJson es)).nesting ≤ d) : listOfJson? d (.array (listToJson es)) = some es := by
  obtain ⟨k, rfl, hes⟩ := Json.exists_of_array_le h
  exact mapM_ofJson?_listToJson es hes

theorem ClassExpression.nesting_le_of_listOfJson? {d : Nat} {json : Json} {es : List ClassExpression}
    (h : listOfJson? d json = some es) : (Json.array (listToJson es)).nesting ≤ d := by
  unfold listOfJson? at h
  split at h
  · rename_i depth items
    have hnesting : ∀ e ∈ es, e.toJson.nesting ≤ depth := by
      intro e he
      obtain ⟨item, -, hitem⟩ := exists_of_mapM_eq_some h he
      exact nesting_le_of_ofJson? hitem
    simpa [listToJson_eq_map] using hnesting
  · cases h

namespace Axiom

theorem ofJson?_toJson (a : Axiom) {d : Nat} (h : a.toJson.nesting ≤ d + 2) : ofJson? (d + 2) a.toJson = some a := by
  cases a with
  | declaration entity =>
    have hentity := entity.ofJson?_toJson d
    simp [toJson, ofJson?, hentity]
  | subClassOf sub sup =>
    obtain ⟨k, hk, hfields⟩ := Json.exists_of_fields_le h
    obtain rfl : d = k := by omega
    have hsub := sub.ofJson?_toJson (hfields ("sub", sub.toJson) (by simp))
    have hsup := sup.ofJson?_toJson (hfields ("sup", sup.toJson) (by simp))
    simp [toJson, ofJson?, hsub, hsup]
  | equivalentClasses members =>
    have hmembers := @ClassExpression.listOfJson?_toJson members (d + 1) (by simpa [toJson] using h)
    simp [toJson, ofJson?, hmembers]
  | disjointClasses members =>
    have hmembers := @ClassExpression.listOfJson?_toJson members (d + 1) (by simpa [toJson] using h)
    simp [toJson, ofJson?, hmembers]
  | classAssertion type individual =>
    obtain ⟨k, hk, hfields⟩ := Json.exists_of_fields_le h
    obtain rfl : d = k := by omega
    have htype := type.ofJson?_toJson (hfields ("class", type.toJson) (by simp))
    simp [toJson, ofJson?, htype]
  | roleAssertion role subject object => rfl
  | subRoleOf sub sup =>
    obtain ⟨k, hk, hfields⟩ := Json.exists_of_fields_le h
    obtain rfl : d = k := by omega
    have hsub := sub.ofJson?_toJson (hfields ("sub", sub.toJson) (by simp))
    simp [toJson, ofJson?, hsub]
  | equivalentRoles roles => simp [toJson, ofJson?, Json.texts?_texts]
  | transitiveRole role => rfl

theorem nesting_le_of_ofJson? {d : Nat} {json : Json} {a : Axiom} (h : ofJson? d json = some a) : a.toJson.nesting ≤ d := by
  unfold ofJson? at h
  split at h
  · split at h
    · obtain ⟨entity, -, rfl⟩ := Option.map_eq_some_iff.1 h
      simp [toJson, entity.nesting_toJson]
    · obtain ⟨⟨sub, sup⟩, -, h⟩ := Option.bind_eq_some_iff.1 h
      obtain ⟨sub, hsub, h⟩ := Option.bind_eq_some_iff.1 h
      obtain ⟨sup, hsup, h⟩ := Option.bind_eq_some_iff.1 h
      obtain rfl := Option.some.inj h
      have hnesting := And.intro (ClassExpression.nesting_le_of_ofJson? hsub) (ClassExpression.nesting_le_of_ofJson? hsup)
      simpa [toJson] using hnesting
    · obtain ⟨members, hmembers, rfl⟩ := Option.map_eq_some_iff.1 h
      have hnesting := ClassExpression.nesting_le_of_listOfJson? hmembers
      simpa [toJson] using hnesting
    · obtain ⟨members, hmembers, rfl⟩ := Option.map_eq_some_iff.1 h
      have hnesting := ClassExpression.nesting_le_of_listOfJson? hmembers
      simpa [toJson] using hnesting
    · obtain ⟨⟨type, individual⟩, -, h⟩ := Option.bind_eq_some_iff.1 h
      obtain ⟨type, htype, h⟩ := Option.bind_eq_some_iff.1 h
      obtain ⟨individual, -, h⟩ := Option.bind_eq_some_iff.1 h
      obtain rfl := Option.some.inj h
      have hnesting := ClassExpression.nesting_le_of_ofJson? htype
      simpa [toJson] using hnesting
    · split at h
      · obtain ⟨role, -, h⟩ := Option.bind_eq_some_iff.1 h
        obtain ⟨subject, -, h⟩ := Option.bind_eq_some_iff.1 h
        obtain ⟨object, -, h⟩ := Option.bind_eq_some_iff.1 h
        obtain rfl := Option.some.inj h
        simp [toJson]
      · cases h
    · obtain ⟨⟨sub, sup⟩, -, h⟩ := Option.bind_eq_some_iff.1 h
      obtain ⟨sub, hsub, h⟩ := Option.bind_eq_some_iff.1 h
      obtain ⟨sup, -, h⟩ := Option.bind_eq_some_iff.1 h
      obtain rfl := Option.some.inj h
      have hnesting := RoleExpression.nesting_le_of_ofJson? hsub
      simpa [toJson] using hnesting
    · obtain ⟨roles, -, rfl⟩ := Option.map_eq_some_iff.1 h
      simp [toJson, Json.nesting_texts_le]
    · obtain ⟨role, -, rfl⟩ := Option.map_eq_some_iff.1 h
      simp [toJson]
    · cases h
  · cases h

end Axiom

/-! ### Whole texts -/

namespace ClassExpression

mutual

theorem plain_toJson : (e : ClassExpression) → e.toJson.Plain
  | named iri => by simp [toJson]
  | thing => .string _
  | nothing => .string _
  | intersection operands => by simpa [toJson] using plain_listToJson operands
  | someValues role filler => by simpa [toJson] using plain_toJson filler
  | hasValue role individual => by simp [toJson]
  | oneOf individual => by simp [toJson]
  | dataHasValue property literal => by simp [toJson, Literal.toJson]
  | dataSomeValues property range => by simpa [toJson] using range.plain_toJson

theorem plain_listToJson : (es : List ClassExpression) → ∀ json ∈ listToJson es, json.Plain
  | [] => by simp [listToJson]
  | e :: es => by simpa [listToJson] using And.intro (plain_toJson e) (plain_listToJson es)

end

end ClassExpression

theorem Axiom.plain_toJson (a : Axiom) : a.toJson.Plain := by
  cases a with
  | declaration entity => cases entity <;> simp [toJson, Entity.toJson]
  | subClassOf sub sup => simpa [toJson] using And.intro sub.plain_toJson sup.plain_toJson
  | equivalentClasses members => simpa [toJson] using ClassExpression.plain_listToJson members
  | disjointClasses members => simpa [toJson] using ClassExpression.plain_listToJson members
  | classAssertion type individual => simpa [toJson] using type.plain_toJson
  | roleAssertion role subject object => simp [toJson]
  | subRoleOf sub sup => cases sub <;> simp [toJson, RoleExpression.toJson]
  | equivalentRoles roles => simp [toJson]
  | transitiveRole role => simp [toJson]

namespace Ontology

theorem ofJson?_toJson {axioms : List Axiom} (h : (toJson axioms).nesting ≤ maxNesting) : ofJson? (toJson axioms) = some axioms := by
  obtain ⟨-, haxioms⟩ := Json.nesting_array_le.1 h
  exact mapM_map_eq_some fun a ha => Axiom.ofJson?_toJson a (haxioms _ (List.mem_map_of_mem ha))

theorem nesting_le_of_ofJson? {json : Json} {axioms : List Axiom} (h : ofJson? json = some axioms) :
    (toJson axioms).nesting ≤ maxNesting := by
  unfold ofJson? at h
  split at h
  · refine Json.nesting_array_le.2 ⟨by decide, fun json hjson => ?_⟩
    obtain ⟨a, ha, rfl⟩ := List.mem_map.1 hjson
    obtain ⟨item, -, hitem⟩ := exists_of_mapM_eq_some h ha
    exact Axiom.nesting_le_of_ofJson? hitem
  · cases h

end Ontology

/-- Axioms that are written and read again are the same axioms: all those whose JSON form has fewer than 128 arrays and objects
inside each other, and all those that have been read from any text. -/
theorem axioms_round_trip (axioms : List Axiom)
    (h : (Ontology.toJson axioms).nesting < 128 ∨ ∃ source, (Json.parse? source).bind Ontology.ofJson? = some axioms) :
    (Json.parse? (Ontology.toJson axioms).compact).bind Ontology.ofJson? = some axioms ∧
      (Json.parse? (Ontology.toJson axioms).pretty).bind Ontology.ofJson? = some axioms := by
  have hnesting : (Ontology.toJson axioms).nesting ≤ maxNesting := by
    rcases h with h | ⟨source, h⟩
    · exact Nat.le_of_lt_succ h
    · obtain ⟨json, -, hjson⟩ := Option.bind_eq_some_iff.1 h
      exact Ontology.nesting_le_of_ofJson? hjson
  have hplain : (Ontology.toJson axioms).Plain := by simp [Ontology.toJson, Axiom.plain_toJson]
  rw [hplain.parse?_compact, hplain.parse?_pretty, Option.bind_some, Ontology.ofJson?_toJson hnesting]
  exact ⟨rfl, rfl⟩

/-- An axiom with escapes and a bound that is not set, and one whose fields were given as an array. -/
theorem axioms_round_trip_array_form :
    let escaped : List Axiom := [.subClassOf (.named "\"é\n") (.dataSomeValues "p" (.length "d" (some 1) none))]
    let given : List Axiom := [.subClassOf (.named "A") .thing]
    let source := "[\x7b\"sub_class_of\": [\x7b\"class\": \"A\"\x7d, \"thing\"]\x7d]"
    ((Ontology.toJson escaped).nesting < 128 ∧
      (Json.parse? (Ontology.toJson escaped).compact).bind Ontology.ofJson? = some escaped) ∧
    ((Json.parse? source).bind Ontology.ofJson? = some given ∧
      (Json.parse? (Ontology.toJson given).pretty).bind Ontology.ofJson? = some given) := by
  intro escaped given source
  have hescaped : (Ontology.toJson escaped).nesting < 128 := by decide
  have hsource : (Json.parse? source).bind Ontology.ofJson? = some given := by decide +kernel
  exact ⟨⟨hescaped, (axioms_round_trip escaped (.inl hescaped)).1⟩, hsource, (axioms_round_trip given (.inr ⟨source, hsource⟩)).2⟩

end ELOntology
