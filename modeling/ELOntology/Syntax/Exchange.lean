import ELOntology.Json.Value
import ELOntology.Syntax.Axiom

/-!
# The JSON form of axioms

A variant is an object with one member, the name of the variant and its content; the variants without content may also
be written as a string.  Several fields are an object, or an array in the order given here.  Reading counts the arrays
and objects it is inside of: `maxNesting` of them is the most that a list of axioms may use.  What stands under a name
that no field has is not looked at, and not counted.
-/

namespace ELOntology

/-- The number of arrays and objects that may be open at once. -/
def maxNesting : Nat := 127

/-! ### Writing -/

def Json.texts (items : List String) : Json := .array (items.map .text)

def Literal.toJson (l : Literal) : Json :=
  .record [("lexical", .text l.lexical), ("datatype", .text l.datatype)]

def DataRange.boundJson : Option UInt32 → Json
  | some n => .nat n.toNat
  | none => .null

def DataRange.toJson : DataRange → Json
  | datatype iri => .record [("datatype", .text iri)]
  | length iri min max => .record [("length_restriction", .record
      [("datatype", .text iri), ("min_length", boundJson min), ("max_length", boundJson max)])]

namespace ClassExpression

mutual

def toJson : ClassExpression → Json
  | named iri => .record [("class", .text iri)]
  | thing => .text "thing"
  | nothing => .text "nothing"
  | intersection operands => .record [("intersection_of", .array (listToJson operands))]
  | someValues role filler =>
    .record [("some_values_from", .record [("property", .text role), ("filler", filler.toJson)])]
  | hasValue role individual =>
    .record [("has_value", .record [("property", .text role), ("individual", .text individual)])]
  | oneOf individual => .record [("one_of", .text individual)]
  | dataHasValue property literal =>
    .record [("data_has_value", .record [("property", .text property), ("literal", literal.toJson)])]
  | dataSomeValues property range =>
    .record [("data_some_values_from", .record [("property", .text property), ("range", range.toJson)])]

def listToJson : List ClassExpression → List Json
  | [] => []
  | e :: es => e.toJson :: listToJson es

end

end ClassExpression

def RoleExpression.toJson : RoleExpression → Json
  | role iri => .record [("property", .text iri)]
  | chain roles => .record [("chain", Json.texts roles)]

def Entity.toJson : Entity → Json
  | namedClass iri => .record [("class", .text iri)]
  | objectProperty iri => .record [("object_property", .text iri)]
  | individual iri => .record [("named_individual", .text iri)]

def Axiom.toJson : Axiom → Json
  | declaration entity => .record [("declaration", entity.toJson)]
  | subClassOf sub sup => .record [("sub_class_of", .record [("sub", sub.toJson), ("sup", sup.toJson)])]
  | equivalentClasses members => .record [("equivalent_classes", .array (ClassExpression.listToJson members))]
  | disjointClasses members => .record [("disjoint_classes", .array (ClassExpression.listToJson members))]
  | classAssertion type individual =>
    .record [("class_assertion", .record [("class", type.toJson), ("individual", .text individual)])]
  | roleAssertion role subject object =>
    .record [("object_property_assertion", .record
      [("property", .text role), ("subject", .text subject), ("object", .text object)])]
  | subRoleOf sub sup => .record [("sub_object_property_of", .record [("sub", sub.toJson), ("sup", .text sup)])]
  | equivalentRoles roles => .record [("equivalent_object_properties", Json.texts roles)]
  | transitiveRole role => .record [("transitive_object_property", .text role)]

/-! ### Reading

The first argument of a reader is the number of arrays and objects that may still be opened. -/

/-- The name and the content of a variant written as an object with one member. -/
def Json.variant? : Json → Option (String × Json)
  | .object [(some name, content)] => some (name, content)
  | _ => none

def Json.texts? : Nat → Json → Option (List String)
  | _ + 1, .array items => items.mapM Json.text?
  | _, _ => none

def Literal.ofJson? : Nat → Json → Option Literal
  | 0, _ => none
  | _ + 1, json =>
    match json.fields? ["lexical", "datatype"] with
    | some [some lexical, some datatype] => do return ⟨← lexical.text?, ← datatype.text?⟩
    | _ => none

/-- An optional bound: nothing, `null`, or a number of 32 bits without sign, fraction and exponent. -/
def DataRange.bound? : Option Json → Option (Option UInt32)
  | none | some .null => some none
  | some json => do
    let n ← json.nat?
    if n < 4294967296 then some (some (UInt32.ofNat n)) else none

def DataRange.ofJson? : Nat → Json → Option DataRange
  | 0, _ => none
  | depth + 1, json =>
    match json.variant? with
    | some ("datatype", content) => content.text?.map datatype
    | some ("length_restriction", content) =>
      if depth = 0 then none
      else
        match content.fields? ["datatype", "min_length", "max_length"] with
        | some [some iri, min, max] => do return length (← iri.text?) (← bound? min) (← bound? max)
        | _ => none
    | _ => none

/-- The two fields of a variant that has exactly two, each of them required. -/
def Json.pair? (first second : String) (content : Json) : Option (Json × Json) :=
  match content.fields? [first, second] with
  | some [some a, some b] => some (a, b)
  | _ => none

def ClassExpression.ofJson? : Nat → Json → Option ClassExpression
  | _, .string (some "thing") => some thing
  | _, .string (some "nothing") => some nothing
  | 1, json =>
    match json.variant? with
    | some ("class", content) => content.text?.map named
    | some ("one_of", content) => content.text?.map oneOf
    | some ("thing", .null) => some thing
    | some ("nothing", .null) => some nothing
    | _ => none
  | depth + 2, json =>
    match json.variant? with
    | some ("class", content) => content.text?.map named
    | some ("one_of", content) => content.text?.map oneOf
    | some ("thing", .null) => some thing
    | some ("nothing", .null) => some nothing
    | some ("intersection_of", .array items) => (items.mapM (ofJson? depth)).map intersection
    | some ("some_values_from", content) => do
      let (role, filler) ← content.pair? "property" "filler"
      return someValues (← role.text?) (← ofJson? depth filler)
    | some ("has_value", content) => do
      let (role, individual) ← content.pair? "property" "individual"
      return hasValue (← role.text?) (← individual.text?)
    | some ("data_has_value", content) => do
      let (property, literal) ← content.pair? "property" "literal"
      return dataHasValue (← property.text?) (← Literal.ofJson? depth literal)
    | some ("data_some_values_from", content) => do
      let (property, range) ← content.pair? "property" "range"
      return dataSomeValues (← property.text?) (← DataRange.ofJson? depth range)
    | _ => none
  | 0, _ => none

def RoleExpression.ofJson? : Nat → Json → Option RoleExpression
  | 0, _ => none
  | depth + 1, json =>
    match json.variant? with
    | some ("property", content) => content.text?.map role
    | some ("chain", content) => (Json.texts? depth content).map chain
    | _ => none

def Entity.ofJson? : Nat → Json → Option Entity
  | 0, _ => none
  | _ + 1, json =>
    match json.variant? with
    | some ("class", content) => content.text?.map namedClass
    | some ("object_property", content) => content.text?.map objectProperty
    | some ("named_individual", content) => content.text?.map individual
    | _ => none

def ClassExpression.listOfJson? : Nat → Json → Option (List ClassExpression)
  | depth + 1, .array items => items.mapM (ClassExpression.ofJson? depth)
  | _, _ => none

def Axiom.ofJson? : Nat → Json → Option Axiom
  | depth + 2, json =>
    match json.variant? with
    | some ("declaration", content) => (Entity.ofJson? (depth + 1) content).map declaration
    | some ("sub_class_of", content) => do
      let (sub, sup) ← content.pair? "sub" "sup"
      return subClassOf (← ClassExpression.ofJson? depth sub) (← ClassExpression.ofJson? depth sup)
    | some ("equivalent_classes", content) => (ClassExpression.listOfJson? (depth + 1) content).map equivalentClasses
    | some ("disjoint_classes", content) => (ClassExpression.listOfJson? (depth + 1) content).map disjointClasses
    | some ("class_assertion", content) => do
      let (type, individual) ← content.pair? "class" "individual"
      return classAssertion (← ClassExpression.ofJson? depth type) (← individual.text?)
    | some ("object_property_assertion", content) =>
      match content.fields? ["property", "subject", "object"] with
      | some [some role, some subject, some object] => do
        return roleAssertion (← role.text?) (← subject.text?) (← object.text?)
      | _ => none
    | some ("sub_object_property_of", content) => do
      let (sub, sup) ← content.pair? "sub" "sup"
      return subRoleOf (← RoleExpression.ofJson? depth sub) (← sup.text?)
    | some ("equivalent_object_properties", content) => (Json.texts? (depth + 1) content).map equivalentRoles
    | some ("transitive_object_property", content) => content.text?.map transitiveRole
    | _ => none
  | _, _ => none

namespace Ontology

/-- A list of axioms in JSON. -/
def toJson (axioms : List Axiom) : Json := .array (axioms.map Axiom.toJson)

def ofJson? : Json → Option (List Axiom)
  | .array items => items.mapM (Axiom.ofJson? (maxNesting - 1))
  | _ => none

end Ontology

end ELOntology
