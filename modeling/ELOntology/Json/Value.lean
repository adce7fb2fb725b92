/-!
# JSON values

A JSON text as a tree.  Nothing of the text is interpreted away: numbers keep their spelling, objects keep every
member in the order written, repeated names included.  A string literal may hold `\u` escapes that leave a surrogate
unpaired; such a literal is legal JSON but denotes no text, and stands as `none`.
-/

namespace ELOntology

inductive Json where
  | null
  | bool (value : Bool)
  | number (spelling : String)
  | string (text : Option String)
  | array (items : List Json)
  | object (members : List (Option String × Json))
deriving Inhabited

namespace Json

/-- A string value. -/
def text (s : String) : Json := string (some s)

/-- A natural number in decimal. -/
def nat (n : Nat) : Json := number (toString n)

/-- An object with the given names. -/
def record (members : List (String × Json)) : Json := object (members.map fun (name, v) => (some name, v))

def isNull : Json → Bool
  | null => true
  | _ => false

def text? : Json → Option String
  | string t => t
  | _ => none

def bool? : Json → Option Bool
  | bool b => some b
  | _ => none

def items? : Json → Option (List Json)
  | array items => some items
  | _ => none

/-- The number denoted by a spelling without sign, fraction and exponent. -/
def nat? : Json → Option Nat
  | number spelling =>
    let digits := spelling.toList
    if digits ≠ [] ∧ digits.all Char.isDigit then some (Nat.ofDigitChars 10 digits 0) else none
  | _ => none

/-- The value of the last member with the given name. -/
def member? (name : String) : Json → Option Json
  | object members => (members.reverse.find? fun m => m.1 = some name).map (·.2)
  | _ => none

/-- The members of an object by name, or the items of an array by position: `none` at the place of a name stands for a
missing one.  Unknown names are passed over; a repeated name, a name without text and an item too many are refused. -/
def fields? (names : List String) : Json → Option (List (Option Json))
  | object members =>
    if members.any (·.1.isNone) then none
    else names.mapM fun name =>
      match members.filter fun m => m.1 = some name with
      | [] => some none
      | [m] => some (some m.2)
      | _ => none
  | array items =>
    if items.length ≤ names.length then
      some (items.map some ++ List.replicate (names.length - items.length) none)
    else none
  | _ => none

end Json

end ELOntology
