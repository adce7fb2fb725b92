import ELOntology.Json.Value

/-!
# Writing JSON

Two layouts of the same value: `Json.compact` without any blank, and `Json.pretty` with one item a line, indented by two
spaces a level.  Inside strings only the quote, the backslash and the control characters below `0x20` are escaped.
A string without text is written as an unpaired surrogate, so that reading it gives no text again.
-/

namespace ELOntology

namespace Json

def hexChar (n : Nat) : Char := if n < 10 then Char.ofNat (48 + n) else Char.ofNat (87 + n)

def escapeChar (c : Char) : List Char :=
  if c = '"' then ['\\', '"']
  else if c = '\\' then ['\\', '\\']
  else if c = '\x08' then ['\\', 'b']
  else if c = '\x0c' then ['\\', 'f']
  else if c = '\n' then ['\\', 'n']
  else if c = '\r' then ['\\', 'r']
  else if c = '\t' then ['\\', 't']
  else if c.toNat < 0x20 then ['\\', 'u', '0', '0', hexChar (c.toNat / 16), hexChar (c.toNat % 16)]
  else [c]

def quoteText : Option String → List Char
  | some text => '"' :: text.toList.flatMap escapeChar ++ ['"']
  | none => ['"', '\\', 'u', 'd', '8', '0', '0', '"']

mutual

def compactChars : Json → List Char
  | null => "null".toList
  | bool true => "true".toList
  | bool false => "false".toList
  | number spelling => spelling.toList
  | string text => quoteText text
  | array items => '[' :: compactItems items
  | object members => '{' :: compactMembers members

/-- The items and the closing bracket. -/
def compactItems : List Json → List Char
  | [] => [']']
  | [item] => compactChars item ++ [']']
  | item :: items => compactChars item ++ ',' :: compactItems items

/-- The members and the closing brace. -/
def compactMembers : List (Option String × Json) → List Char
  | [] => ['}']
  | [(name, value)] => quoteText name ++ ':' :: compactChars value ++ ['}']
  | (name, value) :: members => quoteText name ++ ':' :: compactChars value ++ ',' :: compactMembers members

end

def compact (json : Json) : String := String.ofList json.compactChars

def newline (level : Nat) : List Char := '\n' :: List.replicate (2 * level) ' '

mutual

def prettyChars (level : Nat) : Json → List Char
  | array [] => "[]".toList
  | object [] => "\x7b\x7d".toList
  | array items => '[' :: prettyItems (level + 1) items ++ newline level ++ [']']
  | object members => '{' :: prettyMembers (level + 1) members ++ newline level ++ ['}']
  | null => "null".toList
  | bool true => "true".toList
  | bool false => "false".toList
  | number spelling => spelling.toList
  | string text => quoteText text

def prettyItems (level : Nat) : List Json → List Char
  | [] => []
  | [item] => newline level ++ prettyChars level item
  | item :: items => newline level ++ prettyChars level item ++ ',' :: prettyItems level items

def prettyMembers (level : Nat) : List (Option String × Json) → List Char
  | [] => []
  | [(name, value)] => newline level ++ quoteText name ++ ':' :: ' ' :: prettyChars level value
  | (name, value) :: members =>
    newline level ++ quoteText name ++ ':' :: ' ' :: prettyChars level value ++ ',' :: prettyMembers level members

end

def pretty (json : Json) : String := String.ofList (json.prettyChars 0)

end Json

end ELOntology
