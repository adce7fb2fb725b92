import ELOntology.Json.Value

/-!
# Reading JSON

Strict JSON: no byte order mark, no comments, no trailing commas and nothing but blanks after the value.  Blanks are
space, tab, line feed and carriage return.  Raw control characters are refused inside strings.

Each function takes the characters that are left and gives back what it read with the rest.  Fuel bounds the nesting
and the length of lists together; `Json.parse?` supplies two units for every character, which no text can use up.
-/

namespace ELOntology

namespace Json

def isBlank (c : Char) : Bool := c = ' ' || c = '\t' || c = '\n' || c = '\r'

def skipBlank : List Char → List Char
  | [] => []
  | c :: rest => if isBlank c then skipBlank rest else c :: rest

/-! ### Strings -/

def hexDigit? (c : Char) : Option Nat :=
  if '0' ≤ c ∧ c ≤ '9' then some (c.toNat - 48)
  else if 'a' ≤ c ∧ c ≤ 'f' then some (c.toNat - 87)
  else if 'A' ≤ c ∧ c ≤ 'F' then some (c.toNat - 55)
  else none

def hexUnit? (a b c d : Char) : Option Nat := do
  return ((← hexDigit? a) * 16 + (← hexDigit? b)) * 256 + (← hexDigit? c) * 16 + (← hexDigit? d)

def isHighSurrogate (unit : Nat) : Bool := 0xD800 ≤ unit && unit < 0xDC00

def isLowSurrogate (unit : Nat) : Bool := 0xDC00 ≤ unit && unit < 0xE000

/-- The character that a pair of surrogates stands for. -/
def pairedChar (high low : Nat) : Char := Char.ofNat (0x10000 + (high - 0xD800) * 0x400 + (low - 0xDC00))

/-- The character that a backslash and a letter stand for. -/
def escapedChar? : Char → Option Char
  | '"' => some '"'
  | '\\' => some '\\'
  | '/' => some '/'
  | 'b' => some '\x08'
  | 'f' => some '\x0c'
  | 'n' => some '\n'
  | 'r' => some '\r'
  | 't' => some '\t'
  | _ => none

/-- The code units before the closing quote, and what follows it.  A character outside of an escape is one unit, whatever
its size. -/
def scanUnits : List Char → Option (List Nat × List Char)
  | [] => none
  | '"' :: rest => some ([], rest)
  | '\\' :: 'u' :: a :: b :: c :: d :: rest =>
    match hexUnit? a b c d with
    | some unit => (scanUnits rest).map fun (units, rest) => (unit :: units, rest)
    | none => none
  | '\\' :: c :: rest =>
    match escapedChar? c with
    | some e => (scanUnits rest).map fun (units, rest) => (e.toNat :: units, rest)
    | none => none
  | c :: rest => if c.toNat < 0x20 then none else (scanUnits rest).map fun (units, rest) => (c.toNat :: units, rest)

/-- The characters of a list of code units: a high surrogate and the low surrogate after it are one character, and
every surrogate has to be in such a pair. -/
def pairSurrogates : List Nat → Option (List Char)
  | [] => some []
  | [unit] => if isHighSurrogate unit || isLowSurrogate unit then none else some [Char.ofNat unit]
  | unit :: next :: rest =>
    if isHighSurrogate unit then
      if isLowSurrogate next then (pairSurrogates rest).map (pairedChar unit next :: ·) else none
    else if isLowSurrogate unit then none
    else (pairSurrogates (next :: rest)).map (Char.ofNat unit :: ·)

/-! ### Numbers -/

def isDigit (c : Char) : Bool := '0' ≤ c && c ≤ '9'

/-- A non-empty run of digits. -/
def scanDigits (s : List Char) : Option (List Char × List Char) :=
  match s.span isDigit with
  | ([], _) => none
  | run => some run

/-- The integer part without its sign: a zero, or digits that do not start with one. -/
def scanWhole : List Char → Option (List Char × List Char)
  | '0' :: rest => some (['0'], rest)
  | s => scanDigits s

def scanFraction : List Char → Option (List Char × List Char)
  | '.' :: rest => (scanDigits rest).map fun (ds, tail) => ('.' :: ds, tail)
  | s => some ([], s)

def scanExponent : List Char → Option (List Char × List Char)
  | e :: rest =>
    if e = 'e' ∨ e = 'E' then
      match rest with
      | '+' :: rest => (scanDigits rest).map fun (ds, tail) => (e :: '+' :: ds, tail)
      | '-' :: rest => (scanDigits rest).map fun (ds, tail) => (e :: '-' :: ds, tail)
      | rest => (scanDigits rest).map fun (ds, tail) => (e :: ds, tail)
    else some ([], e :: rest)
  | [] => some ([], [])

def scanUnsigned (s : List Char) : Option (List Char × List Char) := do
  let (whole, s) ← scanWhole s
  let (fraction, s) ← scanFraction s
  let (exponent, s) ← scanExponent s
  return (whole ++ fraction ++ exponent, s)

def scanNumber : List Char → Option (List Char × List Char)
  | '-' :: rest => (scanUnsigned rest).map fun (ds, tail) => ('-' :: ds, tail)
  | s => scanUnsigned s

/-! ### Values -/

/-- A string literal after its opening quote. -/
def scanText (s : List Char) : Option (Option String × List Char) :=
  (scanUnits s).map fun (units, rest) => ((pairSurrogates units).map String.ofList, rest)

mutual

def scanValue : Nat → List Char → Option (Json × List Char)
  | 0, _ => none
  | fuel + 1, s =>
    match skipBlank s with
    | 'n' :: 'u' :: 'l' :: 'l' :: rest => some (null, rest)
    | 't' :: 'r' :: 'u' :: 'e' :: rest => some (bool true, rest)
    | 'f' :: 'a' :: 'l' :: 's' :: 'e' :: rest => some (bool false, rest)
    | '"' :: rest => (scanText rest).map fun (text, rest) => (string text, rest)
    | '[' :: rest =>
      match skipBlank rest with
      | ']' :: rest => some (array [], rest)
      | rest => (scanItems fuel rest).map fun (items, rest) => (array items, rest)
    | '{' :: rest =>
      match skipBlank rest with
      | '}' :: rest => some (object [], rest)
      | rest => (scanMembers fuel rest).map fun (members, rest) => (object members, rest)
    | s => (scanNumber s).map fun (spelling, rest) => (number (String.ofList spelling), rest)

/-- The items of an array that is not empty, with the closing bracket. -/
def scanItems : Nat → List Char → Option (List Json × List Char)
  | 0, _ => none
  | fuel + 1, s => do
    let (item, s) ← scanValue fuel s
    match skipBlank s with
    | ',' :: rest =>
      let (items, rest) ← scanItems fuel rest
      return (item :: items, rest)
    | ']' :: rest => return ([item], rest)
    | _ => none

/-- The members of an object that is not empty, with the closing brace. -/
def scanMembers : Nat → List Char → Option (List (Option String × Json) × List Char)
  | 0, _ => none
  | fuel + 1, s =>
    match skipBlank s with
    | '"' :: rest => do
      let (name, rest) ← scanText rest
      match skipBlank rest with
      | ':' :: rest =>
        let (value, rest) ← scanValue fuel rest
        match skipBlank rest with
        | ',' :: rest =>
          let (members, rest) ← scanMembers fuel rest
          return ((name, value) :: members, rest)
        | '}' :: rest => return ([(name, value)], rest)
        | _ => none
      | _ => none
    | _ => none

end

/-- The value written in a text. -/
def parse? (source : String) : Option Json :=
  let s := source.toList
  match scanValue (2 * s.length + 2) s with
  | some (value, rest) => if (skipBlank rest).isEmpty then some value else none
  | none => none

end Json

end ELOntology
