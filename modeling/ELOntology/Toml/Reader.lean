import ELOntology.Toml.Scalar

/-!
# Reading TOML

A document is read in two steps: its lines as they are written, and the table that they define together.  A key of one
part and an array or inline table at the top level count as one level of nesting; eighty levels are too many, in a key as
in a value.  The fuel of `scanValue` and `scanLines` is more than the number of characters, which no text can use up.
-/

namespace ELOntology

namespace Toml

/-- How many parts a key may have, and how many brackets may be open at once. -/
def maxNesting : Nat := 79

/-! ### Keys -/

def isBareKey (c : Char) : Bool :=
  ('a' ≤ c && c ≤ 'z') || ('A' ≤ c && c ≤ 'Z') || isDigit c || c = '-' || c = '_'

def scanBareKey : List Char → List Char × List Char
  | [] => ([], [])
  | c :: rest => if isBareKey c then prepend c (scanBareKey rest) else ([], c :: rest)

def scanKeyPart (s : List Char) : Option (String × List Char) :=
  let read := match s with
    | '"' :: rest => scanBasic rest
    | '\'' :: rest => scanLiteral rest
    | s => if (scanBareKey s).1.isEmpty then none else some (scanBareKey s)
  read.map fun (chars, rest) => (String.ofList chars, rest)

/-- A key of at most the given number of parts, with the blanks around each of them. -/
def scanKey : Nat → List Char → Option (List String × List Char)
  | 0, _ => none
  | parts + 1, s => do
    let (part, s) ← scanKeyPart (skipSpace s)
    match skipSpace s with
    | '.' :: rest =>
      let (key, rest) ← scanKey parts rest
      return (part :: key, rest)
    | rest => return ([part], rest)

/-! ### Values -/

/-- Skip blanks, line ends and comments; a comment has to end before the text does. -/
def skipBreaks (inComment : Bool) : List Char → Option (List Char)
  | [] => if inComment then none else some []
  | '\n' :: rest => skipBreaks false rest
  | '\r' :: '\n' :: rest => skipBreaks false rest
  | c :: rest =>
    if inComment then
      if isPlain c then skipBreaks true rest else none
    else if c = '#' then skipBreaks true rest
    else if isSpace c then skipBreaks false rest
    else some (c :: rest)

def scanScalar : List Char → Option (Toml × List Char)
  | 't' :: 'r' :: 'u' :: 'e' :: rest => some (boolean true, rest)
  | 'f' :: 'a' :: 'l' :: 's' :: 'e' :: rest => some (boolean false, rest)
  | '"' :: rest => (scanString ('"' :: rest)).map fun (value, rest) => (text value, rest)
  | '\'' :: rest => (scanString ('\'' :: rest)).map fun (value, rest) => (text value, rest)
  | s => scanNumeric s

mutual

/-- A value in which at most `room` brackets are open at once. -/
def scanValue : Nat → Nat → List Char → Option (Toml × List Char)
  | 0, _, _ => none
  | fuel + 1, room, s =>
    match s, room with
    | '[' :: _, 0 => none
    | '\x7b' :: _, 0 => none
    | '[' :: rest, room + 1 => (scanItems fuel room rest).map fun (items, rest) => (array items, rest)
    | '\x7b' :: rest, room + 1 =>
      match skipSpace rest with
      | '\x7d' :: rest => some (table .inlined [], rest)
      | rest => (scanMembers fuel room [] rest).map fun (entries, rest) => (table .inlined entries, rest)
    | s, _ => scanScalar s

/-- The items of an array up to the closing bracket; a comma may follow the last one. -/
def scanItems : Nat → Nat → List Char → Option (List Toml × List Char)
  | 0, _, _ => none
  | fuel + 1, room, s => do
    match ← skipBreaks false s with
    | ']' :: rest => return ([], rest)
    | s =>
      let (item, s) ← scanValue fuel room s
      match ← skipBreaks false s with
      | ',' :: rest =>
        let (items, rest) ← scanItems fuel room rest
        return (item :: items, rest)
      | ']' :: rest => return ([item], rest)
      | _ => none

/-- The members of an inline table up to the closing brace, all on one line, added to the given entries. -/
def scanMembers : Nat → Nat → Entries → List Char → Option (Entries × List Char)
  | 0, _, _, _ => none
  | fuel + 1, room, entries, s => do
    let (key, s) ← scanKey maxNesting s
    let s ← scanChar '=' s
    let (value, s) ← scanValue fuel room (skipSpace s)
    let entries ← define key value entries
    match skipSpace s with
    | ',' :: rest => scanMembers fuel room entries rest
    | '\x7d' :: rest => return (entries, rest)
    | _ => none

end

/-! ### Lines -/

inductive Line where
  /-- A header `[key]`. -/
  | opensTable (key : List String)
  /-- A header `[[key]]`. -/
  | opensElement (key : List String)
  | defines (key : List String) (value : Toml)
deriving Inhabited

/-- The end of a line after blanks and possibly a comment. -/
def endLine (s : List Char) : Option (List Char) :=
  let s := match skipSpace s with
    | '#' :: rest => skipComment rest
    | s => s
  if s.isEmpty then some [] else newline? s

def scanHeader (s : List Char) : Option (List String × List Char) := do
  let (key, s) ← scanKey maxNesting s
  let s ← scanChar ']' s
  return (key, s)

/-- A line that is not blank. -/
def scanLine (fuel : Nat) (s : List Char) : Option (Line × List Char) :=
  match s with
  | '[' :: '[' :: rest => do
    let (key, s) ← scanHeader rest
    let s ← scanChar ']' s
    return (.opensElement key, s)
  | '[' :: rest => (scanHeader rest).map fun (key, s) => (.opensTable key, s)
  | s => do
    let (key, s) ← scanKey maxNesting s
    let s ← scanChar '=' s
    let (value, s) ← scanValue fuel maxNesting (skipSpace s)
    return (.defines key value, s)

def scanLines : Nat → List Char → Option (List Line)
  | 0, _ => none
  | fuel + 1, s =>
    if s.isEmpty then some []
    else
      match endLine s with
      | some rest => scanLines fuel rest
      | none => do
        let (line, s) ← scanLine fuel (skipSpace s)
        let s ← endLine s
        return line :: (← scanLines fuel s)

/-! ### Documents -/

/-- Take in lines one after the other.  Definitions go to the table at `header`, the last one that was opened. -/
def gather : List String → Entries → List Line → Option Entries
  | _, entries, [] => some entries
  | header, entries, line :: lines =>
    match line with
    | .opensTable key => do gather key (← openTable key entries) lines
    | .opensElement key => do gather key (← openElement key entries) lines
    | .defines key value => do
      gather header (← modifyAt false (fun _ inner => define key value inner) header .header entries) lines

/-- A byte order mark at the front does not count. -/
def dropMark : List Char → List Char
  | '\ufeff' :: rest => rest
  | s => s

/-- The table that a text defines. -/
def parse? (source : String) : Option Entries := do
  let s := dropMark source.toList
  gather [] [] (← scanLines (2 * s.length + 2) s)

end Toml

end ELOntology
