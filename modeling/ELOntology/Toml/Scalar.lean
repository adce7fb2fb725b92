import ELOntology.Json.Reader
import ELOntology.Toml.Value

/-!
# TOML scalars

Strings in their four forms, numbers and dates.  Each function takes the characters that are left and gives back what it
read with the rest.  Integers have 64 bits.  Of a real number and of a date only the spelling is kept, but it has to be
in range: a positive real number must not round to infinity, and a day has to exist in its month.
-/

namespace ELOntology

namespace Toml

/-- Blanks within a line. -/
def isSpace (c : Char) : Bool := c = ' ' || c = '\t'

def skipSpace : List Char → List Char
  | [] => []
  | c :: rest => if isSpace c then skipSpace rest else c :: rest

/-- What may stand in comments and literal strings: no control character but the tab. -/
def isPlain (c : Char) : Bool := c = '\t' || (' ' ≤ c && c ≠ '\x7f')

/-- The end of a line. -/
def newline? : List Char → Option (List Char)
  | '\n' :: rest => some rest
  | '\r' :: '\n' :: rest => some rest
  | _ => none

def skipComment : List Char → List Char
  | [] => []
  | c :: rest => if isPlain c then skipComment rest else c :: rest

/-- The characters that were read when `rest` is left of `s`. -/
def spelling (s rest : List Char) : String := String.ofList (s.take (s.length - rest.length))

/-! ### Strings -/

def prepend (c : Char) (r : List Char × List Char) : List Char × List Char := (c :: r.1, r.2)

/-- The character with the given code point, if there is one. -/
def scalar? (n : Nat) : Option Char :=
  if n < 0x110000 ∧ ¬ (0xD800 ≤ n ∧ n < 0xE000) then some (Char.ofNat n) else none

def hexNumber? (digits : List Char) : Option Nat :=
  digits.foldl (fun acc c => do return (← acc) * 16 + (← Json.hexDigit? c)) (some 0)

/-- The characters that may follow a backslash, but for the code points. -/
def escaped? : Char → Option Char
  | 'b' => some '\x08'
  | 't' => some '\t'
  | 'n' => some '\n'
  | 'f' => some '\x0c'
  | 'r' => some '\r'
  | '"' => some '"'
  | '\\' => some '\\'
  | _ => none

/-- A basic string after its opening quote. -/
def scanBasic : List Char → Option (List Char × List Char)
  | [] => none
  | '"' :: rest => some ([], rest)
  | '\\' :: 'u' :: a :: b :: c :: d :: rest => do
    let n ← hexNumber? [a, b, c, d]
    let ch ← scalar? n
    (scanBasic rest).map (prepend ch)
  | '\\' :: 'U' :: a :: b :: c :: d :: e :: f :: g :: h :: rest => do
    let n ← hexNumber? [a, b, c, d, e, f, g, h]
    let ch ← scalar? n
    (scanBasic rest).map (prepend ch)
  | '\\' :: c :: rest => do
    let ch ← escaped? c
    (scanBasic rest).map (prepend ch)
  | c :: rest => if isPlain c then (scanBasic rest).map (prepend c) else none

/-- A literal string after its opening quote. -/
def scanLiteral : List Char → Option (List Char × List Char)
  | [] => none
  | '\'' :: rest => some ([], rest)
  | c :: rest => if isPlain c then (scanLiteral rest).map (prepend c) else none

/-- Where the scan of a string of several lines stands: in its text, or in the blanks that a backslash at the end of a
line joins to the next text, before or after the first line end. -/
inductive LineState where
  | inText
  | beforeBreak
  | afterBreak
deriving DecidableEq

/-- A basic string of several lines after its opening quotes.  Up to two quotes may stand right before the closing
ones. -/
def scanBasicLines : LineState → List Char → Option (List Char × List Char)
  | _, [] => none
  | .beforeBreak, '\n' :: rest => scanBasicLines .afterBreak rest
  | .beforeBreak, '\r' :: '\n' :: rest => scanBasicLines .afterBreak rest
  | .beforeBreak, c :: rest => if isSpace c then scanBasicLines .beforeBreak rest else none
  | .afterBreak, '\n' :: rest => scanBasicLines .afterBreak rest
  | .afterBreak, '\r' :: '\n' :: rest => scanBasicLines .afterBreak rest
  | _, '"' :: '"' :: '"' :: '"' :: '"' :: rest => some (['"', '"'], rest)
  | _, '"' :: '"' :: '"' :: '"' :: rest => some (['"'], rest)
  | _, '"' :: '"' :: '"' :: rest => some ([], rest)
  | _, '\r' :: '\n' :: rest => (scanBasicLines .inText rest).map (prepend '\n')
  | _, '\n' :: rest => (scanBasicLines .inText rest).map (prepend '\n')
  | _, '\\' :: '\n' :: rest => scanBasicLines .afterBreak rest
  | _, '\\' :: '\r' :: '\n' :: rest => scanBasicLines .afterBreak rest
  | _, '\\' :: ' ' :: rest => scanBasicLines .beforeBreak rest
  | _, '\\' :: '\t' :: rest => scanBasicLines .beforeBreak rest
  | _, '\\' :: 'u' :: a :: b :: c :: d :: rest => do
    let n ← hexNumber? [a, b, c, d]
    let ch ← scalar? n
    (scanBasicLines .inText rest).map (prepend ch)
  | _, '\\' :: 'U' :: a :: b :: c :: d :: e :: f :: g :: h :: rest => do
    let n ← hexNumber? [a, b, c, d, e, f, g, h]
    let ch ← scalar? n
    (scanBasicLines .inText rest).map (prepend ch)
  | _, '\\' :: c :: rest => do
    let ch ← escaped? c
    (scanBasicLines .inText rest).map (prepend ch)
  | state, c :: rest =>
    if isPlain c then
      if state = .afterBreak ∧ isSpace c then scanBasicLines .afterBreak rest
      else (scanBasicLines .inText rest).map (prepend c)
    else none

/-- A literal string of several lines after its opening quotes. -/
def scanLiteralLines : List Char → Option (List Char × List Char)
  | [] => none
  | '\'' :: '\'' :: '\'' :: '\'' :: '\'' :: rest => some (['\'', '\''], rest)
  | '\'' :: '\'' :: '\'' :: '\'' :: rest => some (['\''], rest)
  | '\'' :: '\'' :: '\'' :: rest => some ([], rest)
  | '\r' :: '\n' :: rest => (scanLiteralLines rest).map (prepend '\n')
  | '\n' :: rest => (scanLiteralLines rest).map (prepend '\n')
  | c :: rest => if isPlain c then (scanLiteralLines rest).map (prepend c) else none

/-- A line end right after the opening quotes does not count. -/
def dropFirstBreak (s : List Char) : List Char := (newline? s).getD s

def scanString (s : List Char) : Option (String × List Char) :=
  let read := match s with
    | '"' :: '"' :: '"' :: rest => scanBasicLines .inText (dropFirstBreak rest)
    | '\'' :: '\'' :: '\'' :: rest => scanLiteralLines (dropFirstBreak rest)
    | '"' :: rest => scanBasic rest
    | '\'' :: rest => scanLiteral rest
    | _ => none
  read.map fun (chars, rest) => (String.ofList chars, rest)

/-! ### Numbers -/

/-- Digits with single underscores between them, after a digit. -/
def scanMoreDigits (digit : Char → Bool) : List Char → List Char × List Char
  | '_' :: c :: rest => if digit c then prepend c (scanMoreDigits digit rest) else ([], '_' :: c :: rest)
  | c :: rest => if digit c then prepend c (scanMoreDigits digit rest) else ([], c :: rest)
  | [] => ([], [])

/-- One or more digits with single underscores between them. -/
def scanDigits (digit : Char → Bool) : List Char → Option (List Char × List Char)
  | c :: rest => if digit c then some (prepend c (scanMoreDigits digit rest)) else none
  | [] => none

def isDigit (c : Char) : Bool := '0' ≤ c && c ≤ '9'

def isHexDigit (c : Char) : Bool := (Json.hexDigit? c).isSome

def isOctalDigit (c : Char) : Bool := '0' ≤ c && c ≤ '7'

def isBinaryDigit (c : Char) : Bool := c = '0' || c = '1'

def number (base : Nat) (digits : List Char) : Nat :=
  digits.foldl (fun acc c => acc * base + (Json.hexDigit? c).getD 0) 0

/-- A sign and the rest, whether there is one or not; `true` for a minus. -/
def scanSign : List Char → Bool × List Char
  | '+' :: rest => (false, rest)
  | '-' :: rest => (true, rest)
  | s => (false, s)

/-- The digits of a decimal integer: a zero alone, or digits that do not start with one. -/
def scanWhole : List Char → Option (List Char × List Char)
  | '0' :: rest => some (['0'], rest)
  | s => scanDigits isDigit s

def inRange (n : Int) : Bool := -9223372036854775808 ≤ n && n ≤ 9223372036854775807

def scanInteger (s : List Char) : Option (Int × List Char) := do
  let (n, rest) ← match s with
    | '0' :: 'x' :: rest => (scanDigits isHexDigit rest).map fun (ds, rest) => ((number 16 ds : Int), rest)
    | '0' :: 'o' :: rest => (scanDigits isOctalDigit rest).map fun (ds, rest) => ((number 8 ds : Int), rest)
    | '0' :: 'b' :: rest => (scanDigits isBinaryDigit rest).map fun (ds, rest) => ((number 2 ds : Int), rest)
    | s =>
      let (minus, rest) := scanSign s
      (scanWhole rest).map fun (ds, rest) =>
        let n : Int := number 10 ds
        (if minus then -n else n, rest)
  if inRange n then some (n, rest) else none

/-- Whether `digits · 10 ^ exponent` rounds to infinity as a real number of 64 bits.  The least such number lies halfway
between the greatest finite one and the next power of two. -/
def overflows (digits : List Char) (exponent : Int) : Bool :=
  let mantissa := number 10 digits
  if mantissa = 0 then false
  else
    let size : Int := (Nat.toDigits 10 mantissa).length + exponent
    if size < 300 then false
    else if 320 < size then true
    else
      let limit := Nat.pow 2 1024 - Nat.pow 2 970
      if 0 ≤ exponent then decide (limit ≤ mantissa * Nat.pow 10 exponent.toNat)
      else decide (limit * Nat.pow 10 (-exponent).toNat ≤ mantissa)

def scanExponent : List Char → Option (Int × List Char)
  | e :: rest =>
    if e = 'e' ∨ e = 'E' then
      let (minus, rest) := scanSign rest
      (scanDigits isDigit rest).map fun (ds, rest) =>
        let n : Int := number 10 ds
        (if minus then -n else n, rest)
    else none
  | [] => none

/-- The digits after a point. -/
def scanFraction : List Char → Option (List Char × List Char)
  | '.' :: rest => scanDigits isDigit rest
  | _ => none

/-- A real number; the answer is what is left. -/
def skipReal (s : List Char) : Option (List Char) := do
  let (minus, s) := scanSign s
  match s with
  | 'i' :: 'n' :: 'f' :: rest => return rest
  | 'n' :: 'a' :: 'n' :: rest => return rest
  | _ =>
    let (whole, s) ← scanWhole s
    let (digits, exponent, rest) ← match scanFraction s with
      | some (fraction, s) =>
        let (exponent, rest) := match scanExponent s with
          | some found => found
          | none => (0, s)
        some (whole ++ fraction, exponent - (fraction.length : Int), rest)
      | none => (scanExponent s).map fun (exponent, rest) => (whole, exponent, rest)
    if !minus && overflows digits exponent then none else some rest

/-! ### Dates -/

/-- A number of exactly so many digits. -/
def scanFixed : Nat → List Char → Option (Nat × List Char)
  | n, s =>
    let digits := s.take n
    if digits.length = n ∧ digits.all isDigit then some (number 10 digits, s.drop n) else none

def scanChar (c : Char) : List Char → Option (List Char)
  | d :: rest => if c = d then some rest else none
  | [] => none

def scanWithin (digits low high : Nat) (s : List Char) : Option (Nat × List Char) := do
  let (n, rest) ← scanFixed digits s
  if low ≤ n ∧ n ≤ high then some (n, rest) else none

def daysIn (year month : Nat) : Nat :=
  if month = 2 then
    if year % 4 = 0 ∧ (year % 100 ≠ 0 ∨ year % 400 = 0) then 29 else 28
  else if month = 4 ∨ month = 6 ∨ month = 9 ∨ month = 11 then 30
  else 31

def skipDay (s : List Char) : Option (List Char) := do
  let (year, s) ← scanFixed 4 s
  let s ← scanChar '-' s
  let (month, s) ← scanWithin 2 1 12 s
  let s ← scanChar '-' s
  let (_, s) ← scanWithin 2 1 (daysIn year month) s
  return s

def skipFraction (s : List Char) : List Char :=
  match s with
  | '.' :: c :: rest => if isDigit c then rest.dropWhile isDigit else s
  | _ => s

def skipTime (s : List Char) : Option (List Char) := do
  let (_, s) ← scanWithin 2 0 23 s
  let s ← scanChar ':' s
  let (_, s) ← scanWithin 2 0 59 s
  let s ← scanChar ':' s
  let (_, s) ← scanWithin 2 0 60 s
  return skipFraction s

def skipOffset (s : List Char) : Option (List Char) :=
  match s with
  | 'Z' :: rest => some rest
  | 'z' :: rest => some rest
  | c :: rest =>
    if c = '+' ∨ c = '-' then do
      let (_, rest) ← scanWithin 2 0 23 rest
      let rest ← scanChar ':' rest
      let (_, rest) ← scanWithin 2 0 59 rest
      return rest
    else none
  | [] => none

/-- A day, a time, or both, and then possibly with an offset; the answer is what is left. -/
def skipDate (s : List Char) : Option (List Char) :=
  match skipDay s with
  | none => skipTime s
  | some rest =>
    match rest with
    | c :: after =>
      if c = 'T' ∨ c = 't' ∨ c = ' ' then
        match skipTime after with
        | some after => some ((skipOffset after).getD after)
        | none => some rest
      else some rest
    | [] => some []

/-- A date or a number. -/
def scanNumeric (s : List Char) : Option (Toml × List Char) :=
  match skipDate s with
  | some rest => some (date (spelling s rest), rest)
  | none =>
    match skipReal s with
    | some rest => some (real (spelling s rest), rest)
    | none => (scanInteger s).map fun (n, rest) => (integer n, rest)

end Toml

end ELOntology
