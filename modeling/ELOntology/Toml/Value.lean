/-!
# TOML values

A document is a table.  How a table came about decides what may still be added to it: a table written inline is closed,
one with a header of its own takes no second header and no dotted keys from outside, one that only headers of other
tables imply may still get its header, and one that dotted keys imply takes more dotted keys.
-/

namespace ELOntology

inductive TableOrigin where
  | header
  | implied
  | dotted
  | inlined
deriving DecidableEq, Inhabited

inductive Toml where
  | text (value : String)
  | integer (value : Int)
  | real (spelling : String)
  | boolean (value : Bool)
  | date (spelling : String)
  | array (items : List Toml)
  | table (origin : TableOrigin) (entries : List (String × Toml))
  /-- An array of tables that each have a header. -/
  | tables (elements : List (List (String × Toml)))
deriving Inhabited

namespace Toml

/-- The keys and values of a table. -/
abbrev Entries := List (String × Toml)

def lookup (key : String) (entries : Entries) : Option Toml := (entries.find? fun e => e.1 = key).map (·.2)

/-- Put a value at a key, in the place of an earlier one. -/
def put (key : String) (value : Toml) : Entries → Entries
  | [] => [(key, value)]
  | e :: es => if e.1 = key then (key, value) :: es else e :: put key value es

/-- Change the table at the end of a path.  Missing tables on the way are made; with `dotted` they count as implied by
dotted keys, and tables with a header are not entered.  Of an array of tables the last one is entered. -/
def modifyAt (dotted : Bool) (change : TableOrigin → Entries → Option Entries) :
    List String → TableOrigin → Entries → Option Entries
  | [], origin, entries => change origin entries
  | key :: path, _, entries =>
    match lookup key entries with
    | none => do
      let origin := if dotted then TableOrigin.dotted else TableOrigin.implied
      let inner ← modifyAt dotted change path origin []
      return put key (table origin inner) entries
    | some (table origin inner) =>
      if origin = .inlined ∨ (dotted ∧ origin = .header) then none
      else do
        let inner ← modifyAt dotted change path origin inner
        return put key (table origin inner) entries
    | some (tables elements) =>
      match elements.getLast? with
      | none => none
      | some last => do
        let last ← modifyAt dotted change path .header last
        return put key (tables (elements.dropLast ++ [last])) entries
    | some _ => none

/-- Enter a value at a key, relative to a table.  The key has to be new, and a key with dots may only add to tables
that dotted keys have made. -/
def define (key : List String) (value : Toml) (entries : Entries) : Option Entries :=
  let path := key.dropLast
  let name := key.getLastD ""
  modifyAt true (fun origin entries =>
    if path ≠ [] ∧ origin ≠ .dotted then none
    else if (lookup name entries).isSome then none
    else some (put name value entries)) path .header entries

/-- Give a table a header of its own, which is possible once. -/
def openTable (key : List String) (entries : Entries) : Option Entries :=
  let name := key.getLastD ""
  modifyAt false (fun _ entries =>
    match lookup name entries with
    | none => some (put name (table .header []) entries)
    | some (table .implied inner) => some (put name (table .header inner) entries)
    | some _ => none) key.dropLast .header entries

/-- Start another table in an array of tables. -/
def openElement (key : List String) (entries : Entries) : Option Entries :=
  let name := key.getLastD ""
  modifyAt false (fun _ entries =>
    match lookup name entries with
    | none => some (put name (tables [[]]) entries)
    | some (tables elements) => some (put name (tables (elements ++ [[]])) entries)
    | some _ => none) key.dropLast .header entries

end Toml

end ELOntology
