import ELOntology.Saturation.Conclusion

/-!
# Statistics of a run

How many conclusions of each kind were processed, and how many of them changed their context.
-/

namespace ELOntology

/-- A conclusion kind with its two counts. -/
structure Tally where
  kind : ConclusionKind
  processed : Nat
  changed : Nat
deriving DecidableEq, Inhabited

/-- The tallies of the kinds that were processed at all, in the order of their first conclusion. -/
abbrev Statistics := List Tally

namespace Statistics

def add (tally : Tally) : Statistics → Statistics
  | [] => [tally]
  | t :: ts =>
    if t.kind = tally.kind then ⟨t.kind, t.processed + tally.processed, t.changed + tally.changed⟩ :: ts
    else t :: add tally ts

/-- Count one conclusion. -/
def record (kind : ConclusionKind) (changed : Bool) (s : Statistics) : Statistics :=
  s.add ⟨kind, 1, if changed then 1 else 0⟩

def merge (s t : Statistics) : Statistics := t.foldl (fun s tally => s.add tally) s

def totalProcessed (s : Statistics) : Nat := s.foldr (fun tally n => tally.processed + n) 0

def totalChanged (s : Statistics) : Nat := s.foldr (fun tally n => tally.changed + n) 0

end Statistics

end ELOntology
