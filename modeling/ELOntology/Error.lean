/-!
# Errors

One type for each way in which a request can fail, with its diagnostic code and its wording.  An inconsistent ontology
is not an error: it shows in the answers.
-/

namespace ELOntology

/-- Why an axiom cannot be indexed. -/
inductive IndexError where
  /-- Two distinct conjuncts have the same structural hash, so their order is not determined. -/
  | hashCollision (first second : String) (hash : UInt64)
  | emptyIntersection
  | emptyChain
deriving DecidableEq, Inhabited

/-- What is wrong with a taxonomy. -/
inductive TaxonomyError where
  | cycle (node : String)
  /-- `redundant` is listed directly above `sub` though it is above `via`, which is listed too. -/
  | redundantEdge (sub redundant via : String)
  /-- One of two nodes names the other as a neighbour, but not the other way round. -/
  | linkMismatch (node other : String)
  | missingClass (iri : String)
  | duplicateMember (iri : String)
  /-- The table of classes sends a class to a node that does not hold it. -/
  | lookupMismatch (iri : String)
deriving DecidableEq, Inhabited

/-- Why a configuration cannot be loaded, saved or used. -/
inductive ConfigError where
  | read (path : String)
  | write (path : String)
  | parse (path : String)
  | noWorkers
  | noTrace
deriving DecidableEq, Inhabited

inductive ReasonerError where
  | index (error : IndexError)
  | interrupted (stage : String)
  | taxonomy (error : TaxonomyError)
  | config (error : ConfigError)
deriving DecidableEq, Inhabited

/-- The lower-case hexadecimal digits of a word, all sixteen of them. -/
def hexWord (x : UInt64) : String :=
  let digits := Nat.toDigits 16 x.toNat
  String.ofList (List.replicate (16 - digits.length) '0' ++ digits)

namespace IndexError

def code : IndexError → String
  | hashCollision .. => "el::index::hash_collision"
  | emptyIntersection => "el::index::empty_intersection"
  | emptyChain => "el::index::empty_chain"

def message : IndexError → String
  | hashCollision first second hash =>
    "structural hash collision between `" ++ first ++ "` and `" ++ second ++ "` (hash 0x" ++ hexWord hash ++ ")"
  | emptyIntersection => "empty intersection of class expressions"
  | emptyChain => "empty object property chain"

end IndexError

namespace TaxonomyError

def code : TaxonomyError → String
  | cycle _ => "el::taxonomy::cycle"
  | redundantEdge .. => "el::taxonomy::redundant_edge"
  | linkMismatch .. => "el::taxonomy::link_mismatch"
  | missingClass _ => "el::taxonomy::missing_class"
  | duplicateMember _ => "el::taxonomy::duplicate_member"
  | lookupMismatch _ => "el::taxonomy::index_mismatch"

def message : TaxonomyError → String
  | cycle node => "taxonomy contains a cycle through node `" ++ node ++ "`"
  | redundantEdge sub redundant via =>
    "redundant direct edge `" ++ sub ++ "` -> `" ++ redundant ++ "`, already implied through `" ++ via ++ "`"
  | linkMismatch node other => "asymmetric link between `" ++ node ++ "` and `" ++ other ++ "`"
  | missingClass iri => "indexed class `" ++ iri ++ "` is missing from the taxonomy"
  | duplicateMember iri => "class `" ++ iri ++ "` belongs to more than one taxonomy node"
  | lookupMismatch iri => "node index for `" ++ iri ++ "` points to a node that does not contain it"

end TaxonomyError

namespace ConfigError

def code : ConfigError → String
  | read _ => "el::config::read"
  | write _ => "el::config::write"
  | parse _ => "el::config::parse"
  | noWorkers | noTrace => "el::config::invalid"

def message : ConfigError → String
  | read path => "failed to read config file " ++ path
  | write path => "failed to write config file " ++ path
  | parse path => "failed to parse config file " ++ path
  | noWorkers => "invalid configuration: workers must be at least 1"
  | noTrace => "invalid configuration: trace_limit must be positive when set"

end ConfigError

namespace ReasonerError

def code : ReasonerError → String
  | index e => e.code
  | interrupted _ => "el::saturation::interrupted"
  | taxonomy e => e.code
  | config e => e.code

def message : ReasonerError → String
  | index e => e.message
  | interrupted stage => "saturation interrupted during stage `" ++ stage ++ "`"
  | taxonomy e => e.message
  | config e => e.message

def isInterrupted : ReasonerError → Bool
  | interrupted _ => true
  | _ => false

end ReasonerError

end ELOntology
