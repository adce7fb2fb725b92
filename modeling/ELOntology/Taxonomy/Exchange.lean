import ELOntology.Json.Value
import ELOntology.Taxonomy.Realization

/-!
# Taxonomies in JSON
-/

namespace ELOntology

def TaxonomyNode.toJson (node : TaxonomyNode) : Json :=
  .record
    [("members", .array (node.members.map .text)), ("direct_supers", .array (node.supers.map .nat)),
      ("direct_subs", .array (node.subs.map .nat))]

def Taxonomy.toJson (t : Taxonomy) : Json :=
  .record
    [("nodes", .array (t.nodes.toList.map (·.toJson))), ("top", .nat t.top), ("bottom", .nat t.bottom)]

namespace Realization

/-- A table as an object. -/
def tableToJson (entries : List (String × List String)) : Json :=
  .record (entries.map fun (name, values) => (name, .array (values.map .text)))

def toJson (r : Realization) : Json :=
  .record [("types", tableToJson r.types), ("instances", tableToJson r.instances)]

end Realization

end ELOntology
