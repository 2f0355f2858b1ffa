import LifecycleQuery.Service

/-!
# Building services

A service is built like the settings of its queries, with changes of its own for the namespaces that
every lifecycle server knows, the page size and the length limit. A page size of zero is raised to
one.
-/

namespace LifecycleQuery

/-- The namespaces of the lifecycle vocabularies, under their usual labels. -/
def wellKnown : List Binding :=
  [("rdf", "http://www.w3.org/1999/02/22-rdf-syntax-ns#"),
    ("rdfs", "http://www.w3.org/2000/01/rdf-schema#"),
    ("xsd", "http://www.w3.org/2001/XMLSchema#"),
    ("dcterms", "http://purl.org/dc/terms/"),
    ("foaf", "http://xmlns.com/foaf/0.1/"),
    ("oslc", "http://open-services.net/ns/core#"),
    ("oslc_rm", "http://open-services.net/ns/rm#"),
    ("oslc_cm", "http://open-services.net/ns/cm#"),
    ("oslc_qm", "http://open-services.net/ns/qm#")]

def wellKnownNamespaces : Namespaces := .ofList wellKnown

namespace Service

def defaultSize : UInt64 := 50

def defaultLimit : Nat := 4096

def ofDefault (space : String) : Service := ⟨.ofDefault space, defaultSize, defaultLimit⟩

inductive Change
  | settings (c : Settings.Change)
  | wellKnown
  | pageSize (n : UInt64)
  | clauseLimit (n : Nat)

def change (s : Service) : Change → Service
  | .settings c => { s with settings := s.settings.change c }
  | .wellKnown => { s with settings := s.settings.change (.bindAll wellKnownNamespaces) }
  | .pageSize n => { s with defaultPageSize := max n 1 }
  | .clauseLimit n => { s with clauseLimit := n }

def build (space : String) (changes : List Change) : Service :=
  changes.foldl change (ofDefault space)

end Service

end LifecycleQuery
