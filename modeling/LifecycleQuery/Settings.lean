import LifecycleQuery.Resolver

/-!
# Settings of a query

What a server decides about the queries it takes: the policy for labels that nothing binds, its own
namespaces, and how deep clauses may nest. Settings are built by changes made one after another to
the settings for a default namespace.
-/

namespace LifecycleQuery

structure Settings where
  unknown : UnknownLabel
  base : Namespaces
  maxNesting : Nat

namespace Settings

def defaultNesting : Nat := 32

/-- Unknown labels fall back to `space`. -/
def ofDefault (space : String) : Settings := ⟨.fallback space, .empty, defaultNesting⟩

inductive Change
  | unknown (policy : UnknownLabel)
  | bind (label space : String)
  | bindAll (table : Namespaces)
  | nesting (n : Nat)

def change (s : Settings) : Change → Settings
  | .unknown policy => { s with unknown := policy }
  | .bind label space => { s with base := s.base.insert label space }
  | .bindAll table => { s with base := s.base.insertAll table.entries }
  | .nesting n => { s with maxNesting := n }

def build (space : String) (changes : List Change) : Settings :=
  changes.foldl change (ofDefault space)

/-- How names resolve for a request with the given table. -/
def resolver (s : Settings) (request : Namespaces) : Resolver := ⟨request, s.base, s.unknown⟩

end Settings

end LifecycleQuery
