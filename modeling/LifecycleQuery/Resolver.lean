import LifecycleQuery.Namespaces

/-!
# Resolving names

A label is looked up in the request's table, then in the server's own; what neither binds is left to
the server's policy. The wildcard stands for itself.
-/

namespace LifecycleQuery

/-- An expanded name, or `*`. -/
abbrev Iri := String

/-- What becomes of a label that nothing binds. -/
inductive UnknownLabel
  | fallback (space : String)
  | reject
  deriving DecidableEq, Repr

structure Resolver where
  request : Namespaces
  base : Namespaces
  unknown : UnknownLabel

namespace Resolver

/-- The namespace bound to a label; the request's binding hides the server's. -/
def space? (r : Resolver) (label : String) : Option String :=
  (r.request.get? label).or (r.base.get? label)

def resolve (r : Resolver) : Name → Except QueryError Iri
  | .all => .ok "*"
  | .qualified label part =>
    match r.space? label, r.unknown with
    | some space, _ => .ok (space ++ part)
    | none, .fallback space => .ok (space ++ part)
    | none, .reject => .error (.unknownLabel label)

/-- Resolves a name given as a text. -/
def resolveText (r : Resolver) (text : String) : Except QueryError Iri :=
  r.resolve (Name.ofText text.toList)

end Resolver

end LifecycleQuery
