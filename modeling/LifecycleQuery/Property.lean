import LifecycleQuery.Resolver
import LifecycleQuery.Value

/-!
# Properties

A property is a name with the properties wanted of what it leads to. As a clause writes it the names
are `Name`s; a `Projection` is the resolved form. Names are listed in pre-order, a property before
its children.
-/

namespace LifecycleQuery

inductive Property (ν : Type)
  | node (name : ν) (children : List (Property ν))
  deriving Repr

/-- A property with its names resolved. -/
abbrev Projection := Property Iri

namespace Property

variable {ν μ : Type}

def name : Property ν → ν
  | node name _ => name

def children : Property ν → List (Property ν)
  | node _ children => children

def isScoped (p : Property ν) : Bool := !p.children.isEmpty

def isWildcard (p : Projection) : Bool := p.name == "*"

mutual
/-- The names in pre-order. -/
def names : Property ν → List ν
  | node name children => name :: namesAll children
def namesAll : List (Property ν) → List ν
  | [] => []
  | p :: rest => names p ++ namesAll rest
end

mutual
/-- Every name put through `f`, those of the children before the property's own. -/
def resolve (f : ν → Except QueryError μ) : Property ν → Except QueryError (Property μ)
  | node name children =>
    match resolveAll f children with
    | .error e => .error e
    | .ok resolved => (f name).map fun n => node n resolved
def resolveAll (f : ν → Except QueryError μ) :
    List (Property ν) → Except QueryError (List (Property μ))
  | [] => .ok []
  | p :: rest =>
    match resolve f p with
    | .error e => .error e
    | .ok q => (resolveAll f rest).map (q :: ·)
end

/-! ## Written form -/

/-- A resolved name: the wildcard bare, an IRI in angle brackets. -/
def nameText (name : Iri) : List Char := if name = "*" then ['*'] else Value.angled name

mutual
/-- Children stand in braces, with commas between them. -/
def text : Projection → List Char
  | node name [] => nameText name
  | node name (p :: rest) =>
    nameText name ++ '{' :: (text p ++ textTail rest) ++ ['}']
/-- The texts with a comma before each. -/
def textTail : List Projection → List Char
  | [] => []
  | p :: rest => ',' :: text p ++ textTail rest
end

/-- The texts with commas between them. -/
def textAll : List Projection → List Char
  | [] => []
  | p :: rest => text p ++ textTail rest

def render (p : Projection) : String := String.ofList p.text

end Property

end LifecycleQuery
