import LifecycleQuery.Json
import LifecycleQuery.Condition

/-!
# Queries as JSON

How tables, values, properties and conditions are written as JSON. A choice between kinds is an
object with one member, whose key names the kind; a choice without content is a string.
-/

namespace LifecycleQuery

namespace Json

def ofText (s : String) : Json := string (some s)

def ofText? : Option String → Json
  | some s => ofText s
  | none => null

/-- An object with the given keys. -/
def record (fields : List (String × Json)) : Json := object (fields.map fun f => (some f.1, f.2))

/-- One kind out of several. -/
def variant (kind : String) (content : Json) : Json := record [(kind, content)]

def ofInt (n : Int) : Json :=
  number ⟨if n < 0 then some .minus else none, Nat.toDigits 10 n.natAbs, none, none⟩

/-- Infinity and not-a-number have no numeral. -/
def ofDouble (x : Double) : Json :=
  match Notation.json.numeral? x with
  | some n => number n
  | none => null

end Json

open Json

def Clause.kind : Clause → String
  | namespaces => "Prefix"
  | conditions => "Where"
  | properties => "Select"

def Operator.kind : Operator → String
  | equal => "Equal"
  | notEqual => "NotEqual"
  | less => "LessThan"
  | lessEqual => "LessThanOrEqual"
  | greater => "GreaterThan"
  | greaterEqual => "GreaterThanOrEqual"
  | within => "In"

def Namespaces.toJson (t : Namespaces) : Json :=
  record (t.entries.map fun e => (e.1, ofText e.2))

def Number.toJson : Number → Json
  | integer n => variant "Integer" (.ofInt n.toInt)
  | decimal x => variant "Decimal" (.ofDouble x)

def Value.toJson : Value → Json
  | iri i => variant "Iri" (ofText i)
  | boolean b => variant "Boolean" (.boolean b)
  | number n => variant "Number" n.toJson
  | string s language datatype =>
    variant "String" (record
      [("text", ofText s), ("language", ofText? language), ("datatype", ofText? datatype)])

namespace Property

mutual
def toJson : Projection → Json
  | node name children => record [("iri", ofText name), ("children", array (toJsons children))]
def toJsons : List Projection → List Json
  | [] => []
  | p :: rest => toJson p :: toJsons rest
end

end Property

namespace Condition

mutual
def toJson : Filter → Json
  | scope name inner =>
    record [("iri", ofText name), ("kind", variant "Scoped" (array (toJsons inner)))]
  | test name op values =>
    record [("iri", ofText name), ("kind", variant "Leaf" (record
      [("operator", ofText op.kind), ("values", array (values.map Value.toJson))]))]
def toJsons : List Filter → List Json
  | [] => []
  | c :: rest => toJson c :: toJsons rest
end

end Condition

end LifecycleQuery
