import LifecycleQuery.Double.Stepwise
import LifecycleQuery.Json.Encode
import LifecycleQuery.Json.Scan

/-!
# Queries from JSON

Reads what the encoding writes, and more: a record may also be an array of all its fields in order,
its members may come in any order, members with other keys do not matter, and a kind without content
may be an object with a null. The parts that are read may nest `levels` deep, each array and object
counting; what does not matter may nest without limit.
-/

namespace LifecycleQuery

namespace Json

/-- How many arrays and objects may be open at once. -/
def levels : Nat := 127

/-- The fields of a record, each perhaps missing; a known key may come once. -/
def fields? (keys : List String) : Json → Option (List (Option Json))
  | array items => if items.length = keys.length then some (items.map some) else none
  | object members =>
    if members.all (fun m => m.1.isSome) ∧
        keys.all (fun k => (members.filter fun m => m.1 == some k).length ≤ 1) then
      some (keys.map fun k => members.lookup (some k))
    else none
  | _ => none

/-- The kind and its content, of an object with one member. -/
def variant? : Json → Option (String × Json)
  | object [(some kind, content)] => some (kind, content)
  | _ => none

def text? : Json → Option String
  | string s => s
  | _ => none

/-- A field that may be missing or null. -/
def optional? : Option Json → Option (Option String)
  | none | some null => some none
  | some j => j.text?.map some

/-- A kind without content, by its name. -/
def kind? (n : Nat) (j : Json) : Option String :=
  match j with
  | string s => s
  | j =>
    match n, variant? j with
    | _ + 1, some (kind, null) => some kind
    | _, _ => none

/-- The items of an array, which is a level of its own. -/
def list? {α : Type} (read : Nat → Json → Option α) : Nat → Json → Option (List α)
  | n + 1, array items => items.mapM (read n)
  | _, _ => none

end Json

open Json

def Clause.ofJson? (n : Nat) (j : Json) : Option Clause :=
  (kind? n j).bind fun kind => Clause.every.find? (·.kind == kind)

def Operator.every : List Operator :=
  [equal, notEqual, less, lessEqual, greater, greaterEqual, within]

def Operator.ofJson? (n : Nat) (j : Json) : Option Operator :=
  (kind? n j).bind fun kind => every.find? (·.kind == kind)

/-- A label and its namespace. -/
def Namespaces.binding? (m : Member) : Option Binding :=
  match m.1, m.2.text? with
  | some label, some space => some (label, space)
  | _, _ => none

/-- A table is an object of texts; a repeated key is bound again. -/
def Namespaces.ofJson? : Json → Option Namespaces
  | object members =>
    (members.mapM binding?).map Namespaces.ofList
  | _ => none

/--
An integer has neither point nor exponent nor a sign before zero. A decimal is read in steps and is
finite.
-/
def Number.ofJson? (j : Json) : Option Number :=
  match variant? j with
  | some ("Integer", .number n) =>
    if n.isInteger ∧ ¬(n.negative ∧ n.integerValue = 0) then ofInt? n.integerValue else none
  | some ("Decimal", .number n) =>
    let x := Double.stepwise n
    if x.isFinite then some (decimal x) else none
  | _ => none

/-- The content of a string value. -/
def Value.ofFields? : List (Option Json) → Option Value
  | [some text, language, datatype] =>
    match text.text?, optional? language, optional? datatype with
    | some s, some l, some d => some (string s l d)
    | _, _, _ => none
  | _ => none

def Value.ofJson? : Nat → Json → Option Value
  | 0, _ => none
  | n + 1, j =>
    match variant? j with
    | some ("Iri", j) => j.text?.map iri
    | some ("Boolean", .boolean b) => some (boolean b)
    | some ("Number", j) => if n = 0 then none else (Number.ofJson? j).map number
    | some ("String", j) =>
      if n = 0 then none else (fields? ["text", "language", "datatype"] j).bind ofFields?
    | _ => none

def Property.ofJson? : Nat → Json → Option Projection
  | n + 2, j =>
    match fields? ["iri", "children"] j with
    | some [some (.string (some name)), some (.array items)] =>
      (items.mapM (ofJson? n)).map (node name)
    | _ => none
  | _, _ => none

def Condition.ofJson? : Nat → Json → Option Filter
  | n + 3, j =>
    match fields? ["iri", "kind"] j with
    | some [some (.string (some name)), some kind] =>
      match variant? kind with
      | some ("Scoped", .array items) => (items.mapM (ofJson? n)).map (scope name)
      | some ("Leaf", leaf) =>
        match fields? ["operator", "values"] leaf with
        | some [some op, some (.array items)] =>
          if n = 0 then none
          else match Operator.ofJson? n op, items.mapM (Value.ofJson? (n - 1)) with
            | some op, some values => some (test name op values)
            | _, _ => none
        | _ => none
      | _ => none
    | _ => none
  | _, _ => none

end LifecycleQuery
