import LifecycleQuery.Condition
import LifecycleQuery.Property.Clause
import LifecycleQuery.Value.Literal

/-!
# The condition clause

Terms with `and` between them. A term is a name and then a scope in braces, or `in` and a list of
literals in brackets, or an operator and a literal. Behind `{`, behind `in [` and behind an operator
the reading is committed: nothing else is tried. `n` is how many braces may still be opened.

The names and literals of the tree read are resolved afterwards, so a fault of form anywhere comes
before a fault of meaning. A literal without value is reported at the byte where it stands.
-/

namespace LifecycleQuery

open Text

/-- The word `and`, with layout on either side. -/
def andWord (text : List Char) : Option (List Char) :=
  ((layout1 text).bind (word "and".toList)).bind layout1

namespace Condition

/-- A condition as a clause writes it. -/
abbrev Written := Condition Name Placed

def scanOperator : List Char → Option (Operator × List Char)
  | '!' :: '=' :: rest => some (.notEqual, rest)
  | '<' :: '=' :: rest => some (.lessEqual, rest)
  | '>' :: '=' :: rest => some (.greaterEqual, rest)
  | '=' :: rest => some (.equal, rest)
  | '<' :: rest => some (.less, rest)
  | '>' :: rest => some (.greater, rest)
  | _ => none

/-- The text behind `in [`, if that comes next; the word needs layout before it. -/
def openList (text : List Char) : Option (List Char) :=
  match (layout1 text).bind (word "in".toList) with
  | some rest =>
    match skipLayout rest with
    | '[' :: inner => some inner
    | _ => none
  | none => none

def scanComparison (name : Name) : Scanner Written := fun text =>
  let text := skipLayout text
  match scanOperator text with
  | none => .miss text
  | some (op, rest) => ((Placed.scan (skipLayout rest)).map fun v => test name op [v]).commit

def scanTest (name : Name) : Scanner Written := fun text =>
  match openList text with
  | some inner => (enclosed Placed.scanList ']' inner).map fun vs => test name .within vs
  | none => scanComparison name text

/-- A name, with what `inner` reads behind an opening brace. -/
def scanTerm (inner : Scanner (List Written)) : Scanner Written := fun text =>
  match Name.scan text with
  | none => .miss text
  | some (name, rest) =>
    match openScope rest with
    | some body => (inner body).map (scope name)
    | none => scanTest name rest

/-- The terms behind an opening brace, and the brace that closes them. -/
def scanScope : Nat → Scanner (List Written)
  | 0, body => .stop .tooDeep body
  | n + 1, body => enclosed (sepBy1 andWord (scanTerm (scanScope n))) '}' body

def scanList (n : Nat) : Scanner (List Written) := sepBy1 andWord (scanTerm (scanScope n))

/-- The value of a literal that stands in the clause `source`. -/
def valueIn (r : Resolver) (source : List Char) (p : Placed) : Except QueryError Value :=
  match p.literal.value r with
  | .error (.value fault) => .error (.clause .conditions (offset source p.start) (.value fault))
  | result => result

/-- The conditions of a clause, which nests at most `n` deep. -/
def read (r : Resolver) (n : Nat) (text : String) : Except QueryError (List Filter) :=
  (readList .conditions (scanList n) text.toList).bind
    (resolveAll r.resolve (valueIn r text.toList))

end Condition

end LifecycleQuery
