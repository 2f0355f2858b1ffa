import LifecycleQuery.Scan

/-!
# What can be wrong with a query

A clause fails at a byte of its text, with the cause; a value on its own fails without a place; a
name fails when nothing is bound to its label. The causes are data, which `detail` and `message` put
into words.
-/

namespace LifecycleQuery

/-- The three clauses of a query. -/
inductive Clause
  | namespaces
  | conditions
  | properties
  deriving DecidableEq, Repr

/-- The order in which clauses are taken: names resolve under the namespaces of the request. -/
def Clause.every : List Clause := [namespaces, conditions, properties]

/-- The parameter that carries the clause. -/
def Clause.key : Clause → String
  | namespaces => "oslc.prefix"
  | conditions => "oslc.where"
  | properties => "oslc.select"

inductive ValueFault
  | notValue (text : String)
  | notValues (text : String)
  | integerRange (numeral : String)
  | decimalRange (numeral : String)
  /-- A fault that a caller words. -/
  | stated (text : String)
  deriving DecidableEq, Repr

def ValueFault.detail : ValueFault → String
  | notValue text => s!"'{text}' is not an IRI, boolean, number or string"
  | notValues text => s!"'{text}' is not a comma separated list of values"
  | integerRange numeral => s!"integer '{numeral}' is out of range"
  | decimalRange numeral => s!"decimal '{numeral}' is out of range"
  | stated text => text

inductive ClauseFault
  | tooDeep
  | endOfInput
  /-- The text found in place of what should follow, cut short. -/
  | unexpected (found : String)
  | value (fault : ValueFault)
  /-- A fault that a caller words. -/
  | stated (text : String)
  deriving DecidableEq, Repr

namespace ClauseFault

/-- How much of the text a message shows. -/
def shown : Nat := 20

/-- The fault of stopping before `rest`. -/
def before : List Char → ClauseFault
  | [] => endOfInput
  | rest => unexpected (String.ofList (rest.take shown))

def ofStop : Stop → List Char → ClauseFault
  | .tooDeep, _ => tooDeep
  | .unexpected, rest => before rest

def detail : ClauseFault → String
  | tooDeep => "scopes nested too deeply"
  | endOfInput => "unexpected end of input"
  | unexpected found => s!"unexpected input at: '{found}'"
  | value fault => "malformed value: " ++ fault.detail
  | stated text => text

end ClauseFault

inductive QueryError
  | clause (clause : Clause) (position : Nat) (fault : ClauseFault)
  | value (fault : ValueFault)
  | unknownLabel (label : String)
  deriving DecidableEq, Repr

namespace QueryError

/-- The cause alone. -/
def detail : QueryError → String
  | clause _ _ fault => fault.detail
  | value fault => fault.detail
  | unknownLabel label => label

def message : QueryError → String
  | clause c position fault => s!"malformed {c.key} at position {position}: {fault.detail}"
  | value fault => "malformed value: " ++ fault.detail
  | unknownLabel label => s!"unknown prefix '{label}'"

/-- The clause that the error is about, if it is about one. -/
def clause? : QueryError → Option Clause
  | clause c _ _ => some c
  | _ => none

end QueryError

end LifecycleQuery
