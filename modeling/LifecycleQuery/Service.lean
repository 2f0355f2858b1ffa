import LifecycleQuery.Page
import LifecycleQuery.Query

/-!
# Query services

A service answers requests: it checks the length of each clause, then the paging, then takes the
clauses in order. The first fault is the answer, and whatever the fault, the request is to blame.
-/

namespace LifecycleQuery

structure Service where
  settings : Settings
  defaultPageSize : UInt64
  /-- How many bytes a clause may have. -/
  clauseLimit : Nat

/-- What a request asks for. -/
structure Request where
  query : Query
  page : Option Page

inductive RequestError
  | query (error : QueryError)
  | repeated (parameter : Parameter)
  | tooLong (clause : Clause) (length limit : Nat)
  | paging (fault : PageFault)
  deriving DecidableEq, Repr

namespace RequestError

/-- What is said of a parameter that comes a second time. -/
def repetition (p : Parameter) : String := s!"duplicate field \x60{p.key}\x60"

def message : RequestError → String
  | query e => "query error: " ++ e.message
  | repeated p => "invalid query string: " ++ repetition p
  | tooLong c length limit => s!"{c.key} is {length} bytes, limit is {limit}"
  | paging fault => s!"invalid {fault.parameter.key}: '{fault.found}'"

/-- The status to answer with. -/
def status : RequestError → Nat := fun _ => 400

end RequestError

/-- The parameter that carries a clause. -/
def Clause.parameter : Clause → Parameter
  | namespaces => .namespaces
  | conditions => .conditions
  | properties => .properties

namespace Parameters

def clause? (ps : Parameters) (c : Clause) : Option String := ps.get? c.parameter

end Parameters

namespace Request

def isPaged (r : Request) : Bool := r.page.isSome

/-- The link to the page after the request's, when members remain out of `total`. -/
def nextLink? (r : Request) (total : UInt64) : Option String :=
  match r.page with
  | some p => if p.hasNext total then some p.next.link else none
  | none => none

end Request

namespace Service

/-! ## Requests -/

/-- No clause may be longer than the limit. -/
def checkLengths (s : Service) (ps : Parameters) : List Clause → Except RequestError Unit
  | [] => .ok ()
  | c :: rest =>
    let length := Text.byteSize ((ps.clause? c).getD "").toList
    if s.clauseLimit < length then .error (.tooLong c length s.clauseLimit)
    else s.checkLengths ps rest

/-- The clauses that are present, taken in order. -/
def takeClauses (ps : Parameters) (q : Query) : List Clause → Except QueryError Query
  | [] => .ok q
  | c :: rest =>
    match ps.clause? c with
    | none => takeClauses ps q rest
    | some text => (q.take c text).bind fun q => takeClauses ps q rest

def readParameters (s : Service) (ps : Parameters) : Except RequestError Request := do
  s.checkLengths ps Clause.every
  let page ← (Page.read s.defaultPageSize ps.paging ps.pageSize ps.pageNumber).mapError .paging
  let query ← (takeClauses ps (Query.ofSettings s.settings) Clause.every).mapError .query
  return ⟨query, page⟩

/-- Reads a query string. -/
def read (s : Service) (query : String) : Except RequestError Request :=
  ((Parameters.read query).mapError .repeated).bind s.readParameters

end Service

end LifecycleQuery
