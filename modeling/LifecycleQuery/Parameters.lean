import LifecycleQuery.Form

/-!
# Query parameters

The six parameters of a request, each absent or a text. Of the pairs in a query string those with
another key do not matter; one of the six keys may come only once.
-/

namespace LifecycleQuery

inductive Parameter
  | namespaces
  | conditions
  | properties
  | paging
  | pageSize
  | pageNumber
  deriving DecidableEq, Repr

namespace Parameter

/-- In the order in which they are written. -/
def every : List Parameter := [namespaces, conditions, properties, paging, pageSize, pageNumber]

def key : Parameter → String
  | namespaces => "oslc.prefix"
  | conditions => "oslc.where"
  | properties => "oslc.select"
  | paging => "oslc.paging"
  | pageSize => "oslc.pageSize"
  | pageNumber => "oslc.pageNo"

/-- The parameter with the given key. -/
def ofKey? (key : String) : Option Parameter := every.find? (·.key == key)

theorem mem_every (p : Parameter) : p ∈ every := by cases p <;> decide

theorem ofKey?_key (p : Parameter) : ofKey? p.key = some p := by cases p <;> decide

end Parameter

structure Parameters where
  namespaces : Option String
  conditions : Option String
  properties : Option String
  paging : Option String
  pageSize : Option String
  pageNumber : Option String
  deriving DecidableEq

namespace Parameters

def empty : Parameters := ⟨none, none, none, none, none, none⟩

def get? (ps : Parameters) : Parameter → Option String
  | .namespaces => ps.namespaces
  | .conditions => ps.conditions
  | .properties => ps.properties
  | .paging => ps.paging
  | .pageSize => ps.pageSize
  | .pageNumber => ps.pageNumber

def set (ps : Parameters) (p : Parameter) (value : Option String) : Parameters :=
  match p with
  | .namespaces => { ps with namespaces := value }
  | .conditions => { ps with conditions := value }
  | .properties => { ps with properties := value }
  | .paging => { ps with paging := value }
  | .pageSize => { ps with pageSize := value }
  | .pageNumber => { ps with pageNumber := value }

theorem get?_set (ps : Parameters) (p q : Parameter) (value : Option String) :
    (ps.set p value).get? q = if q = p then value else ps.get? q := by
  cases p <;> cases q <;> rfl

theorem ext_get? {ps qs : Parameters} (h : ∀ p, ps.get? p = qs.get? p) : ps = qs := by
  obtain ⟨a, b, c, d, e, f⟩ := ps
  obtain ⟨a', b', c', d', e', f'⟩ := qs
  have := h .namespaces
  have := h .conditions
  have := h .properties
  have := h .paging
  have := h .pageSize
  have := h .pageNumber
  simp_all [get?]

/-! ## Query strings -/

/-- The fields set one after another; a parameter that comes a second time is the error. -/
def collect (ps : Parameters) : List Form.Field → Except Parameter Parameters
  | [] => .ok ps
  | (key, value) :: rest =>
    match Parameter.ofKey? key with
    | none => collect ps rest
    | some p =>
      if (ps.get? p).isSome then .error p else collect (ps.set p (some value)) rest

/-- A query string; one question mark before it does not count. -/
def read (query : String) : Except Parameter Parameters :=
  let text := match query.toList with
    | '?' :: rest => rest
    | text => text
  collect empty (Form.decode text)

/-- The present parameters as fields, in the fixed order. -/
def fields (ps : Parameters) : List Form.Field :=
  Parameter.every.filterMap fun p => (ps.get? p).map fun value => (p.key, value)

def render (ps : Parameters) : String := String.ofList (Form.encode ps.fields)

end Parameters

end LifecycleQuery
