import LifecycleQuery.Property

/-!
# Conditions

A condition tests an attribute against values, or opens a scope: conditions on what the attribute
leads to. All conditions of a list must hold. As a clause writes it the names are `Name`s and the
values still literals; a `Filter` is the resolved form.
-/

namespace LifecycleQuery

inductive Operator
  | equal
  | notEqual
  | less
  | lessEqual
  | greater
  | greaterEqual
  | within
  deriving DecidableEq, Repr

def Operator.text : Operator → String
  | equal => "="
  | notEqual => "!="
  | less => "<"
  | lessEqual => "<="
  | greater => ">"
  | greaterEqual => ">="
  | within => "in"

/-- A test read from a clause has one value, or with `within` at least one. -/
inductive Condition (ν ω : Type)
  | scope (name : ν) (inner : List (Condition ν ω))
  | test (name : ν) (op : Operator) (values : List ω)
  deriving Repr

/-- A condition with its names and values resolved. -/
abbrev Filter := Condition Iri Value

namespace Condition

variable {ν μ ω υ : Type}

def name : Condition ν ω → ν
  | scope name _ => name
  | test name _ _ => name

def isScoped : Condition ν ω → Bool
  | scope _ _ => true
  | test _ _ _ => false

/-- The conditions in the scope; none for a test. -/
def inner : Condition ν ω → List (Condition ν ω)
  | scope _ inner => inner
  | test _ _ _ => []

def operator? : Condition ν ω → Option Operator
  | scope _ _ => none
  | test _ op _ => some op

def values : Condition ν ω → List ω
  | scope _ _ => []
  | test _ _ values => values

mutual
/-- The names in pre-order. -/
def names : Condition ν ω → List ν
  | scope name inner => name :: namesAll inner
  | test name _ _ => [name]
def namesAll : List (Condition ν ω) → List ν
  | [] => []
  | c :: rest => names c ++ namesAll rest
end

mutual
/-- What the condition reads, as a property: a scope becomes the list of its children. -/
def toProperty : Condition ν ω → Property ν
  | scope name inner => .node name (toProperties inner)
  | test name _ _ => .node name []
def toProperties : List (Condition ν ω) → List (Property ν)
  | [] => []
  | c :: rest => toProperty c :: toProperties rest
end

/--
A test with its name and values put through `f` and `g`. A single value comes after the name, the
values of a list before it.
-/
def resolveTest (f : ν → Except QueryError μ) (g : ω → Except QueryError υ) (name : ν)
    (op : Operator) (values : List ω) : Except QueryError (Condition μ υ) :=
  if op = .within then
    (values.mapM g).bind fun vs => (f name).map fun n => test n op vs
  else
    (f name).bind fun n => (values.mapM g).map fun vs => test n op vs

mutual
/-- Everything put through `f` and `g`, the inside of a scope before its name. -/
def resolve (f : ν → Except QueryError μ) (g : ω → Except QueryError υ) :
    Condition ν ω → Except QueryError (Condition μ υ)
  | scope name inner =>
    match resolveAll f g inner with
    | .error e => .error e
    | .ok resolved => (f name).map fun n => scope n resolved
  | test name op values => resolveTest f g name op values
def resolveAll (f : ν → Except QueryError μ) (g : ω → Except QueryError υ) :
    List (Condition ν ω) → Except QueryError (List (Condition μ υ))
  | [] => .ok []
  | c :: rest =>
    match resolve f g c with
    | .error e => .error e
    | .ok d => (resolveAll f g rest).map (d :: ·)
end

/-! ## Written form -/

/-- A list of values behind `within`; behind another operator the first value alone. -/
def testText (op : Operator) (values : List Value) : List Char :=
  if op = .within then
    " in [".toList ++ [','].intercalate (values.map Value.text) ++ [']']
  else op.text.toList ++ (values.head?.map Value.text).getD []

mutual
/-- A scope stands in braces. -/
def text : Filter → List Char
  | scope name [] => Property.nameText name ++ ['{', '}']
  | scope name (c :: rest) => Property.nameText name ++ '{' :: (text c ++ textTail rest) ++ ['}']
  | test name op values => Property.nameText name ++ testText op values
/-- The texts with `and` before each. -/
def textTail : List Filter → List Char
  | [] => []
  | c :: rest => " and ".toList ++ text c ++ textTail rest
end

/-- The texts with `and` between them. -/
def textAll : List Filter → List Char
  | [] => []
  | c :: rest => text c ++ textTail rest

def render (c : Filter) : String := String.ofList c.text

end Condition

end LifecycleQuery
