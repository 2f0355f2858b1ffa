import LifecycleQuery.Double.Notation

/-!
# Values

The values that a filter compares with: IRIs, booleans, numbers and strings. `text` writes a value
the way a clause spells it, with two liberties: a datatype is written as an IRI in angle brackets,
and only the quote, the backslash and the line feed of a string are escaped.
-/

namespace LifecycleQuery

inductive Number
  | integer (n : Int64)
  | decimal (x : Double)
  deriving DecidableEq

/-- A string's language and datatype are never both set by reading a clause. -/
inductive Value
  | iri (text : String)
  | boolean (b : Bool)
  | number (n : Number)
  | string (text : String) (language datatype : Option String)
  deriving DecidableEq

namespace Number

/-- The integer as a number, if it is a word of 64 bits. -/
def ofInt? (i : Int) : Option Number :=
  if Int64.minValue.toInt ≤ i ∧ i ≤ Int64.maxValue.toInt then some (integer (Int64.ofInt i))
  else none

theorem ofInt?_eq_some_iff {i : Int} {a : Number} :
    ofInt? i = some a ↔ ∃ n : Int64, n.toInt = i ∧ a = integer n := by
  unfold ofInt?
  constructor
  · intro h
    split at h
    · next hrange =>
      cases h
      exact ⟨Int64.ofInt i, Int64.toInt_ofInt_of_le hrange.1 (Int.lt_add_one_iff.2 hrange.2), rfl⟩
    · cases h
  · rintro ⟨n, rfl, rfl⟩
    rw [if_pos ⟨n.minValue_le_toInt, n.toInt_le⟩, Int64.ofInt_toInt]

/-- The nearest double. -/
def toDouble : Number → Double
  | integer n => Double.ofInt n.toInt
  | decimal x => x

def text : Number → List Char
  | integer n => (toString n.toInt).toList
  | decimal x => x.text

/-- Equal in kind and as numbers. -/
def sameNumber : Number → Number → Bool
  | integer m, integer n => m == n
  | decimal x, decimal y => x.sameNumber y
  | _, _ => false

end Number

namespace Value

def angled (iri : String) : List Char := '<' :: iri.toList ++ ['>']

def escape (c : Char) : List Char :=
  if c = '"' ∨ c = '\\' then ['\\', c]
  else if c = '\n' then ['\\', 'n']
  else [c]

def quoted (text : String) : List Char := '"' :: text.toList.flatMap escape ++ ['"']

def text : Value → List Char
  | iri i => angled i
  | boolean b => if b then "true".toList else "false".toList
  | number n => n.text
  | string s language datatype =>
    quoted s ++ (language.map fun l => '@' :: l.toList).getD []
      ++ (datatype.map fun d => '^' :: '^' :: angled d).getD []

def render (v : Value) : String := String.ofList v.text

/-- The content of a string value. -/
def string? : Value → Option String
  | string s _ _ => some s
  | _ => none

/-- Equal in kind and content, decimals as numbers. -/
def same : Value → Value → Bool
  | number m, number n => m.sameNumber n
  | v, w => v == w

end Value

end LifecycleQuery
