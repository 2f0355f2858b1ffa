import LifecycleQuery.Numeral
import LifecycleQuery.Parameters
import LifecycleQuery.Text.Blank

/-!
# Pages

A page is a size and a number, counted from one. Counts are words of 64 bits, and arithmetic on them
stops at the largest. Paging is on when the flag says so or a size is given; what is then missing
or zero takes its default.
-/

namespace LifecycleQuery

/-- The smaller of a number and the largest count. -/
def clampCount (n : Nat) : UInt64 := UInt64.ofNat (min n (UInt64.size - 1))

theorem toNat_clampCount (n : Nat) : (clampCount n).toNat = min n (UInt64.size - 1) := by
  rw [clampCount, UInt64.toNat_ofNat', Nat.mod_eq_of_lt]
  simp only [UInt64.size]
  omega

/-- A parameter whose text is not what it should be, with the text. -/
structure PageFault where
  parameter : Parameter
  found : String
  deriving DecidableEq, Repr

structure Page where
  size : UInt64
  number : UInt64
  deriving DecidableEq, Repr

namespace Page

/-! ## Reading -/

/-- The text given for a parameter, without blanks around it; nothing if that leaves nothing. -/
def given? (text : Option String) : Option (List Char) :=
  match text.map fun t => Text.trim t.toList with
  | none | some [] => none
  | found => found

/-- A flag is `true` or `false` in any case of letters, and off when not given. -/
def readFlag (p : Parameter) (text : Option String) : Except PageFault Bool :=
  match given? text with
  | none => .ok false
  | some found =>
    if found.map Char.toLower = "true".toList then .ok true
    else if found.map Char.toLower = "false".toList then .ok false
    else .error ⟨p, String.ofList found⟩

/-- The number that digits spell, with a plus sign before them or none, if it is a count. -/
def countOf? (text : List Char) : Option UInt64 :=
  let digits := match text with
    | '+' :: rest => rest
    | text => text
  if digits ≠ [] ∧ digits.all Char.isDigit ∧ digitsValue digits < UInt64.size then
    some (UInt64.ofNat (digitsValue digits))
  else none

/-- A count is zero when not given. -/
def readCount (p : Parameter) (text : Option String) : Except PageFault UInt64 :=
  match given? text with
  | none => .ok 0
  | some found =>
    match countOf? found with
    | some n => .ok n
    | none => .error ⟨p, String.ofList found⟩

/--
The page that the three texts ask for, or none when paging is off. The texts are checked in order,
also when paging turns out to be off.
-/
def read (defaultSize : UInt64) (flag size number : Option String) :
    Except PageFault (Option Page) := do
  let wanted ← readFlag .paging flag
  let size ← readCount .pageSize size
  let number ← readCount .pageNumber number
  if !wanted && size == 0 then return none
  return some ⟨if size = 0 then defaultSize else size, if number = 0 then 1 else number⟩

/-! ## Walking -/

/-- The index of the first member on the page. -/
def offset (p : Page) : UInt64 := clampCount ((p.number.toNat - 1) * p.size.toNat)

def next (p : Page) : Page := { p with number := clampCount (p.number.toNat + 1) }

/-- Members remain after this page. -/
def hasNext (p : Page) (total : UInt64) : Bool := clampCount (p.number.toNat * p.size.toNat) < total

/-- The fields that ask for the page. -/
def fields (p : Page) : List Form.Field :=
  [("oslc.paging", "true"), ("oslc.pageSize", toString p.size.toNat),
    ("oslc.pageNo", toString p.number.toNat)]

/-- The query string of a link to the page. -/
def link (p : Page) : String := String.ofList (Form.encode p.fields)

end Page

end LifecycleQuery
