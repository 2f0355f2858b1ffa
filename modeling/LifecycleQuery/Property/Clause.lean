import LifecycleQuery.Property

/-!
# The property clause

Names with commas between them; each may be followed by a list of its own in braces. `n` is how
many braces may still be opened: one more stops the reading just behind it.
-/

namespace LifecycleQuery

open Text

/-- The text behind an opening brace, if one comes next. -/
def openScope (text : List Char) : Option (List Char) :=
  match skipLayout text with
  | '{' :: inner => some inner
  | _ => none

namespace Property

/-- A name, with what `inner` reads behind an opening brace. -/
def scanOne (inner : Scanner (List (Property Name))) : Scanner (Property Name) := fun text =>
  match Name.scan text with
  | none => .miss text
  | some (name, rest) =>
    match openScope rest with
    | some body => (inner body).map (node name)
    | none => .read (node name []) rest

/-- The list behind an opening brace, and the brace that closes it. -/
def scanScope : Nat → Scanner (List (Property Name))
  | 0, body => .stop .tooDeep body
  | n + 1, body => enclosed (sepBy1 comma (scanOne (scanScope n))) '}' body

def scanList (n : Nat) : Scanner (List (Property Name)) := sepBy1 comma (scanOne (scanScope n))

/-- The properties of a clause, which nests at most `n` deep. -/
def read (r : Resolver) (n : Nat) (text : String) : Except QueryError (List Projection) :=
  (readList .properties (scanList n) text.toList).bind (resolveAll r.resolve)

end Property

end LifecycleQuery
