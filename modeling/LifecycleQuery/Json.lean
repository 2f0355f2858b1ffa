import LifecycleQuery.Numeral
import LifecycleQuery.Text.Hex

/-!
# JSON values

A JSON value keeps a number as its numeral and an object's members in order, repeated keys included.
A string that holds half of a surrogate pair is grammatical but no text: of it nothing is kept.
`text` writes a value without spaces. In strings the quote, the backslash and the control characters
are escaped, and nothing else.
-/

namespace LifecycleQuery

inductive Json
  | null
  | boolean (b : Bool)
  | number (n : Numeral)
  | string (text : Option String)
  | array (items : List Json)
  | object (members : List (Option String × Json))
  deriving Repr

namespace Json

abbrev Member := Option String × Json

/-! ## Writing -/

def escape (c : Char) : List Char :=
  if c = '"' ∨ c = '\\' then ['\\', c]
  else if c = '\x08' then ['\\', 'b']
  else if c = '\x0c' then ['\\', 'f']
  else if c = '\n' then ['\\', 'n']
  else if c = '\r' then ['\\', 'r']
  else if c = '\t' then ['\\', 't']
  else if c.toNat < 0x20 then
    ['\\', 'u', '0', '0', Text.hexLower (c.toNat / 16), Text.hexLower (c.toNat % 16)]
  else [c]

/-- What is written for a string that is no text: the first half of a pair. -/
def halfPair : List Char := ['\\', 'u', 'd', '8', '0', '0']

def quoted (text : Option String) : List Char :=
  let content := match text with
    | some s => s.toList.flatMap escape
    | none => halfPair
  '"' :: content ++ ['"']

mutual
def text : Json → List Char
  | null => "null".toList
  | boolean b => if b then "true".toList else "false".toList
  | number n => n.text
  | string s => quoted s
  | array [] => ['[', ']']
  | array (j :: rest) => '[' :: (text j ++ itemsTail rest) ++ [']']
  | object [] => ['{', '}']
  | object ((key, j) :: rest) => '{' :: (quoted key ++ ':' :: text j ++ membersTail rest) ++ ['}']
/-- The items with a comma before each. -/
def itemsTail : List Json → List Char
  | [] => []
  | j :: rest => ',' :: text j ++ itemsTail rest
def membersTail : List Member → List Char
  | [] => []
  | (key, j) :: rest => ',' :: (quoted key ++ ':' :: text j) ++ membersTail rest
end

def render (j : Json) : String := String.ofList j.text

end Json

end LifecycleQuery
