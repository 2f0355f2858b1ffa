import LifecycleQuery.Scan

/-!
# Numbers as written

A numeral is a sign, digits, a fraction and an exponent, all but the digits optional. It keeps its
spelling, so that `text` gives back what `scan` has read. Its value is `coefficient` times ten to
the power `scale`.
-/

namespace LifecycleQuery

inductive Sign
  | plus
  | minus
  deriving DecidableEq, Repr

/-- An exponent as written; the mark is `e` or `E`. -/
structure Exponent where
  mark : Char
  sign : Option Sign
  digits : List Char
  deriving DecidableEq, Repr

structure Numeral where
  sign : Option Sign
  whole : List Char
  fraction : Option (List Char)
  exponent : Option Exponent
  deriving DecidableEq, Repr

/-- The number that the digits spell. -/
def digitsValue (digits : List Char) : Nat :=
  digits.foldl (fun n c => n * 10 + (c.toNat - '0'.toNat)) 0

namespace Sign

def text : Option Sign → List Char
  | none => []
  | some plus => ['+']
  | some minus => ['-']

def scan : List Char → Option Sign × List Char
  | '+' :: rest => (some plus, rest)
  | '-' :: rest => (some minus, rest)
  | text => (none, text)

/-- The number with the sign put before it. -/
def apply (sign : Option Sign) (n : Nat) : Int :=
  if sign = some minus then -(n : Int) else n

end Sign

def Exponent.text (e : Exponent) : List Char := e.mark :: (Sign.text e.sign ++ e.digits)

namespace Numeral

def text (n : Numeral) : List Char :=
  Sign.text n.sign ++ n.whole ++ (n.fraction.map ('.' :: ·)).getD []
    ++ (n.exponent.map Exponent.text).getD []

def render (n : Numeral) : String := String.ofList n.text

/-! ## Reading -/

/-- One digit or more. -/
def scanDigits (text : List Char) : Option (List Char × List Char) :=
  match text.takeWhile Char.isDigit with
  | [] => none
  | digits => some (digits, text.dropWhile Char.isDigit)

/-- A point with digits after it; without digits the point is left. -/
def scanFraction : List Char → Option (List Char) × List Char
  | '.' :: rest =>
    match scanDigits rest with
    | some (digits, left) => (some digits, left)
    | none => (none, '.' :: rest)
  | text => (none, text)

/-- A mark, a sign and digits; without digits all of it is left. -/
def scanExponent : List Char → Option Exponent × List Char
  | [] => (none, [])
  | c :: rest =>
    if c = 'e' ∨ c = 'E' then
      let (sign, body) := Sign.scan rest
      match scanDigits body with
      | some (digits, left) => (some ⟨c, sign, digits⟩, left)
      | none => (none, c :: rest)
    else (none, c :: rest)

def scan (text : List Char) : Option (Numeral × List Char) :=
  let (sign, body) := Sign.scan text
  (scanDigits body).map fun (whole, rest) =>
    let (fraction, rest) := scanFraction rest
    let (exponent, rest) := scanExponent rest
    (⟨sign, whole, fraction, exponent⟩, rest)

example : (scan "-20.22e3]".toList).map (fun p => (p.1.render, p.2)) =
    some ("-20.22e3", [']']) := by decide

example : (scan "3.x".toList).map (fun p => (p.1.render, p.2)) = some ("3", ['.', 'x']) := by decide

/-! ## Value -/

/-- Neither a point nor an exponent. -/
def isInteger (n : Numeral) : Bool := n.fraction.isNone && n.exponent.isNone

def negative (n : Numeral) : Bool := n.sign == some .minus

/-- The value of a numeral without fraction and exponent. -/
def integerValue (n : Numeral) : Int := Sign.apply n.sign (digitsValue n.whole)

/-- All digits, those of the fraction included. -/
def digits (n : Numeral) : List Char := n.whole ++ n.fraction.getD []

def coefficient (n : Numeral) : Nat := digitsValue n.digits

def scale (n : Numeral) : Int :=
  (n.exponent.map fun e => Sign.apply e.sign (digitsValue e.digits)).getD 0
    - (n.fraction.getD []).length

end Numeral

end LifecycleQuery
