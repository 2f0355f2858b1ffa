import LifecycleQuery.Double.Shortest

/-!
# Writing doubles

A `Notation` says where positional writing begins and ends, how a larger or smaller number is
written, and where ties go. The written form of a finite double is a `Numeral`, so that what is
written and what is read share one type. Filters show their numbers in `display`; JSON texts use
`json`.
-/

namespace LifecycleQuery

/-- How finite doubles are written. -/
structure Notation where
  /-- The least power of ten, of the first digit, written positionally. -/
  plainFrom : Int
  /-- The least power above that is not. -/
  plainUntil : Int
  /-- The sign of an exponent that is not negative. -/
  exponentSign : Option Sign
  tie : Tie
  deriving DecidableEq

namespace Notation

/-- Positional from `0.0001` to below `10 ^ 16`, else as in `1e16` and `1.5e-7`. -/
def display : Notation := ⟨-4, 16, none, .up⟩

/-- Positional from `0.00001` to below `10 ^ 16`, else as in `1e+16` and `1.5e-7`. -/
def json : Notation := ⟨-5, 16, some .plus, .toEven⟩

/-- The digits without the zeros at the end. -/
def dropZeros (digits : List Char) : List Char := (digits.reverse.dropWhile (· == '0')).reverse

def zeros (n : Nat) : List Char := List.replicate n '0'

/--
The significant digits as a numeral, `top` being the power of ten of the first one. A positional
numeral has at least one digit on either side of its point.
-/
def arrange (f : Notation) (sign : Option Sign) (digits : List Char) (top : Int) : Numeral :=
  if f.plainFrom ≤ top ∧ top < f.plainUntil then
    if top < 0 then ⟨sign, ['0'], some (zeros (-top - 1).toNat ++ digits), none⟩
    else
      let before := top.toNat + 1
      let whole := digits.take before ++ zeros (before - digits.length)
      let fraction := digits.drop before
      ⟨sign, whole, some (if fraction.isEmpty then ['0'] else fraction), none⟩
  else
    let fraction := digits.drop 1
    ⟨sign, digits.take 1, if fraction.isEmpty then none else some fraction,
      some ⟨'e', if top < 0 then some .minus else f.exponentSign, Nat.toDigits 10 top.natAbs⟩⟩

/-- The numeral of a finite magnitude. -/
def numeral (f : Notation) (negative : Bool) (place : Nat) : Numeral :=
  let sign := if negative then some .minus else none
  if place = 0 then ⟨sign, ['0'], some ['0'], none⟩
  else
    let decimal := Decimal.shortest f.tie place
    let all := Nat.toDigits 10 decimal.coefficient
    f.arrange sign (dropZeros all) (decimal.exponent + (all.length - 1 : Nat))

def numeral? (f : Notation) : Double → Option Numeral
  | .finite negative place => some (f.numeral negative place)
  | _ => none

end Notation

/-- A double as filters show it. -/
def Double.text : Double → List Char
  | finite negative place => (Notation.display.numeral negative place).text
  | infinite negative => if negative then "-inf".toList else "inf".toList
  | nan => "NaN".toList

example : (Double.ofInt (-20220)).text = "-20220.0".toList := by decide +kernel

end LifecycleQuery
