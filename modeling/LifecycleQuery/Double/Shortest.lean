import LifecycleQuery.Double

/-!
# The shortest decimal of a double

Among the decimals that round to a given place, `shortest` takes one with the fewest significant
digits, and of those the nearest. It tries the grids of one to seventeen digits; on each only the
two neighbours of the exact value can be nearest. Where both neighbours are equally near, the
caller's rule for ties decides. Every answer that the search gives has been seen to round to the
place; were there none, the exact expansion would be one.
-/

namespace LifecycleQuery

/-- The number `coefficient * 10 ^ exponent`. -/
structure Decimal where
  coefficient : Nat
  exponent : Int
  deriving DecidableEq, Repr

/-- Where a decimal goes that lies half way between two. -/
inductive Tie
  | up
  | toEven
  deriving DecidableEq, Repr

namespace Decimal

/-- The place that the decimal rounds to. -/
def place (d : Decimal) : Nat :=
  let (num, den) := Double.shiftDecimal d.coefficient 1 d.exponent
  Double.nearestPlace num den

/-- The magnitude at a place, digit for digit. -/
def exact (place : Nat) : Decimal :=
  let m := Double.significand place
  let q := Double.exponent place
  if 0 ≤ q then ⟨m * Nat.pow 2 q.toNat, 0⟩ else ⟨m * Nat.pow 5 (-q).toNat, q⟩

/-- The greatest power of ten that is not above `num / den`. -/
def magnitude (num den : Nat) : Int :=
  if den ≤ num then ((Nat.toDigits 10 (num / den)).length : Int) - 1
  else
    let n := (Nat.toDigits 10 (den / num)).length
    if den ≤ num * Nat.pow 10 (n - 1) then -((n - 1 : Nat) : Int) else -(n : Int)

/-- Of the two neighbours on the grid of tens to the power `exponent`, the better that hits. -/
def onGrid? (tie : Tie) (place : Nat) (exponent : Int) : Option Decimal :=
  let (num, den) := Double.ratio place
  let (n, d) := Double.shiftDecimal num den (-exponent)
  let below : Decimal := ⟨n / d, exponent⟩
  let above : Decimal := ⟨n / d + 1, exponent⟩
  let nearerBelow :=
    let twice := 2 * (n % d)
    twice < d || (twice == d && tie == .toEven && n / d % 2 == 0)
  let ranked := if nearerBelow then [below, above] else [above, below]
  ranked.find? fun c => c.place == place

def shortest (tie : Tie) (place : Nat) : Decimal :=
  let (num, den) := Double.ratio place
  let top := magnitude num den
  ((List.range 17).findSome? fun (i : Nat) => onGrid? tie place (top - i)).getD (exact place)

example : shortest .up 1 = ⟨5, -324⟩ := by decide +kernel

example : shortest .up 0x3E60000000000000 = ⟨29802322387695313, -24⟩ ∧
    shortest .toEven 0x3E60000000000000 = ⟨29802322387695312, -24⟩ := by decide +kernel

end Decimal

end LifecycleQuery
