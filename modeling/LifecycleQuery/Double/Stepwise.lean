import LifecycleQuery.Double

/-!
# Reading a numeral in steps

The digits of a numeral go into one 64-bit word as long as they fit. The word is rounded to a
double, and that is multiplied or divided by a power of ten, which is a rounded double too. Each
step rounds on its own, so `stepwise` may miss the nearest double, which `ofNumeral` finds, by a few
places. With no digit left out and a word and a power of ten that are doubles already, only one
step rounds and the two agree. Decimals in JSON texts are read this way.
-/

namespace LifecycleQuery

/-! ## One word of digits -/

/-- Puts digits behind `n` until one does not fit into a word; it and those after it are left. -/
def takeDigits (n : Nat) : List Char → Nat × List Char
  | [] => (n, [])
  | c :: rest =>
    let next := n * 10 + (c.toNat - '0'.toNat)
    if next < UInt64.size then takeDigits next rest else (n, c :: rest)

/--
A significand below `2 ^ 64` and the power of ten that goes with it. Where the whole part is cut, a
smaller digit behind the point may still fit. Every digit left out raises the power by one.
-/
def Numeral.inWord (n : Numeral) : Nat × Int :=
  let (whole, dropped) := takeDigits 0 n.whole
  let (significand, ignored) := takeDigits whole (n.fraction.getD [])
  (significand, n.scale + dropped.length + ignored.length)

namespace Double

/-! ## Products and quotients -/

/-- The place nearest to the product of two magnitudes. -/
def product (p q : Nat) : Nat :=
  let (n, d) := ratio p
  let (m, e) := ratio q
  nearestPlace (n * m) (d * e)

/-- The place nearest to the quotient of two magnitudes. -/
def quotient (p q : Nat) : Nat :=
  let (n, d) := ratio p
  let (m, e) := ratio q
  nearestPlace (n * e) (d * m)

/-- The place nearest to a power of ten. -/
def tenPlace (power : Nat) : Nat := nearestPlace (Nat.pow 10 power) 1

/-- The greatest power of ten that is a finite double. -/
def maxTen : Nat := 308

/-- A magnitude times a power of ten; one above `maxTen` makes all but zero too large. -/
def scaleUp (place power : Nat) : Nat :=
  if power ≤ maxTen then product place (tenPlace power)
  else if place = 0 then 0
  else finitePlaces

/--
A magnitude below `2 ^ 64` divided by a power of ten; one above `maxTen` divides in two steps. Two
divisions by the greatest power bring every word to zero, so a third has nothing left to divide.
-/
def scaleDown (place power : Nat) : Nat :=
  if power ≤ maxTen then quotient place (tenPlace power)
  else if power ≤ 2 * maxTen then
    quotient (quotient place (tenPlace maxTen)) (tenPlace (power - maxTen))
  else 0

/-! ## Reading -/

/-- A numeral read in steps; too large a value is infinite. -/
def stepwise (n : Numeral) : Double :=
  let (significand, power) := n.inWord
  let place := nearestPlace significand 1
  ofPlace n.negative
    (if power < 0 then scaleDown place power.natAbs else scaleUp place power.natAbs)

example : (Numeral.scan "1e-23".toList).map (fun p => (stepwise p.1).bits) =
    some 0x3B282DB34012B252 := by decide +kernel

example : (Numeral.scan "0.3333333333333333333".toList).map (fun p => (stepwise p.1).bits) =
    some 0x3FD5555555555556 := by decide +kernel

example : (Numeral.scan "-2.5e-308".toList).map (fun p => (stepwise p.1).bits) =
    some 0x8011FA182C40C60E := by decide +kernel

end Double

end LifecycleQuery
