import LifecycleQuery.Numeral

/-!
# Double precision numbers

A finite double is a sign and the place of its magnitude in the order of all magnitudes: place `0`
is zero, and the next place is the next larger magnitude. A magnitude is a significand below
`2 ^ 53` times two to the power of an exponent, which below place `2 ^ 52` stays at its least value.

A positive rational is rounded to the nearest place, from half way between two to the even one.
Everything is exact arithmetic on natural numbers.
-/

namespace LifecycleQuery

/-- The place of the least magnitude with a full significand, `2 ^ 52`. -/
def fullPlace : Nat := 0x10000000000000

/-- How many finite magnitudes there are: 2047 times as many. -/
def finitePlaces : Nat := 0x7FF0000000000000

inductive Double
  | finite (negative : Bool) (place : Fin finitePlaces)
  | infinite (negative : Bool)
  | nan
  deriving DecidableEq

namespace Double

/-! ## Places -/

def significand (place : Nat) : Nat :=
  if place < fullPlace then place else fullPlace + place % fullPlace

def exponent (place : Nat) : Int := (max (place / fullPlace) 1 : Nat) - 1075

/-- A ratio times two to a power, as a numerator and a denominator. -/
def shiftBinary (num den : Nat) (power : Int) : Nat × Nat :=
  (num * Nat.pow 2 power.toNat, den * Nat.pow 2 (-power).toNat)

/-- The same for ten. -/
def shiftDecimal (num den : Nat) (power : Int) : Nat × Nat :=
  (num * Nat.pow 10 power.toNat, den * Nat.pow 10 (-power).toNat)

/-- The magnitude at a place, as a numerator and a denominator. -/
def ratio (place : Nat) : Nat × Nat := shiftBinary (significand place) 1 (exponent place)

/-! ## Rounding -/

/-- The whole number nearest to `num / den`; a half goes to the even one. -/
def roundHalfEven (num den : Nat) : Nat :=
  let whole := num / den
  let twice := 2 * (num % den)
  if twice < den then whole
  else if den < twice then whole + 1
  else whole + whole % 2

/-- The greatest power of two that is not above `num / den`. -/
def binaryMagnitude (num den : Nat) : Int :=
  let guess := (num.log2 : Int) - den.log2
  let (n, d) := shiftBinary num den (-guess)
  if d ≤ n then guess else guess - 1

/-- The place nearest to `num / den`, of which those from `finitePlaces` on are too large. -/
def nearestPlace (num den : Nat) : Nat :=
  if num = 0 then 0
  else
    let power := max (binaryMagnitude num den - 52) (-1074)
    let (n, d) := shiftBinary num den (-power)
    (power + 1074).toNat * fullPlace + roundHalfEven n d

def ofPlace (negative : Bool) (place : Nat) : Double :=
  if h : place < finitePlaces then finite negative ⟨place, h⟩ else infinite negative

def ofRatio (negative : Bool) (num den : Nat) : Double := ofPlace negative (nearestPlace num den)

def ofInt (n : Int) : Double := ofRatio (n < 0) n.natAbs 1

/--
The double nearest to the decimal digits times ten to the power `scale`. A value from `10 ^ 310` on
is too large, and one below `10 ^ (-330)` nearer to zero than to any other double, however many
digits it has; so powers of ten stay in proportion to the length of the text.
-/
def ofDigits (negative : Bool) (digits : List Char) (scale : Int) : Double :=
  let coefficient := digitsValue digits
  if coefficient = 0 then ofPlace negative 0
  else if 310 < scale then infinite negative
  else if (digits.length : Int) + scale < -330 then ofPlace negative 0
  else
    let (num, den) := shiftDecimal coefficient 1 scale
    ofRatio negative num den

def ofNumeral (n : Numeral) : Double := ofDigits n.negative n.digits n.scale

/-! ## Tests -/

def isFinite : Double → Bool
  | finite _ _ => true
  | _ => false

/-- Equal as numbers: the two zeros are, and not-a-number is not equal to anything. -/
def sameNumber : Double → Double → Bool
  | finite n p, finite m q => p == q && (n == m || p.val == 0)
  | infinite n, infinite m => n == m
  | _, _ => false

/-- The highest of the 64 bits, when set. -/
def signBit (negative : Bool) : Nat := if negative then 0x8000000000000000 else 0

/-- The bit pattern in the interchange format; one pattern stands for not-a-number. -/
def bits : Double → UInt64
  | finite negative place => .ofNat (signBit negative + place.val)
  | infinite negative => .ofNat (signBit negative + finitePlaces)
  | nan => 0x7FF8000000000000

/-! ## Words -/

/-- The text without regard to the case of ASCII letters. -/
def isWord (w : String) (text : List Char) : Bool := text.map Char.toLower == w.toList

/-- Digits around an optional point, at least one of them, and an exponent. -/
def readUnsigned? (sign : Option Sign) (text : List Char) : Option Double :=
  let whole := text.takeWhile Char.isDigit
  let (fraction, rest) : Option (List Char) × List Char :=
    match text.dropWhile Char.isDigit with
    | '.' :: rest => (some (rest.takeWhile Char.isDigit), rest.dropWhile Char.isDigit)
    | rest => (none, rest)
  if whole.isEmpty && (fraction.getD []).isEmpty then none
  else match Numeral.scanExponent rest with
    | (exponent, []) => some (ofNumeral ⟨sign, whole, fraction, exponent⟩)
    | _ => none

/-- A double from its text: a signed number, or a word for infinity or for not-a-number. -/
def ofText? (text : String) : Option Double :=
  let (sign, body) := Sign.scan text.toList
  if isWord "inf" body || isWord "infinity" body then some (infinite (sign == some .minus))
  else if isWord "nan" body then some nan
  else readUnsigned? sign body

end Double

end LifecycleQuery
