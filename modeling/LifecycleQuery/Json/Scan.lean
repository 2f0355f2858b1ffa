import LifecycleQuery.Json

/-!
# Reading JSON

`Json.read?` reads a whole text as one value, with layout allowed between its parts. Values nest;
each level opens with a character of its own, so the length of the text bounds the levels.
-/

namespace LifecycleQuery.Json

open Text

/-! ## Strings -/

/-- A piece of a string: a character, or a code unit given by its number. -/
inductive Piece
  | char (c : Char)
  | unit (n : Nat)

/-- The number that four hex digits spell. -/
def unit? (a b c d : Char) : Option Nat :=
  match hexValue? a, hexValue? b, hexValue? c, hexValue? d with
  | some a, some b, some c, some d => some (((a * 16 + b) * 16 + c) * 16 + d)
  | _, _, _, _ => none

/-- The character that a backslash before `c` stands for. -/
def unescape? (c : Char) : Option Char :=
  if c = '"' ∨ c = '\\' ∨ c = '/' then some c
  else if c = 'b' then some '\x08'
  else if c = 'f' then some '\x0c'
  else if c = 'n' then some '\n'
  else if c = 'r' then some '\r'
  else if c = 't' then some '\t'
  else none

/-- The pieces up to the closing quote; control characters must be escaped. -/
def scanPieces : List Char → Option (List Piece × List Char)
  | '"' :: rest => some ([], rest)
  | '\\' :: 'u' :: a :: b :: c :: d :: rest =>
    match unit? a b c d with
    | some n => (scanPieces rest).map fun (ps, left) => (.unit n :: ps, left)
    | none => none
  | '\\' :: c :: rest =>
    match unescape? c with
    | some e => (scanPieces rest).map fun (ps, left) => (.char e :: ps, left)
    | none => none
  | c :: rest =>
    if c.toNat < 0x20 then none
    else (scanPieces rest).map fun (ps, left) => (.char c :: ps, left)
  | [] => none

def isHigh (n : Nat) : Bool := 0xD800 ≤ n && n < 0xDC00

def isLow (n : Nat) : Bool := 0xDC00 ≤ n && n < 0xE000

/-- The pieces as characters, pairs of surrogates joined; none when one has no partner. -/
def joinPieces : List Piece → Option (List Char)
  | [] => some []
  | .char c :: rest => (joinPieces rest).map (c :: ·)
  | .unit n :: .unit m :: rest =>
    if isHigh n then
      if isLow m then
        let c := Char.ofNat (0x10000 + (n - 0xD800) * 0x400 + (m - 0xDC00))
        (joinPieces rest).map (c :: ·)
      else none
    else if isLow n then none
    else (joinPieces (.unit m :: rest)).map (Char.ofNat n :: ·)
  | .unit n :: rest =>
    if isHigh n || isLow n then none else (joinPieces rest).map (Char.ofNat n :: ·)

def scanString : List Char → Option (Option String × List Char)
  | '"' :: rest =>
    (scanPieces rest).map fun (ps, left) => ((joinPieces ps).map String.ofList, left)
  | _ => none

/-! ## Values -/

/-- A numeral without plus sign and without needless zeros in front. -/
def scanNumber (text : List Char) : Option (Numeral × List Char) :=
  match Numeral.scan text with
  | some (n, rest) =>
    if n.sign = some .plus ∨ (n.whole.head? = some '0' ∧ 1 < n.whole.length) then none
    else some (n, rest)
  | none => none

/-- Null, a boolean, a number or a string. -/
def scanScalar (text : List Char) : Option (Json × List Char) :=
  (((word "null".toList text).map fun rest => (null, rest)).or
    (((word "true".toList text).map fun rest => (boolean true, rest)).or
      ((word "false".toList text).map fun rest => (boolean false, rest)))).or
    (((scanNumber text).map fun (n, rest) => (number n, rest)).or
      ((scanString text).map fun (s, rest) => (string s, rest)))

/-- A key, a colon and a value. -/
def scanMember (value : Scanner Json) : Scanner Member := fun text =>
  (Outcome.ofOption text (scanString text)).andThen fun key rest =>
    (expect ':' (skipLayout rest)).andThen fun _ rest =>
      (value (skipLayout rest)).map fun j => (key, j)

/-- What stands between brackets, perhaps nothing. -/
def scanGroup {α : Type} (item : Scanner α) (close : Char) : Scanner (List α) := fun text =>
  match expect close (skipLayout text) with
  | .read _ rest => .read [] rest
  | _ => enclosed (sepBy1 comma item) close text

/-- A value with at most `n` levels. -/
def scan : Nat → Scanner Json
  | 0, text => .miss text
  | _ + 1, [] => .miss []
  | n + 1, c :: rest =>
    if c = '[' then (scanGroup (scan n) ']' rest).map array
    else if c = '{' then (scanGroup (scanMember (scan n)) '}' rest).map object
    else .ofOption (c :: rest) (scanScalar (c :: rest))

def read? (text : String) : Option Json :=
  match scan (text.length + 1) (skipLayout text.toList) with
  | .read j rest => if skipLayout rest = [] then some j else none
  | _ => none

end LifecycleQuery.Json
