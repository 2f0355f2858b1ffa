import LifecycleQuery.Resolver
import LifecycleQuery.Value

/-!
# Values as written

A `Literal` is a value the way a clause spells it: a number is still a numeral and a datatype still
a name. `scan` tries the kinds in the order IRI, boolean, number, string. `value` converts the
number, which may be out of range, and resolves the datatype, which may be unknown.

A string may be followed by `@` and a language or by `^^` and a qualified name. What does not make
one of these is left for what comes next to refuse.
-/

namespace LifecycleQuery

/-- What may follow a string. -/
inductive Suffix
  | none
  | language (tag : String)
  | datatype (name : Name)
  deriving DecidableEq, Repr

inductive Literal
  | iri (text : String)
  | boolean (b : Bool)
  | number (n : Numeral)
  | string (text : String) (suffix : Suffix)
  deriving DecidableEq, Repr

namespace Literal

/-! ## Reading -/

/-- The character that a backslash before `c` stands for. -/
def unescape (c : Char) : Char :=
  if c = 'n' then '\n' else if c = 't' then '\t' else if c = 'r' then '\r' else c

/-- The content of a string up to the closing quote. -/
def scanContent : List Char → Option (List Char × List Char)
  | [] => none
  | '"' :: rest => some ([], rest)
  | '\\' :: c :: rest => (scanContent rest).map fun (cs, left) => (unescape c :: cs, left)
  | ['\\'] => none
  | c :: rest => (scanContent rest).map fun (cs, left) => (c :: cs, left)

/-- A letter, then letters and digits with single hyphens among them. -/
def scanLanguage : List Char → Option (List Char × List Char)
  | c :: rest =>
    if c.isAlpha then
      let (taken, left) := chain '-' Char.isAlphanum rest
      some (c :: taken, left)
    else none
  | [] => none

def scanSuffix : List Char → Suffix × List Char
  | '@' :: rest =>
    match scanLanguage rest with
    | some (tag, left) => (.language (String.ofList tag), left)
    | none => (.none, '@' :: rest)
  | '^' :: '^' :: rest =>
    match Name.scanQualified rest with
    | some (spelling, left) => (.datatype (Name.ofText spelling), left)
    | none => (.none, '^' :: '^' :: rest)
  | text => (.none, text)

def scanString : List Char → Option (Literal × List Char)
  | '"' :: rest =>
    (scanContent rest).map fun (content, rest) =>
      let (suffix, left) := scanSuffix rest
      (string (String.ofList content) suffix, left)
  | _ => none

def scanBoolean (text : List Char) : Option (Literal × List Char) :=
  ((word "true".toList text).map fun rest => (boolean true, rest)).or
    ((word "false".toList text).map fun rest => (boolean false, rest))

def scan (text : List Char) : Option (Literal × List Char) :=
  ((((scanIri text).map fun i => iri (String.ofList i)).toOption).or (scanBoolean text)).or
    (((Numeral.scan text).map fun (n, rest) => (number n, rest)).or (scanString text))

/-! ## Meaning -/

/-- The number that a numeral writes: a decimal if it has a point or an exponent. -/
def numberOf (n : Numeral) : Except ValueFault Number :=
  if n.isInteger then
    match Number.ofInt? n.integerValue with
    | some i => .ok i
    | none => .error (.integerRange n.render)
  else
    let x := Double.ofNumeral n
    if x.isFinite then .ok (.decimal x) else .error (.decimalRange n.render)

def value (r : Resolver) : Literal → Except QueryError Value
  | iri i => .ok (.iri i)
  | boolean b => .ok (.boolean b)
  | number n => ((numberOf n).mapError QueryError.value).map Value.number
  | string s .none => .ok (.string s none none)
  | string s (.language tag) => .ok (.string s (some tag) none)
  | string s (.datatype name) => (r.resolve name).map fun d => .string s none (some d)

end Literal

/-! ## Values on their own -/

namespace Value

/-- A literal with layout around it, and nothing else. -/
def readLiteral? (text : List Char) : Option Literal :=
  match Literal.scan (Text.skipLayout text) with
  | some (l, rest) => if Text.skipLayout rest = [] then some l else none
  | none => none

def read (r : Resolver) (text : String) : Except QueryError Value :=
  match readLiteral? text.toList with
  | some l => l.value r
  | none => .error (.value (.notValue text))

end Value

/-- A literal with the text that it begins, which tells where in a clause it stands. -/
structure Placed where
  literal : Literal
  start : List Char
  deriving DecidableEq, Repr

namespace Placed

def scan : Scanner Placed := fun text =>
  .ofOption text ((Literal.scan text).map fun (l, rest) => (⟨l, text⟩, rest))

/-- Literals with commas between them. -/
def scanList : Scanner (List Placed) := sepBy1 comma scan

end Placed

/-- The values of a text that lists literals; the first that has no value decides the error. -/
def Value.readAll (r : Resolver) (text : String) : Except QueryError (List Value) :=
  match Placed.scanList (Text.skipLayout text.toList) with
  | .read placed rest =>
    if Text.skipLayout rest = [] then placed.mapM fun p => p.literal.value r
    else .error (.value (.notValues text))
  | _ => .error (.value (.notValues text))

end LifecycleQuery
