import LifecycleQuery.Scan

/-!
# Names and bracketed IRIs

A clause names an attribute by `*` (every attribute), by a label and a local part with a colon
between them, or by a local part alone, which is the same as an empty label. The classes are ASCII:
a label starts with a letter, a local part also with a digit or `_`; both go on with letters,
digits, `_` and `-`, with single dots between two of these.

`Name.ofText` reads any text as a name, cutting at the first colon; `Name.scan` takes from a clause
the longest spelling that the grammar allows.
-/

namespace LifecycleQuery

def isNameStart (c : Char) : Bool := c.isAlphanum || c == '_'

def isNameChar (c : Char) : Bool := c.isAlphanum || c == '_' || c == '-'

/-- What may stand between angle brackets. -/
def isIriChar (c : Char) : Bool :=
  !(['<', '>', '"', '{', '}', '|', '\x60', '\\'].contains c)

/-- An attribute as a clause names it. -/
inductive Name
  | all
  | qualified (label part : String)
  deriving DecidableEq, Repr

namespace Name

/-- A text as a name: the label is what stands before the first colon. -/
def ofText (text : List Char) : Name :=
  if text = ['*'] then all
  else if text.contains ':' then
    qualified (String.ofList (text.takeWhile (· != ':')))
      (String.ofList ((text.dropWhile (· != ':')).drop 1))
  else qualified "" (String.ofList text)

/-- The label, for a name that has one to look up. -/
def label? : Name → Option String
  | all => none
  | qualified label _ => some label

/-- A character of the class `start`, then name characters with single dots among them. -/
def scanPart (start : Char → Bool) : List Char → Option (List Char × List Char)
  | c :: rest =>
    if start c then
      let (taken, left) := chain '.' isNameChar rest
      some (c :: taken, left)
    else none
  | [] => none

def scanLabel : List Char → Option (List Char × List Char) := scanPart Char.isAlpha

def scanLocal : List Char → Option (List Char × List Char) := scanPart isNameStart

/-- A label, a colon and a local part. -/
def scanQualified (text : List Char) : Option (List Char × List Char) :=
  match scanLabel text with
  | some (label, ':' :: rest) =>
    (scanLocal rest).map fun (part, left) => (label ++ ':' :: part, left)
  | _ => none

/-- The spelling of the name at the front of the text: the wildcard first, then the longer form. -/
def scanText : List Char → Option (List Char × List Char)
  | '*' :: rest => some (['*'], rest)
  | text => (scanQualified text).or (scanLocal text)

def scan (text : List Char) : Option (Name × List Char) :=
  (scanText text).map fun (spelling, rest) => (ofText spelling, rest)

example : scan "dcterms:title.=1".toList = some (.qualified "dcterms" "title", ".=1".toList) := by
  decide +kernel

example : scan "dcterms:".toList = some (.qualified "" "dcterms", [':']) := by decide +kernel

end Name

/-- An IRI of one character or more, in angle brackets. A miss is at the first wrong character. -/
def scanIri : Scanner (List Char)
  | '<' :: rest =>
    match rest.takeWhile isIriChar, rest.dropWhile isIriChar with
    | [], left => .miss left
    | iri, '>' :: left => .read iri left
    | _, left => .miss left
  | text => .miss text

end LifecycleQuery
