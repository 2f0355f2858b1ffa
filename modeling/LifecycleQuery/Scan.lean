import LifecycleQuery.Text.Blank

/-!
# Reading a text from the front

A scanner reads a value from the front of a text and leaves the rest. A scanner that cannot fail
beyond recovery is a function to `Option`; one that can is a `Scanner`, whose `Outcome` tells a
reading that does not apply (`miss`: another one may be tried) from one that has committed itself
(`stop`). Either way it says which rest it failed at, and so where in the clause.

`sepBy1` reads items with separators between them. The list ends before a separator that no item
follows; a committed failure of an item is a failure of the list.
-/

namespace LifecycleQuery

open Text

/-- Why a committed reading stops. -/
inductive Stop
  | unexpected
  | tooDeep
  deriving DecidableEq, Repr

inductive Outcome (α : Type)
  | read (value : α) (rest : List Char)
  | miss (rest : List Char)
  | stop (why : Stop) (rest : List Char)
  deriving Repr

abbrev Scanner (α : Type) := List Char → Outcome α

namespace Outcome

variable {α β : Type}

def map (f : α → β) : Outcome α → Outcome β
  | read a rest => read (f a) rest
  | miss rest => miss rest
  | stop why rest => stop why rest

/-- Reads on after a success. -/
def andThen (o : Outcome α) (next : α → Scanner β) : Outcome β :=
  match o with
  | read a rest => next a rest
  | miss rest => miss rest
  | stop why rest => stop why rest

/-- No other reading is tried from here on. -/
def commit : Outcome α → Outcome α
  | miss rest => stop .unexpected rest
  | o => o

def toOption : Outcome α → Option (α × List Char)
  | read a rest => some (a, rest)
  | _ => none

/-- What was read in place of a failure at `text`. -/
def ofOption (text : List Char) : Option (α × List Char) → Outcome α
  | some (a, rest) => read a rest
  | none => miss text

end Outcome

/-! ## Pieces of text -/

/-- One character. -/
def expect (c : Char) : Scanner Unit
  | d :: rest => if d = c then .read () rest else .miss (d :: rest)
  | [] => .miss []

/-- The given characters. -/
def word (w text : List Char) : Option (List Char) :=
  if w.isPrefixOf text then some (text.drop w.length) else none

/-- Layout, at least one character of it. -/
def layout1 : List Char → Option (List Char)
  | c :: rest => if isLayout c then some (skipLayout rest) else none
  | [] => none

/-- A comma, with layout on either side. -/
def comma (text : List Char) : Option (List Char) :=
  match skipLayout text with
  | ',' :: rest => some (skipLayout rest)
  | _ => none

/--
The longest run of `ok` characters in which single marks may stand between two of them, and the
text after it. A mark is not itself `ok`, and never ends the run.
-/
def chain (mark : Char) (ok : Char → Bool) : List Char → List Char × List Char
  | [] => ([], [])
  | c :: rest =>
    if ok c then
      let (taken, left) := chain mark ok rest
      (c :: taken, left)
    else if c = mark then
      match rest with
      | d :: rest' =>
        if ok d then
          let (taken, left) := chain mark ok rest'
          (c :: d :: taken, left)
        else ([], c :: rest)
      | [] => ([], [c])
    else ([], c :: rest)

theorem chain_append (mark : Char) (ok : Char → Bool) (text : List Char) :
    (chain mark ok text).1 ++ (chain mark ok text).2 = text := by
  fun_induction chain mark ok text <;> simp_all

/-! ## Lists -/

variable {α : Type}

/-- The items after the first; an item that reads nothing ends the list. -/
def moreItems (sep : List Char → Option (List Char)) (item : Scanner α) (text : List Char) :
    Outcome (List α) :=
  match sep text with
  | none => .read [] text
  | some inner =>
    match item inner with
    | .read a rest =>
      if rest.length < text.length then (moreItems sep item rest).map (a :: ·)
      else .read [] text
    | .miss _ => .read [] text
    | .stop why rest => .stop why rest
termination_by text.length

def sepBy1 (sep : List Char → Option (List Char)) (item : Scanner α) : Scanner (List α) :=
  fun text => (item text).andThen fun a rest => (moreItems sep item rest).map (a :: ·)

/-- What stands between an opening bracket and its closing one; layout may surround it. -/
def enclosed (body : Scanner α) (close : Char) : Scanner α := fun text =>
  ((body (skipLayout text)).andThen fun a rest =>
    (expect close (skipLayout rest)).map fun _ => a).commit

end LifecycleQuery
