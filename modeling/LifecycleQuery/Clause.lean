import LifecycleQuery.Fault
import LifecycleQuery.Text.Utf8

/-!
# Reading a whole clause

A scanner reads from the front of a text. A clause is the whole of one, with layout around it, and
the rest at which the scanner failed tells the byte of the fault and its cause.
-/

namespace LifecycleQuery

open Text

/-- The text as one value, and nothing after it. -/
def readWhole {α : Type} (clause : Clause) (scan : Scanner α) (text : List Char) :
    Except QueryError α :=
  match scan (skipLayout text) with
  | .read a rest =>
    match skipLayout rest with
    | [] => .ok a
    | left => .error (.clause clause (offset text left) (.before left))
  | .miss rest => .error (.clause clause (offset text rest) (.before rest))
  | .stop why rest => .error (.clause clause (offset text rest) (.ofStop why rest))

/-- The same for a list, which a blank text leaves empty. -/
def readList {α : Type} (clause : Clause) (scan : Scanner (List α)) (text : List Char) :
    Except QueryError (List α) :=
  if isBlankText text then .ok [] else readWhole clause scan text

end LifecycleQuery
