import LifecycleQuery.Condition.Clause
import LifecycleQuery.Settings

/-!
# Queries

A query holds the namespaces, conditions and properties that a client has given, one clause at a
time. Each clause replaces its own part and leaves the others; a clause with a fault changes
nothing. Conditions and properties are resolved once, under the namespaces of that moment.
-/

namespace LifecycleQuery

structure Query where
  settings : Settings
  namespaces : Namespaces
  conditions : List Filter
  properties : List Projection

namespace Query

def ofSettings (s : Settings) : Query := ⟨s, .empty, [], []⟩

def resolver (q : Query) : Resolver := q.settings.resolver q.namespaces

/-- Takes a namespace clause. -/
def declare (q : Query) (text : String) : Except QueryError Query :=
  (Namespaces.read text).map fun t => { q with namespaces := t }

/-- Takes a condition clause. -/
def filter (q : Query) (text : String) : Except QueryError Query :=
  (Condition.read q.resolver q.settings.maxNesting text).map fun cs => { q with conditions := cs }

/-- Takes a property clause. -/
def project (q : Query) (text : String) : Except QueryError Query :=
  (Property.read q.resolver q.settings.maxNesting text).map fun ps => { q with properties := ps }

/-- Takes the text of the given clause. -/
def take (q : Query) : Clause → String → Except QueryError Query
  | .namespaces, text => q.declare text
  | .conditions, text => q.filter text
  | .properties, text => q.project text

/-- Takes a text, or stays as it was if that has a fault. -/
def step (q : Query) (s : Clause × String) : Query := (q.take s.1 s.2).toOption.getD q

def run (q : Query) (steps : List (Clause × String)) : Query := steps.foldl step q

/-- All names that the conditions read, in pre-order. -/
def conditionNames (q : Query) : List Iri := Condition.namesAll q.conditions

/-- All names that are wanted, in pre-order. -/
def propertyNames (q : Query) : List Iri := Property.namesAll q.properties

def text (q : Query) : List Char :=
  "prefix: ".toList ++ q.namespaces.text ++ "; where: ".toList ++ Condition.textAll q.conditions
    ++ "; select: ".toList ++ Property.textAll q.properties

def render (q : Query) : String := String.ofList q.text

end Query

end LifecycleQuery
