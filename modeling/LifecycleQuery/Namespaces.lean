import LifecycleQuery.Clause
import LifecycleQuery.Name

/-!
# Namespace tables

A table binds labels to namespaces and keeps the order in which the labels came. Binding a label
again changes its namespace and not its place. `read` takes the text of a clause, with commas
between bindings `label=<namespace>`, and `text` writes one.
-/

namespace LifecycleQuery

abbrev Binding := String × String

/-- The entries with `label` bound to `namespace`: in its old place, else at the end. -/
def bindLabel (label space : String) : List Binding → List Binding
  | [] => [(label, space)]
  | (l, s) :: rest => if l = label then (l, space) :: rest else (l, s) :: bindLabel label space rest

theorem labels_bindLabel (label space : String) (entries : List Binding) :
    (bindLabel label space entries).map Prod.fst =
      if label ∈ entries.map Prod.fst then entries.map Prod.fst
      else entries.map Prod.fst ++ [label] := by
  induction entries with
  | nil => simp [bindLabel]
  | cons e rest ih =>
    obtain ⟨l, s⟩ := e
    by_cases h : l = label
    · simp [bindLabel, h]
    · have h' : ¬label = l := fun e => h e.symm
      by_cases hm : label ∈ rest.map Prod.fst
      · simp only [bindLabel, h, if_false, List.map_cons, ih, hm, if_true, List.mem_cons, h',
          false_or]
      · simp only [bindLabel, h, if_false, List.map_cons, ih, hm, List.mem_cons, h', false_or,
          List.cons_append]

structure Namespaces where
  entries : List Binding
  distinct : (entries.map Prod.fst).Nodup
  deriving DecidableEq

namespace Namespaces

def empty : Namespaces := ⟨[], .nil⟩

def insert (t : Namespaces) (label space : String) : Namespaces where
  entries := bindLabel label space t.entries
  distinct := by
    rw [labels_bindLabel]
    split
    · exact t.distinct
    · next h =>
      rw [List.nodup_append]
      refine ⟨t.distinct, by simp, ?_⟩
      intro a ha b hb e
      exact h (by rw [← List.mem_singleton.1 hb, ← e]; exact ha)

def insertAll (t : Namespaces) (bindings : List Binding) : Namespaces :=
  bindings.foldl (fun t b => t.insert b.1 b.2) t

/-- The bindings made one after another. -/
def ofList (bindings : List Binding) : Namespaces := empty.insertAll bindings

def get? (t : Namespaces) (label : String) : Option String := t.entries.lookup label

def contains (t : Namespaces) (label : String) : Bool := (t.get? label).isSome

def size (t : Namespaces) : Nat := t.entries.length

def isEmpty (t : Namespaces) : Bool := t.entries.isEmpty

theorem lookup_bindLabel (label space k : String) (entries : List Binding) :
    (bindLabel label space entries).lookup k =
      if k = label then some space else entries.lookup k := by
  induction entries with
  | nil =>
    by_cases h : k = label
    · simp [bindLabel, h]
    · simp [bindLabel, List.lookup_cons, h, beq_false_of_ne h]
  | cons e rest ih =>
    obtain ⟨l, s⟩ := e
    by_cases h : k = l
    · subst h
      by_cases hl : k = label <;> simp [bindLabel, hl]
    · have hb : (k == l) = false := beq_false_of_ne h
      by_cases hl : l = label
      · subst hl
        simp [bindLabel, List.lookup_cons, h, hb]
      · simp [bindLabel, hl, List.lookup_cons, hb, ih]

theorem get?_insert (t : Namespaces) (label space k : String) :
    (t.insert label space).get? k = if k = label then some space else t.get? k :=
  lookup_bindLabel label space k t.entries

/-- A table finds what it holds, as no label is bound twice in it. -/
theorem get?_eq_some_iff {t : Namespaces} {label space : String} :
    t.get? label = some space ↔ (label, space) ∈ t.entries := by
  rw [get?, List.lookup_eq_some_iff]
  constructor
  · rintro ⟨as, bs, he, -⟩
    rw [he]
    simp
  · intro h
    obtain ⟨as, bs, he⟩ := List.append_of_mem h
    refine ⟨as, bs, he, fun b hb => ?_⟩
    have hdistinct := t.distinct
    rw [he, List.map_append, List.nodup_append] at hdistinct
    have hne : b.1 ≠ label := hdistinct.2.2 b.1 (List.mem_map_of_mem hb) label (by simp)
    simpa using hne.symm

theorem get?_eq_none_iff {t : Namespaces} {label : String} :
    t.get? label = none ↔ label ∉ t.entries.map Prod.fst := by
  rw [get?, List.lookup_eq_none_iff, List.mem_map]
  constructor
  · rintro h ⟨b, hb, rfl⟩
    simpa using h b hb
  · intro h b hb
    rw [bne_iff_ne]
    rintro rfl
    exact h ⟨b, hb, rfl⟩

/-! ## Written form -/

def bindingText (b : Binding) : List Char := b.1.toList ++ '=' :: '<' :: b.2.toList ++ ['>']

def text (t : Namespaces) : List Char := [','].intercalate (t.entries.map bindingText)

def render (t : Namespaces) : String := String.ofList t.text

def scanBinding : Scanner Binding := fun text =>
  match Name.scanLabel text with
  | none => .miss text
  | some (label, rest) =>
    (expect '=' (Text.skipLayout rest)).andThen fun _ rest =>
      (scanIri (Text.skipLayout rest)).map fun space => (String.ofList label, String.ofList space)

/-- The table that a clause declares; a label declared again takes the later namespace. -/
def read (text : String) : Except QueryError Namespaces :=
  (readList .namespaces (sepBy1 comma scanBinding) text.toList).map ofList

end Namespaces

end LifecycleQuery
