import LifecycleQuery.Proofs.Grammar.Table

/-!
# Tables, written and read

A clause is read when it is blank or derived by the grammar, and its table has the labels in the
order in which they are declared first, each bound to the namespace that is declared last
(`read_declares`). A table is written without escapes, so what its bindings hold may change what is
read. It is read back when it holds labels and IRIs by the grammar and in no other case, as nothing
else is ever read (`read_render_iff`).
-/

namespace LifecycleQuery.Namespaces

open Text

/-! ## What a clause declares -/

theorem read_eq_error {text : String} {e : QueryError} (h : read text = .error e) :
    ∃ position fault, e = .clause .namespaces position fault := by
  rw [read, Except.map_eq_error_iff] at h
  obtain ⟨why, rest, -, rfl⟩ := readList_eq_error h
  exact ⟨_, _, rfl⟩

/-- A clause is read when it is blank, and then declares nothing, or when it is derived as a list of
declarations. Of these the first for a label decides its place in the table, and the last one its
namespace. Any other text is refused at a place in it. -/
theorem read_declares (text : String) :
    ((∃ t, read text = .ok t) ↔ trim text.toList = [] ∨ ∃ bs, DerivesClause text.toList bs) ∧
    (trim text.toList = [] → read text = .ok empty) ∧
    (∀ bs, DerivesClause text.toList bs → ∃ t, read text = .ok t ∧
      t.entries.map Prod.fst = (bs.map Prod.fst).eraseDups ∧
      ∀ label space, (label, space) ∈ t.entries ↔
        ∃ before after, bs = before ++ (label, space) :: after ∧ label ∉ after.map Prod.fst) ∧
    (trim text.toList ≠ [] → (¬∃ bs, DerivesClause text.toList bs) →
      ∃ position fault, read text = .error (.clause .namespaces position fault)) := by
  have hread : (∃ t, read text = .ok t) ↔
      trim text.toList = [] ∨ ∃ bs, DerivesClause text.toList bs := by
    simp only [read_ok_iff, trim_eq_nil_iff]
    constructor
    · rintro ⟨t, ⟨hblank, -⟩ | ⟨bs, hbs, -⟩⟩
      · exact .inl hblank
      · exact .inr ⟨bs, hbs⟩
    · rintro (hblank | ⟨bs, hbs⟩)
      · exact ⟨empty, .inl ⟨hblank, rfl⟩⟩
      · exact ⟨ofList bs, .inr ⟨bs, hbs, rfl⟩⟩
  refine ⟨hread, fun hblank => ?_, fun bs hbs => ?_, fun hblank hnone => ?_⟩
  · exact read_ok_iff.2 (.inl ⟨trim_eq_nil_iff.1 hblank, rfl⟩)
  · refine ⟨ofList bs, read_ok_iff.2 (.inr ⟨bs, hbs, rfl⟩), labels_ofList bs, ?_⟩
    intro label space
    rw [← get?_eq_some_iff, get?_ofList_eq_some_iff]
  · cases h : read text with
    | ok t => exact absurd (hread.1 ⟨t, h⟩) (not_or.2 ⟨hblank, hnone⟩)
    | error e =>
      obtain ⟨position, fault, rfl⟩ := read_eq_error h
      exact ⟨position, fault, rfl⟩

/-- A label declared again keeps its place; a comma in an IRI divides nothing. -/
theorem read_declares_again : ∃ t, read "a=<x:/>, b = <y:/> ,a=<z:,/>" = .ok t ∧
    t.entries.map Prod.fst = ["a", "b"] ∧ ("a", "z:,/") ∈ t.entries := by
  let bs : List Binding := [("a", "x:/"), ("b", "y:/"), ("a", "z:,/")]
  have hscan : readList .namespaces (sepBy1 comma scanBinding)
      "a=<x:/>, b = <y:/> ,a=<z:,/>".toList = .ok bs := by
    decide +kernel
  have hbs : DerivesClause "a=<x:/>, b = <y:/> ,a=<z:,/>".toList bs :=
    ((readList_ok_iff list_proper list_exact).1 hscan).resolve_left (by decide)
  obtain ⟨-, -, hderived, -⟩ := read_declares "a=<x:/>, b = <y:/> ,a=<z:,/>"
  obtain ⟨t, hread, hlabels, hentries⟩ := hderived bs hbs
  refine ⟨t, hread, hlabels, (hentries "a" "z:,/").2 ?_⟩
  exact ⟨[("a", "x:/"), ("b", "y:/")], [], rfl, by simp⟩

/-! ## What a table is read as -/

theorem read_render_of_writable {t : Namespaces} (h : Writable t.entries) :
    read t.render = .ok t := by
  have htext : t.render.toList = t.text := String.toList_ofList
  refine read_ok_iff.2 ?_
  rw [htext]
  by_cases hne : t.entries = []
  · have hempty : t = empty := by
      rw [← ofList_entries t, hne]
      rfl
    refine .inl ⟨?_, hempty⟩
    rw [hempty]
    rfl
  · have hlist := derives_bindings hne h []
    rw [List.append_nil] at hlist
    exact .inr ⟨t.entries, ⟨t.text, [], ⟨[], by simp, rfl⟩, hlist, [], by simp, rfl⟩,
      (ofList_entries t).symm⟩

/-- A written table is read back, its bindings in their order, exactly when its labels and
namespaces are such as the grammar knows; and those of a table that was read are. -/
theorem read_render_iff :
    (∀ t : Namespaces, (∃ t', read t.render = .ok t' ∧ t'.entries = t.entries) ↔
      ∀ b ∈ t.entries, Name.Label b.1.toList ∧ IsIri b.2.toList) ∧
    ∀ text t, read text = .ok t → read t.render = .ok t := by
  refine ⟨fun t => ⟨?_, fun h => ⟨t, read_render_of_writable h, rfl⟩⟩, fun text t h => ?_⟩
  · rintro ⟨t', hread, hentries⟩
    rw [← hentries]
    exact read_bindings hread
  · exact read_render_of_writable (read_bindings h)

end LifecycleQuery.Namespaces
