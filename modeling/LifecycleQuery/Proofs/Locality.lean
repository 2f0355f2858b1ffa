import LifecycleQuery.Proofs.Grammar.Table
import LifecycleQuery.Proofs.Mention
import LifecycleQuery.Proofs.Query.Invariant

/-!
# What a clause takes from the tables

A clause takes nothing from the tables but the namespaces of the labels in it (`read_congr`). So two
request tables that agree on these labels are as good as one; and as no declared table binds the
empty label, what a client declares does not touch names without a label. In the same way the
server's own table may be taken for bindings that the client has declared before its own.
-/

namespace LifecycleQuery

open Text

/-! ## Tables that agree -/

theorem Resolver.resolve_congr {r r' : Resolver} (hu : r.unknown = r'.unknown) {n : Name}
    (hn : ∀ label ∈ n.label?, r.space? label = r'.space? label) : r.resolve n = r'.resolve n := by
  cases n with
  | all => rfl
  | qualified label part => rw [resolve, resolve, hn label rfl, hu]

theorem Condition.read_congr {r r' : Resolver} {n : Nat} {text : String}
    (h : ∀ name, NamedIn text.toList name → ∀ label ∈ name.label?,
      r.space? label = r'.space? label)
    (hu : r.unknown = r'.unknown) : read r n text = read r' n text := by
  apply read_related sequential_eq (fun _ _ => rfl)
  intro name hname
  exact Resolver.resolve_congr hu (h name hname)

theorem Property.read_congr {r r' : Resolver} {n : Nat} {text : String}
    (h : ∀ name, NamedIn text.toList name → ∀ label ∈ name.label?,
      r.space? label = r'.space? label)
    (hu : r.unknown = r'.unknown) : read r n text = read r' n text := by
  apply read_related sequential_eq (fun _ _ => rfl)
  intro name hname
  exact Resolver.resolve_congr hu (h name hname)

theorem Settings.space?_congr (s : Settings) {t t' : Namespaces} {label : String}
    (h : t.get? label = t'.get? label) :
    (s.resolver t).space? label = (s.resolver t').space? label := by
  show (t.get? label).or (s.base.get? label) = (t'.get? label).or (s.base.get? label)
  rw [h]

/-! ## Declared tables -/

/-- Only a label by the grammar can be bound by a clause. -/
theorem Namespaces.get?_of_read {text : String} {t : Namespaces} (h : read text = .ok t)
    {label : String} (hl : ¬Name.Label label.toList) : t.get? label = none := by
  cases hget : t.get? label with
  | none => rfl
  | some space =>
    obtain ⟨before, after, he, -⟩ := List.lookup_eq_some_iff.1 hget
    have hmem : (label, space) ∈ t.entries := by
      rw [he]
      simp
    exact absurd (read_bindings h _ hmem).1 hl

theorem Name.not_label_empty : ¬Label "".toList := by
  intro h
  obtain ⟨c, cs, he, -⟩ := h
  cases he

theorem Name.not_label_of_colon {label : String} (h : ':' ∈ label.toList) :
    ¬Label label.toList := by
  intro hl
  exact Local.ne_of_mem hl.isLocal (d := ':') (by decide) (by decide) ':' h rfl

/-- No client can bind the empty label, so it has the namespace that the server gives it. -/
theorem Settings.space?_empty (s : Settings) {declared declared' : String} {t t' : Namespaces}
    (h : Namespaces.read declared = .ok t) (h' : Namespaces.read declared' = .ok t') :
    (s.resolver t).space? "" = (s.resolver t').space? "" := by
  apply s.space?_congr
  rw [Namespaces.get?_of_read h Name.not_label_empty,
    Namespaces.get?_of_read h' Name.not_label_empty]

/-- A clause depends on a request's table through the labels in it alone; and as no table that is
declared binds the empty label, or one with a colon, names without a label mean the same whatever a
client declares. -/
theorem Settings.tables_agree (s : Settings) (text : String) :
    (∀ t t' : Namespaces,
      ((∀ n, Condition.NamedIn text.toList n → ∀ label ∈ n.label?, t.get? label = t'.get? label) →
        Condition.read (s.resolver t) s.maxNesting text =
          Condition.read (s.resolver t') s.maxNesting text) ∧
      ((∀ n, Property.NamedIn text.toList n → ∀ label ∈ n.label?, t.get? label = t'.get? label) →
        Property.read (s.resolver t) s.maxNesting text =
          Property.read (s.resolver t') s.maxNesting text)) ∧
    (∀ declared t, Namespaces.read declared = .ok t →
      t.get? "" = none ∧ ∀ label : String, ':' ∈ label.toList → t.get? label = none) ∧
    ∀ declared declared' t t', Namespaces.read declared = .ok t →
      Namespaces.read declared' = .ok t' →
      ((∀ n, Condition.NamedIn text.toList n → ∀ label ∈ n.label?, label = "") →
        Condition.read (s.resolver t) s.maxNesting text =
          Condition.read (s.resolver t') s.maxNesting text) ∧
      ((∀ n, Property.NamedIn text.toList n → ∀ label ∈ n.label?, label = "") →
        Property.read (s.resolver t) s.maxNesting text =
          Property.read (s.resolver t') s.maxNesting text) := by
  refine ⟨fun t t' => ⟨fun h => ?_, fun h => ?_⟩, fun declared t h => ⟨?_, fun label hl => ?_⟩,
    fun declared declared' t t' h h' => ⟨fun hbare => ?_, fun hbare => ?_⟩⟩
  · refine Condition.read_congr ?_ rfl
    intro n hn label hl
    exact s.space?_congr (h n hn label hl)
  · refine Property.read_congr ?_ rfl
    intro n hn label hl
    exact s.space?_congr (h n hn label hl)
  · exact Namespaces.get?_of_read h Name.not_label_empty
  · exact Namespaces.get?_of_read h (Name.not_label_of_colon hl)
  · refine Condition.read_congr ?_ rfl
    intro n hn label hl
    rw [hbare n hn label hl]
    exact s.space?_empty h h'
  · refine Property.read_congr ?_ rfl
    intro n hn label hl
    rw [hbare n hn label hl]
    exact s.space?_empty h h'

/-! ## The server's table as a declaration -/

/-- What a table binds by itself it binds behind an empty one. -/
theorem Resolver.space?_declared {t t' base : Namespaces} {u : UnknownLabel}
    (h : ∀ label, t'.get? label = (t.get? label).or (base.get? label)) (label : String) :
    space? ⟨t, base, u⟩ label = space? ⟨t', .empty, u⟩ label := by
  show (t.get? label).or (base.get? label) = (t'.get? label).or (Namespaces.empty.get? label)
  rw [h, Namespaces.get?_empty, Option.or_none]

/-- The namespaces of a server act as if it had written them in front of what a client declares. -/
theorem Query.declare_base {s : Settings} {base : Namespaces} (hne : base.entries ≠ [])
    (hbase : ∀ b ∈ base.entries, Name.Label b.1.toList ∧ IsIri b.2.toList) {declared : String}
    (hdeclared : trim declared.toList ≠ []) {q q' p : Query}
    (hq : q.settings = { s with base := base }) (hq' : q'.settings = { s with base := .empty })
    (hp : q.declare declared = .ok p) :
    ∃ p', q'.declare (base.render ++ "," ++ declared) = .ok p' ∧
      ∀ text, (p.filter text).map conditions = (p'.filter text).map conditions ∧
        (p.project text).map properties = (p'.project text).map properties := by
  obtain ⟨t, ht, rfl⟩ := Except.map_eq_ok_iff.1 hp
  rcases Namespaces.read_ok_iff.1 ht with ⟨hb, -⟩ | ⟨bs, hbs, rfl⟩
  · exact absurd (trim_eq_nil_iff.2 hb) hdeclared
  · have hread := Namespaces.read_text_append hne hbase hbs
    refine ⟨{ q' with namespaces := .ofList (base.entries ++ bs) }, ?_, fun text => ?_⟩
    · show (Namespaces.read _).map _ = _
      rw [hread]
      rfl
    · have hget : ∀ label, (Namespaces.ofList (base.entries ++ bs)).get? label =
          ((Namespaces.ofList bs).get? label).or (base.get? label) := by
        intro label
        rw [Namespaces.get?_ofList_append, Namespaces.ofList_entries]
      have hspace := Resolver.space?_declared (u := s.unknown) hget
      have hconditions : Condition.read ⟨.ofList bs, base, s.unknown⟩ s.maxNesting text =
          Condition.read ⟨.ofList (base.entries ++ bs), .empty, s.unknown⟩ s.maxNesting text :=
        Condition.read_congr (fun n _ label _ => hspace label) rfl
      have hproperties : Property.read ⟨.ofList bs, base, s.unknown⟩ s.maxNesting text =
          Property.read ⟨.ofList (base.entries ++ bs), .empty, s.unknown⟩ s.maxNesting text :=
        Property.read_congr (fun n _ label _ => hspace label) rfl
      simp only [filter, project, resolver, hq, hq', Settings.resolver]
      rw [hconditions, hproperties]
      constructor
      · cases Condition.read _ s.maxNesting text <;> rfl
      · cases Property.read _ s.maxNesting text <;> rfl

/-- Two namespaces of the server, of which the client binds one label again. -/
theorem Query.declare_base_rebound : ∃ p p',
    (ofSettings ⟨.reject, .ofList [("a", "x:/"), ("b", "y:/")], 32⟩).declare "b=<z:/>" = .ok p ∧
      (ofSettings ⟨.reject, .empty, 32⟩).declare
        ((Namespaces.ofList [("a", "x:/"), ("b", "y:/")]).render ++ "," ++ "b=<z:/>") = .ok p' ∧
      ∀ text, (p.filter text).map conditions = (p'.filter text).map conditions ∧
        (p.project text).map properties = (p'.project text).map properties := by
  have hbase : ∀ b ∈ (Namespaces.ofList [("a", "x:/"), ("b", "y:/")]).entries,
      Name.Label b.1.toList ∧ IsIri b.2.toList := by
    show ∀ b ∈ [("a", "x:/"), ("b", "y:/")], Name.Label b.1.toList ∧ IsIri b.2.toList
    simp only [List.forall_mem_cons, List.not_mem_nil, false_implies, implies_true, and_true]
    exact ⟨⟨⟨'a', [], rfl, by decide, .nil⟩, isIri_of_all (by decide) (by decide)⟩,
      ⟨'b', [], rfl, by decide, .nil⟩, isIri_of_all (by decide) (by decide)⟩
  have hderives : SepBy Comma Namespaces.Derives (Namespaces.bindingText ("b", "z:/") ++ [])
      [("b", "z:/")] [] :=
    .one (Namespaces.derives_bindingText ⟨'b', [], rfl, by decide, .nil⟩
      (isIri_of_all (by decide) (by decide)) [])
  have hread : Namespaces.read "b=<z:/>" = .ok (.ofList [("b", "z:/")]) :=
    Namespaces.read_ok_iff.2
      (.inr ⟨_, ⟨_, [], ⟨[], by simp, rfl⟩, hderives, [], by simp, rfl⟩, rfl⟩)
  have hp : (ofSettings ⟨.reject, .ofList [("a", "x:/"), ("b", "y:/")], 32⟩).declare "b=<z:/>" =
      .ok ⟨⟨.reject, .ofList [("a", "x:/"), ("b", "y:/")], 32⟩, .ofList [("b", "z:/")], [], []⟩ := by
    rw [declare, hread]
    rfl
  have hq' : (ofSettings ⟨.reject, .empty, 32⟩).settings = ⟨.reject, .empty, 32⟩ := rfl
  obtain ⟨p', hp', hsame⟩ :=
    declare_base (s := ⟨.reject, .empty, 32⟩) (List.cons_ne_nil _ _) hbase (by decide) rfl hq' hp
  exact ⟨_, p', hp, hp', hsame⟩

end LifecycleQuery
