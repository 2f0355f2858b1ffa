import LifecycleQuery.Query
import LifecycleQuery.Proofs.Grammar.Condition
import LifecycleQuery.Proofs.Grammar.Site

/-!
# Which clauses are accepted

A clause passes two gates: its text must be derived by the grammar, without too many scopes inside
each other, and what is derived must resolve. `read_ok_iff` says so for each kind of clause. What
resolves is told by single names and literals (`Admissible`), and as the grammar is unambiguous the
derivation decides the result.
-/

namespace LifecycleQuery

open Text

namespace Property

/-- The properties that the written ones stand for. -/
abbrev ResolvedBy (r : Resolver) : List (Property Name) → List Projection → Prop :=
  List.Forall₂ (Resolved r.Expands)

theorem read_ok_iff {r : Resolver} {n : Nat} {text : String} {qs : List Projection} :
    read r n text = .ok qs ↔ isBlankText text.toList = true ∧ qs = [] ∨
      ∃ ps, DerivesClause text.toList ps ∧ depthAll ps ≤ n ∧ ResolvedBy r ps qs := by
  simp only [read, scanList, nests.bind_ok_iff, resolveAll_ok_iff, ← Resolver.expands_iff,
    List.forall₂_nil_left_iff]

/-- Properties that nothing in them keeps from being taken: their scopes are at most `n` deep, and
under the strict policy every label is bound. -/
structure Admissible (r : Resolver) (n : Nat) (ps : List (Property Name)) : Prop where
  depth : depthAll ps ≤ n
  bound : r.unknown = .reject → ∀ p ∈ nodesAll ps, ∀ label ∈ p.name.label?, r.Binds label

theorem admissible_iff {r : Resolver} {n : Nat} {ps : List (Property Name)} :
    Admissible r n ps ↔ depthAll ps ≤ n ∧ ∃ qs, ResolvedBy r ps qs := by
  have hnodes : (∃ qs, ResolvedBy r ps qs) ↔
      ∀ p ∈ nodesAll ps, r.unknown = .reject → ∀ label ∈ p.name.label?, r.Binds label := by
    simp only [ResolvedBy, exists_forall₂_iff, exists_resolved_iff, mem_nodesAll,
      Resolver.expands_iff, Resolver.exists_resolve_iff]
    constructor
    · rintro h o ⟨p, hp, ho⟩
      exact h p hp o ho
    · intro h p hp o ho
      exact h o ⟨p, hp, ho⟩
  rw [hnodes]
  constructor
  · rintro ⟨hd, hb⟩
    exact ⟨hd, fun p hp hr => hb hr p hp⟩
  · rintro ⟨hd, h⟩
    exact ⟨hd, fun hr p hp => h p hp hr⟩

theorem exists_read_iff {r : Resolver} {n : Nat} {text : String} :
    (∃ qs, read r n text = .ok qs) ↔ isBlankText text.toList = true ∨
      ∃ ps, DerivesClause text.toList ps ∧ Admissible r n ps := by
  simp only [read_ok_iff, admissible_iff]
  constructor
  · rintro ⟨qs, ⟨hb, -⟩ | ⟨ps, hps, hd, hr⟩⟩
    · exact .inl hb
    · exact .inr ⟨ps, hps, hd, qs, hr⟩
  · rintro (hb | ⟨ps, hps, hd, qs, hr⟩)
    · exact ⟨[], .inl ⟨hb, rfl⟩⟩
    · exact ⟨qs, .inr ⟨ps, hps, hd, hr⟩⟩

/-- A text has one derivation at most, which decides what is read. -/
theorem resolvedBy_of_read {r : Resolver} {n : Nat} {text : String} {qs : List Projection}
    (h : read r n text = .ok qs) {ps : List (Property Name)}
    (hps : DerivesClause text.toList ps) : ResolvedBy r ps qs := by
  rcases read_ok_iff.1 h with ⟨hb, -⟩ | ⟨ps', hps', -, hr⟩
  · rw [hps.not_blank nests.list_proper] at hb
    cases hb
  · rw [nests.unique hps hps']
    exact hr

end Property

namespace Condition

/-- The conditions that the written ones stand for. -/
abbrev ResolvedBy (r : Resolver) : List Written → List Filter → Prop :=
  List.Forall₂ (Resolved r.Expands fun p v => p.literal.Means r v)

theorem read_ok_iff {r : Resolver} {n : Nat} {text : String} {ds : List Filter} :
    read r n text = .ok ds ↔ isBlankText text.toList = true ∧ ds = [] ∨
      ∃ cs, DerivesClause text.toList cs ∧ depthAll cs ≤ n ∧ ResolvedBy r cs ds := by
  simp only [read, scanList, nests.bind_ok_iff, resolveAll_ok_iff, valueIn_ok_iff,
    ← Resolver.expands_iff, ← Literal.means_iff, List.forall₂_nil_left_iff]

/-- What is derived, and is not too deep, is all that is resolved. -/
theorem read_of_derives {r : Resolver} {n : Nat} {text : String} {cs : List Written}
    (h : DerivesClause text.toList cs) (hd : depthAll cs ≤ n) :
    read r n text = resolveAll r.resolve (valueIn r text.toList) cs := by
  rw [read, scanList, nests.readList_ok_iff.2 (.inr ⟨h, hd⟩)]
  rfl

/-- Conditions that nothing in them keeps from being taken: their scopes are at most `n` deep, their
numbers are in range, and under the strict policy every label is bound. -/
structure Admissible (r : Resolver) (n : Nat) (cs : List Written) : Prop where
  depth : depthAll cs ≤ n
  values : ∀ c ∈ nodesAll cs, ∀ p ∈ c.values, p.literal.InRange
  bound : r.unknown = .reject → ∀ c ∈ nodesAll cs, (∀ label ∈ c.name.label?, r.Binds label) ∧
    ∀ p ∈ c.values, ∀ label ∈ p.literal.datatypeLabel?, r.Binds label

theorem admissible_iff {r : Resolver} {n : Nat} {cs : List Written} :
    Admissible r n cs ↔ depthAll cs ≤ n ∧ ∃ ds, ResolvedBy r cs ds := by
  have hnodes : (∃ ds, ResolvedBy r cs ds) ↔ ∀ c ∈ nodesAll cs,
      (∃ i, r.Expands c.name i) ∧ ∀ p ∈ c.values, ∃ v, p.literal.Means r v := by
    simp only [ResolvedBy, exists_forall₂_iff, exists_resolved_iff, mem_nodesAll]
    constructor
    · rintro h o ⟨c, hc, ho⟩
      exact h c hc o ho
    · intro h c hc o ho
      exact h o ⟨c, hc, ho⟩
  simp only [hnodes, Resolver.expands_iff, Resolver.exists_resolve_iff, Literal.means_iff,
    Literal.exists_value_iff]
  constructor
  · rintro ⟨hd, hv, hb⟩
    refine ⟨hd, fun c hc => ⟨fun hr => (hb hr c hc).1, fun p hp => ⟨hv c hc p hp, fun hr => ?_⟩⟩⟩
    exact (hb hr c hc).2 p hp
  · rintro ⟨hd, h⟩
    refine ⟨hd, fun c hc p hp => ((h c hc).2 p hp).1, fun hr c hc => ⟨(h c hc).1 hr, ?_⟩⟩
    exact fun p hp => ((h c hc).2 p hp).2 hr

end Condition

/-- A condition clause is taken exactly when it is blank, or derived with nothing in it out of
bounds; the conditions are then those that its one derivation stands for. -/
theorem Query.filter_accepts (q : Query) (text : String) :
    ((∃ q', q.filter text = .ok q') ↔ trim text.toList = [] ∨
      ∃ cs, Condition.DerivesClause text.toList cs ∧
        Condition.Admissible q.resolver q.settings.maxNesting cs) ∧
    ∀ q', q.filter text = .ok q' → ∃ ds, q' = { q with conditions := ds } ∧
      (trim text.toList = [] → ds = []) ∧
      ∀ cs, Condition.DerivesClause text.toList cs → Condition.ResolvedBy q.resolver cs ds := by
  simp only [filter, Except.map_eq_ok_iff, trim_eq_nil_iff]
  constructor
  · constructor
    · rintro ⟨_, ds, hds, -⟩
      rcases Condition.read_ok_iff.1 hds with ⟨hb, -⟩ | ⟨cs, hcs, hd, hr⟩
      · exact .inl hb
      · exact .inr ⟨cs, hcs, Condition.admissible_iff.2 ⟨hd, ds, hr⟩⟩
    · rintro (hb | ⟨cs, hcs, ha⟩)
      · exact ⟨_, [], Condition.read_ok_iff.2 (.inl ⟨hb, rfl⟩), rfl⟩
      · obtain ⟨hd, ds, hr⟩ := Condition.admissible_iff.1 ha
        exact ⟨_, ds, Condition.read_ok_iff.2 (.inr ⟨cs, hcs, hd, hr⟩), rfl⟩
  · rintro _ ⟨ds, hds, rfl⟩
    refine ⟨ds, rfl, ?_⟩
    rcases Condition.read_ok_iff.1 hds with ⟨hb, rfl⟩ | ⟨cs, hcs, -, hr⟩
    · refine ⟨fun _ => rfl, fun cs hcs => ?_⟩
      rw [hcs.not_blank Condition.nests.list_proper] at hb
      cases hb
    · refine ⟨fun hb => ?_, fun cs' hcs' => ?_⟩
      · rw [hcs.not_blank Condition.nests.list_proper] at hb
        cases hb
      · rw [Condition.nests.unique hcs' hcs]
        exact hr

/-- A property clause is taken exactly when it is blank, or derived with no scope too deep and no
label unbound. The properties are those that its one derivation stands for, and among them those
have children behind whose names a brace opens. -/
theorem Query.project_accepts (q : Query) (text : String) :
    ((∃ q', q.project text = .ok q') ↔ trim text.toList = [] ∨
      ∃ ps, Property.DerivesClause text.toList ps ∧
        Property.Admissible q.resolver q.settings.maxNesting ps) ∧
    ∀ q', q.project text = .ok q' → ∃ qs, q' = { q with properties := qs } ∧
      (trim text.toList = [] → qs = []) ∧
      ∀ ps, Property.DerivesClause text.toList ps → Property.ResolvedBy q.resolver ps qs ∧
        ∃ ss, Property.SitedClause text.toList ss ∧ List.Forall₂ Property.SitesOf ss ps ∧
          ∀ s ∈ Property.nodesAll ss, s.children = [] ↔ ¬s.name.Opens := by
  simp only [project, Except.map_eq_ok_iff, trim_eq_nil_iff]
  constructor
  · rw [← Property.exists_read_iff]
    constructor
    · rintro ⟨_, qs, hqs, -⟩
      exact ⟨qs, hqs⟩
    · rintro ⟨qs, hqs⟩
      exact ⟨_, qs, hqs, rfl⟩
  · rintro _ ⟨qs, hqs, rfl⟩
    refine ⟨qs, rfl, fun hb => ?_, fun ps hps => ?_⟩
    · rcases Property.read_ok_iff.1 hqs with ⟨-, hnil⟩ | ⟨ps, hps, -⟩
      · exact hnil
      · rw [hps.not_blank Property.nests.list_proper] at hb
        cases hb
    · exact ⟨Property.resolvedBy_of_read hqs hps, Property.exists_sitedClause hps⟩

end LifecycleQuery
