import LifecycleQuery.Proofs.Mention
import LifecycleQuery.Proofs.Query.Invariant

/-!
# The wildcard

The wildcard is an IRI like any other, `*`, and IRIs are made by putting a local part behind a
namespace that nobody checks. Still no other name becomes the wildcard: a local part is not empty
and has no `*` in it (`Name.append_ne_wildcard`). The wildcard itself is never looked up, so a clause
that names nothing else means the same to every server (`Query.wildcard_kept`).
-/

namespace LifecycleQuery

open Text

/-- The IRI is the wildcard just if the name is. -/
def Name.SameWildcard (n : Name) (i : Iri) : Prop := i = "*" ↔ n = all

theorem Name.eq_all_iff {x : List Char} {n : Name} (h : Spells x n) : n = all ↔ x = ['*'] := by
  cases h with
  | all => simp
  | qualified hq =>
    cases hq with
    | intro hl hp =>
      refine iff_of_false (by simp) fun he => ?_
      obtain ⟨c, cs, rfl, -⟩ := hl
      simp at he
  | bare hp =>
    refine iff_of_false (by simp) ?_
    rintro rfl
    exact Local.ne_of_mem hp (d := '*') (by decide) (by decide) '*' (by simp) rfl

/-- Whatever the namespace is, nothing but the wildcard comes out of putting a local part behind
it as the wildcard. -/
theorem Name.append_ne_wildcard {space part : String} (h : Local part.toList) :
    space ++ part ≠ "*" := by
  intro he
  have hlist : space.toList ++ part.toList = ['*'] := by
    rw [← String.toList_append, he]
    rfl
  rcases List.append_eq_singleton_iff.1 hlist with ⟨-, hpart⟩ | ⟨-, hpart⟩
  · rw [hpart] at h
    exact Local.ne_of_mem h (d := '*') (by decide) (by decide) '*' (by simp) rfl
  · rw [hpart] at h
    obtain ⟨c, cs, hc, -⟩ := h
    cases hc

theorem Resolver.Expands.sameWildcard {r : Resolver} {x : List Char} {n : Name} {i : Iri}
    (hn : Name.Spells x n) (h : r.Expands n i) : n.SameWildcard i := by
  rcases Name.local_of_spells hn with rfl | ⟨label, part, rfl, hp⟩
  · cases h
    exact iff_of_true rfl rfl
  · refine iff_of_false ?_ (by simp)
    cases h with
    | request _ => exact Name.append_ne_wildcard hp
    | base _ _ => exact Name.append_ne_wildcard hp
    | fallback _ _ => exact Name.append_ne_wildcard hp

/-! ## Clauses -/

namespace Condition

/-- A condition has the wildcard for its name just where the clause writes it. -/
abbrev SameWildcards : Written → Filter → Prop := Resolved Name.SameWildcard fun _ _ => True

/-- The clause names the wildcard and nothing else, not even a datatype. -/
def OnlyWildcards (text : List Char) : Prop :=
  ∀ cs, DerivesClause text cs → ∀ c ∈ nodesAll cs,
    c.name = .all ∧ ∀ p ∈ c.values, p.literal.datatype? = none

theorem ResolvedBy.sameWildcards {r : Resolver} {text : List Char} {cs : List Written}
    {ds : List Filter} (hcs : DerivesClause text cs) (h : ResolvedBy r cs ds) :
    List.Forall₂ SameWildcards cs ds := by
  refine forall₂_imp_mem h fun c hc d hcd => hcd.imp (fun o ho i hi => ?_) fun _ _ _ _ _ _ => trivial
  have hnamed : NamedIn text o.name := ⟨cs, hcs, o, mem_nodesAll.2 ⟨c, hc, ho⟩, .inl rfl⟩
  obtain ⟨-, x, -, -, hx⟩ := hnamed.spelledIn
  exact hi.sameWildcard hx

theorem OnlyWildcards.eq_all {text : List Char} (h : OnlyWildcards text) {n : Name}
    (hn : NamedIn text n) : n = .all := by
  obtain ⟨cs, hcs, c, hc, rfl | ⟨p, hp, hdatatype⟩⟩ := hn
  · exact (h cs hcs c hc).1
  · rw [(h cs hcs c hc).2 p hp] at hdatatype
    cases hdatatype

/-- A clause without other names needs no tables and no policy. -/
theorem OnlyWildcards.read_eq {text : String} (h : OnlyWildcards text.toList) (r r' : Resolver)
    (n : Nat) : read r n text = read r' n text := by
  apply read_related sequential_eq (fun _ _ => rfl)
  intro name hname
  rw [h.eq_all hname]
  rfl

end Condition

namespace Property

/-- A property has the wildcard for its name just where the clause writes it. -/
abbrev SameWildcards : Property Name → Projection → Prop := Resolved Name.SameWildcard

/-- The clause names the wildcard and nothing else. -/
def OnlyWildcards (text : List Char) : Prop :=
  ∀ ps, DerivesClause text ps → ∀ p ∈ nodesAll ps, p.name = .all

theorem ResolvedBy.sameWildcards {r : Resolver} {text : List Char} {ps : List (Property Name)}
    {qs : List Projection} (hps : DerivesClause text ps) (h : ResolvedBy r ps qs) :
    List.Forall₂ SameWildcards ps qs := by
  refine forall₂_imp_mem h fun p hp q hpq => hpq.imp fun o ho i hi => ?_
  have hnamed : NamedIn text o.name := ⟨ps, hps, o, mem_nodesAll.2 ⟨p, hp, ho⟩, rfl⟩
  obtain ⟨-, x, -, -, hx⟩ := hnamed.spelledIn
  exact hi.sameWildcard hx

theorem OnlyWildcards.read_eq {text : String} (h : OnlyWildcards text.toList) (r r' : Resolver)
    (n : Nat) : read r n text = read r' n text := by
  apply read_related sequential_eq (fun _ _ => rfl)
  rintro name ⟨ps, hps, p, hp, rfl⟩
  rw [h ps hps p hp]
  rfl

end Property

/-- In what a clause gives, the wildcard stands where the text has `*` for a name, and nowhere else,
whatever the namespaces are; and a clause that names only the wildcard gives the same for every
table and every server with the same nesting limit. -/
theorem Query.wildcard_kept (q : Query) (text : String) :
    (∀ x n, Name.Spells x n → (n = .all ↔ x = ['*'])) ∧
    (∀ q', q.filter text = .ok q' → trim text.toList = [] ∧ q'.conditions = [] ∨
      ∃ cs, Condition.DerivesClause text.toList cs ∧
        List.Forall₂ Condition.SameWildcards cs q'.conditions) ∧
    (∀ q', q.project text = .ok q' → trim text.toList = [] ∧ q'.properties = [] ∨
      ∃ ps, Property.DerivesClause text.toList ps ∧
        List.Forall₂ Property.SameWildcards ps q'.properties) ∧
    ∀ p : Query, p.settings.maxNesting = q.settings.maxNesting →
      (Condition.OnlyWildcards text.toList →
        (p.filter text).map conditions = (q.filter text).map conditions) ∧
      (Property.OnlyWildcards text.toList →
        (p.project text).map properties = (q.project text).map properties) := by
  refine ⟨fun x n => Name.eq_all_iff, fun q' h => ?_, fun q' h => ?_, fun p hp => ⟨fun h => ?_,
    fun h => ?_⟩⟩
  · obtain ⟨ds, hread, rfl⟩ := Except.map_eq_ok_iff.1 h
    rcases Condition.read_ok_iff.1 hread with ⟨hblank, rfl⟩ | ⟨cs, hcs, -, hds⟩
    · exact .inl ⟨trim_eq_nil_iff.2 hblank, rfl⟩
    · exact .inr ⟨cs, hcs, Condition.ResolvedBy.sameWildcards hcs hds⟩
  · obtain ⟨qs, hread, rfl⟩ := Except.map_eq_ok_iff.1 h
    rcases Property.read_ok_iff.1 hread with ⟨hblank, rfl⟩ | ⟨ps, hps, -, hqs⟩
    · exact .inl ⟨trim_eq_nil_iff.2 hblank, rfl⟩
    · exact .inr ⟨ps, hps, Property.ResolvedBy.sameWildcards hps hqs⟩
  · rw [filter, filter, hp, h.read_eq p.resolver q.resolver]
    cases Condition.read q.resolver q.settings.maxNesting text <;> rfl
  · rw [project, project, hp, h.read_eq p.resolver q.resolver]
    cases Property.read q.resolver q.settings.maxNesting text <;> rfl

/-- The wildcard in the scope of a name, where the namespace of both is `*`; and in a scope of its own,
for which a server that refuses unknown labels is as good as one that does not. -/
theorem Query.wildcard_kept_scope :
    let q := ofSettings (.ofDefault "*")
    let p := ofSettings ((Settings.ofDefault "x:/").change (.unknown .reject))
    (∃ q' cs, q.filter "a{*=1}" = .ok q' ∧ q'.conditionNames = ["*a", "*"] ∧
      Condition.DerivesClause "a{*=1}".toList cs ∧
      List.Forall₂ Condition.SameWildcards cs q'.conditions) ∧
    p.settings.maxNesting = q.settings.maxNesting ∧ Property.OnlyWildcards "*{*}".toList ∧
    (p.project "*{*}").map properties = (q.project "*{*}").map properties := by
  intro q p
  have honly : Property.OnlyWildcards "*{*}".toList := by
    have hall : (readList .properties (Property.scanList 1) "*{*}".toList).toOption.map
        (fun ps => (Property.nodesAll ps).all (·.name = .all)) = some true := by
      decide +kernel
    cases hread : readList .properties (Property.scanList 1) "*{*}".toList with
    | error e =>
      rw [hread] at hall
      cases hall
    | ok ps =>
      rw [hread] at hall
      rcases Property.nests.readList_ok_iff.1 hread with ⟨hblank, -⟩ | ⟨hderived, -⟩
      · exact absurd hblank (by decide)
      · intro ps' hps' o ho
        rw [Property.nests.unique hps' hderived] at ho
        exact of_decide_eq_true (List.all_eq_true.1 (Option.some.inj hall) o ho)
  have hnames : (q.filter "a{*=1}").toOption.map conditionNames = some ["*a", "*"] := by
    decide +kernel
  refine ⟨?_, rfl, honly, ((wildcard_kept q "*{*}").2.2.2 p rfl).2 honly⟩
  cases hfilter : q.filter "a{*=1}" with
  | error e =>
    rw [hfilter] at hnames
    cases hnames
  | ok q' =>
    rw [hfilter] at hnames
    rcases (wildcard_kept q "a{*=1}").2.1 q' hfilter with ⟨htrim, -⟩ | ⟨cs, hcs, hsame⟩
    · exact absurd htrim (by decide)
    · exact ⟨q', cs, rfl, Option.some.inj hnames, hcs, hsame⟩

end LifecycleQuery
