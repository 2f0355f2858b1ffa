import LifecycleQuery.Proofs.Json.Decode
import LifecycleQuery.Proofs.Query.Invariant
import LifecycleQuery.Proofs.Query.Joined

/-!
# Queries survive as JSON

What a query holds is written as a JSON text and read from it again (`Query.survives_json`). The
text is read as the value that was encoded, and the value decoded as what it was encoded from, given
the levels for it. The levels that a reader allows are enough for scopes as deep as the default of
the settings lets them be, with a level to spare for the list.
-/

namespace LifecycleQuery

open Json

/-- What is written for `a` is read back, with the levels that a text may have. -/
def Json.Survives {α : Type} (write : α → Json) (read : Nat → Json → Option α) (a : α) : Prop :=
  (read? (write a).render).bind (read levels) = some a

theorem Json.survives_of_read {α : Type} {write : α → Json} {read : Nat → Json → Option α} {a : α}
    (hw : (write a).Canonical) (hr : read levels (write a) = some a) : Survives write read a := by
  unfold Survives
  rw [read?_render hw, Option.bind_some, hr]

/-- A list takes one level more than what is in it. -/
theorem Json.list_survives {α : Type} {write : α → Json} {read : Nat → Json → Option α}
    {as : List α} (hw : ∀ a ∈ as, (write a).Canonical)
    (hr : ∀ a ∈ as, read (levels - 1) (write a) = some a) :
    Survives (fun as => array (as.map write)) (list? read) as := by
  apply survives_of_read
  · exact .array (List.forall_mem_map.2 hw)
  · show (as.map write).mapM (read (levels - 1)) = some as
    exact mapM_map_eq_some hr

namespace Value

theorem survives {v : Value} (h : v.Kept) : Survives toJson ofJson? v :=
  survives_of_read v.canonical_toJson (ofJson?_toJson h _)

end Value

theorem Namespaces.survives (t : Namespaces) : Survives toJson (fun _ => ofJson?) t :=
  survives_of_read t.canonical_toJson t.ofJson?_toJson

namespace Property

theorem survives {p : Projection} (h : depth p ≤ Settings.defaultNesting) :
    Survives toJson ofJson? p := by
  unfold Settings.defaultNesting at h
  apply survives_of_read (canonical_toJson p)
  apply ofJson?_toJson
  unfold levels
  omega

theorem list_survives {ps : List Projection} (h : depthAll ps ≤ Settings.defaultNesting) :
    Survives (fun ps => array (toJsons ps)) (list? ofJson?) ps := by
  rw [depthAll_le_iff] at h
  simp only [toJsons_eq]
  apply Json.list_survives fun p _ => canonical_toJson p
  intro p hp
  have hdepth := h p hp
  unfold Settings.defaultNesting at hdepth
  apply ofJson?_toJson
  unfold levels
  omega

end Property

namespace Condition

theorem survives {c : Filter} (hc : Kept c) (h : depth c ≤ Settings.defaultNesting) :
    Survives toJson ofJson? c := by
  unfold Settings.defaultNesting at h
  apply survives_of_read (canonical_toJson c)
  apply ofJson?_toJson hc
  unfold levels
  omega

theorem list_survives {cs : List Filter} (hcs : ∀ c ∈ cs, Kept c)
    (h : depthAll cs ≤ Settings.defaultNesting) :
    Survives (fun cs => array (toJsons cs)) (list? ofJson?) cs := by
  rw [depthAll_le_iff] at h
  simp only [toJsons_eq]
  apply Json.list_survives fun c _ => canonical_toJson c
  intro c hc
  have hdepth := h c hc
  unfold Settings.defaultNesting at hdepth
  apply ofJson?_toJson (hcs c hc)
  unfold levels
  omega

end Condition

namespace Query

/-- Every decimal that the conditions compare with is read from the numeral it is written as. -/
def DecimalsReread (q : Query) : Prop :=
  ∀ c ∈ Condition.nodesAll q.conditions, ∀ v ∈ c.values, ∀ x, v = .number (.decimal x) → x.Reread

/-- The decimals of a query that has taken texts are finite, so nothing else can go wrong with
them. -/
theorem kept_of_reread {s : Settings} {known : String → Prop} {q : Query} (hq : Invariant s known q)
    (h : q.DecimalsReread) : ∀ c ∈ q.conditions, Condition.Kept c := by
  intro c hc d hd v hv
  have hnode : d ∈ Condition.nodesAll q.conditions := Condition.mem_nodesAll.2 ⟨c, hc, hd⟩
  have hshape := hq.conditions d hnode
  cases d with
  | scope name inner => cases hv
  | test name op values =>
    have hwf : v.WellFormed := hshape.2.2 v hv
    cases v with
    | iri i => trivial
    | boolean b => trivial
    | string t language datatype => trivial
    | number a =>
      cases a with
      | integer n => trivial
      | decimal x => exact ⟨hwf, h _ hnode _ hv x rfl⟩

/-- Every value, condition, property and table is read back from its JSON text, provided that it is
not nested deeper than the default and its decimals are finite and read back. So nothing that a
query holds is lost if its settings allow no deeper nesting than the default, as far as its decimals
are read back. -/
theorem survives_json :
    (∀ v : Value, v.Kept → Survives Value.toJson Value.ofJson? v) ∧
    (∀ c : Filter, Condition.depth c ≤ 32 → Condition.Kept c →
      Survives Condition.toJson Condition.ofJson? c) ∧
    (∀ p : Projection, Property.depth p ≤ 32 → Survives Property.toJson Property.ofJson? p) ∧
    (∀ t : Namespaces, Survives Namespaces.toJson (fun _ => Namespaces.ofJson?) t) ∧
    ∀ (s : Settings) (steps : List (Clause × String)), s.maxNesting ≤ Settings.defaultNesting →
      let q := (ofSettings s).run steps
      (q.DecimalsReread →
        (∀ c ∈ q.conditions, Survives Condition.toJson Condition.ofJson? c) ∧
        Survives (fun cs => array (Condition.toJsons cs)) (list? Condition.ofJson?) q.conditions) ∧
      Survives (fun ps => array (Property.toJsons ps)) (list? Property.ofJson?) q.properties ∧
      Survives Namespaces.toJson (fun _ => Namespaces.ofJson?) q.namespaces := by
  refine ⟨fun v hv => Value.survives hv, fun c hd hc => Condition.survives hc hd,
    fun p hd => Property.survives hd, Namespaces.survives, fun s steps hs => ?_⟩
  have hq : Invariant s (fun space => ServerSpace s space ∨ DeclaredSpace steps space)
      ((ofSettings s).run steps) :=
    (invariant_ofSettings s _).run (fun _ => .inl) (fun _ => .inr)
  have hdepth := hq.conditionDepth.trans hs
  refine ⟨fun hreread => ?_, Property.list_survives (hq.propertyDepth.trans hs),
    Namespaces.survives _⟩
  have hkept := kept_of_reread hq hreread
  refine ⟨fun c hc => ?_, Condition.list_survives hkept hdepth⟩
  exact Condition.survives (hkept c hc) (Condition.depthAll_le_iff.1 hdepth c hc)

/-- A decimal in a list and in a scope, beside a string to be escaped, and the same decimal in a
query that has read it. -/
theorem survives_json_decimal :
    let x := Double.ofNumeral ⟨none, ['2'], some ['5'], none⟩
    let v : Value := .number (.decimal x)
    let c : Filter := .scope "x:/a" [.test "x:/b" .within [v, .string "\"\n" (some "en") none]]
    let q := (ofSettings (.ofDefault "x:/")).run [(.conditions, "*=2.5")]
    v.Kept ∧ Condition.depth c ≤ 32 ∧ Survives Condition.toJson Condition.ofJson? c ∧
      q.conditions = [.test "*" .equal [v]] ∧ q.DecimalsReread ∧
      Survives (fun cs => array (Condition.toJsons cs)) (list? Condition.ofJson?) q.conditions := by
  intro x v c q
  have hreread : x.Reread := by
    unfold Double.Reread
    decide +kernel
  have hfinite : x.isFinite = true := by decide +kernel
  have hv : v.Kept := ⟨hfinite, hreread⟩
  have hc : Condition.Kept c := by
    intro d hd w hw
    rcases Condition.mem_nodes_scope.1 hd with rfl | ⟨e, he, hd⟩
    · cases hw
    · rw [List.mem_singleton.1 he, Condition.mem_nodes_test] at hd
      rw [hd] at hw
      rcases List.mem_cons.1 hw with rfl | hw
      · exact hv
      · rw [List.mem_singleton.1 hw]
        trivial
  have htext : "*=" ++ v.render = "*=2.5" := by decide +kernel
  have hq : q.conditions = [.test "*" .equal [v]] := by
    have htake := filter_value (ofSettings (.ofDefault "x:/")) (v := v) hfinite rfl
    rw [htext] at htake
    have hstep := step_eq_of_ok (s := (.conditions, "*=2.5")) htake
    exact congrArg Query.conditions hstep
  have hdecimals : q.DecimalsReread := by
    intro d hd w hw y hy
    rw [hq, Condition.mem_nodesAll] at hd
    obtain ⟨e, he, hd⟩ := hd
    rw [List.mem_singleton.1 he, Condition.mem_nodes_test] at hd
    rw [hd, hy] at hw
    have hyx : Value.number (.decimal y) = .number (.decimal x) := List.mem_singleton.1 hw
    cases hyx
    exact hreread
  obtain ⟨-, hcondition, -, -, hquery⟩ := survives_json
  obtain ⟨hlist, -⟩ := hquery (.ofDefault "x:/") [(.conditions, "*=2.5")] (Nat.le_refl _)
  exact ⟨hv, by decide, hcondition c (by decide) hc, hq, hdecimals, (hlist hdecimals).2⟩

end Query

end LifecycleQuery
