import LifecycleQuery.Query

/-!
# Steps of a query

One step takes one text. `take_ok_iff` lists what a step can do, and the lemmas on the fields say
what it changes: the part of its own clause, and that only if the text is accepted. A run is the
steps one after another.
-/

namespace LifecycleQuery.Query

/-! ## Taking a clause -/

theorem take_ok_iff {q q' : Query} {clause : Clause} {text : String} :
    q.take clause text = .ok q' ↔
      (clause = .namespaces ∧ ∃ t, Namespaces.read text = .ok t ∧ q' = { q with namespaces := t }) ∨
      (clause = .conditions ∧ ∃ cs, Condition.read q.resolver q.settings.maxNesting text = .ok cs ∧
        q' = { q with conditions := cs }) ∨
      (clause = .properties ∧ ∃ ps, Property.read q.resolver q.settings.maxNesting text = .ok ps ∧
        q' = { q with properties := ps }) := by
  cases clause with
  | namespaces =>
    simp only [take, declare]
    cases Namespaces.read text <;> simp [Except.map, eq_comm]
  | conditions =>
    simp only [take, filter]
    cases Condition.read q.resolver q.settings.maxNesting text <;> simp [Except.map, eq_comm]
  | properties =>
    simp only [take, project]
    cases Property.read q.resolver q.settings.maxNesting text <;> simp [Except.map, eq_comm]

theorem step_eq_of_ok {q q' : Query} {s : Clause × String} (h : q.take s.1 s.2 = .ok q') :
    q.step s = q' := by
  simp [step, h, Except.toOption]

theorem step_eq_of_error {q : Query} {s : Clause × String} {e : QueryError}
    (h : q.take s.1 s.2 = .error e) : q.step s = q := by
  simp [step, h, Except.toOption]

/-- A step changes nothing, or what a clause says. -/
theorem step_cases (q : Query) (s : Clause × String) :
    (∃ e, q.take s.1 s.2 = .error e ∧ q.step s = q) ∨
      ∃ q', q.take s.1 s.2 = .ok q' ∧ q.step s = q' := by
  cases h : q.take s.1 s.2 with
  | error e => exact .inl ⟨e, rfl, step_eq_of_error h⟩
  | ok q' => exact .inr ⟨q', rfl, step_eq_of_ok h⟩

/-! ## Fields -/

@[simp] theorem step_settings (q : Query) (s : Clause × String) :
    (q.step s).settings = q.settings := by
  rcases step_cases q s with ⟨e, -, hs⟩ | ⟨q', h, hs⟩
  · rw [hs]
  · rw [hs]
    rcases take_ok_iff.1 h with ⟨-, t, -, rfl⟩ | ⟨-, cs, -, rfl⟩ | ⟨-, ps, -, rfl⟩ <;> rfl

section
variable (q : Query) (text : String)

theorem step_namespaces : q.step (.namespaces, text) =
    { q with namespaces := (Namespaces.read text).toOption.getD q.namespaces } := by
  simp only [step, take, declare]
  cases Namespaces.read text <;> rfl

theorem step_conditions : q.step (.conditions, text) = { q with conditions :=
    (Condition.read q.resolver q.settings.maxNesting text).toOption.getD q.conditions } := by
  simp only [step, take, filter]
  cases Condition.read q.resolver q.settings.maxNesting text <;> rfl

theorem step_properties : q.step (.properties, text) = { q with properties :=
    (Property.read q.resolver q.settings.maxNesting text).toOption.getD q.properties } := by
  simp only [step, take, project]
  cases Property.read q.resolver q.settings.maxNesting text <;> rfl

end

/-! ## Runs -/

theorem run_cons (q : Query) (s : Clause × String) (steps : List (Clause × String)) :
    q.run (s :: steps) = (q.step s).run steps := rfl

theorem run_append (q : Query) (before after : List (Clause × String)) :
    q.run (before ++ after) = (q.run before).run after :=
  List.foldl_append

theorem run_settings (q : Query) (steps : List (Clause × String)) :
    (q.run steps).settings = q.settings := by
  induction steps generalizing q with
  | nil => rfl
  | cons s steps ih => rw [run_cons, ih, step_settings]

end LifecycleQuery.Query
