import Mathlib.Data.List.Induction
import LifecycleQuery.Proofs.Query.Step

/-!
# What a run comes to

Each part of a query is the answer to the last text of its clause that was not refused
(`LastAnswer`), and the answer to a text depends on the table in force and on no other part. So the
refused texts of a run may as well be left out, and a condition and a property clause next to each
other may trade places.
-/

namespace LifecycleQuery.Query

/-! ## The last answer -/

section
variable {β : Type} (clause : Clause)
  (answer : List (Clause × String) → String → Except QueryError β)

/-- Of the steps that come after `before`, those with a text for the clause are all refused. -/
def Refused (before steps : List (Clause × String)) : Prop :=
  ∀ between text after, steps = between ++ (clause, text) :: after →
    ∃ e, answer (before ++ between) text = .error e

/-- The answer to the last text for the clause that is not refused; `init` if there is none. The
answer may depend on the steps before. -/
def LastAnswer (init : β) (steps : List (Clause × String)) (final : β) : Prop :=
  (∃ before text after, steps = before ++ (clause, text) :: after ∧
    answer before text = .ok final ∧ Refused clause answer (before ++ [(clause, text)]) after) ∨
  (final = init ∧ Refused clause answer [] steps)

variable {clause answer}

theorem Refused.nil (before : List (Clause × String)) : Refused clause answer before [] := by
  intro between text after he
  simp at he

theorem Refused.concat {before steps : List (Clause × String)} {s : Clause × String}
    (h : Refused clause answer before steps)
    (hs : ∀ text, s = (clause, text) → ∃ e, answer (before ++ steps) text = .error e) :
    Refused clause answer before (steps ++ [s]) := by
  intro between text after he
  rcases List.eq_nil_or_concat after with rfl | ⟨after, x, rfl⟩
  · obtain ⟨rfl, hx⟩ := List.append_inj' he rfl
    exact hs text (List.singleton_inj.1 hx)
  · rw [List.concat_eq_append, ← List.cons_append, ← List.append_assoc] at he
    obtain ⟨rfl, -⟩ := List.append_inj' he rfl
    exact h between text after rfl

/-- What one step does to the answer decides what a run does to it. -/
theorem lastAnswer_of_step {init : β} (final : List (Clause × String) → β) (hnil : final [] = init)
    (hstep : ∀ before s,
      (∃ text, s = (clause, text) ∧ answer before text = .ok (final (before ++ [s]))) ∨
      (final (before ++ [s]) = final before ∧
        ∀ text, s = (clause, text) → ∃ e, answer before text = .error e))
    (steps : List (Clause × String)) : LastAnswer clause answer init steps (final steps) := by
  induction steps using List.reverseRecOn with
  | nil => exact .inr ⟨hnil, .nil []⟩
  | append_singleton steps s ih =>
    rcases hstep steps s with ⟨text, rfl, hok⟩ | ⟨hsame, hs⟩
    · exact .inl ⟨steps, text, [], rfl, hok, .nil _⟩
    · rw [hsame]
      rcases ih with ⟨before, text, after, rfl, hok, href⟩ | ⟨hinit, href⟩
      · refine .inl ⟨before, text, after ++ [s], by simp, hok, href.concat ?_⟩
        simpa using hs
      · exact .inr ⟨hinit, href.concat hs⟩

end

theorem run_concat (q : Query) (steps : List (Clause × String)) (s : Clause × String) :
    q.run (steps ++ [s]) = (q.run steps).step s :=
  run_append q steps [s]

section
variable (s : Settings)

theorem run_ofSettings (steps : List (Clause × String)) :
    ((ofSettings s).run steps).settings = s :=
  run_settings _ steps

theorem resolver_run (steps : List (Clause × String)) : ((ofSettings s).run steps).resolver =
    s.resolver ((ofSettings s).run steps).namespaces := by
  rw [resolver, run_ofSettings]

/-- A part of the query that only the texts of its clause change, each by its answer. -/
theorem lastAnswer_run {β : Type} {clause : Clause}
    {answer : List (Clause × String) → String → Except QueryError β} (part : Query → β)
    (hown : ∀ before text, part (((ofSettings s).run before).step (clause, text)) =
      (answer before text).toOption.getD (part ((ofSettings s).run before)))
    (hother : ∀ q c text, c ≠ clause → part (q.step (c, text)) = part q)
    (steps : List (Clause × String)) :
    LastAnswer clause answer (part (ofSettings s)) steps (part ((ofSettings s).run steps)) := by
  refine lastAnswer_of_step (fun steps => part ((ofSettings s).run steps)) rfl
    (fun before st => ?_) steps
  obtain ⟨c, text⟩ := st
  rw [run_concat]
  by_cases hc : c = clause
  · subst hc
    rw [hown]
    cases h : answer before text with
    | ok a => exact .inl ⟨text, rfl, h⟩
    | error e =>
      refine .inr ⟨rfl, ?_⟩
      rintro _ ⟨⟩
      exact ⟨e, h⟩
  · refine .inr ⟨hother _ c text hc, ?_⟩
    rintro _ ⟨⟩
    exact absurd rfl hc

theorem lastAnswer_namespaces (steps : List (Clause × String)) :
    LastAnswer .namespaces (fun _ text => Namespaces.read text) .empty steps
      ((ofSettings s).run steps).namespaces := by
  refine lastAnswer_run s namespaces (fun before text => by rw [step_namespaces]) ?_ steps
  intro q c text hc
  cases c with
  | namespaces => exact absurd rfl hc
  | conditions => rw [step_conditions]
  | properties => rw [step_properties]

/-- The conditions that a text stands for under the table in force after `before`. -/
def conditionsOf (before : List (Clause × String)) (text : String) :
    Except QueryError (List Filter) :=
  Condition.read (s.resolver ((ofSettings s).run before).namespaces) s.maxNesting text

/-- The properties that a text stands for under the table in force after `before`. -/
def propertiesOf (before : List (Clause × String)) (text : String) :
    Except QueryError (List Projection) :=
  Property.read (s.resolver ((ofSettings s).run before).namespaces) s.maxNesting text

theorem filter_run (steps : List (Clause × String)) (text : String) :
    ((ofSettings s).run steps).filter text =
      (conditionsOf s steps text).map fun cs =>
        { (ofSettings s).run steps with conditions := cs } := by
  have hread : conditionsOf s steps text = Condition.read ((ofSettings s).run steps).resolver
      ((ofSettings s).run steps).settings.maxNesting text := by
    rw [conditionsOf, resolver_run, run_ofSettings]
  rw [hread]
  rfl

theorem project_run (steps : List (Clause × String)) (text : String) :
    ((ofSettings s).run steps).project text =
      (propertiesOf s steps text).map fun ps =>
        { (ofSettings s).run steps with properties := ps } := by
  have hread : propertiesOf s steps text = Property.read ((ofSettings s).run steps).resolver
      ((ofSettings s).run steps).settings.maxNesting text := by
    rw [propertiesOf, resolver_run, run_ofSettings]
  rw [hread]
  rfl

theorem lastAnswer_conditions (steps : List (Clause × String)) :
    LastAnswer .conditions (conditionsOf s) [] steps ((ofSettings s).run steps).conditions := by
  refine lastAnswer_run s conditions (fun before text => ?_) ?_ steps
  · rw [step_conditions, resolver_run, run_ofSettings, conditionsOf]
  · intro q c text hc
    cases c with
    | namespaces => rw [step_namespaces]
    | conditions => exact absurd rfl hc
    | properties => rw [step_properties]

theorem lastAnswer_properties (steps : List (Clause × String)) :
    LastAnswer .properties (propertiesOf s) [] steps ((ofSettings s).run steps).properties := by
  refine lastAnswer_run s properties (fun before text => ?_) ?_ steps
  · rw [step_properties, resolver_run, run_ofSettings, propertiesOf]
  · intro q c text hc
    cases c with
    | namespaces => rw [step_namespaces]
    | conditions => rw [step_conditions]
    | properties => exact absurd rfl hc

end

/-! ## What an answer depends on -/

/-- Acceptance and error are told by the settings and the table in force. -/
theorem take_congr {q q' : Query} (hs : q.settings = q'.settings)
    (hn : q.namespaces = q'.namespaces) (clause : Clause) (text : String) :
    (q.take clause text).map (fun _ => ()) = (q'.take clause text).map fun _ => () := by
  have hr : q.resolver = q'.resolver := by rw [resolver, resolver, hs, hn]
  cases clause with
  | namespaces =>
    simp only [take, declare]
    cases Namespaces.read text <;> rfl
  | conditions =>
    simp only [take, filter, hr, hs]
    cases Condition.read q'.resolver q'.settings.maxNesting text <;> rfl
  | properties =>
    simp only [take, project, hr, hs]
    cases Property.read q'.resolver q'.settings.maxNesting text <;> rfl

/-- The steps that declare namespaces. -/
def declarations (steps : List (Clause × String)) : List (Clause × String) :=
  steps.filter fun st => st.1 = .namespaces

theorem run_declarations {q q' : Query} (hn : q.namespaces = q'.namespaces)
    (steps : List (Clause × String)) :
    (q.run (declarations steps)).namespaces = (q'.run steps).namespaces := by
  induction steps generalizing q q' with
  | nil => exact hn
  | cons st steps ih =>
    obtain ⟨c, text⟩ := st
    cases c with
    | namespaces =>
      have hstep : (q.step (.namespaces, text)).namespaces =
          (q'.step (.namespaces, text)).namespaces := by
        rw [step_namespaces, step_namespaces, hn]
      exact ih hstep
    | conditions => exact ih (by rw [step_conditions, hn])
    | properties => exact ih (by rw [step_properties, hn])

/-! ## Leaving out and trading places -/

/-- The steps of a run that are accepted. -/
def accepted (q : Query) : List (Clause × String) → List (Clause × String)
  | [] => []
  | st :: steps =>
    match q.take st.1 st.2 with
    | .ok q' => st :: accepted q' steps
    | .error _ => accepted q steps

theorem run_accepted (q : Query) (steps : List (Clause × String)) :
    q.run (q.accepted steps) = q.run steps := by
  induction steps generalizing q with
  | nil => rfl
  | cons st steps ih =>
    rw [accepted, run_cons]
    cases h : q.take st.1 st.2 with
    | ok q' =>
      rw [step_eq_of_ok h]
      exact (congrArg (run · _) (step_eq_of_ok h)).trans (ih q')
    | error e =>
      rw [step_eq_of_error h]
      exact ih q

theorem step_swap (q : Query) (a b : String) :
    (q.step (.conditions, a)).step (.properties, b) =
      (q.step (.properties, b)).step (.conditions, a) := by
  rw [step_conditions, step_properties, step_properties, step_conditions]
  rfl

theorem run_swap (q : Query) (before after : List (Clause × String)) (a b : String) :
    q.run (before ++ (.conditions, a) :: (.properties, b) :: after) =
      q.run (before ++ (.properties, b) :: (.conditions, a) :: after) := by
  simp only [run_append, run_cons, step_swap]

/-- Every part of a query is the answer to the last accepted text of its clause. An answer depends
on the settings and the table in force alone, and a refused text changes nothing; so refused texts
may be left out, and a condition and a property clause next to each other may trade places. -/
theorem run_history (s : Settings) (steps : List (Clause × String)) :
    LastAnswer .namespaces (fun _ text => Namespaces.read text) .empty steps
      ((ofSettings s).run steps).namespaces ∧
    LastAnswer .conditions (conditionsOf s) [] steps ((ofSettings s).run steps).conditions ∧
    LastAnswer .properties (propertiesOf s) [] steps ((ofSettings s).run steps).properties ∧
    (∀ text, ((ofSettings s).run steps).filter text =
      (conditionsOf s steps text).map fun cs =>
        { (ofSettings s).run steps with conditions := cs }) ∧
    (∀ text, ((ofSettings s).run steps).project text =
      (propertiesOf s steps text).map fun ps =>
        { (ofSettings s).run steps with properties := ps }) ∧
    (∀ q q' : Query, q.settings = q'.settings → q.namespaces = q'.namespaces → ∀ clause text,
      (q.take clause text).map (fun _ => ()) = (q'.take clause text).map fun _ => ()) ∧
    (∀ clause text, (((ofSettings s).run steps).take clause text).map (fun _ => ()) =
      (((ofSettings s).run (declarations steps)).take clause text).map fun _ => ()) ∧
    (∀ q clause text e, take q clause text = .error e → q.step (clause, text) = q) ∧
    (ofSettings s).run ((ofSettings s).accepted steps) = (ofSettings s).run steps ∧
    ∀ before after a b, steps = before ++ (.conditions, a) :: (.properties, b) :: after →
      (ofSettings s).run (before ++ (.properties, b) :: (.conditions, a) :: after) =
        (ofSettings s).run steps := by
  refine ⟨lastAnswer_namespaces s steps, lastAnswer_conditions s steps,
    lastAnswer_properties s steps, filter_run s steps, project_run s steps,
    fun q q' hs hn => take_congr hs hn, fun clause text => ?_,
    fun q clause text e h => step_eq_of_error h, run_accepted _ steps, ?_⟩
  · refine take_congr ?_ (run_declarations rfl steps).symm clause text
    rw [run_ofSettings, run_ofSettings]
  · rintro before after a b rfl
    exact (run_swap _ before after a b).symm

end LifecycleQuery.Query
