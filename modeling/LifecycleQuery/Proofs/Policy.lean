import LifecycleQuery.Proofs.Mention
import LifecycleQuery.Settings

/-!
# The two policies for unknown labels

A strict server and one with a fallback read the same text. `Relaxes` says how the answers compare:
wherever the strict one gives a result, or finds a fault that is not an unknown label, the other
gives the same, and the label that a strict one does not know is nobody's. As `Relaxes` is kept from
step to step, it is enough to look at single names, in whatever order they are resolved.
-/

namespace LifecycleQuery

open Text

/-- How a strict answer and one with a fallback compare, when only labels with the property `blamed`
may be found unknown. -/
structure Relaxes (blamed : String → Prop) {α : Type} (strict lenient : Except QueryError α) :
    Prop where
  result : ∀ a, strict = .ok a → lenient = .ok a
  fault : ∀ e, strict = .error e → (∀ label, e ≠ .unknownLabel label) → lenient = .error e
  label : ∀ label, strict = .error (.unknownLabel label) → blamed label
  known : ∀ label, lenient ≠ .error (.unknownLabel label)

theorem sharesFaults_relaxes (blamed : String → Prop) :
    SharesFaults fun _ x y => Relaxes blamed x y := by
  intro α e he
  constructor
  · intro a h
    cases h
  · intro d h _
    exact h
  · intro label h
    exact absurd (Except.error.inj h) (he label)
  · intro label h
    exact he label (Except.error.inj h)

theorem sequential_relaxes (blamed : String → Prop) :
    Sequential fun _ x y => Relaxes blamed x y where
  ok := by
    intro α a
    constructor
    · intro b h
      exact h
    · intro e h
      cases h
    · intro label h
      cases h
    · intro label h
      cases h
  bind := by
    intro α β x y f g hx hf
    cases x with
    | ok a =>
      rw [hx.result a rfl]
      exact hf a
    | error e =>
      by_cases he : ∀ label, e ≠ .unknownLabel label
      · rw [hx.fault e rfl he]
        exact sharesFaults_relaxes blamed e he
      · obtain ⟨label, hlabel⟩ := Classical.not_forall_not.1 he
        subst hlabel
        -- the strict run ends here, the other one goes on or stops at a fault of its own
        constructor
        · intro b h
          cases h
        · intro d h hd
          cases h
          exact absurd rfl (hd label)
        · intro l h
          cases h
          exact hx.label label rfl
        · intro l h
          cases y with
          | ok a => exact (hf a).known l h
          | error d =>
            have hd : d = .unknownLabel l := Except.error.inj h
            exact hx.known l (by rw [hd])

/-- Nothing binds the label, and one of the names in the text has it. -/
def Resolver.Blames (r : Resolver) (text : List Char) (named : Name → Prop) (label : String) :
    Prop :=
  ¬r.Binds label ∧ ∃ n, named n ∧ n.SpelledIn text ∧ label ∈ n.label?

section
variable (request base : Namespaces) (space : String)

theorem Resolver.resolve_relaxes {blamed : String → Prop} {n : Name}
    (h : ∀ label ∈ n.label?, ¬Binds ⟨request, base, .reject⟩ label → blamed label) :
    Relaxes blamed (resolve ⟨request, base, .reject⟩ n)
      (resolve ⟨request, base, .fallback space⟩ n) := by
  cases n with
  | all => exact (sequential_relaxes blamed).ok "*"
  | qualified label part =>
    have hspace : space? ⟨request, base, .fallback space⟩ label =
        space? ⟨request, base, .reject⟩ label := rfl
    rw [resolve, resolve, hspace]
    cases hs : space? ⟨request, base, .reject⟩ label with
    | some s => exact (sequential_relaxes blamed).ok (s ++ part)
    | none =>
      have hunbound : ¬Binds ⟨request, base, .reject⟩ label := by
        rw [binds_iff, hs]
        simp
      constructor
      · intro i hi
        cases hi
      · intro e he hne
        cases he
        exact absurd rfl (hne label)
      · intro l hl
        cases hl
        exact h label rfl hunbound
      · intro l hl
        cases hl

/-- The names of a text bear the blame, if nothing binds their labels. -/
theorem Resolver.resolve_relaxes_of_named {text : List Char} {named : Name → Prop}
    (hspelled : ∀ {n}, named n → n.SpelledIn text) {n : Name} (hn : named n) :
    Relaxes (Blames ⟨request, base, .reject⟩ text named) (resolve ⟨request, base, .reject⟩ n)
      (resolve ⟨request, base, .fallback space⟩ n) := by
  apply resolve_relaxes
  intro label hlabel hunbound
  exact ⟨hunbound, n, hn, hspelled hn, hlabel⟩

end

/-- A strict server and one with a fallback agree on every text that the strict one accepts, and on
every fault but one: a label that neither table binds, of a name in the text, is a fault to the
strict one alone. -/
theorem Settings.strict_agrees (s : Settings) (request : Namespaces) (space text : String) :
    let strict := { s with unknown := .reject }.resolver request
    let lenient := { s with unknown := .fallback space }.resolver request
    Relaxes (strict.Blames text.toList (Condition.NamedIn text.toList))
      (Condition.read strict s.maxNesting text) (Condition.read lenient s.maxNesting text) ∧
    Relaxes (strict.Blames text.toList (Property.NamedIn text.toList))
      (Property.read strict s.maxNesting text) (Property.read lenient s.maxNesting text) ∧
    Relaxes (strict.Blames text.toList (Value.NamedIn text.toList))
      (Value.read strict text) (Value.read lenient text) ∧
    Relaxes (strict.Blames text.toList (Value.NamedInList text.toList))
      (Value.readAll strict text) (Value.readAll lenient text) ∧
    Relaxes (fun label => ¬strict.Binds label ∧ label ∈ (Name.ofText text.toList).label?)
      (strict.resolveText text) (lenient.resolveText text) := by
  intro strict lenient
  refine ⟨?_, ?_, ?_, ?_, ?_⟩
  · apply Condition.read_related (sequential_relaxes _) (sharesFaults_relaxes _)
    intro n hn
    exact Resolver.resolve_relaxes_of_named _ _ _ Condition.NamedIn.spelledIn hn
  · apply Property.read_related (sequential_relaxes _) (sharesFaults_relaxes _)
    intro n hn
    exact Resolver.resolve_relaxes_of_named _ _ _ Property.NamedIn.spelledIn hn
  · apply Value.read_related (sequential_relaxes _) (sharesFaults_relaxes _)
    intro n hn
    exact Resolver.resolve_relaxes_of_named _ _ _ Value.NamedIn.spelledIn hn
  · apply Value.readAll_related (sequential_relaxes _) (sharesFaults_relaxes _)
    intro n hn
    exact Resolver.resolve_relaxes_of_named _ _ _ Value.NamedInList.spelledIn hn
  · apply Resolver.resolve_relaxes
    intro label hlabel hunbound
    exact ⟨hunbound, hlabel⟩

end LifecycleQuery
