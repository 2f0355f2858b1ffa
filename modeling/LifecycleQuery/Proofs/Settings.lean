import LifecycleQuery.Proofs.Grammar.Table
import LifecycleQuery.Settings

/-!
# What settings come to

Settings are built by changes made one after another. A change either replaces a field, and then the
last one to do so decides (`foldl_field`), or it binds labels, and then the bindings of all changes
make the table, one by one or whole tables at a time. `Settings.build_eq` tells every field by the
changes alone.
-/

namespace LifecycleQuery

/-- A field is as the last step that sets it has it, and if none does, as it was. -/
theorem foldl_field {σ γ β : Type} {step : σ → γ → σ} {field : σ → β} (set? : γ → Option β)
    (h : ∀ s c, field (step s c) = (set? c).getD (field s)) (s : σ) (cs : List γ) :
    field (cs.foldl step s) = (cs.filterMap set?).getLast?.getD (field s) := by
  induction cs using List.reverseRecOn with
  | nil => rfl
  | append_singleton cs c ih =>
    rw [List.foldl_append, List.foldl_cons, List.foldl_nil, h, ih, List.filterMap_append]
    cases hc : set? c with
    | none => simp [hc]
    | some b => simp [hc]

namespace Settings

/-- The policy that the change sets. -/
def Change.policy? : Change → Option UnknownLabel
  | unknown policy => some policy
  | _ => none

def Change.nesting? : Change → Option Nat
  | nesting n => some n
  | _ => none

/-- The bindings that the change makes, in their order. -/
def Change.bindings : Change → List Binding
  | bind label space => [(label, space)]
  | bindAll table => table.entries
  | _ => []

theorem change_base (s : Settings) (c : Change) :
    (s.change c).base = s.base.insertAll c.bindings := by
  cases c with
  | unknown policy => rfl
  | bind label space => rfl
  | bindAll table => rfl
  | nesting n => rfl

/-- However the bindings are spread over the changes, they are made in turn. -/
theorem foldl_base (s : Settings) (cs : List Change) :
    (cs.foldl change s).base = s.base.insertAll (cs.flatMap Change.bindings) := by
  induction cs generalizing s with
  | nil => rfl
  | cons c cs ih =>
    rw [List.foldl_cons, ih, change_base, List.flatMap_cons]
    exact List.foldl_append.symm

theorem build_unknown (space : String) (cs : List Change) :
    (build space cs).unknown = (cs.filterMap Change.policy?).getLast?.getD (.fallback space) :=
  foldl_field Change.policy? (fun _ c => by cases c <;> rfl) (ofDefault space) cs

theorem build_base (space : String) (cs : List Change) :
    (build space cs).base = .ofList (cs.flatMap Change.bindings) :=
  foldl_base (ofDefault space) cs

theorem build_nesting (space : String) (cs : List Change) :
    (build space cs).maxNesting = (cs.filterMap Change.nesting?).getLast?.getD defaultNesting :=
  foldl_field Change.nesting? (fun _ c => by cases c <;> rfl) (ofDefault space) cs

/-- The last policy and limit count, and all bindings. -/
theorem build_eq (space : String) (cs : List Change) :
    build space cs =
      ⟨(cs.filterMap Change.policy?).getLast?.getD (.fallback space),
        .ofList (cs.flatMap Change.bindings),
        (cs.filterMap Change.nesting?).getLast?.getD defaultNesting⟩ := by
  rw [← build_unknown, ← build_base space, ← build_nesting space]

/-- A table is bound like its entries one by one. -/
theorem foldl_bind (s : Settings) (bs : List Binding) :
    (bs.map fun b => Change.bind b.1 b.2).foldl change s =
      { s with base := s.base.insertAll bs } := by
  induction bs generalizing s with
  | nil => rfl
  | cons b bs ih =>
    rw [List.map_cons, List.foldl_cons, ih]
    rfl

end Settings

end LifecycleQuery
