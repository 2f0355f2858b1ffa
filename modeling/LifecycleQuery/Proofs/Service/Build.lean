import Mathlib.Logic.Function.Basic
import LifecycleQuery.Proofs.Service
import LifecycleQuery.Proofs.Settings

/-!
# How services are built

The settings of a service are built by those of its changes that queries have too, with the well
known namespaces bound one by one (`Service.settings_foldl`). Each change writes one setting and
looks at no other (`Service.value_change`), so changes for different settings may come in either
order.
-/

namespace LifecycleQuery

theorem wellKnownNamespaces_entries : wellKnownNamespaces.entries = wellKnown := by
  have hdistinct : ((Namespaces.empty.entries ++ wellKnown).map Prod.fst).Nodup := by decide
  exact Namespaces.entries_insertAll hdistinct

namespace Service

/-- The changes that come to the same for the settings alone. -/
def Change.forSettings : Change → List Settings.Change
  | settings c => [c]
  | wellKnown => LifecycleQuery.wellKnown.map fun b => .bind b.1 b.2
  | pageSize _ => []
  | clauseLimit _ => []

theorem settings_change (s : Service) (c : Change) :
    (s.change c).settings = c.forSettings.foldl Settings.change s.settings := by
  cases c with
  | settings c => rfl
  | wellKnown =>
    rw [Change.forSettings, Settings.foldl_bind, ← wellKnownNamespaces_entries]
    rfl
  | pageSize n => rfl
  | clauseLimit n => rfl

theorem settings_foldl (s : Service) (changes : List Change) :
    (changes.foldl change s).settings =
      (changes.flatMap Change.forSettings).foldl Settings.change s.settings := by
  induction changes generalizing s with
  | nil => rfl
  | cons c changes ih =>
    rw [List.foldl_cons, ih, settings_change, List.flatMap_cons, List.foldl_append]

/-! ## Single settings -/

/-- What can be set by itself. -/
inductive Setting
  | unknown
  | base
  | nesting
  | pageSize
  | clauseLimit
  deriving DecidableEq

/-- What the setting may be set to. -/
def Setting.Value : Setting → Type
  | unknown => UnknownLabel
  | base => Namespaces
  | nesting => Nat
  | pageSize => UInt64
  | clauseLimit => Nat

def value (s : Service) : (x : Setting) → x.Value
  | .unknown => s.settings.unknown
  | .base => s.settings.base
  | .nesting => s.settings.maxNesting
  | .pageSize => s.defaultPageSize
  | .clauseLimit => s.clauseLimit

theorem value_injective : Function.Injective value := by
  rintro ⟨⟨u, b, n⟩, p, l⟩ ⟨⟨u', b', n'⟩, p', l'⟩ h
  obtain rfl : u = u' := congrFun h .unknown
  obtain rfl : b = b' := congrFun h .base
  obtain rfl : n = n' := congrFun h .nesting
  obtain rfl : p = p' := congrFun h .pageSize
  obtain rfl : l = l' := congrFun h .clauseLimit
  rfl

/-- The setting that the change is about. -/
def Change.concerns : Change → Setting
  | settings (.unknown _) => .unknown
  | settings (.bind _ _) => .base
  | settings (.bindAll _) => .base
  | settings (.nesting _) => .nesting
  | wellKnown => .base
  | pageSize _ => .pageSize
  | clauseLimit _ => .clauseLimit

/-- What the change makes of the setting. -/
def Change.put : (c : Change) → c.concerns.Value → c.concerns.Value
  | settings (.unknown policy) => fun _ => policy
  | settings (.bind label space) => fun t : Namespaces => t.insert label space
  | settings (.bindAll table) => fun t : Namespaces => t.insertAll table.entries
  | settings (.nesting n) => fun _ => n
  | wellKnown => fun t : Namespaces => t.insertAll wellKnownNamespaces.entries
  | pageSize n => fun _ => (max n 1 : UInt64)
  | clauseLimit n => fun _ => n

/-- A change leaves the other settings as they are. -/
theorem value_change (s : Service) (c : Change) :
    (s.change c).value = Function.update s.value c.concerns (c.put (s.value c.concerns)) := by
  funext x
  rcases c with ⟨_ | _ | _ | _⟩ | _ | _ | _ <;> cases x <;> rfl

theorem change_comm (s : Service) {c d : Change} (h : c.concerns ≠ d.concerns) :
    (s.change c).change d = (s.change d).change c := by
  apply value_injective
  rw [value_change, value_change, value_change, value_change, Function.update_of_ne h.symm,
    Function.update_of_ne h, Function.update_comm h]

theorem build_swap (space : String) (before after : List Change) {c d : Change}
    (h : c.concerns ≠ d.concerns) :
    build space (before ++ c :: d :: after) = build space (before ++ d :: c :: after) := by
  simp only [build, List.foldl_append, List.foldl_cons, change_comm _ h]

/-- A service keeps in step with the settings built alone. Its own table has every label once, where
it was bound first and with the namespace bound last; unknown labels are treated as the last change
said, and pages are never empty. Neighbouring changes that concern different settings may trade
places. -/
theorem build_in_step (space : String) (changes : List Change) :
    let s := build space changes
    let cs := changes.flatMap Change.forSettings
    let bindings := cs.flatMap Settings.Change.bindings
    s.settings = Settings.build space cs ∧
    (s.settings.base.entries.map Prod.fst).Nodup ∧
    s.settings.base.entries.map Prod.fst = (bindings.map Prod.fst).eraseDups ∧
    (∀ label iri, (label, iri) ∈ s.settings.base.entries ↔
      ∃ before after, bindings = before ++ (label, iri) :: after ∧ label ∉ after.map Prod.fst) ∧
    s.settings.unknown = (cs.filterMap Settings.Change.policy?).getLast?.getD (.fallback space) ∧
    1 ≤ s.defaultPageSize ∧
    ∀ before after c d, changes = before ++ c :: d :: after → c.concerns ≠ d.concerns →
      build space (before ++ d :: c :: after) = s := by
  intro s cs bindings
  have hsettings : s.settings = Settings.build space cs := settings_foldl (ofDefault space) changes
  have hbase : s.settings.base = .ofList bindings := by rw [hsettings, Settings.build_eq]
  refine ⟨hsettings, s.settings.base.distinct, ?_, fun label iri => ?_, ?_,
    build_pageSize space changes, ?_⟩
  · rw [hbase, Namespaces.labels_ofList]
  · rw [← Namespaces.get?_eq_some_iff, hbase, Namespaces.get?_ofList_eq_some_iff]
  · rw [hsettings, Settings.build_eq]
  · rintro before after c d hchanges hne
    rw [build_swap space before after hne.symm, ← hchanges]

/-- The well known namespaces hide one bound before them and keep its place, and one bound behind
them hides theirs; that the page size of zero is raised before or after them is no matter. -/
theorem build_in_step_well_known :
    let before : List Change := [.settings (.bind "rdfs" "x:/old#")]
    let after : List Change :=
      [.settings (.unknown .reject),
        .settings (.bindAll (.ofList [("a", "x:/1#"), ("oslc", "x:/2#")]))]
    let s := build "x:/" (before ++ .wellKnown :: .pageSize 0 :: after)
    (Change.wellKnown).concerns ≠ (Change.pageSize 0).concerns ∧
    build "x:/" (before ++ .pageSize 0 :: .wellKnown :: after) = s ∧
    s.settings.base.entries.map Prod.fst =
      ["rdfs", "rdf", "xsd", "dcterms", "foaf", "oslc", "oslc_rm", "oslc_cm", "oslc_qm", "a"] ∧
    ("rdfs", "http://www.w3.org/2000/01/rdf-schema#") ∈ s.settings.base.entries ∧
    ("oslc", "x:/2#") ∈ s.settings.base.entries ∧
    s.settings.unknown = .reject ∧ 1 ≤ s.defaultPageSize := by
  intro before after s
  have hne : (Change.wellKnown).concerns ≠ (Change.pageSize 0).concerns := by decide
  obtain ⟨-, -, hlabels, -, hunknown, hsize, hswap⟩ :=
    build_in_step "x:/" (before ++ .wellKnown :: .pageSize 0 :: after)
  refine ⟨hne, hswap before after _ _ rfl hne, hlabels.trans (by decide), by decide, by decide,
    hunknown, hsize⟩

end Service

end LifecycleQuery
