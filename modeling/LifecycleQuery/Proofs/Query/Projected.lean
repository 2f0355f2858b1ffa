import Mathlib.Data.List.Forall2
import LifecycleQuery.Proofs.Tree
import LifecycleQuery.Query

/-!
# What conditions read

The attributes that conditions read can be listed straight from the conditions, or conditions can be
made properties and the names of these listed. The property of a condition has its shape
(`Condition.Mirrors`), so both walks pass the same nodes in the same order
(`Query.conditionNames_projected`).
-/

namespace LifecycleQuery

namespace Condition

variable {ν ω : Type}

theorem toProperties_eq_map (cs : List (Condition ν ω)) : toProperties cs = cs.map toProperty := by
  induction cs with
  | nil => rfl
  | cons c rest ih => rw [toProperties, ih, List.map_cons]

theorem name_toProperty (c : Condition ν ω) : (toProperty c).name = c.name := by
  cases c with
  | scope n cs => rw [toProperty]; rfl
  | test n op vs => rw [toProperty]; rfl

/-- The same name and, below it, a child for every condition of a scope in its order; no children
for a test, whatever its values. -/
inductive Mirrors : Condition ν ω → Property ν → Prop
  | scope {n : ν} {cs : List (Condition ν ω)} {ps : List (Property ν)} :
      List.Forall₂ Mirrors cs ps → Mirrors (scope n cs) (.node n ps)
  | test {n : ν} {op : Operator} {vs : List ω} : Mirrors (test n op vs) (.node n [])

theorem mirrors_toProperty (c : Condition ν ω) : Mirrors c (toProperty c) := by
  induction c using induct with
  | scope n cs ih =>
    rw [toProperty, toProperties_eq_map]
    exact .scope (List.forall₂_map_right_iff.2 (List.forall₂_same.2 ih))
  | test n op vs =>
    rw [toProperty]
    exact .test

/-- A condition has the shape of no other property. -/
theorem Mirrors.eq_toProperty {c : Condition ν ω} {p : Property ν} (h : Mirrors c p) :
    p = toProperty c := by
  induction c using induct generalizing p with
  | scope n cs ih =>
    obtain @⟨_, _, ps, hps⟩ := h
    rw [toProperty, toProperties_eq_map]
    congr 1
    induction hps with
    | nil => rfl
    | cons hp _ ih' =>
      obtain ⟨hc, hcs⟩ := List.forall_mem_cons.1 ih
      rw [hc hp, ih' hcs, List.map_cons]
  | test n op vs =>
    cases h
    rw [toProperty]

theorem forall₂_mirrors_iff {cs : List (Condition ν ω)} {ps : List (Property ν)} :
    List.Forall₂ Mirrors cs ps ↔ ps = toProperties cs := by
  have hiff : ∀ (c : Condition ν ω) p, Mirrors c p ↔ toProperty c = p := by
    refine fun c p => ⟨fun h => h.eq_toProperty.symm, ?_⟩
    rintro rfl
    exact mirrors_toProperty c
  calc List.Forall₂ Mirrors cs ps
      ↔ List.Forall₂ (fun c p => toProperty c = p) cs ps :=
        ⟨fun h => h.imp fun c p => (hiff c p).1, fun h => h.imp fun c p => (hiff c p).2⟩
    _ ↔ cs.map toProperty = ps := by
        rw [← List.forall₂_map_left_iff (R := Eq), List.forall₂_eq_eq_eq]
    _ ↔ ps = toProperties cs := by rw [toProperties_eq_map, eq_comm]

/-- The nodes of the property are the properties of the nodes, in the same order. -/
theorem nodes_toProperty (c : Condition ν ω) : (toProperty c).nodes = c.nodes.map toProperty := by
  induction c using induct with
  | scope n cs ih =>
    rw [toProperty, Property.nodes, nodes, List.map_cons, toProperty, nodesAll_eq_flatMap,
      Property.nodesAll_eq_flatMap, toProperties_eq_map, List.flatMap_map, List.map_flatMap,
      List.flatMap_congr ih]
  | test n op vs =>
    rw [nodes, List.map_singleton, toProperty]
    rfl

theorem nodesAll_toProperties (cs : List (Condition ν ω)) :
    Property.nodesAll (toProperties cs) = (nodesAll cs).map toProperty := by
  rw [nodesAll_eq_flatMap, Property.nodesAll_eq_flatMap, toProperties_eq_map, List.flatMap_map,
    List.map_flatMap, List.flatMap_congr fun c _ => nodes_toProperty c]

theorem namesAll_toProperties (cs : List (Condition ν ω)) :
    Property.namesAll (toProperties cs) = namesAll cs := by
  rw [Property.namesAll_eq_map, nodesAll_toProperties, List.map_map, namesAll_eq_map]
  exact List.map_congr_left fun c _ => name_toProperty c

end Condition

namespace Query

/-- The names read are those of the conditions' properties, in the same order and as often. These
properties, and no others, have the shape of the conditions, empty scopes and any number of values
included, and there is a name for every condition, however deep. -/
theorem conditionNames_projected (q : Query) :
    q.conditionNames = Property.namesAll (Condition.toProperties q.conditions) ∧
    (∀ ps, List.Forall₂ Condition.Mirrors q.conditions ps ↔
      ps = Condition.toProperties q.conditions) ∧
    q.conditionNames.length = (Condition.nodesAll q.conditions).length := by
  refine ⟨(Condition.namesAll_toProperties q.conditions).symm,
    fun _ => Condition.forall₂_mirrors_iff, ?_⟩
  rw [conditionNames, Condition.namesAll_eq_map, List.length_map]

end Query

end LifecycleQuery
