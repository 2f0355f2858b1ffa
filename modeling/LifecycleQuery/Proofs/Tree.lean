import Mathlib.Data.List.Basic
import LifecycleQuery.Condition

/-!
# Trees

Properties and conditions are trees. `induct` proves a statement of a tree from that of the members
of its scope, `nodes` lists the tree with everything inside it, one node for each of its `names`,
and `depth` tells how deep its scopes lie inside each other: a list without scopes has depth `0`,
and a scope is one deeper than the list in it.
-/

namespace LifecycleQuery

namespace Property

variable {ν : Type}

theorem induct {P : Property ν → Prop} (node : ∀ n ps, (∀ p ∈ ps, P p) → P (.node n ps))
    (p : Property ν) : P p :=
  @Property.rec ν P (fun ps => ∀ p ∈ ps, P p) node (fun _ h => absurd h List.not_mem_nil)
    (fun _ _ hp hps => List.forall_mem_cons.2 ⟨hp, hps⟩) p

/-! ## Nodes -/

mutual
/-- The property and all properties in its scopes, in pre-order. -/
def nodes : Property ν → List (Property ν)
  | node name children => node name children :: nodesAll children
def nodesAll : List (Property ν) → List (Property ν)
  | [] => []
  | p :: rest => nodes p ++ nodesAll rest
end

theorem nodesAll_eq_flatMap (ps : List (Property ν)) : nodesAll ps = ps.flatMap nodes := by
  induction ps with
  | nil => rfl
  | cons p rest ih => rw [nodesAll, ih, List.flatMap_cons]

theorem mem_nodesAll {p : Property ν} {ps : List (Property ν)} :
    p ∈ nodesAll ps ↔ ∃ q ∈ ps, p ∈ nodes q := by
  rw [nodesAll_eq_flatMap, List.mem_flatMap]

theorem mem_nodes_node {p : Property ν} {n : ν} {ps : List (Property ν)} :
    p ∈ nodes (node n ps) ↔ p = node n ps ∨ ∃ q ∈ ps, p ∈ nodes q := by
  rw [nodes, List.mem_cons, mem_nodesAll]

/-! ## Names -/

theorem namesAll_eq_flatMap (ps : List (Property ν)) : namesAll ps = ps.flatMap names := by
  induction ps with
  | nil => rfl
  | cons p rest ih => rw [namesAll, ih, List.flatMap_cons]

/-- One name for each node. -/
theorem names_eq_map (p : Property ν) : names p = (nodes p).map name := by
  induction p using induct with
  | node n ps ih =>
    rw [names, nodes, namesAll_eq_flatMap, nodesAll_eq_flatMap, List.map_cons, List.map_flatMap,
      List.flatMap_congr ih]
    rfl

theorem namesAll_eq_map (ps : List (Property ν)) : namesAll ps = (nodesAll ps).map name := by
  rw [namesAll_eq_flatMap, nodesAll_eq_flatMap, List.map_flatMap,
    List.flatMap_congr fun p _ => names_eq_map p]

/-! ## Depth -/

mutual
def depth : Property ν → Nat
  | node _ children => if children.isEmpty then 0 else depthAll children + 1
def depthAll : List (Property ν) → Nat
  | [] => 0
  | p :: rest => max (depth p) (depthAll rest)
end

theorem depth_leaf (n : ν) : depth (node n []) = 0 := by simp [depth]

theorem depth_node {n : ν} {ps : List (Property ν)} (h : ps ≠ []) :
    depth (node n ps) = depthAll ps + 1 := by
  simp [depth, h]

theorem depthAll_le_iff {ps : List (Property ν)} {n : Nat} :
    depthAll ps ≤ n ↔ ∀ p ∈ ps, depth p ≤ n := by
  induction ps with
  | nil => simp [depthAll]
  | cons p rest ih => rw [depthAll, Nat.max_le, ih, List.forall_mem_cons]

end Property

namespace Condition

variable {ν ω : Type}

theorem induct {P : Condition ν ω → Prop} (scope : ∀ n cs, (∀ c ∈ cs, P c) → P (.scope n cs))
    (test : ∀ n op vs, P (.test n op vs)) (c : Condition ν ω) : P c :=
  @Condition.rec ν ω P (fun cs => ∀ c ∈ cs, P c) scope test (fun _ h => absurd h List.not_mem_nil)
    (fun _ _ hc hcs => List.forall_mem_cons.2 ⟨hc, hcs⟩) c

/-! ## Nodes -/

mutual
/-- The condition and all conditions in its scopes, in pre-order. -/
def nodes : Condition ν ω → List (Condition ν ω)
  | scope name inner => scope name inner :: nodesAll inner
  | test name op values => [test name op values]
def nodesAll : List (Condition ν ω) → List (Condition ν ω)
  | [] => []
  | c :: rest => nodes c ++ nodesAll rest
end

theorem nodesAll_eq_flatMap (cs : List (Condition ν ω)) : nodesAll cs = cs.flatMap nodes := by
  induction cs with
  | nil => rfl
  | cons c rest ih => rw [nodesAll, ih, List.flatMap_cons]

theorem mem_nodesAll {c : Condition ν ω} {cs : List (Condition ν ω)} :
    c ∈ nodesAll cs ↔ ∃ d ∈ cs, c ∈ nodes d := by
  rw [nodesAll_eq_flatMap, List.mem_flatMap]

theorem mem_nodes_scope {c : Condition ν ω} {n : ν} {cs : List (Condition ν ω)} :
    c ∈ nodes (scope n cs) ↔ c = scope n cs ∨ ∃ d ∈ cs, c ∈ nodes d := by
  rw [nodes, List.mem_cons, mem_nodesAll]

theorem mem_nodes_test {c : Condition ν ω} {n : ν} {op : Operator} {vs : List ω} :
    c ∈ nodes (test n op vs) ↔ c = test n op vs := by
  rw [nodes, List.mem_singleton]

/-! ## Names -/

theorem namesAll_eq_flatMap (cs : List (Condition ν ω)) : namesAll cs = cs.flatMap names := by
  induction cs with
  | nil => rfl
  | cons c rest ih => rw [namesAll, ih, List.flatMap_cons]

/-- One name for each node. -/
theorem names_eq_map (c : Condition ν ω) : names c = (nodes c).map name := by
  induction c using induct with
  | scope n cs ih =>
    rw [names, nodes, namesAll_eq_flatMap, nodesAll_eq_flatMap, List.map_cons, List.map_flatMap,
      List.flatMap_congr ih]
    rfl
  | test n op vs => rw [names, nodes]; rfl

theorem namesAll_eq_map (cs : List (Condition ν ω)) : namesAll cs = (nodesAll cs).map name := by
  rw [namesAll_eq_flatMap, nodesAll_eq_flatMap, List.map_flatMap,
    List.flatMap_congr fun c _ => names_eq_map c]

/-! ## Depth -/

mutual
def depth : Condition ν ω → Nat
  | scope _ inner => depthAll inner + 1
  | test _ _ _ => 0
def depthAll : List (Condition ν ω) → Nat
  | [] => 0
  | c :: rest => max (depth c) (depthAll rest)
end

theorem depthAll_le_iff {cs : List (Condition ν ω)} {n : Nat} :
    depthAll cs ≤ n ↔ ∀ c ∈ cs, depth c ≤ n := by
  induction cs with
  | nil => simp [depthAll]
  | cons c rest ih => rw [depthAll, Nat.max_le, ih, List.forall_mem_cons]

end Condition

end LifecycleQuery
