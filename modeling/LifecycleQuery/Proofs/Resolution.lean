import Mathlib.Data.List.Forall2
import LifecycleQuery.Condition.Clause
import LifecycleQuery.Proofs.Expansion
import LifecycleQuery.Proofs.Tree

/-!
# Resolved trees

Resolving a tree puts every name and every value through a function that may fail. `Resolved R S`
relates a tree to one of the same shape whose names are related by `R` and whose values by `S`;
`resolveAll_ok_iff` says that resolution succeeds with exactly the related tree. When such a tree
exists depends on the single names and values alone (`exists_resolved_iff`).
-/

namespace LifecycleQuery

section
variable {ε α β γ : Type}

theorem mapM_eq_ok_iff {f : α → Except ε β} {as : List α} {bs : List β} :
    as.mapM f = .ok bs ↔ List.Forall₂ (fun a b => f a = .ok b) as bs := by
  induction as generalizing bs with
  | nil =>
    rw [List.mapM_nil, List.forall₂_nil_left_iff]
    constructor
    · rintro ⟨⟩
      rfl
    · rintro rfl
      rfl
  | cons a as ih =>
    rw [List.mapM_cons]
    refine ⟨fun h => ?_, ?_⟩
    · obtain ⟨b, hb, h⟩ := Except.bind_eq_ok_iff.1 h
      obtain ⟨cs, hcs, h⟩ := Except.bind_eq_ok_iff.1 h
      cases h
      exact .cons hb (ih.1 hcs)
    · rintro (_ | ⟨hb, hbs⟩)
      rw [hb, ih.2 hbs]
      rfl

theorem exists_forall₂_iff {R : α → β → Prop} {as : List α} :
    (∃ bs, List.Forall₂ R as bs) ↔ ∀ a ∈ as, ∃ b, R a b := by
  induction as with
  | nil => exact ⟨fun _ => by simp, fun _ => ⟨[], .nil⟩⟩
  | cons a as ih =>
    rw [List.forall_mem_cons, ← ih]
    constructor
    · rintro ⟨_, _ | ⟨hb, hbs⟩⟩
      exact ⟨⟨_, hb⟩, _, hbs⟩
    · rintro ⟨⟨b, hb⟩, bs, hbs⟩
      exact ⟨b :: bs, .cons hb hbs⟩

theorem exists_of_mem_right {R : α → β → Prop} {as : List α} {bs : List β}
    (h : List.Forall₂ R as bs) {b : β} (hb : b ∈ bs) : ∃ a ∈ as, R a b := by
  induction h with
  | nil => cases hb
  | cons hab _ ih =>
    rcases List.mem_cons.1 hb with rfl | hb
    · exact ⟨_, List.mem_cons_self, hab⟩
    · obtain ⟨a, ha, hab⟩ := ih hb
      exact ⟨a, List.mem_cons_of_mem _ ha, hab⟩

theorem forall₂_imp_mem {R S : α → β → Prop} {as : List α} {bs : List β}
    (h : List.Forall₂ R as bs) (hRS : ∀ a ∈ as, ∀ b, R a b → S a b) : List.Forall₂ S as bs := by
  induction h with
  | nil => exact .nil
  | cons hab _ ih =>
    exact .cons (hRS _ List.mem_cons_self _ hab)
      (ih fun a ha => hRS a (List.mem_cons_of_mem _ ha))

end

/-! ## Properties -/

namespace Property

variable {ν μ : Type}

inductive Resolved (R : ν → μ → Prop) : Property ν → Property μ → Prop
  | node {n : ν} {m : μ} {ps : List (Property ν)} {qs : List (Property μ)} : R n m →
      List.Forall₂ (Resolved R) ps qs → Resolved R (node n ps) (node m qs)

mutual
theorem resolve_ok_iff (f : ν → Except QueryError μ) : ∀ (p : Property ν) (q : Property μ),
    resolve f p = .ok q ↔ Resolved (fun n m => f n = .ok m) p q
  | node n ps, q => by
    unfold resolve
    refine ⟨fun h => ?_, ?_⟩
    · split at h
      · cases h
      · next qs hqs =>
        obtain ⟨m, hm, rfl⟩ := Except.map_eq_ok_iff.1 h
        exact .node hm ((resolveAll_ok_iff f ps qs).1 hqs)
    · rintro ⟨hm, hqs⟩
      rw [(resolveAll_ok_iff f ps _).2 hqs, hm]
      rfl
theorem resolveAll_ok_iff (f : ν → Except QueryError μ) :
    ∀ (ps : List (Property ν)) (qs : List (Property μ)),
      resolveAll f ps = .ok qs ↔ List.Forall₂ (Resolved fun n m => f n = .ok m) ps qs
  | [], qs => by
    rw [resolveAll, List.forall₂_nil_left_iff]
    exact ⟨by rintro ⟨⟩; rfl, by rintro rfl; rfl⟩
  | p :: ps, qs => by
    unfold resolveAll
    refine ⟨fun h => ?_, ?_⟩
    · split at h
      · cases h
      · next q hq =>
        obtain ⟨rs, hrs, rfl⟩ := Except.map_eq_ok_iff.1 h
        exact .cons ((resolve_ok_iff f p q).1 hq) ((resolveAll_ok_iff f ps rs).1 hrs)
    · rintro (_ | ⟨hq, hqs⟩)
      rw [(resolve_ok_iff f p _).2 hq, (resolveAll_ok_iff f ps _).2 hqs]
      rfl
end

/-- A tree can be resolved when each of its names can. -/
theorem exists_resolved_iff {R : ν → μ → Prop} (p : Property ν) :
    (∃ q, Resolved R p q) ↔ ∀ o ∈ nodes p, ∃ m, R o.name m := by
  induction p using Property.induct with
  | node n ps ih =>
    constructor
    · rintro ⟨_, hm, hqs⟩ o ho
      rcases mem_nodes_node.1 ho with rfl | ⟨p, hp, ho⟩
      · exact ⟨_, hm⟩
      · exact (ih p hp).1 (exists_forall₂_iff.1 ⟨_, hqs⟩ p hp) o ho
    · intro h
      obtain ⟨m, hm⟩ := h _ (mem_nodes_node.2 (.inl rfl))
      obtain ⟨qs, hqs⟩ := exists_forall₂_iff.2 fun p hp =>
        (ih p hp).2 fun o ho => h o (mem_nodes_node.2 (.inr ⟨p, hp, ho⟩))
      exact ⟨_, .node hm hqs⟩

/-- What a resolved tree holds comes from what the tree holds. -/
theorem Resolved.exists_node {R : ν → μ → Prop} {p : Property ν} {q : Property μ}
    (h : Resolved R p q) {b : Property μ} (hb : b ∈ nodes q) : ∃ a ∈ nodes p, Resolved R a b := by
  induction p using Property.induct generalizing q with
  | node n ps ih =>
    cases h with
    | node hm hqs =>
      rcases mem_nodes_node.1 hb with rfl | ⟨q, hq, hb⟩
      · exact ⟨_, mem_nodes_node.2 (.inl rfl), .node hm hqs⟩
      · obtain ⟨p, hp, hpq⟩ := exists_of_mem_right hqs hq
        obtain ⟨a, ha, hab⟩ := ih p hp hpq hb
        exact ⟨a, mem_nodes_node.2 (.inr ⟨p, hp, ha⟩), hab⟩

theorem Resolved.imp {R S : ν → μ → Prop} {p : Property ν} {q : Property μ} (h : Resolved R p q)
    (hRS : ∀ o ∈ nodes p, ∀ m, R o.name m → S o.name m) : Resolved S p q := by
  induction p using Property.induct generalizing q with
  | node n ps ih =>
    cases h with
    | node hm hqs =>
      refine .node (hRS _ (mem_nodes_node.2 (.inl rfl)) _ hm) (forall₂_imp_mem hqs ?_)
      exact fun p hp q h => ih p hp h fun o ho => hRS o (mem_nodes_node.2 (.inr ⟨p, hp, ho⟩))

theorem depthAll_eq {ps : List (Property ν)} {qs : List (Property μ)}
    (h : List.Forall₂ (fun p q => depth q = depth p) ps qs) : depthAll qs = depthAll ps := by
  induction h with
  | nil => rfl
  | cons h _ ih => rw [depthAll, depthAll, h, ih]

theorem Resolved.depth_eq {R : ν → μ → Prop} {p : Property ν} {q : Property μ}
    (h : Resolved R p q) : depth q = depth p := by
  induction p using Property.induct generalizing q with
  | node n ps ih =>
    cases h with
    | node hm hqs =>
      have hd := depthAll_eq (forall₂_imp_mem hqs fun p hp q h => ih p hp h)
      cases hqs with
      | nil => rw [depth_leaf, depth_leaf]
      | cons => rw [depth_node (List.cons_ne_nil _ _), depth_node (List.cons_ne_nil _ _), hd]

theorem depthAll_resolved {R : ν → μ → Prop} {ps : List (Property ν)} {qs : List (Property μ)}
    (h : List.Forall₂ (Resolved R) ps qs) : depthAll qs = depthAll ps :=
  depthAll_eq (h.imp fun _ _ hpq => hpq.depth_eq)

end Property

/-! ## Conditions -/

namespace Condition

variable {ν μ ω υ : Type}

inductive Resolved (R : ν → μ → Prop) (S : ω → υ → Prop) : Condition ν ω → Condition μ υ → Prop
  | scope {n : ν} {m : μ} {cs : List (Condition ν ω)} {ds : List (Condition μ υ)} : R n m →
      List.Forall₂ (Resolved R S) cs ds → Resolved R S (scope n cs) (scope m ds)
  | test {n : ν} {m : μ} {op : Operator} {vs : List ω} {ws : List υ} : R n m →
      List.Forall₂ S vs ws → Resolved R S (test n op vs) (test m op ws)

section
variable (f : ν → Except QueryError μ) (g : ω → Except QueryError υ)

/-- The order in which name and values are put through does not matter for success. -/
theorem resolveTest_ok_iff {n : ν} {op : Operator} {vs : List ω} {d : Condition μ υ} :
    resolveTest f g n op vs = .ok d ↔
      ∃ m ws, f n = .ok m ∧ List.Forall₂ (fun v w => g v = .ok w) vs ws ∧ test m op ws = d := by
  simp only [resolveTest, ← mapM_eq_ok_iff]
  split
  · simp only [Except.bind_eq_ok_iff, Except.map_eq_ok_iff]
    constructor
    · rintro ⟨ws, hws, m, hm, rfl⟩
      exact ⟨m, ws, hm, hws, rfl⟩
    · rintro ⟨m, ws, hm, hws, rfl⟩
      exact ⟨ws, hws, m, hm, rfl⟩
  · simp only [Except.bind_eq_ok_iff, Except.map_eq_ok_iff]
    constructor
    · rintro ⟨m, hm, ws, hws, rfl⟩
      exact ⟨m, ws, hm, hws, rfl⟩
    · rintro ⟨m, ws, hm, hws, rfl⟩
      exact ⟨m, hm, ws, hws, rfl⟩

mutual
theorem resolve_ok_iff : ∀ (c : Condition ν ω) (d : Condition μ υ), resolve f g c = .ok d ↔
    Resolved (fun n m => f n = .ok m) (fun v w => g v = .ok w) c d
  | scope n cs, d => by
    unfold resolve
    refine ⟨fun h => ?_, ?_⟩
    · split at h
      · cases h
      · next ds hds =>
        obtain ⟨m, hm, rfl⟩ := Except.map_eq_ok_iff.1 h
        exact .scope hm ((resolveAll_ok_iff cs ds).1 hds)
    · rintro ⟨hm, hds⟩
      rw [(resolveAll_ok_iff cs _).2 hds, hm]
      rfl
  | test n op vs, d => by
    rw [resolve, resolveTest_ok_iff]
    constructor
    · rintro ⟨m, ws, hm, hws, rfl⟩
      exact .test hm hws
    · rintro ⟨⟩
      exact ⟨_, _, ‹_›, ‹_›, rfl⟩
theorem resolveAll_ok_iff : ∀ (cs : List (Condition ν ω)) (ds : List (Condition μ υ)),
    resolveAll f g cs = .ok ds ↔
      List.Forall₂ (Resolved (fun n m => f n = .ok m) fun v w => g v = .ok w) cs ds
  | [], ds => by
    rw [resolveAll, List.forall₂_nil_left_iff]
    exact ⟨by rintro ⟨⟩; rfl, by rintro rfl; rfl⟩
  | c :: cs, ds => by
    unfold resolveAll
    refine ⟨fun h => ?_, ?_⟩
    · split at h
      · cases h
      · next d hd =>
        obtain ⟨es, hes, rfl⟩ := Except.map_eq_ok_iff.1 h
        exact .cons ((resolve_ok_iff c d).1 hd) ((resolveAll_ok_iff cs es).1 hes)
    · rintro (_ | ⟨hd, hds⟩)
      rw [(resolve_ok_iff c _).2 hd, (resolveAll_ok_iff cs _).2 hds]
      rfl
end

end

section
variable {R : ν → μ → Prop} {S : ω → υ → Prop}

/-- A tree can be resolved when each of its names and of its values can. -/
theorem exists_resolved_iff (c : Condition ν ω) : (∃ d, Resolved R S c d) ↔
    ∀ o ∈ nodes c, (∃ m, R o.name m) ∧ ∀ v ∈ o.values, ∃ w, S v w := by
  induction c using Condition.induct with
  | scope n cs ih =>
    constructor
    · rintro ⟨_, hd⟩ o ho
      cases hd with
      | scope hm hds =>
        rcases mem_nodes_scope.1 ho with rfl | ⟨c, hc, ho⟩
        · exact ⟨⟨_, hm⟩, by simp [values]⟩
        · exact (ih c hc).1 (exists_forall₂_iff.1 ⟨_, hds⟩ c hc) o ho
    · intro h
      obtain ⟨⟨m, hm⟩, -⟩ := h _ (mem_nodes_scope.2 (.inl rfl))
      obtain ⟨ds, hds⟩ := exists_forall₂_iff.2 fun c hc =>
        (ih c hc).2 fun o ho => h o (mem_nodes_scope.2 (.inr ⟨c, hc, ho⟩))
      exact ⟨_, .scope hm hds⟩
  | test n op vs =>
    constructor
    · rintro ⟨_, hd⟩ o ho
      cases hd with
      | test hm hws =>
        rw [mem_nodes_test.1 ho]
        exact ⟨⟨_, hm⟩, exists_forall₂_iff.1 ⟨_, hws⟩⟩
    · intro h
      obtain ⟨⟨m, hm⟩, hvs⟩ := h _ (mem_nodes_test.2 rfl)
      obtain ⟨ws, hws⟩ := exists_forall₂_iff.2 hvs
      exact ⟨_, .test hm hws⟩

/-- What a resolved tree holds comes from what the tree holds. -/
theorem Resolved.exists_node {c : Condition ν ω} {d : Condition μ υ} (h : Resolved R S c d)
    {b : Condition μ υ} (hb : b ∈ nodes d) : ∃ a ∈ nodes c, Resolved R S a b := by
  induction c using Condition.induct generalizing d with
  | scope n cs ih =>
    cases h with
    | scope hm hds =>
      rcases mem_nodes_scope.1 hb with rfl | ⟨d, hd, hb⟩
      · exact ⟨_, mem_nodes_scope.2 (.inl rfl), .scope hm hds⟩
      · obtain ⟨c, hc, hcd⟩ := exists_of_mem_right hds hd
        obtain ⟨a, ha, hab⟩ := ih c hc hcd hb
        exact ⟨a, mem_nodes_scope.2 (.inr ⟨c, hc, ha⟩), hab⟩
  | test n op vs =>
    cases h with
    | test hm hws =>
      rw [mem_nodes_test.1 hb]
      exact ⟨_, mem_nodes_test.2 rfl, .test hm hws⟩

theorem Resolved.imp {R' : ν → μ → Prop} {S' : ω → υ → Prop} {c : Condition ν ω}
    {d : Condition μ υ} (h : Resolved R S c d) (hR : ∀ o ∈ nodes c, ∀ m, R o.name m → R' o.name m)
    (hS : ∀ o ∈ nodes c, ∀ v ∈ o.values, ∀ w, S v w → S' v w) : Resolved R' S' c d := by
  induction c using Condition.induct generalizing d with
  | scope n cs ih =>
    cases h with
    | scope hm hds =>
      refine .scope (hR _ (mem_nodes_scope.2 (.inl rfl)) _ hm) (forall₂_imp_mem hds ?_)
      intro c hc d h
      exact ih c hc h (fun o ho => hR o (mem_nodes_scope.2 (.inr ⟨c, hc, ho⟩)))
        fun o ho => hS o (mem_nodes_scope.2 (.inr ⟨c, hc, ho⟩))
  | test n op vs =>
    cases h with
    | test hm hws =>
      exact .test (hR _ (mem_nodes_test.2 rfl) _ hm)
        (forall₂_imp_mem hws (hS _ (mem_nodes_test.2 rfl)))

theorem depthAll_eq {cs : List (Condition ν ω)} {ds : List (Condition μ υ)}
    (h : List.Forall₂ (fun c d => depth d = depth c) cs ds) : depthAll ds = depthAll cs := by
  induction h with
  | nil => rfl
  | cons h _ ih => rw [depthAll, depthAll, h, ih]

theorem Resolved.depth_eq {c : Condition ν ω} {d : Condition μ υ} (h : Resolved R S c d) :
    depth d = depth c := by
  induction c using Condition.induct generalizing d with
  | scope n cs ih =>
    cases h with
    | scope hm hds => rw [depth, depth, depthAll_eq (forall₂_imp_mem hds fun c hc d h => ih c hc h)]
  | test n op vs =>
    cases h
    rfl

theorem depthAll_resolved {cs : List (Condition ν ω)} {ds : List (Condition μ υ)}
    (h : List.Forall₂ (Resolved R S) cs ds) : depthAll ds = depthAll cs :=
  depthAll_eq (h.imp fun _ _ hcd => hcd.depth_eq)

end

end Condition

/-! ## Literals in a clause -/

namespace Condition

variable {r : Resolver} {source start : List Char} {l : Literal}

/-- The clause only tells where a literal without value stands. -/
theorem valueIn_ok_iff {p : Placed} {v : Value} :
    valueIn r source p = .ok v ↔ p.literal.value r = .ok v := by
  simp only [valueIn]
  split
  · next h => simp [h]
  · rfl

theorem valueIn_unknownLabel {label : String} (h : l.value r = .error (.unknownLabel label)) :
    valueIn r source ⟨l, start⟩ = .error (.unknownLabel label) := by
  simp only [valueIn, h]

theorem valueIn_fault {fault : ValueFault} (h : l.value r = .error (.value fault)) :
    valueIn r source ⟨l, start⟩ =
      .error (.clause .conditions (Text.offset source start) (.value fault)) := by
  simp only [valueIn, h]

end Condition

end LifecycleQuery
