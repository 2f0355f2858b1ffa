import LifecycleQuery.Proofs.Acceptance
import LifecycleQuery.Proofs.Grammar.Namespaces
import LifecycleQuery.Proofs.Query.Step
import LifecycleQuery.Proofs.Value

/-!
# What every query keeps to

`Invariant` holds of the empty query and is kept by every step, accepted or not, so it holds of
whatever a client sends. Each part of it comes from the grammar or from the resolution of one node
of a tree: `Shaped` says of a node what both establish, and resolution carries it over.
-/

namespace LifecycleQuery

open Text

/-! ## Names -/

/-- The wildcard, or a local part behind one of the namespaces. -/
def IsExpanded (known : String → Prop) (i : Iri) : Prop :=
  i = "*" ∨ ∃ space part, known space ∧ Name.Local part.toList ∧ i = space ++ part

theorem Name.local_of_spells {x : List Char} {n : Name} (h : Spells x n) :
    n = all ∨ ∃ label part, n = qualified label part ∧ Local part.toList := by
  cases h with
  | all => exact .inl rfl
  | qualified hq =>
    obtain ⟨-, hp⟩ := hq
    exact .inr ⟨_, _, rfl, by simpa using hp⟩
  | bare hp => exact .inr ⟨_, _, rfl, by simpa using hp⟩

/-- The namespaces that names may be resolved with. -/
def Resolver.Knows (r : Resolver) (known : String → Prop) : Prop :=
  (∀ label space, r.space? label = some space → known space) ∧
    ∀ space, r.unknown = .fallback space → known space

theorem Resolver.Knows.isExpanded {r : Resolver} {known : String → Prop} (hr : r.Knows known)
    {x : List Char} {n : Name} {i : Iri} (hn : Name.Spells x n) (h : r.Expands n i) :
    IsExpanded known i := by
  rcases Name.local_of_spells hn with rfl | ⟨label, part, rfl, hp⟩
  · cases h
    exact .inl rfl
  · cases h with
    | request h =>
      exact .inr ⟨_, part, hr.1 label _ (space?_eq_some_iff.2 (.inl h)), hp, rfl⟩
    | base hrequest h =>
      exact .inr ⟨_, part, hr.1 label _ (space?_eq_some_iff.2 (.inr ⟨hrequest, h⟩)), hp, rfl⟩
    | fallback _ hpolicy => exact .inr ⟨_, part, hr.2 _ hpolicy, hp, rfl⟩

/-! ## Nodes -/

namespace Condition

variable {ν μ ω υ : Type}

/-- A scope is not empty, a test has one value or with `within` at least one, and names and values
are as given. -/
def Shaped (N : ν → Prop) (V : ω → Prop) : Condition ν ω → Prop
  | scope name inner => N name ∧ inner ≠ []
  | test name op values =>
    N name ∧ (if op = .within then values ≠ [] else values.length = 1) ∧ ∀ v ∈ values, V v

theorem Resolved.shaped {R : ν → μ → Prop} {S : ω → υ → Prop} {N : ν → Prop} {M : μ → Prop}
    {V : ω → Prop} {W : υ → Prop} (hN : ∀ {n m}, N n → R n m → M m)
    (hV : ∀ {v w}, V v → S v w → W w) {c : Condition ν ω} {d : Condition μ υ}
    (h : Resolved R S c d) (hc : Shaped N V c) : Shaped M W d := by
  cases h with
  | scope hn hds =>
    refine ⟨hN hc.1 hn, ?_⟩
    rintro rfl
    exact hc.2 (List.forall₂_nil_right_iff.1 hds)
  | @test n m op vs ws hn hws =>
    obtain ⟨hname, hcount, hvalues⟩ := hc
    refine ⟨hN hname hn, ?_, fun w hw => ?_⟩
    · rw [← List.length_pos_iff, hws.length_eq] at hcount
      rwa [← List.length_pos_iff]
    · obtain ⟨v, hv, hvw⟩ := exists_of_mem_right hws hw
      exact hV (hvalues v hv) hvw

/-- Names and literals are spelled by the grammar. -/
abbrev WellSpelled : Written → Prop :=
  Shaped (fun n => ∃ x, Name.Spells x n) fun p => ∃ x, Literal.Spells x p.literal

theorem derives_wellSpelled {t u : List Char} {c : Written} (h : Derives t c u) :
    ∀ o ∈ nodes c, WellSpelled o := by
  refine Derives.induct (P := fun _ c _ => ∀ o ∈ nodes c, WellSpelled o) ?_ ?_ ?_ h
  · rintro t u v w x y n cs ⟨z, hz, -⟩ - - hl - o ho
    rcases mem_nodes_scope.1 ho with rfl | ⟨c, hc, ho⟩
    · exact ⟨⟨z, hz⟩, hl.ne_nil⟩
    · obtain ⟨_, _, hd⟩ := hl.exists_of_mem hc
      exact hd.2 o ho
  · rintro t u v w x y z n ps ⟨s, hs, -⟩ - - - hl - o ho
    rw [mem_nodes_test.1 ho]
    refine ⟨⟨s, hs⟩, by simpa using hl.ne_nil, fun p hp => ?_⟩
    obtain ⟨_, _, -, a, ha, -⟩ := hl.exists_of_mem hp
    exact ⟨a, ha⟩
  · rintro t u v w x y n op p ⟨s, hs, -⟩ - ⟨_, hop, -⟩ - ⟨-, a, ha, -⟩ o ho
    rw [mem_nodes_test.1 ho]
    exact ⟨⟨s, hs⟩, by simp [hop.1], by simpa using ⟨a, ha⟩⟩

theorem read_shaped {r : Resolver} {known : String → Prop} (hr : r.Knows known) {n : Nat}
    {text : String} {ds : List Filter} (h : read r n text = .ok ds) :
    depthAll ds ≤ n ∧ ∀ d ∈ nodesAll ds, Shaped (IsExpanded known) Value.WellFormed d := by
  rcases read_ok_iff.1 h with ⟨-, rfl⟩ | ⟨cs, ⟨_, _, -, hl, -⟩, hd, hres⟩
  · exact ⟨Nat.zero_le n, by simp [nodesAll]⟩
  · rw [depthAll_resolved hres]
    refine ⟨hd, fun d hd => ?_⟩
    obtain ⟨e, he, hde⟩ := mem_nodesAll.1 hd
    obtain ⟨c, hc, hce⟩ := exists_of_mem_right hres he
    obtain ⟨o, ho, hod⟩ := hce.exists_node hde
    obtain ⟨_, _, hderives⟩ := hl.exists_of_mem hc
    refine hod.shaped ?_ ?_ (derives_wellSpelled hderives o ho)
    · rintro n i ⟨x, hx⟩ hn
      exact hr.isExpanded hx hn
    · rintro p v ⟨x, hx⟩ hv
      exact hx.value_wellFormed (Literal.means_iff.1 hv)

end Condition

namespace Property

theorem derives_wellSpelled {t u : List Char} {p : Property Name} (h : Derives t p u) :
    ∀ o ∈ nodes p, ∃ x, Name.Spells x o.name := by
  refine Derives.induct (P := fun _ p _ => ∀ o ∈ nodes p, ∃ x, Name.Spells x o.name) ?_ ?_ h
  · rintro t u n ⟨x, hx, -⟩ o ho
    rcases mem_nodes_node.1 ho with rfl | ⟨q, hq, -⟩
    · exact ⟨x, hx⟩
    · cases hq
  · rintro t u v w x y n ps ⟨z, hz, -⟩ - - hl - o ho
    rcases mem_nodes_node.1 ho with rfl | ⟨q, hq, ho⟩
    · exact ⟨z, hz⟩
    · obtain ⟨_, _, hd⟩ := hl.exists_of_mem hq
      exact hd.2 o ho

theorem read_shaped {r : Resolver} {known : String → Prop} (hr : r.Knows known) {n : Nat}
    {text : String} {qs : List Projection} (h : read r n text = .ok qs) :
    depthAll qs ≤ n ∧ ∀ q ∈ nodesAll qs, IsExpanded known q.name := by
  rcases read_ok_iff.1 h with ⟨-, rfl⟩ | ⟨ps, ⟨_, _, -, hl, -⟩, hd, hres⟩
  · exact ⟨Nat.zero_le n, by simp [nodesAll]⟩
  · rw [depthAll_resolved hres]
    refine ⟨hd, fun d hd => ?_⟩
    obtain ⟨e, he, hde⟩ := mem_nodesAll.1 hd
    obtain ⟨p, hp, hpe⟩ := exists_of_mem_right hres he
    obtain ⟨o, ho, hod⟩ := hpe.exists_node hde
    obtain ⟨_, _, hderives⟩ := hl.exists_of_mem hp
    obtain ⟨x, hx⟩ := derives_wellSpelled hderives o ho
    cases hod with
    | node hn hqs => exact hr.isExpanded hx hn

end Property

/-! ## Queries -/

namespace Query

/-- What holds of a query under the settings `s` when its names can only have been expanded with
`known` namespaces. -/
structure Invariant (s : Settings) (known : String → Prop) (q : Query) : Prop where
  settings : q.settings = s
  labels : (q.namespaces.entries.map Prod.fst).Nodup
  bindings : ∀ b ∈ q.namespaces.entries, Name.Label b.1.toList ∧ IsIri b.2.toList
  spaces : ∀ label space, q.namespaces.get? label = some space → known space
  conditions : ∀ c ∈ Condition.nodesAll q.conditions,
    c.Shaped (IsExpanded known) Value.WellFormed
  properties : ∀ p ∈ Property.nodesAll q.properties, IsExpanded known p.name
  conditionDepth : Condition.depthAll q.conditions ≤ s.maxNesting
  propertyDepth : Property.depthAll q.properties ≤ s.maxNesting

theorem invariant_ofSettings (s : Settings) (known : String → Prop) :
    Invariant s known (ofSettings s) where
  settings := rfl
  labels := Namespaces.empty.distinct
  bindings := by simp [ofSettings, Namespaces.empty]
  spaces := by simp [ofSettings, Namespaces.empty, Namespaces.get?]
  conditions := by simp [ofSettings, Condition.nodesAll]
  properties := by simp [ofSettings, Property.nodesAll]
  conditionDepth := Nat.zero_le _
  propertyDepth := Nat.zero_le _

/-- The namespaces of the server: its own bindings, and the one that unknown labels fall back to. -/
def ServerSpace (s : Settings) (space : String) : Prop :=
  (∃ label, s.base.get? label = some space) ∨ s.unknown = .fallback space

/-- The namespaces that an accepted clause among the steps has declared. -/
def DeclaredSpace (steps : List (Clause × String)) (space : String) : Prop :=
  ∃ text t label, (Clause.namespaces, text) ∈ steps ∧ Namespaces.read text = .ok t ∧
    t.get? label = some space

theorem DeclaredSpace.mono {before after : List (Clause × String)} {space : String}
    (h : DeclaredSpace before space) (hsub : ∀ st ∈ before, st ∈ after) :
    DeclaredSpace after space := by
  obtain ⟨text, t, label, hm, ht⟩ := h
  exact ⟨text, t, label, hsub _ hm, ht⟩

theorem Invariant.knows {s : Settings} {known : String → Prop} {q : Query}
    (h : Invariant s known q) (hs : ∀ space, ServerSpace s space → known space) :
    q.resolver.Knows known := by
  have hset := h.settings
  subst hset
  constructor
  · intro label space hspace
    rcases Option.or_eq_some_iff.1 hspace with hr | ⟨-, hb⟩
    · exact h.spaces label space hr
    · exact hs space (.inl ⟨label, hb⟩)
  · intro space hf
    exact hs space (.inr hf)

theorem Invariant.step {s : Settings} {known : String → Prop} {q : Query}
    (h : Invariant s known q) (hs : ∀ space, ServerSpace s space → known space)
    {st : Clause × String} (hd : ∀ space, DeclaredSpace [st] space → known space) :
    Invariant s known (q.step st) := by
  rcases step_cases q st with ⟨e, -, he⟩ | ⟨q', hq, he⟩
  · rw [he]
    exact h
  · rw [he]
    obtain ⟨clause, text⟩ := st
    have hknows := h.knows hs
    rcases take_ok_iff.1 hq with ⟨rfl, t, ht, rfl⟩ | ⟨rfl, cs, hcs, rfl⟩ | ⟨rfl, ps, hps, rfl⟩
    · exact { h with
        labels := t.distinct
        bindings := Namespaces.read_bindings ht
        spaces := fun label space hl => hd space ⟨text, t, label, by simp, ht, hl⟩ }
    · obtain ⟨hdepth, hshape⟩ := Condition.read_shaped hknows hcs
      rw [h.settings] at hdepth
      exact { h with conditions := hshape, conditionDepth := hdepth }
    · obtain ⟨hdepth, hshape⟩ := Property.read_shaped hknows hps
      rw [h.settings] at hdepth
      exact { h with properties := hshape, propertyDepth := hdepth }

theorem Invariant.run {s : Settings} {known : String → Prop}
    (hs : ∀ space, ServerSpace s space → known space) {steps : List (Clause × String)}
    (hd : ∀ space, DeclaredSpace steps space → known space) {q : Query}
    (h : Invariant s known q) : Invariant s known (q.run steps) := by
  induction steps generalizing q with
  | nil => exact h
  | cons st steps ih =>
    rw [run_cons]
    exact ih (fun space hspace => hd space (hspace.mono fun x hx => List.mem_cons_of_mem _ hx))
      (h.step hs fun space hspace => hd space (hspace.mono (by simp)))

/-- Whatever texts a query has taken or refused, its parts are well formed, and its names are
expanded with a namespace of the server or one that was declared. -/
theorem run_invariant (s : Settings) (steps : List (Clause × String)) :
    Invariant s (fun space => ServerSpace s space ∨ DeclaredSpace steps space)
      ((ofSettings s).run steps) :=
  (invariant_ofSettings s _).run (fun _ => .inl) (fun _ => .inr)

end Query

end LifecycleQuery
