import LifecycleQuery.Proofs.Resolution

/-!
# Two resolutions of one tree

The same tree may be resolved in two ways: under another table, or under another policy.
`Sequential` says of a relation between two attempts that it is kept when attempts follow one
another. Such a relation holds of the resolved trees when it holds of every name and every value by
itself (`resolveAll_related`), in whatever order the resolution goes through them. Equality is one
of these relations; another is that every error has a given property.
-/

namespace LifecycleQuery

/-- A relation between two attempts that goes from the parts of an attempt to the whole. -/
structure Sequential (R : (α : Type) → Except QueryError α → Except QueryError α → Prop) :
    Prop where
  ok : ∀ {α : Type} (a : α), R α (.ok a) (.ok a)
  bind : ∀ {α β : Type} {x y : Except QueryError α} {f g : α → Except QueryError β},
    R α x y → (∀ a, R β (f a) (g a)) → R β (x.bind f) (y.bind g)

/-- A fault that is not one of a label may befall both attempts. -/
def SharesFaults (R : (α : Type) → Except QueryError α → Except QueryError α → Prop) : Prop :=
  ∀ {α : Type} (e : QueryError), (∀ label, e ≠ .unknownLabel label) → R α (.error e) (.error e)

theorem sequential_eq : Sequential fun _ x y => x = y where
  ok _ := rfl
  bind := by
    intro α β x y f g hx hf
    rw [hx, funext hf]

/-- Only the first attempt counts: whatever goes wrong in it has the property. -/
theorem sequential_errors (P : QueryError → Prop) :
    Sequential fun _ x _ => ∀ e, x = .error e → P e where
  ok := by
    intro α a e h
    cases h
  bind := by
    intro α β x y f g hx hf e he
    cases x with
    | error d =>
      have hd : d = e := Except.error.inj he
      exact hx e (congrArg Except.error hd)
    | ok a => exact hf a e he

section
variable {R : (α : Type) → Except QueryError α → Except QueryError α → Prop}

namespace Sequential

theorem map (hR : Sequential R) {α β : Type} {x y : Except QueryError α} (h : R α x y)
    (f : α → β) : R β (x.map f) (y.map f) := by
  have hbind : ∀ z : Except QueryError α, z.map f = z.bind fun a => .ok (f a) := by
    intro z
    cases z <;> rfl
  rw [hbind, hbind]
  exact hR.bind h fun a => hR.ok (f a)

theorem mapM (hR : Sequential R) {α β : Type} {f g : α → Except QueryError β} {as : List α}
    (h : ∀ a ∈ as, R β (f a) (g a)) : R (List β) (as.mapM f) (as.mapM g) := by
  induction as with
  | nil => exact hR.ok []
  | cons a as ih =>
    obtain ⟨ha, has⟩ := List.forall_mem_cons.1 h
    rw [List.mapM_cons, List.mapM_cons]
    exact hR.bind ha fun b => hR.bind (ih has) fun bs => hR.ok (b :: bs)

end Sequential

/-! ## Properties -/

namespace Property

variable {ν μ : Type}

theorem resolve_node (f : ν → Except QueryError μ) (n : ν) (ps : List (Property ν)) :
    resolve f (node n ps) = (resolveAll f ps).bind fun qs => (f n).map fun m => node m qs := by
  unfold resolve
  cases resolveAll f ps <;> rfl

theorem resolveAll_eq_mapM (f : ν → Except QueryError μ) (ps : List (Property ν)) :
    resolveAll f ps = ps.mapM (resolve f) := by
  induction ps with
  | nil => rfl
  | cons p ps ih =>
    rw [resolveAll, List.mapM_cons, ih]
    cases resolve f p with
    | error e => rfl
    | ok q => cases ps.mapM (resolve f) <;> rfl

theorem resolve_related (hR : Sequential R) {f g : ν → Except QueryError μ} (p : Property ν)
    (h : ∀ o ∈ nodes p, R μ (f o.name) (g o.name)) :
    R (Property μ) (resolve f p) (resolve g p) := by
  induction p using Property.induct with
  | node n ps ih =>
    rw [resolve_node, resolve_node, resolveAll_eq_mapM, resolveAll_eq_mapM]
    refine hR.bind (hR.mapM fun p hp => ih p hp fun o ho => ?_) fun qs => hR.map ?_ _
    · exact h o (mem_nodes_node.2 (.inr ⟨p, hp, ho⟩))
    · exact h _ (mem_nodes_node.2 (.inl rfl))

/-- What holds of every name in two resolutions holds of the lists. -/
theorem resolveAll_related (hR : Sequential R) {f g : ν → Except QueryError μ}
    {ps : List (Property ν)} (h : ∀ o ∈ nodesAll ps, R μ (f o.name) (g o.name)) :
    R (List (Property μ)) (resolveAll f ps) (resolveAll g ps) := by
  rw [resolveAll_eq_mapM, resolveAll_eq_mapM]
  exact hR.mapM fun p hp => resolve_related hR p fun o ho => h o (mem_nodesAll.2 ⟨p, hp, ho⟩)

/-- What goes wrong goes wrong with one of the names. -/
theorem resolveAll_eq_error {f : ν → Except QueryError μ} {ps : List (Property ν)} {e : QueryError}
    (h : resolveAll f ps = .error e) : ∃ o ∈ nodesAll ps, f o.name = .error e := by
  have hrel := resolveAll_related (f := f) (g := f)
    (sequential_errors fun e => ∃ o ∈ nodesAll ps, f o.name = .error e)
    fun o ho d hd => ⟨o, ho, hd⟩
  exact hrel e h

end Property

/-! ## Conditions -/

namespace Condition

variable {ν μ ω υ : Type}

theorem resolve_scope (f : ν → Except QueryError μ) (g : ω → Except QueryError υ) (n : ν)
    (cs : List (Condition ν ω)) : resolve f g (scope n cs) =
      (resolveAll f g cs).bind fun ds => (f n).map fun m => scope m ds := by
  unfold resolve
  cases resolveAll f g cs <;> rfl

theorem resolveAll_eq_mapM (f : ν → Except QueryError μ) (g : ω → Except QueryError υ)
    (cs : List (Condition ν ω)) : resolveAll f g cs = cs.mapM (resolve f g) := by
  induction cs with
  | nil => rfl
  | cons c cs ih =>
    rw [resolveAll, List.mapM_cons, ih]
    cases resolve f g c with
    | error e => rfl
    | ok d => cases cs.mapM (resolve f g) <;> rfl

section
variable {f f' : ν → Except QueryError μ} {g g' : ω → Except QueryError υ}

/-- The values of a list come before the name, a single value after it. -/
theorem resolveTest_related (hR : Sequential R) {n : ν} {op : Operator} {vs : List ω}
    (hn : R μ (f n) (f' n)) (hvs : ∀ v ∈ vs, R υ (g v) (g' v)) :
    R (Condition μ υ) (resolveTest f g n op vs) (resolveTest f' g' n op vs) := by
  unfold resolveTest
  split
  · exact hR.bind (hR.mapM hvs) fun ws => hR.map hn _
  · exact hR.bind hn fun m => hR.map (hR.mapM hvs) _

theorem resolve_related (hR : Sequential R) (c : Condition ν ω)
    (h : ∀ o ∈ nodes c, R μ (f o.name) (f' o.name) ∧ ∀ v ∈ o.values, R υ (g v) (g' v)) :
    R (Condition μ υ) (resolve f g c) (resolve f' g' c) := by
  induction c using Condition.induct with
  | scope n cs ih =>
    rw [resolve_scope, resolve_scope, resolveAll_eq_mapM, resolveAll_eq_mapM]
    refine hR.bind (hR.mapM fun c hc => ih c hc fun o ho => ?_) fun ds => hR.map ?_ _
    · exact h o (mem_nodes_scope.2 (.inr ⟨c, hc, ho⟩))
    · exact (h _ (mem_nodes_scope.2 (.inl rfl))).1
  | test n op vs =>
    obtain ⟨hn, hvs⟩ := h _ (mem_nodes_test.2 rfl)
    rw [resolve, resolve]
    exact resolveTest_related hR hn hvs

/-- What holds of every name and every value in two resolutions holds of the lists. -/
theorem resolveAll_related (hR : Sequential R) {cs : List (Condition ν ω)}
    (h : ∀ o ∈ nodesAll cs, R μ (f o.name) (f' o.name) ∧ ∀ v ∈ o.values, R υ (g v) (g' v)) :
    R (List (Condition μ υ)) (resolveAll f g cs) (resolveAll f' g' cs) := by
  rw [resolveAll_eq_mapM, resolveAll_eq_mapM]
  exact hR.mapM fun c hc => resolve_related hR c fun o ho => h o (mem_nodesAll.2 ⟨c, hc, ho⟩)

/-- What goes wrong goes wrong with one of the names or one of the values. -/
theorem resolveAll_eq_error {cs : List (Condition ν ω)} {e : QueryError}
    (h : resolveAll f g cs = .error e) :
    ∃ o ∈ nodesAll cs, f o.name = .error e ∨ ∃ v ∈ o.values, g v = .error e := by
  have hparts : ∀ o ∈ nodesAll cs,
      (∀ d, f o.name = .error d → ∃ o ∈ nodesAll cs, f o.name = .error d ∨
        ∃ v ∈ o.values, g v = .error d) ∧
      ∀ v ∈ o.values, ∀ d, g v = .error d → ∃ o ∈ nodesAll cs, f o.name = .error d ∨
        ∃ v ∈ o.values, g v = .error d :=
    fun o ho => ⟨fun d hd => ⟨o, ho, .inl hd⟩, fun v hv d hd => ⟨o, ho, .inr ⟨v, hv, hd⟩⟩⟩
  exact @resolveAll_related _ _ _ _ _ f f g g (sequential_errors _) cs hparts e h

end

end Condition

end

/-! ## Names and literals -/

/-- A name fails for its label only, when nothing binds it and the policy is strict. -/
theorem Resolver.resolve_eq_error {r : Resolver} {n : Name} {e : QueryError}
    (h : r.resolve n = .error e) :
    ∃ label ∈ n.label?, e = .unknownLabel label ∧ ¬r.Binds label ∧ r.unknown = .reject := by
  cases n with
  | all => cases h
  | qualified label part =>
    rw [Resolver.resolve] at h
    split at h
    · cases h
    · cases h
    · next hspace hpolicy =>
      cases h
      refine ⟨label, rfl, rfl, ?_, hpolicy⟩
      rw [Resolver.binds_iff, hspace]
      simp

/-- And then it does fail. -/
theorem Resolver.resolve_unbound {r : Resolver} {label part : String} (h : ¬r.Binds label)
    (hpolicy : r.unknown = .reject) :
    r.resolve (.qualified label part) = .error (.unknownLabel label) := by
  have hspace : r.space? label = none := by
    rwa [Resolver.binds_iff, Bool.not_eq_true, Option.isSome_eq_false_iff,
      Option.isNone_iff_eq_none] at h
  simp only [Resolver.resolve, hspace, hpolicy]

/-- The name of the datatype, if there is one. -/
def Literal.datatype? : Literal → Option Name
  | string _ (.datatype name) => some name
  | _ => none

/-- A datatype that is not known is reported without a place. -/
theorem Condition.valueIn_datatype (r : Resolver) (source start : List Char) (s : String)
    (name : Name) : valueIn r source ⟨.string s (.datatype name), start⟩ =
      (r.resolve name).map fun d => .string s none (some d) := by
  unfold valueIn
  rw [Literal.value]
  cases h : r.resolve name with
  | ok d => rfl
  | error e =>
    obtain ⟨label, -, rfl, -⟩ := Resolver.resolve_eq_error h
    rfl

section
variable {R : (α : Type) → Except QueryError α → Except QueryError α → Prop} {r r' : Resolver}

/-- Of a literal only the datatype is looked up; a number out of range is so both times. -/
theorem Literal.value_related (hR : Sequential R) (hsame : SharesFaults R) {l : Literal}
    (h : ∀ n ∈ l.datatype?, R Iri (r.resolve n) (r'.resolve n)) :
    R Value (l.value r) (l.value r') := by
  cases l with
  | iri i => exact hR.ok _
  | boolean b => exact hR.ok _
  | number n =>
    rw [Literal.value, Literal.value]
    cases numberOf n with
    | error fault => exact hsame (.value fault) (by simp)
    | ok x => exact hR.ok _
  | string s suffix =>
    cases suffix with
    | none => exact hR.ok _
    | language tag => exact hR.ok _
    | datatype name => exact hR.map (h name rfl) _

/-- The same in a clause, which tells where the number stands. -/
theorem Condition.valueIn_related (hR : Sequential R) (hsame : SharesFaults R)
    {source : List Char} {p : Placed}
    (h : ∀ n ∈ p.literal.datatype?, R Iri (r.resolve n) (r'.resolve n)) :
    R Value (valueIn r source p) (valueIn r' source p) := by
  obtain ⟨l, start⟩ := p
  cases l with
  | iri i => exact hR.ok _
  | boolean b => exact hR.ok _
  | number n =>
    unfold valueIn
    rw [Literal.value, Literal.value]
    cases Literal.numberOf n with
    | error fault => exact hsame (.clause _ _ _) (by simp)
    | ok x => exact hR.ok _
  | string s suffix =>
    cases suffix with
    | none => exact hR.ok _
    | language tag => exact hR.ok _
    | datatype name =>
      rw [valueIn_datatype, valueIn_datatype]
      exact hR.map (h name rfl) _

end

end LifecycleQuery
