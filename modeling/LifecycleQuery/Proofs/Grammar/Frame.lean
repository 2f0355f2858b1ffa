import LifecycleQuery.Proofs.Grammar.Condition
import LifecycleQuery.Proofs.Grammar.Namespaces

/-!
# Derivations before another rest

What a grammar derives does not depend on what comes behind it. `Movable D t u` says that the text
between `t` and `u` may stand before any other rest and still be derived; only the place that a
literal remembers changes, and neither the shape nor the depth of what is derived. From this follow
two more facts: the rest is an end of the text, and every item of a list is derived from an end of
the text.
-/

namespace LifecycleQuery

open Text

section
variable {α β : Type} {D : Derivation α} {E : Derivation β}

/-- What stands between `t` and `u` is derived before any other text as well. -/
def Movable (D : Derivation α) (t u : List Char) : Prop :=
  ∃ x, t = x ++ u ∧ ∀ v, ∃ b, D (x ++ v) b v

theorem Movable.suffix {t u : List Char} (h : Movable D t u) : u <:+ t := by
  obtain ⟨x, rfl, -⟩ := h
  exact List.suffix_append x u

theorem Front.movable {R : List Char → α → Prop} {t u : List Char} {a : α} (h : Front R t a u) :
    Movable (Front R) t u := by
  obtain ⟨x, hx, rfl⟩ := h
  exact ⟨x, rfl, fun v => ⟨a, x, hx, rfl⟩⟩

theorem Movable.imp {t u : List Char} (h : Movable D t u)
    (hDE : ∀ {s a v}, D s a v → ∃ b, E s b v) : Movable E t u := by
  obtain ⟨x, rfl, hx⟩ := h
  refine ⟨x, rfl, fun v => ?_⟩
  obtain ⟨a, ha⟩ := hx v
  exact hDE ha

/-- What is derived behind a beginning makes a whole with it. -/
theorem Movable.behind {x v u : List Char} (h : Movable D v u)
    (hx : ∀ {s a w}, D s a w → ∃ b, E (x ++ s) b w) : Movable E (x ++ v) u := by
  obtain ⟨y, rfl, hy⟩ := h
  refine ⟨x ++ y, by rw [List.append_assoc], fun w => ?_⟩
  obtain ⟨a, ha⟩ := hy w
  rw [List.append_assoc]
  exact hx ha

theorem Front.suffix {R : List Char → α → Prop} {t u : List Char} {a : α} (h : Front R t a u) :
    u <:+ t :=
  h.movable.suffix

theorem Layout.suffix {t u : List Char} (h : Layout t u) : u <:+ t := by
  obtain ⟨gap, -, rfl⟩ := h
  exact List.suffix_append gap u

theorem skipLayout_suffix (t : List Char) : skipLayout t <:+ t :=
  (layout_skipLayout t).suffix

/-! ## Separators and lists -/

/-- A separator may stand before any other text. -/
def MovableSep (S : List Char → List Char → Prop) : Prop :=
  ∀ {t u}, S t u → ∃ x, t = x ++ u ∧ ∀ v, S (x ++ v) v

theorem comma_movable : MovableSep Comma := by
  intro t u h
  obtain ⟨v, ⟨gap, hgap, rfl⟩, gap', hgap', rfl⟩ := h
  refine ⟨gap ++ ',' :: gap', by simp, fun w => ⟨gap' ++ w, ⟨gap, hgap, by simp⟩, gap', hgap', rfl⟩⟩

theorem andWord_movable : MovableSep AndWord := by
  intro t u h
  obtain ⟨v, ⟨c, gap, hc, hgap, rfl⟩, c', gap', hc', hgap', rfl⟩ := h
  refine ⟨c :: gap ++ ("and".toList ++ c' :: gap'), by simp, fun w => ?_⟩
  exact ⟨c' :: gap' ++ w, ⟨c, gap, hc, hgap, by simp⟩, c', gap', hc', hgap', rfl⟩

variable {S : List Char → List Char → Prop}

theorem MovableSep.suffix (hS : MovableSep S) {t u : List Char} (h : S t u) : u <:+ t := by
  obtain ⟨x, rfl, -⟩ := hS h
  exact List.suffix_append x u

/-- An item and a separator make a list with any other list. -/
theorem SepBy.behind_item (hS : MovableSep S) {t u v : List Char} (hm : Movable D t u)
    (hs : S u v) : ∃ x, t = x ++ v ∧ ∀ {s as w}, SepBy S D s as w →
      ∃ bs, SepBy S D (x ++ s) bs w := by
  obtain ⟨x, rfl, hx⟩ := hm
  obtain ⟨y, rfl, hy⟩ := hS hs
  refine ⟨x ++ y, by rw [List.append_assoc], ?_⟩
  intro s as w hl
  obtain ⟨b, hb⟩ := hx (y ++ s)
  rw [List.append_assoc]
  exact ⟨b :: as, .more hb (hy s) hl⟩

theorem SepBy.movable (hS : MovableSep S) {t u : List Char} {as : List α}
    (h : SepBy S (fun t _ u => Movable D t u) t as u) : Movable (SepBy S D) t u := by
  induction h with
  | one hm =>
    apply hm.imp
    intro s a v hd
    exact ⟨[a], .one hd⟩
  | more hm hs _ ih =>
    obtain ⟨x, rfl, hx⟩ := SepBy.behind_item hS hm hs
    exact ih.behind hx

/-- Every item is derived from an end of the text. -/
theorem SepBy.exists_suffix_of_mem (hS : MovableSep S) (hD : ∀ {t a u}, D t a u → u <:+ t)
    {t u : List Char} {as : List α} (h : SepBy S D t as u) {a : α} (ha : a ∈ as) :
    ∃ v w, v <:+ t ∧ D v a w := by
  induction h with
  | one hd =>
    rw [List.mem_singleton] at ha
    subst ha
    exact ⟨_, _, List.suffix_refl _, hd⟩
  | more hd hs _ ih =>
    rcases List.mem_cons.1 ha with rfl | ha
    · exact ⟨_, _, List.suffix_refl _, hd⟩
    · obtain ⟨v, w, hv, hd'⟩ := ih ha
      exact ⟨v, w, hv.trans ((hS.suffix hs).trans (hD hd)), hd'⟩

/-! ## Brackets -/

theorem Enclosed.movable {close : Char} {t u v w : List Char} (ht : Layout t u)
    (hm : Movable D u v) (hv : Layout v (close :: w)) : Movable (Enclosed D close) t w := by
  obtain ⟨gap, hgap, rfl⟩ := ht
  obtain ⟨x, rfl, hx⟩ := hm
  obtain ⟨gap', hgap', rfl⟩ := hv
  refine ⟨gap ++ (x ++ (gap' ++ [close])), by simp, fun s => ?_⟩
  obtain ⟨b, hb⟩ := hx (gap' ++ close :: s)
  exact ⟨b, x ++ (gap' ++ close :: s), gap' ++ close :: s, ⟨gap, hgap, by simp⟩, hb,
    gap', hgap', rfl⟩

variable {sep : List Char → Option (List Char)} {depth : α → Nat} {depthAll : List α → Nat}
  {item : Scanner (List α) → Scanner α} {scope : Nat → Scanner (List α)}

/-- Behind a brace that may be opened stands a list with one level less, and the closing brace. -/
theorem Nests.withinScope_succ_iff (h : Nests sep S D depth depthAll item scope) {n : Nat}
    {t u : List Char} {as : List α} : WithinScope S D depthAll (n + 1) t as u ↔
      Enclosed (SepBy S (Within D depth n)) '}' t as u := by
  unfold WithinScope Enclosed
  simp only [h.sepBy_within_iff]
  constructor
  · intro hw
    obtain ⟨⟨v, w, hv, hl, hw⟩, hd⟩ := hw
    exact ⟨v, w, hv, ⟨hl, by omega⟩, hw⟩
  · intro he
    obtain ⟨v, w, hv, ⟨hl, hd⟩, hw⟩ := he
    exact ⟨⟨v, w, hv, hl, hw⟩, by omega⟩

theorem Nests.scope_movable (h : Nests sep S D depth depthAll item scope) (hS : MovableSep S)
    {n : Nat} {t u v w : List Char} {as : List α} (ht : Layout t u)
    (hl : SepBy S (fun t a u => ∀ n, depth a ≤ n → Movable (Within D depth n) t u) u as v)
    (hv : Layout v ('}' :: w)) (hd : depthAll as < n) :
    Movable (WithinScope S D depthAll n) t w := by
  obtain ⟨m, rfl⟩ : ∃ m, n = m + 1 := ⟨n - 1, by omega⟩
  have hin := h.depthAll_le_iff.1 (Nat.le_of_lt_succ hd)
  have hlist : SepBy S (fun t _ u => Movable (Within D depth m) t u) u as v :=
    hl.mono fun t a u ha hm => hm m (hin a ha)
  apply (Enclosed.movable ht (SepBy.movable hS hlist) hv).imp
  intro s as' r he
  exact ⟨as', h.withinScope_succ_iff.2 he⟩

end

/-! ## Clauses -/

/-- A name and an opening brace may stand before any other text. -/
theorem scopeHead_movable {t u v : List Char} {n : Name} (hn : Front Name.Spells t n u)
    (ho : Layout u ('{' :: v)) :
    ∃ x, t = x ++ v ∧ ∀ s, ∃ r, Front Name.Spells (x ++ s) n r ∧ Layout r ('{' :: s) := by
  obtain ⟨y, hy, rfl⟩ := hn
  obtain ⟨gap, hgap, rfl⟩ := ho
  refine ⟨y ++ (gap ++ ['{']), by simp, fun s => ⟨gap ++ '{' :: s, ⟨y, hy, by simp⟩, ?_⟩⟩
  exact ⟨gap, hgap, rfl⟩

theorem scopeBody_suffix {t u v w : List Char} {n : Name} (hn : Front Name.Spells t n u)
    (ho : Layout u ('{' :: v)) (hb : Layout v w) : w <:+ t :=
  hb.suffix.trans ((List.suffix_cons '{' v).trans (ho.suffix.trans hn.suffix))

theorem listBody_suffix {t u v w x : List Char} {n : Name} (hn : Front Name.Spells t n u)
    (hi : Layout1 u ("in".toList ++ v)) (ho : Layout v ('[' :: w)) (hb : Layout w x) : x <:+ t :=
  hb.suffix.trans ((List.suffix_cons '[' w).trans (ho.suffix.trans
    ((List.suffix_append _ v).trans (hi.layout.suffix.trans hn.suffix))))

namespace Property

/-- A name and an opening brace make a property with any scope. -/
theorem behind_brace {t u v : List Char} {name : Name} (hn : Front Name.Spells t name u)
    (ho : Layout u ('{' :: v)) : ∃ x, t = x ++ v ∧ ∀ {n s ps w},
      WithinScope Comma Derives depthAll n s ps w →
        Within Derives depth n (x ++ s) (node name ps) w := by
  obtain ⟨x, rfl, hx⟩ := scopeHead_movable hn ho
  refine ⟨x, rfl, ?_⟩
  intro n s ps w hs
  obtain ⟨r, hr, hopen⟩ := hx s
  obtain ⟨⟨y, z, hy, hl, hz⟩, hd⟩ := hs
  refine ⟨.scope hr hopen hy hl hz, ?_⟩
  rw [depth_node hl.ne_nil]
  omega

theorem within_leaf {n : Nat} {t u : List Char} {name : Name} (h : Front Name.Spells t name u) :
    Within Derives depth n t (node name []) u :=
  ⟨.leaf h, by rw [depth_leaf]; omega⟩

end Property

theorem Placed.derives_movable {t u : List Char} {p : Placed} (h : Placed.Derives t p u) :
    Movable Placed.Derives t u := by
  obtain ⟨-, x, hx, rfl⟩ := h
  exact ⟨x, rfl, fun v => ⟨⟨p.literal, x ++ v⟩, rfl, x, hx, rfl⟩⟩

theorem Placed.derivesList_movable {t u : List Char} {ps : List Placed}
    (h : Placed.DerivesList t ps u) : Movable Placed.DerivesList t u :=
  SepBy.movable comma_movable (h.mono fun _ _ _ _ hp => Placed.derives_movable hp)

namespace Condition

/-- A name and an opening brace make a condition with any scope. -/
theorem behind_brace {t u v : List Char} {name : Name} (hn : Front Name.Spells t name u)
    (ho : Layout u ('{' :: v)) : ∃ x, t = x ++ v ∧ ∀ {n s cs w},
      WithinScope AndWord Derives depthAll n s cs w →
        Within Derives depth n (x ++ s) (scope name cs) w := by
  obtain ⟨x, rfl, hx⟩ := scopeHead_movable hn ho
  refine ⟨x, rfl, ?_⟩
  intro n s cs w hs
  obtain ⟨r, hr, hopen⟩ := hx s
  obtain ⟨⟨y, z, hy, hl, hz⟩, hd⟩ := hs
  exact ⟨.scope hr hopen hy hl hz, hd⟩

/-- A name and `in [` may stand before any other text. -/
theorem bracketHead_movable {t u v w : List Char} {name : Name} (hn : Front Name.Spells t name u)
    (hi : Layout1 u ("in".toList ++ v)) (ho : Layout v ('[' :: w)) : ∃ x, t = x ++ w ∧ ∀ s, ∃ u v,
      Front Name.Spells (x ++ s) name u ∧ Layout1 u ("in".toList ++ v) ∧ Layout v ('[' :: s) := by
  obtain ⟨y, hy, rfl⟩ := hn
  obtain ⟨c, gap, hc, hgap, rfl⟩ := hi
  obtain ⟨gap', hgap', rfl⟩ := ho
  refine ⟨y ++ (c :: gap ++ ("in".toList ++ (gap' ++ ['[']))), by simp, fun s => ?_⟩
  exact ⟨c :: gap ++ ("in".toList ++ (gap' ++ '[' :: s)), gap' ++ '[' :: s, ⟨y, hy, by simp⟩,
    ⟨c, gap, hc, hgap, rfl⟩, gap', hgap', rfl⟩

/-- A name and an operator may stand before any other text. -/
theorem operatorHead_movable {t u v w x : List Char} {name : Name} {op : Operator}
    (hn : Front Name.Spells t name u) (hl : Layout u v) (ho : Front SpellsOperator v op w)
    (hr : Layout w x) : ∃ y, t = y ++ x ∧ ∀ s, ∃ u v w, Front Name.Spells (y ++ s) name u ∧
      Layout u v ∧ Front SpellsOperator v op w ∧ Layout w s := by
  obtain ⟨y, hy, rfl⟩ := hn
  obtain ⟨gap, hgap, rfl⟩ := hl
  obtain ⟨o, ho, rfl⟩ := ho
  obtain ⟨gap', hgap', rfl⟩ := hr
  refine ⟨y ++ (gap ++ (o ++ gap')), by simp, fun s => ?_⟩
  exact ⟨gap ++ (o ++ (gap' ++ s)), o ++ (gap' ++ s), gap' ++ s, ⟨y, hy, by simp⟩,
    ⟨gap, hgap, rfl⟩, ⟨o, ho, rfl⟩, gap', hgap', rfl⟩

/-- A name and `in [` make a condition with any list of values. -/
theorem behind_bracket {t u v w : List Char} {name : Name} (hn : Front Name.Spells t name u)
    (hi : Layout1 u ("in".toList ++ v)) (ho : Layout v ('[' :: w)) : ∃ x, t = x ++ w ∧
      ∀ {n s ps r}, Enclosed Placed.DerivesList ']' s ps r →
        Within Derives depth n (x ++ s) (test name .within ps) r := by
  obtain ⟨x, rfl, hx⟩ := bracketHead_movable hn hi ho
  refine ⟨x, rfl, ?_⟩
  intro n s ps r hs
  obtain ⟨a, b, ha, hl, hb⟩ := hs
  obtain ⟨u, v, hn, hi, ho⟩ := hx s
  exact ⟨.within hn hi ho ha hl hb, Nat.zero_le n⟩

/-- A name and an operator make a condition with any value. -/
theorem behind_operator {t u v w x : List Char} {name : Name} {op : Operator}
    (hn : Front Name.Spells t name u) (hl : Layout u v) (ho : Front SpellsOperator v op w)
    (hr : Layout w x) : ∃ y, t = y ++ x ∧ ∀ {n s p r}, Placed.Derives s p r →
      Within Derives depth n (y ++ s) (test name op [p]) r := by
  obtain ⟨y, rfl, hy⟩ := operatorHead_movable hn hl ho hr
  refine ⟨y, rfl, ?_⟩
  intro n s p r hp
  obtain ⟨u, v, w, hn, hl, ho, hr⟩ := hy s
  exact ⟨.compare hn hl ho hr hp, Nat.zero_le n⟩

theorem derives_movable {t u : List Char} {c : Written} (h : Derives t c u) :
    ∀ n, depth c ≤ n → Movable (Within Derives depth n) t u := by
  refine Derives.induct (P := fun t c u => ∀ n, depth c ≤ n → Movable (Within Derives depth n) t u)
    (fun hn ho hb hl hc n hd => ?_) (fun hn hw ho hb hl hc n _ => ?_)
    (fun hn hl ho hr hp n _ => ?_) h
  · have hscope := nests.scope_movable andWord_movable hb (hl.mono fun _ _ _ _ hi => hi.2) hc hd
    obtain ⟨x, rfl, hx⟩ := behind_brace hn ho
    apply hscope.behind
    intro s cs w hs
    exact ⟨.scope _ cs, hx hs⟩
  · have hlist := Enclosed.movable hb (Placed.derivesList_movable hl) hc
    obtain ⟨x, rfl, hx⟩ := behind_bracket hn hw ho
    apply hlist.behind
    intro s ps w hs
    exact ⟨.test _ .within ps, hx hs⟩
  · obtain ⟨x, rfl, hx⟩ := behind_operator hn hl ho hr
    apply (Placed.derives_movable hp).behind
    intro s p w hs
    exact ⟨.test _ _ [p], hx hs⟩

end Condition

namespace Namespaces

/-- A label and the sign make a binding with any IRI. -/
theorem behind_sign {label u v w : List Char} (hl : Name.Label label) (hu : Layout u ('=' :: v))
    (hv : Layout v w) : ∃ x, label ++ u = x ++ w ∧ ∀ {s space r}, Front SpellsIri s space r →
      Derives (x ++ s) (String.ofList label, String.ofList space) r := by
  obtain ⟨gap, hgap, rfl⟩ := hu
  obtain ⟨gap', hgap', rfl⟩ := hv
  refine ⟨label ++ (gap ++ '=' :: gap'), by simp, ?_⟩
  intro s space r hs
  have hsplit : label ++ (gap ++ '=' :: gap') ++ s = label ++ (gap ++ '=' :: (gap' ++ s)) := by
    simp
  rw [hsplit]
  exact .intro hl ⟨gap, hgap, rfl⟩ ⟨gap', hgap', rfl⟩ hs

end Namespaces

end LifecycleQuery
