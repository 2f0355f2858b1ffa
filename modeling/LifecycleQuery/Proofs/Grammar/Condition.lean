import LifecycleQuery.Condition.Clause
import LifecycleQuery.Proofs.Grammar.Literal
import LifecycleQuery.Proofs.Grammar.Property

/-!
# The grammar of conditions

`Condition.Derives` is the grammar of one term of a condition clause: a name and behind it a scope
in braces, `in` and a list of values in brackets, or an operator and a value. The scanner commits
itself behind a brace, a bracket and an operator, and takes the longest name, operator and numeral;
`scanTerm_exact` says that this loses no derivation.
-/

namespace LifecycleQuery

open Text

/-- The word `and`, with layout on either side. -/
def AndWord (text rest : List Char) : Prop :=
  ∃ t, Layout1 text ("and".toList ++ t) ∧ Layout1 t rest

theorem andWord_separates : Separates andWord AndWord where
  sound := by
    intro t u h
    simp only [andWord, Option.bind_eq_some_iff] at h
    obtain ⟨v, ⟨w, hw, hv⟩, hu⟩ := h
    refine ⟨v, ?_, layout1_sound hu⟩
    rw [← word_sound hv]
    exact layout1_sound hw
  complete := by
    rintro t u ⟨v, ht, hv⟩ hu
    rw [andWord, layout1_complete ht (by simp [Solid]; decide), Option.bind_some,
      word_complete, Option.bind_some, layout1_complete hv hu]
  follows := by
    rintro t u ⟨v, ht, -⟩
    exact ⟨ht.ends, ht.layout.head_ne (c := 'a') (by decide) (by decide)⟩
  shorter := by
    rintro t u ⟨v, ht, hv⟩
    have h1 := ht.length_lt
    have h2 := hv.length_lt
    rw [List.length_append] at h1
    omega
  closed := by
    intro t h
    cases hl : layout1 t with
    | none => simp [andWord, hl]
    | some u =>
      have hs := layout1_eq_skipLayout hl
      have hw : word "and".toList u = none := by
        cases u with
        | nil => rfl
        | cons c rest =>
          have hc := h c (by rw [hs]; rfl)
          exact word_eq_none (by rintro rfl; revert hc; decide)
      rw [andWord, hl, Option.bind_some, hw]
      rfl

namespace Condition

/-- `OPERATOR` -/
def SpellsOperator (x : List Char) (op : Operator) : Prop := op ≠ .within ∧ x = op.text.toList

/-- A name and a scope, a list of values or a comparison, with layout between the parts. -/
inductive Derives : Derivation Written
  | scope {t u v w x y : List Char} {n : Name} {cs : List Written} :
      Front Name.Spells t n u → Layout u ('{' :: v) →
      Layout v w → SepBy AndWord Derives w cs x → Layout x ('}' :: y) → Derives t (scope n cs) y
  | within {t u v w x y z : List Char} {n : Name} {ps : List Placed} :
      Front Name.Spells t n u → Layout1 u ("in".toList ++ v) → Layout v ('[' :: w) →
      Layout w x → Placed.DerivesList x ps y → Layout y (']' :: z) →
      Derives t (test n .within ps) z
  | compare {t u v w x y : List Char} {n : Name} {op : Operator} {p : Placed} :
      Front Name.Spells t n u → Layout u v → Front SpellsOperator v op w → Layout w x →
      Placed.Derives x p y → Derives t (test n op [p]) y

abbrev DerivesList : Derivation (List Written) := SepBy AndWord Derives

/-- The conditions of a whole clause, with layout around them. -/
abbrev DerivesClause : List Char → List Written → Prop := Whole DerivesList

/-- Induction on a derivation, with the statement at hand for every condition in a scope. -/
theorem Derives.induct {P : Derivation Written}
    (opened : ∀ {t u v w x y n cs}, Front Name.Spells t n u → Layout u ('{' :: v) → Layout v w →
      SepBy AndWord (fun t c u => Derives t c u ∧ P t c u) w cs x → Layout x ('}' :: y) →
      P t (.scope n cs) y)
    (listed : ∀ {t u v w x y z n ps}, Front Name.Spells t n u → Layout1 u ("in".toList ++ v) →
      Layout v ('[' :: w) → Layout w x → Placed.DerivesList x ps y → Layout y (']' :: z) →
      P t (.test n .within ps) z)
    (compared : ∀ {t u v w x y n op p}, Front Name.Spells t n u → Layout u v →
      Front SpellsOperator v op w → Layout w x → Placed.Derives x p y → P t (.test n op [p]) y)
    {t u : List Char} {c : Written} (h : Derives t c u) : P t c u :=
  @Derives.rec (fun t c u _ => P t c u)
    (fun t cs u _ => SepBy AndWord (fun t c u => Derives t c u ∧ P t c u) t cs u)
    (fun hn ho hb _ hc ih => opened hn ho hb ih hc)
    (fun hn hi ho hb hl hc => listed hn hi ho hb hl hc)
    (fun hn hl ho hr hp => compared hn hl ho hr hp)
    (fun h ih => .one ⟨h, ih⟩) (fun h hs _ ih ihs => .more ⟨h, ih⟩ hs ihs) t c u h

/-! ## Operators -/

theorem spellsOperator_length {x : List Char} {op : Operator} (h : SpellsOperator x op) :
    0 < x.length := by
  obtain ⟨-, rfl⟩ := h
  cases op <;> decide

/-- The characters that operators begin with. -/
theorem spellsOperator_head {x : List Char} {op : Operator} (h : SpellsOperator x op)
    (u : List Char) : ∃ c rest, x ++ u = c :: rest ∧ c ∈ ['!', '<', '>', '='] := by
  obtain ⟨hne, rfl⟩ := h
  cases op
  case within => exact absurd rfl hne
  all_goals exact ⟨_, _, rfl, by decide⟩

theorem scanOperator_sound {t u : List Char} {op : Operator} (h : scanOperator t = some (op, u)) :
    Front SpellsOperator t op u := by
  rw [scanOperator.eq_def] at h
  split at h
  all_goals cases h
  · exact ⟨['!', '='], ⟨by decide, rfl⟩, rfl⟩
  · exact ⟨['<', '='], ⟨by decide, rfl⟩, rfl⟩
  · exact ⟨['>', '='], ⟨by decide, rfl⟩, rfl⟩
  · exact ⟨['='], ⟨by decide, rfl⟩, rfl⟩
  · exact ⟨['<'], ⟨by decide, rfl⟩, rfl⟩
  · exact ⟨['>'], ⟨by decide, rfl⟩, rfl⟩

/-- The longer operators are not overlooked, as no value begins with `=`. -/
theorem scanOperator_complete {t u : List Char} {op : Operator} (h : Front SpellsOperator t op u)
    (hu : ∀ c ∈ u.head?, c ≠ '=') : scanOperator t = some (op, u) := by
  obtain ⟨x, ⟨hne, rfl⟩, rfl⟩ := h
  have hskip : ∀ rest, u ≠ '=' :: rest := by
    rintro rest rfl
    exact hu '=' rfl rfl
  cases op
  case within => exact absurd rfl hne
  case less => exact scanOperator.eq_5 u fun rest he => hskip rest (by simpa using he)
  case greater => exact scanOperator.eq_6 u fun rest he => hskip rest (by simpa using he)
  all_goals rfl

theorem operator_start : ∀ c ∈ ['!', '<', '>', '='],
    c ∈ boundaries ∧ isLayout c = false ∧ c ≠ '{' ∧ c ≠ 'i' := by
  intro c hc
  simp only [List.mem_cons, List.not_mem_nil, or_false] at hc
  rcases hc with rfl | rfl | rfl | rfl <;> decide

/-- A value that layout may stand before does not begin with `=`. -/
theorem head_ne_equal {w x y : List Char} {p : Placed}
    (hp : Placed.Derives x p y) (hw : Layout w x) : ∀ c ∈ w.head?, c ≠ '=' := by
  obtain ⟨gap, hgap, rfl⟩ := hw
  obtain ⟨-, z, hz, rfl⟩ := hp
  rintro c hc rfl
  cases gap with
  | nil =>
    obtain ⟨d, rest, he, hd⟩ := Literal.spells_head hz y
    rw [List.nil_append, he] at hc
    cases hc
    exact absurd hd (by decide)
  | cons d gap =>
    cases hc
    exact absurd (hgap '=' List.mem_cons_self) (by decide)

/-! ## Terms -/

theorem derives_shorter {t u : List Char} {c : Written} (h : Derives t c u) :
    u.length < t.length := by
  refine Derives.induct (P := fun t _ u => u.length < t.length) (fun hn ho hb hl hc => ?_)
    (fun hn hi ho hb hl hc => ?_) (fun hn hl ho hr hp => ?_) h
  · have h1 := Name.spells_proper.shorter hn
    have h2 := ho.length_le
    have h3 := hb.length_le
    have h4 := hl.shorter andWord_separates.shorter fun h => h.2
    have h5 := hc.length_le
    simp only [List.length_cons] at h2 h5
    omega
  · have h1 := Name.spells_proper.shorter hn
    have h2 := hi.length_lt
    have h3 := ho.length_le
    have h4 := hb.length_le
    have h5 := Placed.derivesList_proper.shorter hl
    have h6 := hc.length_le
    simp only [List.length_cons, List.length_append] at h2 h3 h6
    omega
  · obtain ⟨x, hx, rfl⟩ := ho
    have h1 := Name.spells_proper.shorter hn
    have h2 := hl.length_le
    have h3 := spellsOperator_length hx
    have h4 := hr.length_le
    have h5 := Placed.derives_proper.shorter hp
    rw [List.length_append] at h2
    omega

theorem derives_proper : Proper Derives where
  head h := by
    cases h with
    | scope hn _ _ _ _ => exact Name.spells_proper.head hn
    | within hn _ _ _ _ _ => exact Name.spells_proper.head hn
    | compare hn _ _ _ _ => exact Name.spells_proper.head hn
  shorter h := derives_shorter h

theorem openList_eq_some_iff {t u : List Char} :
    openList t = some u ↔ ∃ v, Layout1 t ("in".toList ++ v) ∧ Layout v ('[' :: u) := by
  refine ⟨fun h => ?_, ?_⟩
  · unfold openList at h
    split at h
    · next rest hw =>
      split at h
      · next inner he =>
        cases h
        obtain ⟨v, hv, hin⟩ := Option.bind_eq_some_iff.1 hw
        rw [word_sound hin] at hv
        exact ⟨rest, layout1_sound hv, he ▸ layout_skipLayout rest⟩
      · cases h
    · cases h
  · rintro ⟨v, ht, hv⟩
    have hw : (layout1 t).bind (word "in".toList) = some v := by
      rw [layout1_complete ht (by simp [Solid]; decide), Option.bind_some, word_complete]
    simp only [openList, hw, hv.skip (by simp [Solid]; decide)]

theorem openList_eq_none {t : List Char} (h : ∀ c ∈ (skipLayout t).head?, c ≠ 'i') :
    openList t = none := by
  have hw : (layout1 t).bind (word "in".toList) = none := by
    cases hl : layout1 t with
    | none => rfl
    | some u =>
      have hs := layout1_eq_skipLayout hl
      cases u with
      | nil => rfl
      | cons c rest => exact word_eq_none (Ne.symm (h c (by rw [hs]; rfl)))
  simp only [openList, hw]

/-! ## Scanning -/

theorem enclosedValues_exact :
    Exact (fun _ => True) (enclosed Placed.scanList ']') (Enclosed Placed.DerivesList ']') :=
  enclosed_exact (.inr rfl) Placed.derivesList_proper Placed.scanList_exact

theorem scanTest_sound {name : Name} {t s u : List Char} {c : Written}
    (hname : Front Name.Spells s name t) (h : scanTest name t = .read c u) :
    Derives s c u ∧ depth c = 0 := by
  unfold scanTest at h
  split at h
  · next inner hi =>
    obtain ⟨ps, hp, rfl⟩ := Outcome.map_eq_read.1 h
    obtain ⟨v, hv, hw⟩ := openList_eq_some_iff.1 hi
    obtain ⟨x, y, hx, hl, hy⟩ := enclosedValues_exact.sound hp
    exact ⟨.within hname hv hw hx hl hy, rfl⟩
  · simp only [scanComparison] at h
    split at h
    · cases h
    · next op rest ho =>
      obtain ⟨p, hp, rfl⟩ := Outcome.map_eq_read.1 (Outcome.commit_eq_read.1 h)
      exact ⟨.compare hname (layout_skipLayout t) (scanOperator_sound ho) (layout_skipLayout rest)
        (Placed.scan_exact.sound hp), rfl⟩

/-- Behind a name and an opening brace a scope is read, and nothing else. -/
theorem scanTerm_brace {inner : Scanner (List Written)} {t u v : List Char} {name : Name}
    (hn : Front Name.Spells t name u) (ho : Layout u ('{' :: v)) :
    scanTerm inner t = (inner v).map (scope name) := by
  have hname := Name.scan_complete hn (ho.ends (ends_cons.2 (by decide)))
  simp only [scanTerm, hname, openScope_eq_some_iff.2 ho]

/-- Behind a name and `in [` a list of values is read. -/
theorem scanTerm_bracket {inner : Scanner (List Written)} {t u v w : List Char} {name : Name}
    (hn : Front Name.Spells t name u) (hi : Layout1 u ("in".toList ++ v))
    (ho : Layout v ('[' :: w)) :
    scanTerm inner t = (enclosed Placed.scanList ']' w).map (test name .within) := by
  have hname := Name.scan_complete hn hi.ends
  have hscope := openScope_eq_none (hi.layout.head_ne (c := 'i') (by decide) (by decide))
  simp only [scanTerm, hname, hscope, scanTest, openList_eq_some_iff.2 ⟨_, hi, ho⟩]

/-- Behind a name and an operator a value is read, if one can be derived there. -/
theorem scanTerm_operator {inner : Scanner (List Written)} {t u v w x y : List Char} {name : Name}
    {op : Operator} {p : Placed} (hn : Front Name.Spells t name u) (hl : Layout u v)
    (ho : Front SpellsOperator v op w) (hr : Layout w x) (hp : Placed.Derives x p y) :
    scanTerm inner t = ((Placed.scan x).map fun p => test name op [p]).commit := by
  have hop := scanOperator_complete ho (head_ne_equal hp hr)
  obtain ⟨o, ho, rfl⟩ := ho
  obtain ⟨c, rest, he, hc⟩ := spellsOperator_head ho w
  obtain ⟨hb, hsolid, hbrace, hi⟩ := operator_start c hc
  have hv : Layout u (c :: rest) := he ▸ hl
  have hname := Name.scan_complete hn (hv.ends (ends_cons.2 hb))
  have hskip := hl.skip (by rw [he]; simpa [Solid] using hsolid)
  simp only [scanTerm, hname, openScope_eq_none (hv.head_ne hsolid hbrace), scanTest,
    openList_eq_none (hv.head_ne hsolid hi), scanComparison, hskip, hop,
    hr.skip (Placed.derives_proper.solid hp)]

theorem scanTerm_exact {n : Nat} {inner : Scanner (List Written)}
    (hi : Exact (fun _ => True) inner (WithinScope AndWord Derives depthAll n)) :
    Exact Follows (scanTerm inner) (Within Derives depth n) where
  sound := by
    intro t c u h
    unfold scanTerm at h
    split at h
    · cases h
    · next name rest hn =>
      have hname := Name.scan_sound hn
      split at h
      · next body ho =>
        obtain ⟨cs, hb, rfl⟩ := Outcome.map_eq_read.1 h
        obtain ⟨⟨v, w, hv, hl, hw⟩, hd⟩ := hi.sound hb
        exact ⟨.scope hname (openScope_eq_some_iff.1 ho) hv hl hw, hd⟩
      · obtain ⟨hc, hd⟩ := scanTest_sound hname h
        exact ⟨hc, by omega⟩
  complete := by
    rintro t c u ⟨h, hd⟩ hu
    cases h with
    | scope hn ho hb hl hc =>
      rw [scanTerm_brace hn ho, hi.complete ⟨⟨_, _, hb, hl, hc⟩, hd⟩ trivial]
      rfl
    | within hn hw ho hb hl hc =>
      rw [scanTerm_bracket hn hw ho, enclosedValues_exact.complete ⟨_, _, hb, hl, hc⟩ trivial]
      rfl
    | compare hn hl ho hr hp =>
      rw [scanTerm_operator hn hl ho hr hp, Placed.scan_exact.complete hp hu.1]
      rfl

theorem nests : Nests andWord AndWord Derives depth depthAll scanTerm scanScope where
  separates := andWord_separates
  proper := derives_proper
  depthAll_le_iff := depthAll_le_iff
  scope_zero _ := rfl
  scope_succ _ _ := rfl
  item_exact := scanTerm_exact

end Condition

end LifecycleQuery
