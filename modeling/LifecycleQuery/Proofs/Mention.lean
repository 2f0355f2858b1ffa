import LifecycleQuery.Proofs.Grammar.Ending
import LifecycleQuery.Proofs.Resolution.Related

/-!
# The names that a text mentions

What a text means depends on the tables through the names in it alone: those of attributes and those
of datatypes behind strings. `Condition.NamedIn`, `Property.NamedIn` and the two for values list
them by the grammar. Each of these names is spelled somewhere in the text (`spelledIn`), and a text
with no derivation names nothing. Two readings of one text are related as the two resolutions of
each of these names are (`read_related`).
-/

namespace LifecycleQuery

open Text

/-- The name stands somewhere in the text. -/
def Name.SpelledIn (text : List Char) (n : Name) : Prop :=
  ∃ before x after, text = before ++ (x ++ after) ∧ Spells x n

theorem Name.SpelledIn.mono {t u : List Char} {n : Name} (h : n.SpelledIn u) (hu : u <:+ t) :
    n.SpelledIn t := by
  obtain ⟨before, x, after, rfl, hx⟩ := h
  obtain ⟨y, rfl⟩ := hu
  exact ⟨y ++ before, x, after, by simp, hx⟩

theorem Name.spelledIn_front {t u : List Char} {n : Name} (h : Front Spells t n u) :
    n.SpelledIn t := by
  obtain ⟨x, hx, rfl⟩ := h
  exact ⟨[], x, u, rfl, hx⟩

theorem Whole.suffix {α : Type} {D : Derivation α} {text : List Char} {a : α}
    (h : Whole D text a) : ∃ t u, t <:+ text ∧ D t a u := by
  obtain ⟨t, u, ht, hd, -⟩ := h
  exact ⟨t, u, ht.suffix, hd⟩

/-! ## Literals -/

/-- The datatype stands behind the string. -/
theorem Literal.Spells.datatype_spelledIn {t u : List Char} {l : Literal} {n : Name}
    (h : Front Literal.Spells t l u) (hn : n ∈ l.datatype?) : n.SpelledIn t := by
  obtain ⟨x, hx, rfl⟩ := h
  cases hx with
  | @string y s z suffix hc hs =>
    cases hs with
    | none => cases hn
    | language ht => cases hn
    | @datatype w name hw =>
      cases hn
      exact ⟨'"' :: y ++ ['"', '^', '^'], w, u, by simp, .qualified hw⟩
  | iri hi => cases hn
  | isTrue => cases hn
  | isFalse => cases hn
  | number hwf => cases hn

namespace Value

/-- The name is the datatype of the one value that the text is. -/
def NamedIn (text : List Char) (n : Name) : Prop :=
  ∃ l, Whole (Front Literal.Spells) text l ∧ n ∈ l.datatype?

/-- The name is the datatype of a value that the text lists. -/
def NamedInList (text : List Char) (n : Name) : Prop :=
  ∃ ps, Whole Placed.DerivesList text ps ∧ ∃ p ∈ ps, n ∈ p.literal.datatype?

theorem NamedIn.spelledIn {text : List Char} {n : Name} (h : NamedIn text n) :
    n.SpelledIn text := by
  obtain ⟨l, hw, hn⟩ := h
  obtain ⟨t, u, ht, hl⟩ := hw.suffix
  exact (Literal.Spells.datatype_spelledIn hl hn).mono ht

end Value

theorem Placed.DerivesList.spelledIn {t u : List Char} {ps : List Placed} {p : Placed} {n : Name}
    (h : Placed.DerivesList t ps u) (hp : p ∈ ps) (hn : n ∈ p.literal.datatype?) :
    n.SpelledIn t := by
  obtain ⟨v, w, hv, -, hd⟩ := h.exists_suffix_of_mem comma_movable
    (fun hd => (Placed.derives_movable hd).suffix) hp
  exact (Literal.Spells.datatype_spelledIn hd hn).mono hv

theorem Value.NamedInList.spelledIn {text : List Char} {n : Name} (h : NamedInList text n) :
    n.SpelledIn text := by
  obtain ⟨ps, hw, p, hp, hn⟩ := h
  obtain ⟨t, u, ht, hl⟩ := hw.suffix
  exact (hl.spelledIn hp hn).mono ht

/-! ## Properties -/

namespace Property

/-- The name is that of a property of the clause, at any depth. -/
def NamedIn (text : List Char) (n : Name) : Prop :=
  ∃ ps, DerivesClause text ps ∧ ∃ p ∈ nodesAll ps, p.name = n

theorem derives_suffix {t u : List Char} {p : Property Name} (h : Derives t p u) : u <:+ t :=
  (derives_movable h _ (Nat.le_refl _)).suffix

theorem derives_spelledIn {t u : List Char} {p : Property Name} (h : Derives t p u) :
    ∀ o ∈ nodes p, o.name.SpelledIn t := by
  refine Derives.induct (P := fun t p _ => ∀ o ∈ nodes p, o.name.SpelledIn t)
    (fun hn o ho => ?_) (fun hn ho hb hl hc o hm => ?_) h
  · rcases mem_nodes_node.1 ho with rfl | ⟨q, hq, -⟩
    · exact Name.spelledIn_front hn
    · cases hq
  · rcases mem_nodes_node.1 hm with rfl | ⟨q, hq, hm⟩
    · exact Name.spelledIn_front hn
    · obtain ⟨v, w, hv, -, hspelled⟩ := hl.exists_suffix_of_mem comma_movable
        (fun hd => derives_suffix hd.1) hq
      exact (hspelled o hm).mono (hv.trans (scopeBody_suffix hn ho hb))

theorem NamedIn.spelledIn {text : List Char} {n : Name} (h : NamedIn text n) :
    n.SpelledIn text := by
  obtain ⟨ps, hw, o, ho, rfl⟩ := h
  obtain ⟨t, u, ht, hl⟩ := hw.suffix
  obtain ⟨p, hp, hm⟩ := mem_nodesAll.1 ho
  obtain ⟨v, w, hv, hd⟩ := hl.exists_suffix_of_mem comma_movable derives_suffix hp
  exact (derives_spelledIn hd o hm).mono (hv.trans ht)

end Property

/-! ## Conditions -/

namespace Condition

/-- The name is that of the condition, or the datatype of one of its values. -/
def Names (c : Written) (n : Name) : Prop :=
  c.name = n ∨ ∃ p ∈ c.values, n ∈ p.literal.datatype?

/-- The name is one of a condition of the clause, at any depth. -/
def NamedIn (text : List Char) (n : Name) : Prop :=
  ∃ cs, DerivesClause text cs ∧ ∃ c ∈ nodesAll cs, c.Names n

theorem derives_suffix {t u : List Char} {c : Written} (h : Derives t c u) : u <:+ t :=
  (derives_movable h _ (Nat.le_refl _)).suffix

theorem derives_spelledIn {t u : List Char} {c : Written} (h : Derives t c u) :
    ∀ o ∈ nodes c, ∀ n, o.Names n → n.SpelledIn t := by
  refine Derives.induct (P := fun t c _ => ∀ o ∈ nodes c, ∀ n, o.Names n → n.SpelledIn t)
    (fun hn ho hb hl hc o hm n hnames => ?_) (fun hn hw ho hb hl hc o hm n hnames => ?_)
    (fun hn hl ho hr hp o hm n hnames => ?_) h
  · rcases mem_nodes_scope.1 hm with rfl | ⟨d, hd, hm⟩
    · rcases hnames with rfl | ⟨p, hp, -⟩
      · exact Name.spelledIn_front hn
      · cases hp
    · obtain ⟨v, w, hv, -, hspelled⟩ := hl.exists_suffix_of_mem andWord_movable
        (fun hd => derives_suffix hd.1) hd
      exact (hspelled o hm n hnames).mono (hv.trans (scopeBody_suffix hn ho hb))
  · rw [mem_nodes_test.1 hm] at hnames
    rcases hnames with rfl | ⟨p, hp, hdt⟩
    · exact Name.spelledIn_front hn
    · exact (hl.spelledIn hp hdt).mono (listBody_suffix hn hw ho hb)
  · rw [mem_nodes_test.1 hm] at hnames
    rcases hnames with rfl | ⟨p, hmem, hdt⟩
    · exact Name.spelledIn_front hn
    · cases List.mem_singleton.1 hmem
      have hvalue := hr.suffix.trans (ho.suffix.trans (hl.suffix.trans hn.suffix))
      exact (Literal.Spells.datatype_spelledIn hp.2 hdt).mono hvalue

theorem NamedIn.spelledIn {text : List Char} {n : Name} (h : NamedIn text n) :
    n.SpelledIn text := by
  obtain ⟨cs, hw, o, ho, hnames⟩ := h
  obtain ⟨t, u, ht, hl⟩ := hw.suffix
  obtain ⟨c, hc, hm⟩ := mem_nodesAll.1 ho
  obtain ⟨v, w, hv, hd⟩ := hl.exists_suffix_of_mem andWord_movable derives_suffix hc
  exact (derives_spelledIn hd o hm n hnames).mono (hv.trans ht)

end Condition

/-! ## Two readings of one text -/

section
variable {R : (α : Type) → Except QueryError α → Except QueryError α → Prop} {r r' : Resolver}

/-- The form of a clause is read without the tables. -/
theorem readList_related {α β : Type} (hsame : SharesFaults R) {clause : Clause}
    {scan : Scanner (List α)} {text : List Char} {f g : List α → Except QueryError β}
    (h : ∀ as, readList clause scan text = .ok as → R β (f as) (g as)) :
    R β ((readList clause scan text).bind f) ((readList clause scan text).bind g) := by
  cases hread : readList clause scan text with
  | error e =>
    obtain ⟨why, rest, -, rfl⟩ := readList_eq_error hread
    exact hsame _ (by simp)
  | ok as => exact h as hread

theorem Property.read_related (hR : Sequential R) (hsame : SharesFaults R) {n : Nat}
    {text : String} (h : ∀ name, NamedIn text.toList name → R Iri (r.resolve name)
      (r'.resolve name)) : R (List Projection) (read r n text) (read r' n text) := by
  apply readList_related hsame
  intro ps hread
  apply resolveAll_related hR
  intro o ho
  rcases nests.readList_ok_iff.1 hread with ⟨-, rfl⟩ | ⟨hw, -⟩
  · cases ho
  · exact h o.name ⟨ps, hw, o, ho, rfl⟩

theorem Condition.read_related (hR : Sequential R) (hsame : SharesFaults R) {n : Nat}
    {text : String} (h : ∀ name, NamedIn text.toList name → R Iri (r.resolve name)
      (r'.resolve name)) : R (List Filter) (read r n text) (read r' n text) := by
  apply readList_related hsame
  intro cs hread
  apply resolveAll_related hR
  intro o ho
  rcases nests.readList_ok_iff.1 hread with ⟨-, rfl⟩ | ⟨hw, -⟩
  · cases ho
  · refine ⟨h o.name ⟨cs, hw, o, ho, .inl rfl⟩, fun p hp => valueIn_related hR hsame ?_⟩
    intro name hname
    exact h name ⟨cs, hw, o, ho, .inr ⟨p, hp, hname⟩⟩

theorem Value.read_related (hR : Sequential R) (hsame : SharesFaults R) {text : String}
    (h : ∀ name, NamedIn text.toList name → R Iri (r.resolve name) (r'.resolve name)) :
    R Value (read r text) (read r' text) := by
  unfold read
  split
  · next l hl =>
    apply Literal.value_related hR hsame
    intro name hname
    exact h name ⟨l, readLiteral?_eq_some_iff.1 hl, hname⟩
  · exact hsame _ (by simp)

theorem Value.readAll_related (hR : Sequential R) (hsame : SharesFaults R) {text : String}
    (h : ∀ name, NamedInList text.toList name → R Iri (r.resolve name) (r'.resolve name)) :
    R (List Value) (readAll r text) (readAll r' text) := by
  unfold readAll
  split
  · next ps rest hscan =>
    split
    · next hrest =>
      apply hR.mapM
      intro p hp
      apply Literal.value_related hR hsame
      intro name hname
      have hlist := Placed.scanList_exact.sound hscan
      exact h name ⟨ps, ⟨_, rest, layout_skipLayout _, hlist, layout_nil_iff.2 hrest⟩, p, hp, hname⟩
    · exact hsame _ (by simp)
  · exact hsame _ (by simp)

end

end LifecycleQuery
