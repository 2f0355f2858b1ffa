import LifecycleQuery.Proofs.Query.Invariant
import LifecycleQuery.Proofs.Shown

/-!
# What a query shows

The conditions and properties of a query are shown for people: angle brackets are operators and
brackets of IRIs, and the separators of a list may stand inside IRIs and strings. Lists that are
shown alike are still the same (`Query.shown_alike`). The proof goes down both trees at once: the
name tells where it ends, and what stands behind it begins either with the brace of a scope or with
an operator, and tells its own end in turn.
-/

namespace LifecycleQuery

open Text

theorem not_closes_cons {c : Char} (hlayout : isLayout c = false) (hbrace : c ≠ '}')
    (hbracket : c ≠ ']') (u : List Char) : ¬Closes (c :: u) := by
  intro h
  have hsolid : Solid (c :: u) := by simpa [Solid] using hlayout
  rcases h c (by rw [skipLayout_of_solid hsolid]; rfl) with rfl | rfl
  · exact hbrace rfl
  · exact hbracket rfl

theorem not_closes_comma (u : List Char) : ¬Closes (',' :: u) :=
  not_closes_cons (by decide) (by decide) (by decide) u

/-- A name begins with the wildcard or a bracket. -/
theorem Property.nameText_opens (n : Iri) (u : List Char) : ¬Closes (nameText n ++ u) := by
  rw [nameText]
  split
  · exact not_closes_cons (by decide) (by decide) (by decide) _
  · exact not_closes_cons (by decide) (by decide) (by decide) _

namespace Property

theorem textTail_eq (ps : List Projection) : textTail ps = writeBehind [','] text ps := by
  induction ps with
  | nil => rfl
  | cons p ps ih => rw [textTail, ih, writeBehind_cons]; rfl

theorem textAll_eq (ps : List Projection) : textAll ps = writeList [','] text ps := by
  cases ps with
  | nil => rfl
  | cons p ps => rw [textAll, textTail_eq, writeList_cons]

/-- The children in braces, if there are any. -/
def scopeText (ps : List Projection) : List Char :=
  if ps = [] then [] else '{' :: (writeList [','] text ps ++ ['}'])

theorem text_node (n : Iri) (ps : List Projection) :
    text (node n ps) = nameText n ++ scopeText ps := by
  cases ps with
  | nil => exact (List.append_nil _).symm
  | cons p ps =>
    rw [text, textTail_eq, scopeText, if_neg (List.cons_ne_nil _ _), writeList_cons]
    simp

/-- All its IRIs are unbroken. -/
def Legible (p : Projection) : Prop := ∀ n ∈ names p, Unbroken n

theorem legibleAll_iff {ps : List Projection} :
    (∀ n ∈ namesAll ps, Unbroken n) ↔ ∀ p ∈ ps, Legible p := by
  simp only [namesAll_eq_flatMap, List.mem_flatMap]
  exact ⟨fun h p hp n hn => h n ⟨p, hp, hn⟩, fun h n ⟨p, hp, hn⟩ => h p hp n hn⟩

theorem legible_node_iff {n : Iri} {ps : List Projection} :
    Legible (node n ps) ↔ Unbroken n ∧ ∀ p ∈ ps, Legible p := by
  rw [Legible, names, List.forall_mem_cons, legibleAll_iff]

theorem text_opens (p : Projection) (u : List Char) : ¬Closes (text p ++ u) := by
  obtain ⟨n, ps⟩ := p
  rw [text_node, List.append_assoc]
  exact nameText_opens n _

theorem delimits_comma : Delimits [','] text Legible Follows where
  stop x := ⟨ends_cons.2 (by decide), by rintro _ ⟨⟩; decide⟩
  stop_of_closes := Closes.follows
  opens := not_closes_comma
  opens_item _ := text_opens _

/-- A property may not stop before a brace, so a brace there is that of its own children. -/
theorem scope_told {ps : List Projection} (hps : ∀ p ∈ ps, p.Legible)
    (h : ∀ p ∈ ps, Told text Legible Follows p) :
    Told scopeText (fun qs => ∀ q ∈ qs, q.Legible) Follows ps := by
  have hbrace : ∀ {u x}, u = '{' :: x → ¬Follows u := by
    rintro _ x rfl h
    exact h.2 '{' rfl rfl
  intro qs u v hqs hu hv he
  simp only [scopeText] at he
  split at he <;> split at he
  · next hp hq => exact ⟨hp.trans hq.symm, he⟩
  · exact absurd hu (hbrace he)
  · exact absurd hv (hbrace he.symm)
  · exact ((Told.list delimits_comma hps h).closed (.inl rfl)).after ['{'] hqs trivial trivial he

theorem told (p : Projection) (hp : p.Legible) : Told text Legible Follows p := by
  induction p using induct with
  | node n ps ih =>
    rintro ⟨m, qs⟩ u v hq hu hv he
    obtain ⟨hn, hps⟩ := legible_node_iff.1 hp
    obtain ⟨hm, hqs⟩ := legible_node_iff.1 hq
    rw [text_node, text_node, List.append_assoc, List.append_assoc] at he
    obtain ⟨rfl, hbehind⟩ := nameText_told hn hm trivial trivial he
    obtain ⟨rfl, huv⟩ := scope_told hps (fun p hp => ih p hp (hps p hp)) hqs hu hv hbehind
    exact ⟨rfl, huv⟩

end Property

namespace Condition

theorem textTail_eq (cs : List Filter) : textTail cs = writeBehind " and ".toList text cs := by
  induction cs with
  | nil => rfl
  | cons c cs ih => rw [textTail, ih, writeBehind_cons, List.append_assoc]

theorem textAll_eq (cs : List Filter) : textAll cs = writeList " and ".toList text cs := by
  cases cs with
  | nil => rfl
  | cons c cs => rw [textAll, textTail_eq, writeList_cons]

theorem text_scope (n : Iri) (cs : List Filter) :
    text (scope n cs) =
      Property.nameText n ++ '{' :: (writeList " and ".toList text cs ++ ['}']) := by
  cases cs with
  | nil => rfl
  | cons c cs =>
    rw [text, textTail_eq, writeList_cons]
    simp

theorem text_test (n : Iri) (op : Operator) (vs : List Value) :
    text (test n op vs) = Property.nameText n ++ testText op vs := by
  rw [text]

theorem text_opens (c : Filter) (u : List Char) : ¬Closes (text c ++ u) := by
  cases c with
  | scope n cs =>
    rw [text_scope, List.append_assoc]
    exact Property.nameText_opens n _
  | test n op vs =>
    rw [text_test, List.append_assoc]
    exact Property.nameText_opens n _

/-! ### Tests -/

/-- The operators but `in` are told before everything that does not begin with `=`. -/
theorem operator_told {op : Operator} (h : op ≠ .within) :
    Told (fun op : Operator => op.text.toList) (· ≠ .within) (fun u => ∀ c ∈ u.head?, c ≠ '=')
      op :=
  told_of_read scanOperator (fun _ _ => id)
    (fun op _ hop hu => scanOperator_complete ⟨op.text.toList, ⟨hop, rfl⟩, rfl⟩ hu) h

theorem delimits_values : Delimits [','] Value.text Value.Legible Ends where
  stop _ := ends_cons.2 (by decide)
  stop_of_closes := Closes.ends
  opens := not_closes_comma
  opens_item hv x := by
    obtain ⟨c, rest, he, hc, -⟩ := Value.text_head hv x
    have hlayout : isLayout c = false := by
      cases hl : isLayout c with
      | false => rfl
      | true => rw [← isBlank_of_isLayout hl, Literal.isBlank_of_isStart hc]
    rw [he]
    exact not_closes_cons hlayout (by rintro rfl; exact absurd hc (by decide))
      (by rintro rfl; exact absurd hc (by decide)) rest

theorem testText_within (vs : List Value) :
    testText .within vs = " in [".toList ++ (writeList [','] Value.text vs ++ [']']) := by
  rw [testText, if_pos rfl, List.append_assoc]
  rfl

theorem testText_compare {op : Operator} (h : op ≠ .within) (v : Value) :
    testText op [v] = writePair (fun op => op.text.toList) Value.text (op, v) := by
  rw [testText, if_neg h]
  rfl

theorem within_told {vs : List Value} (hvs : ∀ v ∈ vs, v.Legible) :
    Told (testText .within) (fun ws => ∀ w ∈ ws, w.Legible) (fun _ => True) vs := by
  intro ws u v hws _ _ he
  rw [testText_within, testText_within] at he
  have hlist := Told.list delimits_values hvs fun v hv => Value.told (hvs v hv)
  exact (hlist.closed (.inr rfl)).after " in [".toList hws trivial trivial he

theorem compare_told {op : Operator} {v : Value} (hop : op ≠ .within) (hv : v.Legible) :
    Told (fun t : Operator × Value => testText t.1 [t.2]) (fun t => t.1 ≠ .within ∧ t.2.Legible)
      Ends (op, v) := by
  have hstop : ∀ (w : Value) u, w.Legible → Ends u → ∀ c ∈ (w.text ++ u).head?, c ≠ '=' := by
    intro w u hw _
    obtain ⟨c, rest, he, hc, -⟩ := Value.text_head hw u
    rw [he]
    rintro _ ⟨⟩ rfl
    exact absurd hc (by decide)
  rintro ⟨op', v'⟩ t u ⟨hop', hv'⟩ ht hu he
  dsimp only at he
  rw [testText_compare hop, testText_compare hop'] at he
  exact (operator_told hop).pair (Value.told hv) hv hstop ⟨hop', hv'⟩ ht hu he

theorem compare_head {op : Operator} (hop : op ≠ .within) (v : Value) (u : List Char) :
    ∃ c rest, testText op [v] ++ u = c :: rest ∧ c ∈ ['!', '<', '>', '='] := by
  rw [testText_compare hop, writePair, List.append_assoc]
  exact spellsOperator_head ⟨hop, rfl⟩ _

/-- `in` is the only operator with a blank before it. -/
theorem within_ne_compare {op : Operator} (hop : op ≠ .within) (vs : List Value) (v : Value)
    (t u : List Char) : testText .within vs ++ t ≠ testText op [v] ++ u := by
  intro he
  obtain ⟨c, rest, hc, hmem⟩ := compare_head hop v u
  rw [hc, testText_within] at he
  obtain rfl : ' ' = c := (List.cons.inj he).1
  exact absurd hmem (by decide)

/-- The values of a test: one, or at least one behind `in`. -/
def LegibleTest (op : Operator) (vs : List Value) : Prop :=
  (if op = .within then vs ≠ [] else vs.length = 1) ∧ ∀ v ∈ vs, v.Legible

theorem LegibleTest.exists_one {op : Operator} {vs : List Value} (h : LegibleTest op vs)
    (hop : op ≠ .within) : ∃ v, vs = [v] ∧ v.Legible := by
  obtain ⟨hcount, hvs⟩ := h
  rw [if_neg hop, List.length_eq_one_iff] at hcount
  obtain ⟨v, rfl⟩ := hcount
  exact ⟨v, rfl, hvs v List.mem_cons_self⟩

theorem test_told {op op' : Operator} {vs vs' : List Value} {u v : List Char}
    (h : LegibleTest op vs) (h' : LegibleTest op' vs') (hu : Ends u) (hv : Ends v)
    (he : testText op vs ++ u = testText op' vs' ++ v) : op = op' ∧ vs = vs' ∧ u = v := by
  by_cases hop : op = .within <;> by_cases hop' : op' = .within
  · subst hop hop'
    exact ⟨rfl, within_told h.2 h'.2 trivial trivial he⟩
  · obtain ⟨w, rfl, -⟩ := h'.exists_one hop'
    subst hop
    exact absurd he (within_ne_compare hop' _ _ _ _)
  · obtain ⟨w, rfl, -⟩ := h.exists_one hop
    subst hop'
    exact absurd he.symm (within_ne_compare hop _ _ _ _)
  · obtain ⟨w, rfl, hw⟩ := h.exists_one hop
    obtain ⟨w', rfl, hw'⟩ := h'.exists_one hop'
    obtain ⟨hsame, huv⟩ := compare_told hop hw (b := (op', w')) ⟨hop', hw'⟩ hu hv he
    cases hsame
    exact ⟨rfl, rfl, huv⟩

/-! ### Scopes -/

/-- What is shown of the condition and of every condition in it can be told: the IRIs are unbroken,
a scope is not empty, and a test has one value or, behind `in`, at least one. -/
def Legible (c : Filter) : Prop := ∀ o ∈ nodes c, Shaped Unbroken Value.Legible o

theorem legibleAll_iff {cs : List Filter} :
    (∀ o ∈ nodesAll cs, Shaped Unbroken Value.Legible o) ↔ ∀ c ∈ cs, Legible c := by
  simp only [mem_nodesAll]
  exact ⟨fun h c hc o ho => h o ⟨c, hc, ho⟩, fun h o ⟨c, hc, ho⟩ => h c hc o ho⟩

theorem Legible.scope {n : Iri} {cs : List Filter} (h : Legible (scope n cs)) :
    Unbroken n ∧ ∀ c ∈ cs, Legible c := by
  refine ⟨(h _ (mem_nodes_scope.2 (.inl rfl))).1, fun c hc o ho => ?_⟩
  exact h o (mem_nodes_scope.2 (.inr ⟨c, hc, ho⟩))

theorem Legible.test {n : Iri} {op : Operator} {vs : List Value} (h : Legible (test n op vs)) :
    Unbroken n ∧ LegibleTest op vs :=
  h _ (mem_nodes_test.2 rfl)

theorem delimits_and : Delimits " and ".toList text Legible Ends where
  stop _ := ends_cons.2 (by decide)
  stop_of_closes := Closes.ends
  opens _ h := absurd (h 'a' rfl) (by decide)
  opens_item _ := text_opens _

/-- No operator begins with a brace. -/
theorem testText_ne_brace {op : Operator} {vs : List Value} (h : LegibleTest op vs)
    (t u : List Char) : testText op vs ++ t ≠ '{' :: u := by
  intro he
  by_cases hop : op = .within
  · subst hop
    rw [testText_within] at he
    exact absurd (List.cons.inj he).1 (by decide)
  · obtain ⟨v, rfl, -⟩ := h.exists_one hop
    obtain ⟨c, rest, hc, hmem⟩ := compare_head hop v t
    rw [hc] at he
    obtain rfl : c = '{' := (List.cons.inj he).1
    exact absurd hmem (by decide)

/-- Behind the name a scope goes on with a brace, a test with its operator. -/
theorem scope_ne_test {n m : Iri} (hn : Unbroken n) (hm : Unbroken m) {op : Operator}
    {vs : List Value} (h : LegibleTest op vs) (cs : List Filter) (t u : List Char) :
    text (scope n cs) ++ t ≠ text (test m op vs) ++ u := by
  intro he
  rw [text_scope, text_test, List.append_assoc, List.append_assoc] at he
  obtain ⟨-, hbehind⟩ := Property.nameText_told hn hm trivial trivial he
  exact testText_ne_brace h _ _ hbehind.symm

theorem told (c : Filter) (hc : c.Legible) : Told text Legible Ends c := by
  induction c using induct with
  | scope n cs ih =>
    obtain ⟨hn, hcs⟩ := hc.scope
    intro d u v hd hu hv he
    cases d with
    | scope m ds =>
      obtain ⟨hm, hds⟩ := hd.scope
      rw [text_scope, text_scope, List.append_assoc, List.append_assoc] at he
      obtain ⟨rfl, hbehind⟩ := Property.nameText_told hn hm trivial trivial he
      have hlist := Told.list delimits_and hcs fun c hc => ih c hc (hcs c hc)
      obtain ⟨rfl, huv⟩ := (hlist.closed (.inl rfl)).after ['{'] hds trivial trivial hbehind
      exact ⟨rfl, huv⟩
    | test m op vs =>
      obtain ⟨hm, hvs⟩ := hd.test
      exact absurd he (scope_ne_test hn hm hvs _ _ _)
  | test n op vs =>
    obtain ⟨hn, hvs⟩ := hc.test
    intro d u v hd hu hv he
    cases d with
    | scope m ds =>
      obtain ⟨hm, -⟩ := hd.scope
      exact absurd he.symm (scope_ne_test hm hn hvs _ _ _)
    | test m op' vs' =>
      obtain ⟨hm, hvs'⟩ := hd.test
      rw [text_test, text_test, List.append_assoc, List.append_assoc] at he
      obtain ⟨rfl, hbehind⟩ := Property.nameText_told hn hm trivial trivial he
      obtain ⟨rfl, rfl, huv⟩ := test_told hvs hvs' hu hv hbehind
      exact ⟨rfl, huv⟩

end Condition

namespace Query

/-- Conditions that are shown alike are the same, and so are properties: however deep they nest, the
text tells where each name, value and scope ends. This is said of conditions with no closing bracket
in an IRI, no decimal but finite ones, no language but those of the grammar, no empty scope, and as
many values as go with the operator. -/
theorem shown_alike :
    (∀ cs ds : List Filter,
      (∀ c ∈ Condition.nodesAll cs, c.Shaped Unbroken Value.Legible) →
      (∀ d ∈ Condition.nodesAll ds, d.Shaped Unbroken Value.Legible) →
      Condition.textAll cs = Condition.textAll ds → cs = ds) ∧
    ∀ ps qs : List Projection, (∀ n ∈ Property.namesAll ps, Unbroken n) →
      (∀ n ∈ Property.namesAll qs, Unbroken n) →
      Property.textAll ps = Property.textAll qs → ps = qs := by
  have hnil : Closes [] := closes_of_layout_nil ⟨[], by simp, rfl⟩
  constructor
  · intro cs ds hcs hds he
    rw [Condition.legibleAll_iff] at hcs hds
    rw [Condition.textAll_eq, Condition.textAll_eq] at he
    have hlist := Told.list Condition.delimits_and hcs fun c hc => Condition.told c (hcs c hc)
    exact (hlist hds hnil hnil (congrArg (· ++ []) he)).1
  · intro ps qs hps hqs he
    rw [Property.legibleAll_iff] at hps hqs
    rw [Property.textAll_eq, Property.textAll_eq] at he
    have hlist := Told.list Property.delimits_comma hps fun p hp => Property.told p (hps p hp)
    exact (hlist hqs hnil hnil (congrArg (· ++ []) he)).1

/-- IRIs and strings hold the words, braces and quotes of a clause. A decimal that an integer was
turned into and one read from a numeral are shown alike, so they are one, while the integer itself
is shown otherwise. What is shown of the properties that a clause leaves tells what they are. -/
theorem shown_alike_nested :
    let cs (a : Number) : List Filter :=
      [.scope "x:/a and b"
          [.test "*" .within [.string "\"> and <x:/b>=" (some "en-us") none, .number a]],
        .test "x:/\x7b" .less [.string "," none (some "x:/t")]]
    let x := Double.ofInt 1
    let y := Double.ofNumeral ⟨none, ['1'], some ['0'], none⟩
    let q := (ofSettings (.ofDefault "x:/,")).run [(.properties, "a{*, b{c}},d")]
    let ps : List Projection :=
      [.node "x:/,a" [.node "*" [], .node "x:/,b" [.node "x:/,c" []]], .node "x:/,d" []]
    (∀ c ∈ Condition.nodesAll (cs (.decimal x)), c.Shaped Unbroken Value.Legible) ∧
    (∀ c ∈ Condition.nodesAll (cs (.decimal y)), c.Shaped Unbroken Value.Legible) ∧
    Condition.textAll (cs (.decimal x)) = Condition.textAll (cs (.decimal y)) ∧
    cs (.decimal x) = cs (.decimal y) ∧
    Condition.textAll (cs (.integer 1)) ≠ Condition.textAll (cs (.decimal x)) ∧
    (∀ n ∈ Property.namesAll q.properties, Unbroken n) ∧
    (∀ n ∈ Property.namesAll ps, Unbroken n) ∧
    Property.textAll q.properties = Property.textAll ps ∧ q.properties = ps := by
  intro cs x y q ps
  have htag : Literal.Tag "en-us".toList :=
    (Literal.scanLanguage_sound (t := "en-us".toList) (u := []) (by decide)).1
  have hcs : ∀ a, (Value.number a).Legible →
      ∀ c ∈ Condition.nodesAll (cs a), c.Shaped Unbroken Value.Legible := by
    intro a ha
    have hstring : (Value.string "\"> and <x:/b>=" (some "en-us") none).Legible :=
      ⟨by rintro _ ⟨⟩; exact htag, by rintro _ ⟨⟩⟩
    have hdatatype : (Value.string "," none (some "x:/t")).Legible :=
      ⟨by rintro _ ⟨⟩, by rintro _ ⟨⟩; decide⟩
    simp only [cs, Condition.nodesAll, Condition.nodes, List.append_nil, List.cons_append,
      List.nil_append, List.forall_mem_cons]
    refine ⟨⟨by decide, List.cons_ne_nil _ _⟩, ⟨by decide, List.cons_ne_nil _ _, ?_⟩,
      ⟨by decide, rfl, ?_⟩, by simp⟩
    · exact List.forall_mem_cons.2 ⟨hstring, List.forall_mem_singleton.2 ha⟩
    · exact List.forall_mem_singleton.2 hdatatype
  have hx : (Value.number (.decimal x)).Legible := by
    show x.isFinite = true
    decide +kernel
  have hy : (Value.number (.decimal y)).Legible := by
    show y.isFinite = true
    decide +kernel
  have hnumbers : Condition.textAll (cs (.decimal x)) = Condition.textAll (cs (.decimal y)) := by
    decide +kernel
  have hq : ∀ n ∈ Property.namesAll q.properties, Unbroken n := by decide +kernel
  have hps : ∀ n ∈ Property.namesAll ps, Unbroken n := by decide +kernel
  have hproperties : Property.textAll q.properties = Property.textAll ps := by decide +kernel
  have hinteger : Condition.textAll (cs (.integer 1)) ≠ Condition.textAll (cs (.decimal x)) := by
    decide +kernel
  exact ⟨hcs _ hx, hcs _ hy, hnumbers, shown_alike.1 _ _ (hcs _ hx) (hcs _ hy) hnumbers, hinteger,
    hq, hps, hproperties, shown_alike.2 _ _ hq hps hproperties⟩

end Query

end LifecycleQuery
