import LifecycleQuery.Proofs.Fault.Position
import LifecycleQuery.Proofs.Value

/-!
# Which texts are values

`Value.Spells r` is the grammar of values together with what each spelling stands for: an IRI in
angle brackets, one of two words, a number in range, or a string with nothing, a language or a
datatype behind it. A text is read as a value exactly when it is such a spelling with layout around
it. A string whose datatype has a label that nothing binds is refused for the label, and every other
text is refused as malformed (`Value.read_decided`).
-/

namespace LifecycleQuery

open Text

namespace Value

/-! ## Spellings -/

/-- A spelling without layout around it, and the value that it stands for. -/
inductive Spells (r : Resolver) : List Char → Value → Prop
  | iri {i : List Char} : IsIri i → Spells r ('<' :: i ++ ['>']) (iri (String.ofList i))
  | isTrue : Spells r "true".toList (boolean true)
  | isFalse : Spells r "false".toList (boolean false)
  | integer {sign : Option Sign} {digits : List Char} {i : Int64} : Numeral.Digits digits →
      i.toInt = Sign.apply sign (Nat.ofDigitChars 10 digits 0) →
      Spells r (Sign.text sign ++ digits) (number (.integer i))
  | decimal {n : Numeral} : n.WellFormed → ¬(n.fraction = none ∧ n.exponent = none) →
      (Double.ofNumeral n).isFinite = true →
      Spells r n.text (number (.decimal (Double.ofNumeral n)))
  | plain {x s : List Char} : Literal.Content x s →
      Spells r ('"' :: x ++ ['"']) (string (String.ofList s) none none)
  | tagged {x s tag : List Char} : Literal.Content x s → Literal.Tag tag →
      Spells r ('"' :: x ++ '"' :: '@' :: tag)
        (string (String.ofList s) (some (String.ofList tag)) none)
  | typed {x s label part : List Char} {datatype : Iri} : Literal.Content x s →
      Name.Label label → Name.Local part →
      r.Expands (.qualified (String.ofList label) (String.ofList part)) datatype →
      Spells r ('"' :: x ++ '"' :: '^' :: '^' :: (label ++ ':' :: part))
        (string (String.ofList s) none (some datatype))

/-- A string with a datatype, the label of which neither table binds nor the policy lets pass. -/
inductive SpellsUnbound (r : Resolver) : List Char → String → Prop
  | intro {x s label part : List Char} : Literal.Content x s → Name.Label label →
      Name.Local part → r.unknown = .reject → ¬r.Binds (String.ofList label) →
      SpellsUnbound r ('"' :: x ++ '"' :: '^' :: '^' :: (label ++ ':' :: part))
        (String.ofList label)

/-- What is spelled is a literal, and its value. -/
theorem spells_iff {r : Resolver} {x : List Char} {v : Value} :
    Spells r x v ↔ ∃ l, Literal.Spells x l ∧ l.value r = .ok v := by
  simp only [← Literal.means_iff]
  constructor
  · intro h
    cases h with
    | iri hi => exact ⟨_, .iri (.intro hi), .iri⟩
    | isTrue => exact ⟨_, .isTrue, .boolean⟩
    | isFalse => exact ⟨_, .isFalse, .boolean⟩
    | @integer sign digits i hdigits hi =>
      have hn : Numeral.WellFormed ⟨sign, digits, none, none⟩ := ⟨hdigits, by simp, by simp⟩
      have htext : Numeral.text ⟨sign, digits, none, none⟩ = Sign.text sign ++ digits := by
        simp [Numeral.text]
      exact ⟨_, htext ▸ .number hn, .integer hi⟩
    | decimal hn hmark hfinite => exact ⟨_, .number hn, .decimal hmark hfinite⟩
    | plain hx => exact ⟨_, .string hx .none, .plain⟩
    | tagged hx htag => exact ⟨_, .string hx (.language htag), .tagged⟩
    | typed hx hlabel hpart hd =>
      exact ⟨_, .string hx (.datatype (.intro hlabel hpart)), .typed hd⟩
  · rintro ⟨l, hl, hv⟩
    cases hl with
    | iri hi =>
      cases hv
      obtain ⟨hi⟩ := hi
      exact .iri hi
    | isTrue =>
      cases hv
      exact .isTrue
    | isFalse =>
      cases hv
      exact .isFalse
    | number hn =>
      cases hv with
      | @integer sign digits i hi =>
        have htext : Numeral.text ⟨sign, digits, none, none⟩ = Sign.text sign ++ digits := by
          simp [Numeral.text]
        rw [htext]
        exact .integer hn.whole hi
      | decimal hmark hfinite => exact .decimal hn hmark hfinite
    | string hx hs =>
      cases hs with
      | none =>
        cases hv
        exact .plain hx
      | language htag =>
        cases hv
        exact .tagged hx htag
      | datatype hname =>
        obtain ⟨hlabel, hpart⟩ := hname
        cases hv with
        | typed hd => exact .typed hx hlabel hpart hd

theorem spellsUnbound_iff {r : Resolver} {x : List Char} {label : String} :
    SpellsUnbound r x label ↔
      ∃ l, Literal.Spells x l ∧ l.value r = .error (.unknownLabel label) := by
  constructor
  · rintro ⟨hx, hlabel, hpart, hpolicy, hunbound⟩
    refine ⟨_, .string hx (.datatype (.intro hlabel hpart)), ?_⟩
    rw [Literal.value, Resolver.resolve_unbound hunbound hpolicy]
    rfl
  · rintro ⟨l, hl, hv⟩
    cases hl with
    | iri hi => cases hv
    | isTrue => cases hv
    | isFalse => cases hv
    | number hn =>
      obtain ⟨fault, -, he⟩ := Except.mapError_eq_error_iff.1 (Except.map_eq_error_iff.1 hv)
      cases he
    | string hx hs =>
      cases hs with
      | none => cases hv
      | language htag => cases hv
      | datatype hname =>
        obtain ⟨hlabel, hpart⟩ := hname
        obtain ⟨_, ⟨⟩, ⟨⟩, hunbound, hpolicy⟩ :=
          Resolver.resolve_eq_error (Except.map_eq_error_iff.1 hv)
        exact .intro hx hlabel hpart hpolicy hunbound

/-! ## Reading -/

/-- Reading a text that is one literal gives what the literal gives. -/
theorem read_of_whole {r : Resolver} {text : String} {l : Literal}
    (h : Whole (Front Literal.Spells) text.toList l) : read r text = l.value r := by
  simp only [read, readLiteral?_eq_some_iff.2 h]

theorem read_of_not_whole {r : Resolver} {text : String}
    (h : ∀ l, ¬Whole (Front Literal.Spells) text.toList l) :
    read r text = .error (.value (.notValue text)) := by
  have hnone : readLiteral? text.toList = none :=
    Option.eq_none_iff_forall_ne_some.2 fun l hl => h l (readLiteral?_eq_some_iff.1 hl)
  simp only [read, hnone]

/-- A text that is not refused as no value is one literal, and gives what that gives. -/
theorem read_eq_iff {r : Resolver} {text : String} {result : Except QueryError Value}
    (h : result ≠ .error (.value (.notValue text))) : read r text = result ↔
      ∃ l, Whole (Front Literal.Spells) text.toList l ∧ l.value r = result := by
  constructor
  · intro hread
    by_cases hl : ∃ l, Whole (Front Literal.Spells) text.toList l
    · obtain ⟨l, hl⟩ := hl
      exact ⟨l, hl, by rw [← read_of_whole hl, hread]⟩
    · rw [read_of_not_whole (not_exists.1 hl)] at hread
      exact absurd hread.symm h
  · rintro ⟨l, hl, hvalue⟩
    rw [read_of_whole hl, hvalue]

end Value

/-- A grammar that says more about its spellings may stand in place of them. -/
theorem whole_front_iff {α β : Type} {R : List Char → α → Prop} {S : List Char → β → Prop}
    {P : β → α → Prop} (h : ∀ x a, R x a ↔ ∃ b, S x b ∧ P b a) {text : List Char} {a : α} :
    Whole (Front R) text a ↔ ∃ b, Whole (Front S) text b ∧ P b a := by
  constructor
  · rintro ⟨t, u, ht, ⟨x, hx, he⟩, hu⟩
    obtain ⟨b, hb, hP⟩ := (h x a).1 hx
    exact ⟨b, ⟨t, u, ht, ⟨x, hb, he⟩, hu⟩, hP⟩
  · rintro ⟨b, ⟨t, u, ht, ⟨x, hx, he⟩, hu⟩, hP⟩
    exact ⟨t, u, ht, ⟨x, (h x a).2 ⟨b, hx, hP⟩, he⟩, hu⟩

/-- A text is read as the value that stands in it, with layout around it. The one text refused for a
label is a string whose datatype has that label, unbound; all others are refused as malformed. -/
theorem Value.read_decided (r : Resolver) (text : String) :
    (∀ v, read r text = .ok v ↔ Whole (Front (Spells r)) text.toList v) ∧
    (∀ label, read r text = .error (.unknownLabel label) ↔
      Whole (Front (SpellsUnbound r)) text.toList label) ∧
    ((∃ fault, read r text = .error (.value fault)) ↔
      (¬∃ v, Whole (Front (Spells r)) text.toList v) ∧
        ¬∃ label, Whole (Front (SpellsUnbound r)) text.toList label) := by
  have hok : ∀ v, read r text = .ok v ↔ Whole (Front (Spells r)) text.toList v := by
    intro v
    rw [read_eq_iff (by simp), whole_front_iff (R := Spells r) fun _ _ => spells_iff]
  have hunbound : ∀ label, read r text = .error (.unknownLabel label) ↔
      Whole (Front (SpellsUnbound r)) text.toList label := by
    intro label
    rw [read_eq_iff (by simp), whole_front_iff (R := SpellsUnbound r) fun _ _ => spellsUnbound_iff]
  refine ⟨hok, hunbound, ?_⟩
  simp only [← hok, ← hunbound]
  constructor
  · rintro ⟨fault, hread⟩
    simp [hread]
  · rintro ⟨hvalue, hlabel⟩
    cases hread : read r text with
    | ok v => exact absurd ⟨v, hread⟩ hvalue
    | error e =>
      by_cases hl : ∃ l, Whole (Front Literal.Spells) text.toList l
      · obtain ⟨l, hl⟩ := hl
        rw [read_of_whole hl] at hread
        rcases Literal.value_eq_error hread with ⟨fault, rfl⟩ | ⟨label, rfl⟩
        · exact ⟨fault, rfl⟩
        · exact absurd ⟨label, by rw [read_of_whole hl, hread]⟩ hlabel
      · rw [read_of_not_whole (not_exists.1 hl)] at hread
        cases hread
        exact ⟨_, rfl⟩

/-- A string with the three escapes of the table and three characters that stand for themselves,
between layout and with a datatype that the request binds; and one whose datatype nothing binds. -/
theorem Value.read_decided_escapes :
    let r : Resolver := ⟨.ofList [("p", "n:/")], .empty, .reject⟩
    read r " \"\\n\\t\\r\\\"\\\\\\x\"^^p:d\t" = .ok (.string "\n\t\r\"\\x" none (some "n:/d")) ∧
      read r "\"\\t\"^^q:d" = .error (.unknownLabel "q") := by
  intro r
  have hcontent : Literal.Content "\\n\\t\\r\\\"\\\\\\x".toList "\n\t\r\"\\x".toList := by
    refine .escaped .newline (.escaped .tab (.escaped .carriageReturn ?_))
    refine .escaped (.itself ?_ ?_ ?_) (.escaped (.itself ?_ ?_ ?_)
      (.escaped (.itself ?_ ?_ ?_) .nil))
    all_goals decide
  have hlocal : Name.Local ['d'] := ⟨'d', [], rfl, by decide, .nil⟩
  have hexpands : r.Expands (.qualified (String.ofList ['p']) (String.ofList ['d'])) "n:/d" :=
    @Resolver.Expands.request r "p" "d" "n:/" (List.mem_singleton.2 rfl)
  have hspells := Spells.typed hcontent ⟨'p', [], rfl, by decide, .nil⟩ hlocal hexpands
  obtain ⟨hok, -, -⟩ := read_decided r " \"\\n\\t\\r\\\"\\\\\\x\"^^p:d\t"
  obtain ⟨-, hunbound, -⟩ := read_decided r "\"\\t\"^^q:d"
  constructor
  · refine (hok _).2 ⟨_, ['\t'], ⟨[' '], isLayout_of_all (by decide), rfl⟩, ⟨_, hspells, rfl⟩, ?_⟩
    exact ⟨['\t'], isLayout_of_all (by decide), rfl⟩
  · refine (hunbound "q").2 (whole_of_spells ?_)
    refine .intro (.escaped .tab .nil) ⟨'q', [], rfl, by decide, .nil⟩ hlocal rfl ?_
    show ¬("q" ∈ ["p"] ∨ "q" ∈ [])
    decide

end LifecycleQuery
