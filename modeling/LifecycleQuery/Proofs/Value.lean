import LifecycleQuery.Proofs.Double.Notation
import LifecycleQuery.Proofs.Grammar.Literal

/-!
# Values written and read back

Reading gives well-formed values (`Literal.Spells.value_wellFormed`). Conversely the text of a
well-formed value is spelled by the grammar, as a literal that stands for this value whatever the
labels are bound to (`Value.exists_literal`). A datatype is the exception: it is written as an IRI,
which is not the name that the reader asks for.
-/

namespace LifecycleQuery

/-! ## Values that are read -/

/-- An IRI is one, a decimal is finite, and a string has a language, a datatype or neither. -/
def Value.WellFormed : Value → Prop
  | iri text => IsIri text.toList
  | boolean _ => True
  | number (.integer _) => True
  | number (.decimal x) => x.isFinite = true
  | string _ language datatype =>
    ¬(language.isSome = true ∧ datatype.isSome = true) ∧
      ∀ tag ∈ language, Literal.Tag tag.toList

theorem Literal.numberOf_wellFormed {n : Numeral} {a : Number} (h : numberOf n = .ok a) :
    (Value.number a).WellFormed := by
  rw [numberOf] at h
  split at h
  · split at h
    · next i hi =>
      cases h
      simp only [Number.ofInt?, Option.ite_none_right_eq_some] at hi
      obtain ⟨-, ⟨⟩⟩ := hi
      trivial
    · cases h
  · dsimp only at h
    split at h
    · next hx =>
      cases h
      exact hx
    · cases h

theorem Literal.Spells.value_wellFormed {r : Resolver} {x : List Char} {l : Literal} {v : Value}
    (hl : Spells x l) (h : l.value r = .ok v) : v.WellFormed := by
  cases hl with
  | iri hi =>
    cases h
    obtain ⟨hi⟩ := hi
    simpa [Value.WellFormed] using hi
  | isTrue =>
    cases h
    trivial
  | isFalse =>
    cases h
    trivial
  | @number n hn =>
    obtain ⟨a, ha, rfl⟩ := Except.map_eq_ok_iff.1 h
    cases hx : numberOf n with
    | error e =>
      rw [hx] at ha
      cases ha
    | ok b =>
      rw [hx] at ha
      cases ha
      exact numberOf_wellFormed hx
  | @string x s y suffix hc hs =>
    cases hs with
    | none =>
      cases h
      simp [Value.WellFormed]
    | language ht =>
      cases h
      simpa [Value.WellFormed] using ht
    | datatype hx =>
      obtain ⟨d, -, rfl⟩ := Except.map_eq_ok_iff.1 h
      simp [Value.WellFormed]

/-! ## Values that are written -/

namespace Literal

/-- The escapes of the writer are undone by the reader, which knows more of them. -/
theorem content_escape (s : List Char) : Content (s.flatMap Value.escape) s := by
  induction s with
  | nil => exact .nil
  | cons c s ih =>
    rw [List.flatMap_cons, Value.escape]
    split
    · next hc =>
      rcases hc with rfl | rfl
      · exact .escaped (.itself (by decide) (by decide) (by decide)) ih
      · exact .escaped (.itself (by decide) (by decide) (by decide)) ih
    · next hc =>
      rw [not_or] at hc
      split
      · next hn =>
        subst hn
        exact .escaped .newline ih
      · exact .plain hc.1 hc.2 ih

end Literal

namespace Number

/-- The numeral of an integer. -/
def integerNumeral (n : Int64) : Numeral :=
  ⟨if n.toInt < 0 then some .minus else none, Nat.toDigits 10 n.toInt.natAbs, none, none⟩

theorem text_integer (n : Int64) : (integer n).text = (integerNumeral n).text := by
  rw [text, Int.toString_eq_repr, Int.repr_eq_if, integerNumeral, Numeral.text]
  rcases lt_or_ge n.toInt 0 with hneg | hpos
  · have habs : (-n.toInt).toNat = n.toInt.natAbs := by omega
    rw [if_neg (Int.not_le.2 hneg), if_pos hneg, habs]
    simp [Sign.text, Nat.repr_eq_ofList_toDigits]
  · have habs : n.toInt.toNat = n.toInt.natAbs := by omega
    rw [if_pos hpos, if_neg (Int.not_lt.2 hpos), habs]
    simp [Sign.text, Nat.repr_eq_ofList_toDigits]

theorem integerValue_integerNumeral (n : Int64) :
    (integerNumeral n).integerValue = n.toInt := by
  rw [Numeral.integerValue, integerNumeral, digitsValue_toDigits, Sign.apply]
  rcases lt_or_ge n.toInt 0 with hneg | hpos
  · rw [if_pos hneg, if_pos rfl]
    omega
  · rw [if_neg (Int.not_lt.2 hpos), if_neg (by rintro ⟨⟩)]
    omega

theorem ofInt?_toInt (n : Int64) : ofInt? n.toInt = some (integer n) :=
  ofInt?_eq_some_iff.2 ⟨n, rfl, rfl⟩

theorem numberOf_integerNumeral (n : Int64) :
    Literal.numberOf (integerNumeral n) = .ok (integer n) := by
  have hinteger : (integerNumeral n).isInteger = true := rfl
  rw [Literal.numberOf, if_pos hinteger, integerValue_integerNumeral, ofInt?_toInt]

theorem integerNumeral_wellFormed (n : Int64) : (integerNumeral n).WellFormed where
  whole := Numeral.digits_toDigits _
  fraction := by rintro _ ⟨⟩
  exponent := by rintro _ ⟨⟩

/-- A number is written as a numeral that is read as this number. -/
theorem exists_numeral (a : Number) (h : (Value.number a).WellFormed) :
    ∃ n : Numeral, n.WellFormed ∧ a.text = n.text ∧ Literal.numberOf n = .ok a := by
  cases a with
  | integer n =>
    exact ⟨integerNumeral n, integerNumeral_wellFormed n, text_integer n, numberOf_integerNumeral n⟩
  | decimal x =>
    cases x with
    | infinite negative => cases h
    | nan => cases h
    | finite negative place =>
      have hsign : Notation.display.exponentSign ≠ some .minus := by decide
      obtain ⟨_, hwrites, -⟩ := Notation.numeral_writes hsign negative place
      have hread := Notation.ofNumeral_numeral hsign negative place
      refine ⟨_, hwrites.wellFormed, rfl, ?_⟩
      rw [Literal.numberOf, hwrites.isDecimal, hread]
      rfl

end Number

namespace Value

/-- The datatype of a string. -/
def datatype? : Value → Option String
  | string _ _ datatype => datatype
  | _ => none

theorem exists_literal {v : Value} (hv : v.WellFormed) (hd : v.datatype? = none) :
    ∃ l, Literal.Spells v.text l ∧ ∀ r, l.value r = .ok v := by
  cases v with
  | iri i =>
    refine ⟨.iri (String.ofList i.toList), .iri (.intro hv), fun r => ?_⟩
    rw [String.ofList_toList]
    rfl
  | boolean b =>
    cases b with
    | true => exact ⟨.boolean true, .isTrue, fun _ => rfl⟩
    | false => exact ⟨.boolean false, .isFalse, fun _ => rfl⟩
  | number a =>
    obtain ⟨n, hn, htext, hvalue⟩ := a.exists_numeral hv
    refine ⟨.number n, ?_, fun r => ?_⟩
    · rw [text, htext]
      exact .number hn
    · rw [Literal.value, hvalue]
      rfl
  | string s language datatype =>
    obtain rfl : datatype = none := hd
    have hcontent := Literal.content_escape s.toList
    cases language with
    | none =>
      have hl := Literal.Spells.string hcontent .none
      rw [String.ofList_toList] at hl
      refine ⟨.string s .none, ?_, fun _ => rfl⟩
      simpa [text, quoted] using hl
    | some tag =>
      have hl := Literal.Spells.string hcontent (.language (hv.2 tag rfl))
      rw [String.ofList_toList, String.ofList_toList] at hl
      refine ⟨.string s (.language tag), ?_, fun _ => rfl⟩
      simpa [text, quoted] using hl

/-- A written value is read back, whatever the labels are bound to. -/
theorem read_render {v : Value} (hv : v.WellFormed) (hd : v.datatype? = none) (r : Resolver) :
    read r v.render = .ok v := by
  obtain ⟨l, hl, hvalue⟩ := exists_literal hv hd
  have hread : readLiteral? v.text = some l := readLiteral?_eq_some_iff.2 (whole_of_spells hl)
  rw [read, render, String.toList_ofList, hread]
  exact hvalue r

end Value

end LifecycleQuery
