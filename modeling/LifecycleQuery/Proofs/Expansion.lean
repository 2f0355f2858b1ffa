import LifecycleQuery.Value.Literal
import LifecycleQuery.Proofs.Grammar
import LifecycleQuery.Proofs.Numeral

/-!
# What names and literals stand for

`Resolver.Expands` relates a name to what it stands for, by the entries of the two tables and the
policy, and `Literal.Means` a literal to its value, by its digits and by the name of its datatype.
Resolving and converting find just these (`Resolver.expands_iff`, `Literal.means_iff`). A name has
nothing to stand for only under the strict policy, when no table binds its label, and a literal only
when it is a number out of range or its datatype has nothing to stand for.
-/

namespace LifecycleQuery

/-! ## Names -/

namespace Resolver

variable {r : Resolver}

/-- A namespace is bound to the label, by the request or by the server. -/
def Binds (r : Resolver) (label : String) : Prop :=
  label ∈ r.request.entries.map Prod.fst ∨ label ∈ r.base.entries.map Prod.fst

/-- What a name stands for: the wildcard for itself, any other name for a namespace with the local
part behind it. The request's binding hides the server's, and the fallback is left for labels that
neither binds. -/
inductive Expands (r : Resolver) : Name → Iri → Prop
  | all : Expands r .all "*"
  | request {label part space : String} : (label, space) ∈ r.request.entries →
      Expands r (.qualified label part) (space ++ part)
  | base {label part space : String} : label ∉ r.request.entries.map Prod.fst →
      (label, space) ∈ r.base.entries → Expands r (.qualified label part) (space ++ part)
  | fallback {label part space : String} : ¬r.Binds label → r.unknown = .fallback space →
      Expands r (.qualified label part) (space ++ part)

theorem space?_eq_none_iff {label : String} : r.space? label = none ↔ ¬r.Binds label := by
  rw [space?, Option.or_eq_none_iff, Namespaces.get?_eq_none_iff, Namespaces.get?_eq_none_iff,
    Binds, not_or]

theorem binds_iff {label : String} : r.Binds label ↔ (r.space? label).isSome = true := by
  rw [← not_iff_not, ← space?_eq_none_iff, Bool.not_eq_true, Option.isSome_eq_false_iff,
    Option.isNone_iff_eq_none]

/-- A namespace is found in the request's table, or in the server's for a label that the request
does not bind. -/
theorem space?_eq_some_iff {label space : String} : r.space? label = some space ↔
    (label, space) ∈ r.request.entries ∨
      label ∉ r.request.entries.map Prod.fst ∧ (label, space) ∈ r.base.entries := by
  rw [space?, Option.or_eq_some_iff, Namespaces.get?_eq_some_iff, Namespaces.get?_eq_none_iff,
    Namespaces.get?_eq_some_iff]

theorem expands_iff {n : Name} {i : Iri} : r.Expands n i ↔ r.resolve n = .ok i := by
  constructor
  · intro h
    cases h with
    | all => rfl
    | request h =>
      have hspace := space?_eq_some_iff.2 (.inl h)
      simp only [resolve, hspace]
    | base hrequest h =>
      have hspace := space?_eq_some_iff.2 (.inr ⟨hrequest, h⟩)
      simp only [resolve, hspace]
    | fallback hunbound hpolicy =>
      have hspace := space?_eq_none_iff.2 hunbound
      simp only [resolve, hspace, hpolicy]
  · intro h
    cases n with
    | all =>
      cases h
      exact .all
    | qualified label part =>
      cases hspace : r.space? label with
      | some space =>
        simp only [resolve, hspace] at h
        cases h
        rcases space?_eq_some_iff.1 hspace with h | ⟨hrequest, h⟩
        · exact .request h
        · exact .base hrequest h
      | none =>
        cases hpolicy : r.unknown with
        | fallback space =>
          simp only [resolve, hspace, hpolicy] at h
          cases h
          exact .fallback (space?_eq_none_iff.1 hspace) hpolicy
        | reject =>
          simp only [resolve, hspace, hpolicy] at h
          cases h

/-- A name resolves, unless the policy is strict and nothing binds its label. -/
theorem exists_resolve_iff {n : Name} :
    (∃ i, r.resolve n = .ok i) ↔ (r.unknown = .reject → ∀ label ∈ n.label?, r.Binds label) := by
  cases n with
  | all => simp [resolve, Name.label?]
  | qualified label part =>
    simp only [resolve, Name.label?, Option.mem_some_iff, forall_eq', binds_iff]
    cases r.space? label with
    | some space => simp
    | none => cases r.unknown <;> simp

end Resolver

/-! ## Literals -/

theorem Numeral.isInteger_iff {n : Numeral} :
    n.isInteger = true ↔ n.fraction = none ∧ n.exponent = none := by
  rw [isInteger, Bool.and_eq_true, Option.isNone_iff_eq_none, Option.isNone_iff_eq_none]

theorem Numeral.integerValue_eq (n : Numeral) :
    n.integerValue = Sign.apply n.sign (Nat.ofDigitChars 10 n.whole 0) := by
  rw [integerValue, digitsValue_eq_ofDigitChars]

namespace Literal

/-- What a literal stands for. A number without point and exponent is an integer, any other a
decimal; the datatype of a string is expanded. -/
inductive Means (r : Resolver) : Literal → Value → Prop
  | iri {i : String} : Means r (iri i) (.iri i)
  | boolean {b : Bool} : Means r (boolean b) (.boolean b)
  | integer {sign : Option Sign} {digits : List Char} {i : Int64} :
      i.toInt = Sign.apply sign (Nat.ofDigitChars 10 digits 0) →
      Means r (number ⟨sign, digits, none, none⟩) (.number (.integer i))
  | decimal {n : Numeral} : ¬(n.fraction = none ∧ n.exponent = none) →
      (Double.ofNumeral n).isFinite = true →
      Means r (number n) (.number (.decimal (Double.ofNumeral n)))
  | plain {s : String} : Means r (string s .none) (.string s none none)
  | tagged {s tag : String} : Means r (string s (.language tag)) (.string s (some tag) none)
  | typed {s : String} {name : Name} {datatype : Iri} : r.Expands name datatype →
      Means r (string s (.datatype name)) (.string s none (some datatype))

/-- The literal is not a number beyond what a word of 64 bits or a finite double can hold. -/
def InRange : Literal → Prop
  | number ⟨sign, digits, none, none⟩ =>
    Int64.minValue.toInt ≤ Sign.apply sign (Nat.ofDigitChars 10 digits 0) ∧
      Sign.apply sign (Nat.ofDigitChars 10 digits 0) ≤ Int64.maxValue.toInt
  | number n => (Double.ofNumeral n).isFinite = true
  | _ => True

/-- The label of the datatype, if there is one. -/
def datatypeLabel? : Literal → Option String
  | string _ (.datatype name) => name.label?
  | _ => none

/-- A numeral has a value when this is a word of 64 bits or, with point or exponent, finite. -/
theorem numberOf_ok_iff {n : Numeral} {a : Number} : numberOf n = .ok a ↔
    n.isInteger = true ∧ (∃ i : Int64, i.toInt = n.integerValue ∧ a = .integer i) ∨
      n.isInteger = false ∧ (Double.ofNumeral n).isFinite = true ∧
        a = .decimal (Double.ofNumeral n) := by
  unfold numberOf
  cases hi : n.isInteger with
  | true =>
    rw [if_pos rfl]
    cases hn : Number.ofInt? n.integerValue with
    | none => simp [← Number.ofInt?_eq_some_iff, hn]
    | some b => simp [← Number.ofInt?_eq_some_iff, hn]
  | false =>
    rw [if_neg Bool.false_ne_true]
    cases hf : (Double.ofNumeral n).isFinite <;> simp [hf, eq_comm]

theorem means_iff {r : Resolver} {l : Literal} {v : Value} :
    l.Means r v ↔ l.value r = .ok v := by
  constructor
  · intro h
    cases h with
    | iri => rfl
    | boolean => rfl
    | @integer sign digits i hi =>
      let n : Numeral := ⟨sign, digits, none, none⟩
      have hvalue : numberOf n = .ok (.integer i) :=
        numberOf_ok_iff.2 (.inl ⟨rfl, i, hi.trans n.integerValue_eq.symm, rfl⟩)
      rw [value, hvalue]
      rfl
    | decimal hmark hfinite =>
      have hdecimal := Bool.eq_false_iff.2 (mt Numeral.isInteger_iff.1 hmark)
      rw [value, numberOf_ok_iff.2 (.inr ⟨hdecimal, hfinite, rfl⟩)]
      rfl
    | plain => rfl
    | tagged => rfl
    | typed hd =>
      rw [value, Resolver.expands_iff.1 hd]
      rfl
  · intro h
    cases l with
    | iri i =>
      cases h
      exact .iri
    | boolean b =>
      cases h
      exact .boolean
    | number n =>
      obtain ⟨a, ha, rfl⟩ := Except.map_eq_ok_iff.1 h
      rcases numberOf_ok_iff.1 (Except.mapError_eq_ok_iff.1 ha) with
        ⟨hinteger, i, hi, rfl⟩ | ⟨hdecimal, hfinite, rfl⟩
      · obtain ⟨sign, digits, fraction, exponent⟩ := n
        obtain ⟨rfl, rfl⟩ := Numeral.isInteger_iff.1 hinteger
        exact .integer (hi.trans (Numeral.integerValue_eq _))
      · refine .decimal (fun hmark => ?_) hfinite
        rw [Numeral.isInteger_iff.2 hmark] at hdecimal
        cases hdecimal
    | string s suffix =>
      cases suffix with
      | none =>
        cases h
        exact .plain
      | language tag =>
        cases h
        exact .tagged
      | datatype name =>
        obtain ⟨d, hd, rfl⟩ := Except.map_eq_ok_iff.1 h
        exact .typed (Resolver.expands_iff.2 hd)

/-- The range of a numeral is the one that its conversion checks. -/
theorem inRange_number_iff {n : Numeral} : InRange (number n) ↔
    if n.isInteger then
      Int64.minValue.toInt ≤ n.integerValue ∧ n.integerValue ≤ Int64.maxValue.toInt
    else (Double.ofNumeral n).isFinite = true := by
  obtain ⟨sign, digits, _ | fraction, _ | exponent⟩ := n
  · rw [Numeral.integerValue_eq]
    exact Iff.rfl
  -- the other three have a mark
  all_goals exact Iff.rfl

theorem exists_numberOf_iff {n : Numeral} :
    (∃ x, numberOf n = .ok x) ↔ InRange (number n) := by
  rw [numberOf, inRange_number_iff]
  by_cases hi : n.isInteger = true
  · rw [if_pos hi, if_pos hi, Number.ofInt?]
    by_cases hr : Int64.minValue.toInt ≤ n.integerValue ∧ n.integerValue ≤ Int64.maxValue.toInt
    · rw [if_pos hr]
      exact ⟨fun _ => hr, fun _ => ⟨_, rfl⟩⟩
    · rw [if_neg hr]
      exact ⟨(by rintro ⟨x, ⟨⟩⟩), fun h => absurd h hr⟩
  · rw [if_neg hi, if_neg hi]
    cases hr : (Double.ofNumeral n).isFinite with
    | true => exact ⟨fun _ => rfl, fun _ => ⟨.decimal (Double.ofNumeral n), if_pos hr⟩⟩
    | false =>
      simp [hr]

/-- A literal has a value when its number is in range and its datatype resolves. -/
theorem exists_value_iff {r : Resolver} {l : Literal} : (∃ v, l.value r = .ok v) ↔
    l.InRange ∧ (r.unknown = .reject → ∀ label ∈ l.datatypeLabel?, r.Binds label) := by
  cases l with
  | iri i => simp [value, InRange, datatypeLabel?]
  | boolean b => simp [value, InRange, datatypeLabel?]
  | number n =>
    have hlabel : (number n).datatypeLabel? = none := rfl
    rw [← exists_numberOf_iff, hlabel]
    simp only [value, Except.map_eq_ok_iff]
    cases numberOf n <;> simp [Except.mapError]
  | string s suffix =>
    cases suffix with
    | none => simp [value, InRange, datatypeLabel?]
    | language tag => simp [value, InRange, datatypeLabel?]
    | datatype name =>
      have hlabel : (string s (.datatype name)).datatypeLabel? = name.label? := rfl
      rw [hlabel, ← Resolver.exists_resolve_iff]
      simp only [value, Except.map_eq_ok_iff, InRange, true_and]
      constructor
      · rintro ⟨_, i, hi, -⟩
        exact ⟨i, hi⟩
      · rintro ⟨i, hi⟩
        exact ⟨_, i, hi, rfl⟩

end Literal

end LifecycleQuery
