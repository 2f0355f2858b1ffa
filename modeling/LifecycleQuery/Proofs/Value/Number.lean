import LifecycleQuery.Proofs.Double.Nearest
import LifecycleQuery.Proofs.Fault.Range
import LifecycleQuery.Proofs.Value.Reading

/-!
# Numbers on their own

`Numeral.denoted` is the rational number that a numeral denotes, whatever the length of its parts.
Digits behind a sign are read as the integer that they denote when it fits into a word of 64 bits,
and as nothing else. With a point or an exponent the library's conversion accepts every numeral
(`Double.ofText?_render`); what is read is the nearest double, unless the number is too large for a
finite one (`Value.read_number`).
-/

namespace LifecycleQuery

open Text

namespace Numeral

/-- The whole part and the fraction, times ten to the power of the exponent, with the sign. -/
def denoted (n : Numeral) : ℚ :=
  (if n.sign = some .minus then -1 else 1) *
    ((Nat.ofDigitChars 10 n.whole 0 +
        Nat.ofDigitChars 10 (n.fraction.getD []) 0 / 10 ^ (n.fraction.getD []).length) *
      10 ^ (n.exponent.map fun e => Sign.apply e.sign (Nat.ofDigitChars 10 e.digits 0)).getD 0)

theorem abs_denoted (n : Numeral) : |n.denoted| = n.magnitude := by
  have hsign : |if n.sign = some .minus then (-1 : ℚ) else 1| = 1 := by
    split <;> simp
  rw [denoted, magnitude, coefficient, digits, digitsValue_append, scale, abs_mul, hsign, one_mul,
    zpow_sub₀ (by norm_num), zpow_natCast]
  simp only [digitsValue_eq_ofDigitChars]
  generalize (n.exponent.map fun e => Sign.apply e.sign (Nat.ofDigitChars 10 e.digits 0)).getD 0 = e
  rw [abs_of_nonneg (mul_nonneg (by positivity) (zpow_nonneg (by norm_num) e))]
  push_cast
  field_simp

/-- A point or the mark of an exponent stands in a numeral only for the part that it introduces. -/
theorem WellFormed.isInteger_eq_false {n : Numeral} (h : n.WellFormed)
    (hmark : '.' ∈ n.text ∨ 'e' ∈ n.text ∨ 'E' ∈ n.text) : n.isInteger = false := by
  by_contra hinteger
  rw [Bool.not_eq_false, isInteger, Bool.and_eq_true, Option.isNone_iff_eq_none,
    Option.isNone_iff_eq_none] at hinteger
  have htext : n.text = Sign.text n.sign ++ n.whole := by
    simp [text, hinteger.1, hinteger.2]
  have hsign : ∀ c ∈ Sign.text n.sign, c = '+' ∨ c = '-' := by
    rcases n.sign with _ | _ | _ <;> simp [Sign.text]
  have hchar : ∀ c ∈ n.text, c = '+' ∨ c = '-' ∨ c.isDigit = true := by
    intro c hc
    rw [htext, List.mem_append] at hc
    rcases hc with hc | hc
    · exact (hsign c hc).imp_right .inl
    · exact .inr (.inr (h.whole.2 c hc))
  rcases hmark with hc | hc | hc
  all_goals exact absurd (hchar _ hc) (by decide)

end Numeral

namespace Double

theorem toLower_of_isDigit {c : Char} (h : c.isDigit = true) : c.toLower = c := by
  have hdigit : c.val.toNat ≤ 57 := (Char.isDigit_iff_toNat.1 h).2
  unfold Char.toLower
  rw [dif_neg]
  rintro ⟨hupper, -⟩
  have hletter : 65 ≤ c.val.toNat := UInt32.le_iff_toNat_le.1 hupper
  omega

/-- Behind a digit there is no word. -/
theorem isWord_eq_false {c : Char} {rest : List Char} (hc : c.isDigit = true) {w : String}
    (hw : ∃ d more, w.toList = d :: more ∧ d.isDigit = false) : isWord w (c :: rest) = false := by
  obtain ⟨d, more, hlist, hd⟩ := hw
  have hne : c ≠ d := by
    rintro rfl
    rw [hc] at hd
    cases hd
  rw [isWord, hlist, List.map_cons, toLower_of_isDigit hc]
  simp [hne]

theorem readUnsigned?_numeral {n : Numeral} (h : n.WellFormed) :
    readUnsigned? n.sign (n.whole ++ ((n.fraction.map ('.' :: ·)).getD [] ++
      (n.exponent.map Exponent.text).getD [])) = some (ofNumeral n) := by
  have hends : Ends [] := by simp [Ends]
  have hfraction := h.head_fraction hends
  have hexponent := h.head_exponent hends
  have hscan := Numeral.scanExponent_complete h.exponent (u := []) (by simp)
  rw [List.append_nil] at hfraction hexponent hscan
  obtain ⟨htake, hdrop⟩ := h.whole.split hfraction
  have hwhole : n.whole.isEmpty = false := by simpa using h.whole.1
  obtain ⟨sign, whole, fraction, exponent⟩ := n
  generalize (exponent.map Exponent.text).getD [] = x at *
  cases fraction with
  | none =>
    simp only [Option.map_none, Option.getD_none, List.nil_append] at htake hdrop hwhole hexponent ⊢
    have hpoint : ∀ rest, x ≠ '.' :: rest := by
      rintro rest rfl
      exact absurd (hexponent '.' rfl) (by decide)
    simp only [readUnsigned?, htake, hdrop, hwhole, hscan]
    rfl
  | some ds =>
    have hdigits : Numeral.Digits ds := h.fraction ds rfl
    obtain ⟨htake', hdrop'⟩ := hdigits.split fun c hc => by
      have := hexponent c hc
      simp only [Bool.and_eq_true] at this
      exact this.1
    simp only [Option.map_some, Option.getD_some, List.cons_append] at htake hdrop hwhole ⊢
    simp only [readUnsigned?, htake, hdrop, htake', hdrop', hwhole, hscan]
    rfl

/-- Every numeral is the text of a double. -/
theorem ofText?_render {n : Numeral} (h : n.WellFormed) :
    ofText? n.render = some (ofNumeral n) := by
  have hsign := h.whole.sign_scan n.sign
    ((n.fraction.map ('.' :: ·)).getD [] ++ (n.exponent.map Exponent.text).getD [])
  have htext : n.render.toList = Sign.text n.sign ++ (n.whole ++
      ((n.fraction.map ('.' :: ·)).getD [] ++ (n.exponent.map Exponent.text).getD [])) := by
    rw [Numeral.render, String.toList_ofList, Numeral.text]
    simp only [List.append_assoc]
  have hread := readUnsigned?_numeral h
  obtain ⟨c, rest, hbody, hc⟩ := h.whole.head
    ((n.fraction.map ('.' :: ·)).getD [] ++ (n.exponent.map Exponent.text).getD [])
  rw [hbody] at hsign htext hread
  have hinf : isWord "inf" (c :: rest) = false := isWord_eq_false hc ⟨'i', _, rfl, by decide⟩
  have hinfinity : isWord "infinity" (c :: rest) = false :=
    isWord_eq_false hc ⟨'i', _, rfl, by decide⟩
  have hnan : isWord "nan" (c :: rest) = false := isWord_eq_false hc ⟨'n', _, rfl, by decide⟩
  simp [ofText?, htext, hsign, hread, hinf, hinfinity, hnan]

end Double

/-! ## Ranges -/

/-- Digits behind a sign are in range when a word of 64 bits holds the number. -/
theorem Literal.inRange_integer_iff {sign : Option Sign} {digits : List Char} :
    (number ⟨sign, digits, none, none⟩).InRange ↔
      -2 ^ 63 ≤ Sign.apply sign (Nat.ofDigitChars 10 digits 0) ∧
        Sign.apply sign (Nat.ofDigitChars 10 digits 0) ≤ 2 ^ 63 - 1 := by
  exact Iff.rfl

namespace Double

variable {n : Numeral}

theorem placeOf_denoted_lt_iff (n : Numeral) :
    placeOf |n.denoted| < finitePlaces ↔ |n.denoted| < 2 ^ 1024 - 2 ^ 970 :=
  placeOf_lt_finitePlaces_iff (abs_nonneg _)

/-- Below the middle between the last finite double and the next the conversion is finite and
nearest to the number denoted. -/
theorem ofNumeral_finite (h : n.WellFormed) (hrange : |n.denoted| < 2 ^ 1024 - 2 ^ 970) :
    ∃ place, ofNumeral n = .finite n.negative place ∧ IsNearest |n.denoted| place := by
  have hplace := (placeOf_denoted_lt_iff n).2 hrange
  refine ⟨⟨placeOf |n.denoted|, hplace⟩, ?_, placeOf_isNearest (abs_nonneg _)⟩
  rw [Numeral.ofNumeral_eq h, ← n.abs_denoted, ofPlace_finite hplace]

theorem ofNumeral_infinite (h : n.WellFormed) (hrange : 2 ^ 1024 - 2 ^ 970 ≤ |n.denoted|) :
    ofNumeral n = .infinite n.negative := by
  have hplace : ¬placeOf |n.denoted| < finitePlaces := by
    rw [placeOf_denoted_lt_iff]
    exact not_lt.2 hrange
  rw [Numeral.ofNumeral_eq h, ← n.abs_denoted, ofPlace_infinite (Nat.le_of_not_lt hplace)]

end Double

/-! ## Reading -/

namespace Value

/-- The text of a numeral is read as the numeral. -/
theorem read_numeral {n : Numeral} (h : n.WellFormed) (r : Resolver) :
    read r n.render = (Literal.number n).value r := by
  apply read_of_whole
  rw [Numeral.render, String.toList_ofList]
  exact whole_of_spells (.number h)

theorem read_numeral_ok {n : Numeral} (h : n.WellFormed) (r : Resolver) {a : Number}
    (ha : Literal.numberOf n = .ok a) : read r n.render = .ok (.number a) := by
  rw [read_numeral h, Literal.value, ha]
  rfl

theorem read_numeral_error {n : Numeral} (h : n.WellFormed) (r : Resolver)
    (hrange : ¬(Literal.number n).InRange) : ∃ fault, read r n.render = .error (.value fault) ∧
      fault.detail =
        (if n.isInteger then "integer '" else "decimal '") ++ n.render ++ "' is out of range" :=
  ⟨_, (read_numeral h r).trans (Literal.value_eq_rangeFault hrange), Literal.rangeFault_detail n⟩

/-- Digits behind a sign, however many zeros they begin with, are read as the integer that they
denote if it is a word of 64 bits, and refused as out of range if not. A numeral with a point or an
exponent, of whatever length, is the text of a double and never read as an integer: what is read is
this double, the nearest to the number denoted, if that lies below the middle between the last
finite double and the next; else the number is refused as out of range. -/
theorem read_number (r : Resolver) :
    (∀ sign digits, Numeral.Digits digits →
      let value := Sign.apply sign (Nat.ofDigitChars 10 digits 0)
      let text := String.ofList (Sign.text sign ++ digits)
      (-2 ^ 63 ≤ value ∧ value ≤ 2 ^ 63 - 1 →
        ∃ i : Int64, i.toInt = value ∧ read r text = .ok (.number (.integer i))) ∧
      (¬(-2 ^ 63 ≤ value ∧ value ≤ 2 ^ 63 - 1) → ∃ fault, read r text = .error (.value fault) ∧
        fault.detail = "integer '" ++ text ++ "' is out of range")) ∧
    ∀ n : Numeral, n.WellFormed → ('.' ∈ n.text ∨ 'e' ∈ n.text ∨ 'E' ∈ n.text) →
      ∃ x, Double.ofText? n.render = some x ∧
        (|n.denoted| < 2 ^ 1024 - 2 ^ 970 → read r n.render = .ok (.number (.decimal x)) ∧
          ∃ place, x = .finite n.negative place ∧ Double.IsNearest |n.denoted| place) ∧
        (2 ^ 1024 - 2 ^ 970 ≤ |n.denoted| → x = .infinite n.negative ∧
          ∃ fault, read r n.render = .error (.value fault) ∧
            fault.detail = "decimal '" ++ n.render ++ "' is out of range") := by
  refine ⟨fun sign digits hdigits => ?_, fun n hn hmark => ?_⟩
  · intro value text
    let n : Numeral := ⟨sign, digits, none, none⟩
    have hn : n.WellFormed := ⟨hdigits, by simp [n], by simp [n]⟩
    have htext : text = n.render := by simp [n, text, Numeral.render, Numeral.text]
    have hrange : (Literal.number n).InRange ↔ -2 ^ 63 ≤ value ∧ value ≤ 2 ^ 63 - 1 :=
      Literal.inRange_integer_iff
    rw [← hrange, htext]
    refine ⟨fun h => ?_, fun h => read_numeral_error hn r h⟩
    obtain ⟨a, ha⟩ := Literal.exists_numberOf_iff.2 h
    rcases Literal.numberOf_ok_iff.1 ha with ⟨-, i, hi, rfl⟩ | ⟨hdecimal, -⟩
    · refine ⟨i, ?_, read_numeral_ok hn r ha⟩
      rw [hi, Numeral.integerValue_eq]
    · cases hdecimal
  · have hdecimal := hn.isInteger_eq_false hmark
    refine ⟨Double.ofNumeral n, Double.ofText?_render hn, fun hrange => ?_, fun hrange => ?_⟩
    · obtain ⟨place, hfinite, hnearest⟩ := Double.ofNumeral_finite hn hrange
      refine ⟨read_numeral_ok hn r ?_, place, hfinite, hnearest⟩
      exact Literal.numberOf_ok_iff.2 (.inr ⟨hdecimal, by rw [hfinite]; rfl, rfl⟩)
    · have hinfinite := Double.ofNumeral_infinite hn hrange
      have hnot : ¬(Literal.number n).InRange := by
        rw [Literal.inRange_number_iff, hdecimal, hinfinite]
        exact Bool.false_ne_true
      obtain ⟨fault, hread, hdetail⟩ := read_numeral_error hn r hnot
      rw [hdecimal] at hdetail
      exact ⟨hinfinite, fault, hread, hdetail⟩

/-- The least word, with zeros in front, and the number behind the greatest one; decimals just below
and just above the middle that decides. -/
theorem read_number_limits :
    let r : Resolver := ⟨.empty, .empty, .reject⟩
    (∃ i : Int64, i.toInt = -2 ^ 63 ∧
      read r "-0009223372036854775808" = .ok (.number (.integer i))) ∧
    (∃ fault, read r "9223372036854775808" = .error (.value fault)) ∧
    (∃ place, read r "1.7976931348623158e308" = .ok (.number (.decimal (.finite false place)))) ∧
    ∃ fault, read r "-1.7976931348623159e308" = .error (.value fault) := by
  intro r
  let below : Numeral :=
    ⟨none, ['1'], some "7976931348623158".toList, some ⟨'e', none, "308".toList⟩⟩
  let above : Numeral :=
    ⟨some .minus, ['1'], some "7976931348623159".toList, some ⟨'e', none, "308".toList⟩⟩
  have hbelow : below.WellFormed := (Numeral.scan_sound (t := below.text) (u := []) (by decide)).1
  have habove : above.WellFormed := (Numeral.scan_sound (t := above.text) (u := []) (by decide)).1
  obtain ⟨hinteger, hdecimal⟩ := read_number r
  obtain ⟨hleast, -⟩ := hinteger (some .minus) "0009223372036854775808".toList
    ⟨by decide, List.all_eq_true.1 (by decide)⟩
  obtain ⟨-, hnext⟩ := hinteger none "9223372036854775808".toList
    ⟨by decide, List.all_eq_true.1 (by decide)⟩
  obtain ⟨i, hi, hread⟩ := hleast (by decide)
  obtain ⟨fault, hrefused, -⟩ := hnext (by decide)
  obtain ⟨x, -, hfinite, -⟩ := hdecimal below hbelow (by decide)
  obtain ⟨hread', place, rfl, -⟩ := hfinite (by decide +kernel)
  obtain ⟨y, -, -, hinfinite⟩ := hdecimal above habove (by decide)
  obtain ⟨-, fault', hrefused', -⟩ := hinfinite (by decide +kernel)
  exact ⟨⟨i, hi, hread⟩, ⟨fault, hrefused⟩, ⟨place, hread'⟩, ⟨fault', hrefused'⟩⟩

end Value

end LifecycleQuery
