import LifecycleQuery.Double.Notation
import LifecycleQuery.Proofs.Double.Rounding
import LifecycleQuery.Proofs.Grammar.Numeral

/-!
# Written doubles are read back

The shortest decimal of a place rounds to that place (`shortest_place`), and however a notation
arranges its digits, the numeral writes the same number (`arrange_writes`). So the numeral of a
finite double is read as that double (`ofNumeral_numeral`).
-/

namespace LifecycleQuery

open Double

/-! ## Shortest decimals -/

namespace Decimal

def value (d : Decimal) : ℚ := d.coefficient * 10 ^ d.exponent

theorem place_eq (d : Decimal) : d.place = placeOf d.value := by
  have hden := shiftDecimal_den_pos d.coefficient Nat.one_pos d.exponent
  rw [value, ← div_one (d.coefficient : ℚ), ← Nat.cast_one, ← quotient_shiftDecimal]
  exact nearestPlace_eq hden

theorem exact_value (place : ℕ) : (exact place).value = Double.magnitude place := by
  rw [exact, Double.magnitude]
  generalize Double.exponent place = q
  split
  · next hq =>
    obtain ⟨n, rfl⟩ := Int.eq_ofNat_of_zero_le hq
    simp [value]
  · next hq =>
    have hfive : (5 : ℚ) ^ (-q).toNat * 5 ^ q = 1 := by
      rw [← zpow_natCast, Int.toNat_of_nonneg (by omega), ← zpow_add₀ (by norm_num),
        neg_add_cancel, zpow_zero]
    have hten : (10 : ℚ) ^ q = 5 ^ q * 2 ^ q := by
      rw [← mul_zpow]
      norm_num
    calc ((significand place * 5 ^ (-q).toNat : ℕ) : ℚ) * 10 ^ q
        = significand place * (5 ^ (-q).toNat * 5 ^ q) * 2 ^ q := by
          rw [hten]
          push_cast
          ring
      _ = significand place * 2 ^ q := by rw [hfive, mul_one]

theorem onGrid?_place {tie : Tie} {place : ℕ} {e : ℤ} {d : Decimal}
    (h : onGrid? tie place e = some d) : d.place = place := by
  unfold onGrid? at h
  exact beq_iff_eq.1 (List.find?_some (p := fun c : Decimal => c.place == place) h)

/-- What the search finds rounds to the place, and so does the exact expansion. -/
theorem shortest_place (tie : Tie) (place : ℕ) : (shortest tie place).place = place := by
  rw [shortest]
  dsimp only
  cases hfound : (List.range 17).findSome? fun (i : ℕ) =>
      onGrid? tie place (magnitude (ratio place).1 (ratio place).2 - i) with
  | none => rw [Option.getD_none, place_eq, exact_value, placeOf_magnitude]
  | some d =>
    obtain ⟨i, -, hd⟩ := List.exists_of_findSome?_eq_some hfound
    exact onGrid?_place hd

theorem shortest_ne_zero (tie : Tie) {place : ℕ} (h : place ≠ 0) :
    (shortest tie place).coefficient ≠ 0 := by
  intro hzero
  have hplace := shortest_place tie place
  rw [place_eq, value, hzero, Nat.cast_zero, zero_mul, placeOf_zero] at hplace
  exact h hplace.symm

end Decimal

/-! ## Numerals as numbers -/

namespace Numeral

/-- The number that a numeral writes behind its sign. -/
def magnitude (n : Numeral) : ℚ := n.coefficient * 10 ^ n.scale

theorem Digits.take {ds : List Char} (h : Digits ds) {n : ℕ} (hn : n ≠ 0) : Digits (ds.take n) :=
  ⟨by simp [h.1, hn], fun c hc => h.2 c (List.mem_of_mem_take hc)⟩

theorem Digits.drop {ds : List Char} (h : Digits ds) {n : ℕ} (hn : n < ds.length) :
    Digits (ds.drop n) :=
  ⟨by simp [hn], fun c hc => h.2 c (List.mem_of_mem_drop hc)⟩

theorem digits_toDigits (n : ℕ) : Digits (Nat.toDigits 10 n) :=
  ⟨Nat.toDigits_ne_nil, fun _ hc => Nat.isDigit_of_mem_toDigits (by decide) (by decide) hc⟩

theorem WellFormed.isDigit {n : Numeral} (h : n.WellFormed) : ∀ c ∈ n.digits, c.isDigit = true := by
  intro c hc
  rcases List.mem_append.1 hc with hw | hf
  · exact h.whole.2 c hw
  · cases hn : n.fraction with
    | none => rw [hn] at hf; cases hf
    | some ds =>
      rw [hn] at hf
      exact (h.fraction ds hn).2 c hf

theorem ofNumeral_eq {n : Numeral} (h : n.WellFormed) :
    ofNumeral n = ofPlace n.negative (placeOf n.magnitude) :=
  ofDigits_eq n.negative h.isDigit n.scale

/-- A decimal of the given sign and magnitude. -/
structure Writes (n : Numeral) (sign : Option Sign) (x : ℚ) : Prop where
  wellFormed : n.WellFormed
  isDecimal : n.isInteger = false
  sign : n.sign = sign
  magnitude : n.magnitude = x

end Numeral

/-! ## Arranged digits -/

namespace Notation

open Numeral

theorem digits_zero : Digits ['0'] :=
  ⟨List.cons_ne_nil _ _, List.forall_mem_singleton.2 (by decide)⟩

theorem digitsValue_append_zeros (digits : List Char) (n : ℕ) :
    digitsValue (digits ++ zeros n) = digitsValue digits * 10 ^ n := by
  rw [digitsValue_append, zeros, digitsValue_zeros, List.length_replicate, Nat.add_zero]

theorem isDigit_of_mem_zeros {n : ℕ} {c : Char} (h : c ∈ zeros n) : c.isDigit = true := by
  rw [List.eq_of_mem_replicate h]
  decide

theorem digits_append_zeros {digits : List Char} (h : Digits digits) (n : ℕ) :
    Digits (digits ++ zeros n) :=
  ⟨by simp [h.1], fun c hc => (List.mem_append.1 hc).elim (h.2 c) isDigit_of_mem_zeros⟩

variable {s : Option Sign} {digits : List Char} {top : ℤ}

/-- Digits on both sides of a point, which moves the number by as many places as stand behind. -/
theorem positional_writes {whole fraction : List Char} (hw : Digits whole) (hf : Digits fraction) :
    Writes ⟨s, whole, some fraction, none⟩ s
      (digitsValue (whole ++ fraction) * 10 ^ (-(fraction.length : ℤ))) where
  wellFormed :=
    { whole := hw
      fraction := by
        rintro _ ⟨⟩
        exact hf
      exponent := by rintro _ ⟨⟩ }
  isDecimal := rfl
  sign := rfl
  magnitude := by simp [Numeral.magnitude, coefficient, Numeral.digits, scale]

/-- Digits behind the point, with zeros in front of them. -/
theorem below_one_writes (h : Digits digits) (htop : top < 0) :
    Writes ⟨s, ['0'], some (zeros (-top - 1).toNat ++ digits), none⟩ s
      (digitsValue digits * 10 ^ (top + 1 - digits.length)) := by
  have hfraction : Digits (zeros (-top - 1).toNat ++ digits) :=
    ⟨by simp [h.1], fun c hc => (List.mem_append.1 hc).elim isDigit_of_mem_zeros (h.2 c)⟩
  have hvalue : digitsValue (['0'] ++ (zeros (-top - 1).toNat ++ digits)) =
      digitsValue digits := by
    rw [digitsValue_append, digitsValue_append, zeros, digitsValue_zeros]
    simp [digitsValue]
  have hscale : -((zeros (-top - 1).toNat ++ digits).length : ℤ) = top + 1 - digits.length := by
    rw [List.length_append, zeros, List.length_replicate]
    omega
  rw [← hvalue, ← hscale]
  exact positional_writes digits_zero hfraction

/-- The point stands among the digits. -/
theorem among_writes (h : Digits digits) {before : ℕ} (hzero : before ≠ 0)
    (hlt : before < digits.length) :
    Writes ⟨s, digits.take before, some (digits.drop before), none⟩ s
      (digitsValue digits * 10 ^ ((before : ℤ) - digits.length)) := by
  have hscale : -((digits.drop before).length : ℤ) = before - digits.length := by
    rw [List.length_drop]
    omega
  have hwrites := positional_writes (s := s) (h.take hzero) (h.drop hlt)
  rwa [List.take_append_drop, hscale] at hwrites

/-- Digits before the point, with zeros up to it. -/
theorem whole_writes (h : Digits digits) (n : ℕ) :
    Writes ⟨s, digits ++ zeros n, some ['0'], none⟩ s
      (digitsValue digits * 10 ^ (n : ℤ)) := by
  have hvalue : digitsValue (digits ++ zeros n ++ ['0']) = digitsValue digits * 10 ^ (n + 1) := by
    rw [List.append_assoc, show zeros n ++ ['0'] = zeros (n + 1) from List.replicate_succ'.symm,
      digitsValue_append_zeros]
  have hnumber : (digitsValue (digits ++ zeros n ++ ['0']) : ℚ) * 10 ^ (-1 : ℤ) =
      digitsValue digits * 10 ^ (n : ℤ) := by
    rw [hvalue, Nat.cast_mul, Nat.cast_pow, mul_assoc, Nat.cast_ofNat, ← zpow_natCast,
      ← zpow_add₀ (by norm_num), Nat.cast_succ, add_neg_cancel_right]
  rw [← hnumber]
  exact positional_writes (digits_append_zeros h n) digits_zero

/-- One digit before the point and an exponent. -/
theorem exponent_writes (h : Digits digits) {mark : Option Sign} (hmark : mark ≠ some .minus) :
    Writes ⟨s, digits.take 1,
      if (digits.drop 1).isEmpty then none else some (digits.drop 1),
      some ⟨'e', if top < 0 then some .minus else mark, Nat.toDigits 10 top.natAbs⟩⟩ s
      (digitsValue digits * 10 ^ (top + 1 - digits.length)) where
  wellFormed :=
    { whole := h.take Nat.one_ne_zero
      fraction := by
        intro ds hds
        split at hds
        · cases hds
        · next hne =>
          cases hds
          exact ⟨by simpa using hne, fun c hc => h.2 c (List.mem_of_mem_drop hc)⟩
      exponent := by
        rintro _ ⟨⟩
        exact ⟨.inl rfl, digits_toDigits _⟩ }
  isDecimal := Bool.and_false _
  sign := rfl
  magnitude := by
    have hfraction : (if (digits.drop 1).isEmpty then none else some (digits.drop 1)).getD [] =
        digits.drop 1 := by
      split
      · next he => exact (List.isEmpty_iff.1 he).symm
      · rfl
    have hpower : Sign.apply (if top < 0 then some .minus else mark)
        (digitsValue (Nat.toDigits 10 top.natAbs)) = top := by
      rw [digitsValue_toDigits, Sign.apply]
      rcases lt_or_ge top 0 with htop | htop
      · rw [if_pos htop, if_pos rfl]
        omega
      · rw [if_neg (Int.not_lt.2 htop), if_neg hmark]
        omega
    have hlength : digits.length ≠ 0 := by simp [h.1]
    have hscale : top - ((digits.drop 1).length : ℤ) = top + 1 - digits.length := by
      rw [List.length_drop]
      omega
    rw [Numeral.magnitude, coefficient, Numeral.digits, scale]
    dsimp only
    rw [hfraction, List.take_append_drop, Option.map_some, Option.getD_some, hpower, hscale]

/-- However the digits are arranged, they write the same number. -/
theorem arrange_writes {f : Notation} (hf : f.exponentSign ≠ some .minus) (h : Digits digits) :
    Writes (f.arrange s digits top) s
      (digitsValue digits * 10 ^ (top + 1 - digits.length)) := by
  rw [arrange]
  split
  · split
    · next htop => exact below_one_writes h htop
    · next htop =>
      have hbefore : ((top.toNat + 1 : ℕ) : ℤ) = top + 1 := by omega
      dsimp only
      rcases Nat.lt_or_ge (top.toNat + 1) digits.length with hlt | hge
      · have hpad : top.toNat + 1 - digits.length = 0 := by omega
        rw [hpad, if_neg (by simp; omega), ← hbefore]
        simpa [zeros] using among_writes (s := s) h (Nat.succ_ne_zero _) hlt
      · have hpad : top + 1 - digits.length = (top.toNat + 1 - digits.length : ℕ) := by omega
        rw [List.take_of_length_le hge, List.drop_of_length_le hge, hpad]
        exact whole_writes h _
  · exact exponent_writes h hf

/-! ## Numerals of doubles -/

theorem dropZeros_append (digits : List Char) : ∃ n, digits = dropZeros digits ++ zeros n := by
  refine ⟨(digits.reverse.takeWhile (· == '0')).length, ?_⟩
  have hzeros : digits.reverse.takeWhile (· == '0') =
      zeros (digits.reverse.takeWhile (· == '0')).length :=
    List.eq_replicate_iff.2 ⟨rfl, fun c hc =>
      beq_iff_eq.1 (List.all_eq_true.1 List.all_takeWhile c hc)⟩
  have hreverse : zeros (digits.reverse.takeWhile (· == '0')).length =
      (digits.reverse.takeWhile (· == '0')).reverse := by
    rw [hzeros]
    simp [zeros]
  rw [hreverse, dropZeros, ← List.reverse_append, List.takeWhile_append_dropWhile,
    List.reverse_reverse]

/-- Digits that do not spell zero are left, and write the same with the right power of ten. -/
theorem dropZeros_digits (h : Digits digits) (hvalue : digitsValue digits ≠ 0) :
    Digits (dropZeros digits) := by
  obtain ⟨n, hn⟩ := dropZeros_append digits
  refine ⟨fun hnil => hvalue ?_, fun c hc => h.2 c ?_⟩
  · rw [hn, hnil, digitsValue_append_zeros]
    exact Nat.zero_mul _
  · rw [hn]
    exact List.mem_append_left _ hc

theorem dropZeros_value (digits : List Char) (e : ℤ) :
    (digitsValue (dropZeros digits) : ℚ) * 10 ^ (e + digits.length - (dropZeros digits).length) =
      digitsValue digits * 10 ^ e := by
  obtain ⟨n, hn⟩ := dropZeros_append digits
  have hlength : e + digits.length - (dropZeros digits).length = n + e := by
    have := congrArg List.length hn
    rw [List.length_append, zeros, List.length_replicate] at this
    omega
  have hvalue := congrArg digitsValue hn
  rw [digitsValue_append_zeros] at hvalue
  rw [hlength, hvalue, zpow_add₀ (by norm_num), zpow_natCast]
  push_cast
  ring

variable {f : Notation}

theorem numeral_writes (hf : f.exponentSign ≠ some .minus) (negative : Bool) (place : ℕ) :
    ∃ x, Writes (f.numeral negative place) (if negative then some .minus else none) x ∧
      placeOf x = place := by
  rw [numeral]
  dsimp only
  generalize (if negative then some Sign.minus else none) = s
  split
  · next hzero =>
    refine ⟨0, ?_, by rw [hzero, placeOf_zero]⟩
    simpa [digitsValue, zeros] using whole_writes (s := s) digits_zero 0
  · next hne =>
    generalize hd : Decimal.shortest f.tie place = d
    generalize hall : Nat.toDigits 10 d.coefficient = all
    have hvalue : digitsValue all = d.coefficient := by rw [← hall, digitsValue_toDigits]
    have hnonzero : d.coefficient ≠ 0 := hd ▸ Decimal.shortest_ne_zero f.tie hne
    have hdigits : Digits all := hall ▸ digits_toDigits _
    have hpos : 0 < all.length := List.length_pos_iff.2 hdigits.1
    -- the power of the first digit does not depend on the zeros dropped at the end
    have htop : d.exponent + (all.length - 1 : ℕ) + 1 = d.exponent + all.length := by omega
    refine ⟨d.value, ?_, by rw [← Decimal.place_eq, ← hd, Decimal.shortest_place]⟩
    rw [Decimal.value, ← hvalue, ← dropZeros_value, ← htop]
    exact arrange_writes hf (dropZeros_digits hdigits (hvalue ▸ hnonzero))

/-- The numeral of a finite double is read as that double. -/
theorem ofNumeral_numeral (hf : f.exponentSign ≠ some .minus) (negative : Bool)
    (place : Fin finitePlaces) :
    ofNumeral (f.numeral negative place) = .finite negative place := by
  obtain ⟨x, hwrites, hplace⟩ := numeral_writes hf negative place
  have hsign : (f.numeral negative place).negative = negative := by
    rw [Numeral.negative, hwrites.sign]
    cases negative <;> rfl
  rw [ofNumeral_eq hwrites.wellFormed, hwrites.magnitude, hplace, hsign, ofPlace_finite place.isLt]

end Notation

end LifecycleQuery
