import LifecycleQuery.Double
import LifecycleQuery.Proofs.Numeral
import Mathlib.Data.Int.Log
import Mathlib.Data.Rat.Floor
import Mathlib.Tactic.FieldSimp
import Mathlib.Tactic.Linarith
import Mathlib.Tactic.NormNum
import Mathlib.Tactic.Positivity
import Mathlib.Tactic.Ring

/-!
# Rounding to places

The place nearest to a fraction depends on its value alone (`nearestPlace_eq`), so it is a function
`placeOf` of rational numbers. The number at a place is nearest to that place
(`placeOf_magnitude`), numbers from `2 ^ 1024` on are beyond the finite places, and those below
`2 ^ (-1075)` are nearest to zero. With the last two, the digits of a numeral are rounded as the
number that they spell, however many they are and whatever the exponent (`ofDigits_eq`).
-/

namespace LifecycleQuery

namespace Double

/-! ## Powers -/

theorem shift_quotient (b num den : ℕ) (p : ℤ) :
    ((num * Nat.pow b p.toNat : ℕ) : ℚ) / (den * Nat.pow b (-p).toNat : ℕ) =
      num / den * (b : ℚ) ^ p := by
  have hsplit : (b : ℚ) ^ p = b ^ p.toNat / b ^ (-p).toNat := by
    obtain ⟨n, rfl | rfl⟩ := p.eq_nat_or_neg
    · simp
    · simp [zpow_neg]
  rw [hsplit, div_mul_div_comm]
  simp

theorem quotient_shiftBinary (num den : ℕ) (p : ℤ) :
    ((shiftBinary num den p).1 : ℚ) / (shiftBinary num den p).2 = num / den * 2 ^ p :=
  shift_quotient 2 num den p

theorem quotient_shiftDecimal (num den : ℕ) (p : ℤ) :
    ((shiftDecimal num den p).1 : ℚ) / (shiftDecimal num den p).2 = num / den * 10 ^ p :=
  shift_quotient 10 num den p

theorem shiftBinary_den_pos (num : ℕ) {den : ℕ} (hd : 0 < den) (p : ℤ) :
    0 < (shiftBinary num den p).2 :=
  Nat.mul_pos hd (Nat.pow_pos (by decide))

theorem shiftDecimal_den_pos (num : ℕ) {den : ℕ} (hd : 0 < den) (p : ℤ) :
    0 < (shiftDecimal num den p).2 :=
  Nat.mul_pos hd (Nat.pow_pos (by decide))

theorem log_eq_of_bounds {x : ℚ} {e : ℤ} (hlow : 2 ^ e ≤ x) (hhigh : x < 2 ^ (e + 1)) :
    Int.log 2 x = e := by
  have hx : 0 < x := lt_of_lt_of_le (zpow_pos two_pos e) hlow
  have hle : e ≤ Int.log 2 x :=
    (Int.zpow_le_iff_le_log Nat.one_lt_two hx).1 (by exact_mod_cast hlow)
  have hlt : Int.log 2 x < e + 1 :=
    (Int.lt_zpow_iff_log_lt Nat.one_lt_two hx).1 (by exact_mod_cast hhigh)
  omega

theorem binaryMagnitude_eq_log {num den : ℕ} (hn : 0 < num) (hd : 0 < den) :
    binaryMagnitude num den = Int.log 2 ((num : ℚ) / den) := by
  have hnum : (2 : ℚ) ^ num.log2 ≤ num ∧ (num : ℚ) < 2 ^ (num.log2 + 1) :=
    ⟨by exact_mod_cast Nat.log2_self_le (Nat.ne_of_gt hn), by exact_mod_cast Nat.lt_log2_self⟩
  have hden : (2 : ℚ) ^ den.log2 ≤ den ∧ (den : ℚ) < 2 ^ (den.log2 + 1) :=
    ⟨by exact_mod_cast Nat.log2_self_le (Nat.ne_of_gt hd), by exact_mod_cast Nat.lt_log2_self⟩
  have hdpos : (0 : ℚ) < den := by exact_mod_cast hd
  -- the guess is right or one too large
  have hhigh : (num : ℚ) / den < 2 ^ ((num.log2 : ℤ) - den.log2 + 1) := by
    rw [div_lt_iff₀ hdpos, sub_add_eq_add_sub, zpow_sub₀ two_ne_zero, div_mul_eq_mul_div,
      lt_div_iff₀ (zpow_pos two_pos _)]
    calc (num : ℚ) * 2 ^ (den.log2 : ℤ) ≤ num * den := by gcongr; exact_mod_cast hden.1
      _ < 2 ^ ((num.log2 : ℤ) + 1) * den := by gcongr; exact_mod_cast hnum.2
  have hlow : (2 : ℚ) ^ ((num.log2 : ℤ) - den.log2 - 1) ≤ num / den := by
    rw [le_div_iff₀ hdpos, sub_sub, zpow_sub₀ two_ne_zero, div_mul_eq_mul_div,
      div_le_iff₀ (zpow_pos two_pos _)]
    calc (2 : ℚ) ^ (num.log2 : ℤ) * den ≤ num * den := by gcongr; exact_mod_cast hnum.1
      _ ≤ num * 2 ^ ((den.log2 : ℤ) + 1) := by gcongr; exact_mod_cast hden.2.le
  have hshift := quotient_shiftBinary num den (-((num.log2 : ℤ) - den.log2))
  have hspos := shiftBinary_den_pos num hd (-((num.log2 : ℤ) - den.log2))
  have htest : (shiftBinary num den (-((num.log2 : ℤ) - den.log2))).2 ≤
      (shiftBinary num den (-((num.log2 : ℤ) - den.log2))).1 ↔
        (2 : ℚ) ^ ((num.log2 : ℤ) - den.log2) ≤ num / den := by
    rw [zpow_neg, ← div_eq_mul_inv] at hshift
    rw [← one_le_div₀ (zpow_pos two_pos _), ← hshift,
      one_le_div₀ (by exact_mod_cast hspos), Nat.cast_le]
  rw [binaryMagnitude]
  dsimp only
  split
  · next h => exact (log_eq_of_bounds (htest.1 h) hhigh).symm
  · next h =>
    refine (log_eq_of_bounds hlow ?_).symm
    rw [sub_add_cancel]
    exact not_le.1 fun hle => h (htest.2 hle)

/-! ## Rounding to whole numbers -/

theorem roundHalfEven_scale (num den : ℕ) {k : ℕ} (hk : 0 < k) :
    roundHalfEven (num * k) (den * k) = roundHalfEven num den := by
  have hmod : 2 * (num * k % (den * k)) = 2 * (num % den) * k := by
    rw [Nat.mul_mod_mul_right, Nat.mul_assoc]
  simp only [roundHalfEven, hmod, Nat.mul_div_mul_right _ _ hk, Nat.mul_lt_mul_right hk]

/-- Rounding depends on the value of the fraction alone. -/
theorem roundHalfEven_congr {num den num' den' : ℕ} (hd : 0 < den) (hd' : 0 < den')
    (h : (num : ℚ) / den = num' / den') : roundHalfEven num den = roundHalfEven num' den' := by
  have hcross : num * den' = num' * den := by
    rw [div_eq_div_iff (by exact_mod_cast hd.ne') (by exact_mod_cast hd'.ne')] at h
    exact_mod_cast h
  rw [← roundHalfEven_scale num den hd', hcross, Nat.mul_comm den den', roundHalfEven_scale _ _ hd]

theorem roundHalfEven_natCast {num den k : ℕ} (hd : 0 < den) (h : (num : ℚ) / den = k) :
    roundHalfEven num den = k := by
  have hone : (num : ℚ) / den = k / (1 : ℕ) := by rw [h, Nat.cast_one, div_one]
  rw [roundHalfEven_congr hd Nat.one_pos hone]
  simp [roundHalfEven, Nat.mod_one]

theorem le_roundHalfEven {num den k : ℕ} (hd : 0 < den) (h : (k : ℚ) ≤ num / den) :
    k ≤ roundHalfEven num den := by
  have hk : k ≤ num / den := by
    rw [le_div_iff₀ (by exact_mod_cast hd)] at h
    exact (Nat.le_div_iff_mul_le hd).2 (by exact_mod_cast h)
  simp only [roundHalfEven]
  split
  · exact hk
  · split <;> omega

theorem roundHalfEven_eq_zero {num den : ℕ} (hd : 0 < den) (h : (num : ℚ) / den < 1 / 2) :
    roundHalfEven num den = 0 := by
  have htwice : 2 * num < den := by
    rw [div_lt_div_iff₀ (by exact_mod_cast hd) two_pos, one_mul, mul_comm] at h
    exact_mod_cast h
  have hlt : num < den := by omega
  simp only [roundHalfEven, Nat.mod_eq_of_lt hlt, htwice, if_true, Nat.div_eq_of_lt hlt]

/-! ## Places of numbers -/

/-- The place nearest to a number that is not negative. -/
def placeOf (x : ℚ) : ℕ := nearestPlace x.num.natAbs x.den

/-- The exponent that a number is rounded with. -/
def powerOf (x : ℚ) : ℤ := max (Int.log 2 x - 52) (-1074)

theorem nearestPlace_pos {num den : ℕ} (hn : 0 < num) (hd : 0 < den) :
    ∃ n d : ℕ, 0 < d ∧ (n : ℚ) / d = num / den * 2 ^ (-powerOf (num / den)) ∧
      nearestPlace num den =
        (powerOf (num / den) + 1074).toNat * fullPlace + roundHalfEven n d := by
  refine ⟨_, _, shiftBinary_den_pos num hd _, quotient_shiftBinary num den _, ?_⟩
  rw [nearestPlace, if_neg hn.ne', binaryMagnitude_eq_log hn hd]
  rfl

theorem placeOf_zero : placeOf 0 = 0 := rfl

theorem placeOf_pos {x : ℚ} (hx : 0 < x) : ∃ n d : ℕ, 0 < d ∧ (n : ℚ) / d = x * 2 ^ (-powerOf x) ∧
    placeOf x = (powerOf x + 1074).toNat * fullPlace + roundHalfEven n d := by
  have hnum : 0 < x.num.natAbs := Int.natAbs_pos.2 (Rat.num_pos.2 hx).ne'
  have hcast : ((x.num.natAbs : ℕ) : ℚ) / x.den = x := by
    rw [Nat.cast_natAbs, abs_of_pos (Rat.num_pos.2 hx), Rat.num_div_den]
  have h := nearestPlace_pos hnum x.den_pos
  rwa [hcast] at h

theorem nearestPlace_eq {num den : ℕ} (hd : 0 < den) :
    nearestPlace num den = placeOf (num / den) := by
  rcases Nat.eq_zero_or_pos num with rfl | hn
  · simp [placeOf, nearestPlace]
  · have hx : (0 : ℚ) < num / den := div_pos (by exact_mod_cast hn) (by exact_mod_cast hd)
    obtain ⟨n, d, hpos, hquot, hplace⟩ := nearestPlace_pos hn hd
    obtain ⟨n', d', hpos', hquot', hplace'⟩ := placeOf_pos hx
    rw [hplace, hplace', roundHalfEven_congr hpos hpos' (hquot.trans hquot'.symm)]

/-- The number at a place. -/
def magnitude (place : ℕ) : ℚ := significand place * 2 ^ exponent place

theorem significand_lt (place : ℕ) : significand place < 2 ^ 53 := by
  unfold significand fullPlace
  split <;> omega

theorem le_significand {place : ℕ} (h : fullPlace ≤ place) : 2 ^ 52 ≤ significand place := by
  rw [significand, if_neg (Nat.not_lt.2 h)]
  exact Nat.le_add_right _ _

theorem significand_pos {place : ℕ} (h : 0 < place) : 0 < significand place := by
  unfold significand fullPlace
  split <;> omega

/-- A place is its significand behind all the places of smaller exponents. -/
theorem place_eq (place : ℕ) :
    (exponent place + 1074).toNat * fullPlace + significand place = place := by
  unfold exponent significand fullPlace
  split <;> omega

theorem magnitude_pos {place : ℕ} (h : 0 < place) : 0 < magnitude place :=
  mul_pos (by exact_mod_cast significand_pos h) (zpow_pos two_pos _)

/-- The number at a place is rounded with the place's own exponent. -/
theorem powerOf_magnitude {place : ℕ} (h : 0 < place) :
    powerOf (magnitude place) = exponent place := by
  have hhigh : Int.log 2 (magnitude place) < 53 + exponent place := by
    refine (Int.lt_zpow_iff_log_lt Nat.one_lt_two (magnitude_pos h)).1 ?_
    rw [Nat.cast_two, zpow_add₀ two_ne_zero, magnitude]
    exact mul_lt_mul_of_pos_right (by exact_mod_cast significand_lt place) (zpow_pos two_pos _)
  rcases Nat.lt_or_ge place fullPlace with hsmall | hfull
  · have hleast : exponent place = -1074 := by
      rw [exponent, Nat.div_eq_of_lt hsmall]
      rfl
    rw [powerOf]
    omega
  · have hlow : 52 + exponent place ≤ Int.log 2 (magnitude place) := by
      refine (Int.zpow_le_iff_le_log Nat.one_lt_two (magnitude_pos h)).1 ?_
      rw [Nat.cast_two, zpow_add₀ two_ne_zero, magnitude]
      exact mul_le_mul_of_nonneg_right (by exact_mod_cast le_significand hfull)
        (zpow_pos two_pos _).le
    have hleast : -1074 ≤ exponent place := by
      unfold exponent
      omega
    rw [powerOf]
    omega

/-- The number at a place is nearest to that place. -/
theorem placeOf_magnitude (place : ℕ) : placeOf (magnitude place) = place := by
  rcases Nat.eq_zero_or_pos place with rfl | h
  · simp [magnitude, significand, fullPlace, placeOf_zero]
  · obtain ⟨n, d, hd, hquot, hplace⟩ := placeOf_pos (magnitude_pos h)
    rw [powerOf_magnitude h] at hquot hplace
    have hwhole : (n : ℚ) / d = significand place := by
      rw [hquot, magnitude, mul_assoc, ← zpow_add₀ two_ne_zero, add_neg_cancel, zpow_zero, mul_one]
    rw [hplace, roundHalfEven_natCast hd hwhole, place_eq]

/-- Unless the exponent is the least one, the significand is full. -/
theorem full_significand {x : ℚ} (hx : 0 < x) (h : powerOf x = Int.log 2 x - 52) :
    ((2 ^ 52 : ℕ) : ℚ) ≤ x * 2 ^ (-powerOf x) := by
  have hle : (2 : ℚ) ^ Int.log 2 x ≤ x := by exact_mod_cast Int.zpow_log_le_self Nat.one_lt_two hx
  rw [h]
  calc ((2 ^ 52 : ℕ) : ℚ) = 2 ^ Int.log 2 x * 2 ^ (-(Int.log 2 x - 52)) := by
        rw [← zpow_add₀ two_ne_zero]
        norm_num
    _ ≤ x * 2 ^ (-(Int.log 2 x - 52)) :=
        mul_le_mul_of_nonneg_right hle (zpow_pos two_pos _).le

/-- Numbers from here on are too large for a finite place. -/
theorem finitePlaces_le_placeOf {x : ℚ} (h : 2 ^ (1024 : ℤ) ≤ x) : finitePlaces ≤ placeOf x := by
  have hx : 0 < x := lt_of_lt_of_le (zpow_pos two_pos _) h
  have hlog : 1024 ≤ Int.log 2 x :=
    (Int.zpow_le_iff_le_log Nat.one_lt_two hx).1 (by exact_mod_cast h)
  have hpower : powerOf x = Int.log 2 x - 52 := by
    rw [powerOf]
    omega
  obtain ⟨n, d, hd, hquot, hplace⟩ := placeOf_pos hx
  have hfull : ((2 ^ 52 : ℕ) : ℚ) ≤ n / d := hquot ▸ full_significand hx hpower
  have hround : fullPlace ≤ roundHalfEven n d := le_roundHalfEven hd hfull
  have hmul : 2046 * fullPlace ≤ (powerOf x + 1074).toNat * fullPlace :=
    Nat.mul_le_mul_right _ (by omega)
  rw [hplace]
  calc finitePlaces = 2046 * fullPlace + fullPlace := rfl
    _ ≤ _ := Nat.add_le_add hmul hround

/-- Numbers below half of the least magnitude are nearest to zero. -/
theorem placeOf_eq_zero {x : ℚ} (hx : 0 < x) (h : x < 2 ^ (-1075 : ℤ)) : placeOf x = 0 := by
  have hlog : Int.log 2 x < -1075 :=
    (Int.lt_zpow_iff_log_lt Nat.one_lt_two hx).1 (by exact_mod_cast h)
  have hpower : powerOf x = -1074 := by
    rw [powerOf]
    omega
  obtain ⟨n, d, hd, hquot, hplace⟩ := placeOf_pos hx
  have hhalf : (n : ℚ) / d < 1 / 2 := by
    rw [hquot, hpower]
    calc x * 2 ^ (-(-1074) : ℤ) < 2 ^ (-1075 : ℤ) * 2 ^ (-(-1074) : ℤ) :=
          mul_lt_mul_of_pos_right h (zpow_pos two_pos _)
      _ = 1 / 2 := by
          rw [← zpow_add₀ two_ne_zero]
          norm_num
  rw [hplace, hpower, roundHalfEven_eq_zero hd hhalf]
  rfl

/-! ## Digits -/

theorem ofPlace_finite {negative : Bool} {place : ℕ} (h : place < finitePlaces) :
    ofPlace negative place = finite negative ⟨place, h⟩ := dif_pos h

theorem ofPlace_infinite {negative : Bool} {place : ℕ} (h : finitePlaces ≤ place) :
    ofPlace negative place = infinite negative := dif_neg (Nat.not_lt.2 h)

/-- Digits are rounded as the number that they spell; the cut-offs for long ones lose nothing. -/
theorem ofDigits_eq (negative : Bool) {digits : List Char} (h : ∀ c ∈ digits, c.isDigit = true)
    (scale : ℤ) :
    ofDigits negative digits scale =
      ofPlace negative (placeOf (digitsValue digits * 10 ^ scale)) := by
  have hten : (0 : ℚ) < 10 ^ scale := zpow_pos (by norm_num) scale
  unfold ofDigits
  dsimp only
  split
  · next hzero => rw [hzero, Nat.cast_zero, zero_mul, placeOf_zero]
  · next hzero =>
    have hone : (1 : ℚ) ≤ digitsValue digits := by exact_mod_cast Nat.pos_of_ne_zero hzero
    split
    · next hlarge =>
      refine (ofPlace_infinite (finitePlaces_le_placeOf ?_)).symm
      have hcut : 2 ^ 1024 ≤ 10 ^ 310 := by decide +kernel
      calc (2 : ℚ) ^ (1024 : ℤ) ≤ 10 ^ (310 : ℤ) := by exact_mod_cast hcut
        _ ≤ 10 ^ scale := zpow_le_zpow_right₀ (by norm_num) hlarge.le
        _ ≤ digitsValue digits * 10 ^ scale := le_mul_of_one_le_left hten.le hone
    · split
      · next hsmall =>
        refine congrArg _ (placeOf_eq_zero (mul_pos (by linarith) hten) ?_).symm
        have hlt : (digitsValue digits : ℚ) < 10 ^ (digits.length : ℤ) := by
          exact_mod_cast digitsValue_lt h
        have hcut : 2 ^ 1075 ≤ 10 ^ 330 := by decide +kernel
        have hinv : ((10 : ℚ) ^ (330 : ℤ))⁻¹ ≤ (2 ^ (1075 : ℤ))⁻¹ :=
          inv_anti₀ (zpow_pos two_pos _) (by exact_mod_cast hcut)
        calc (digitsValue digits : ℚ) * 10 ^ scale
            < 10 ^ (digits.length : ℤ) * 10 ^ scale := mul_lt_mul_of_pos_right hlt hten
          _ = 10 ^ ((digits.length : ℤ) + scale) := (zpow_add₀ (by norm_num) _ _).symm
          _ ≤ 10 ^ (-330 : ℤ) := zpow_le_zpow_right₀ (by norm_num) hsmall.le
          _ ≤ 2 ^ (-1075 : ℤ) := by rwa [zpow_neg, zpow_neg]
      · rw [ofRatio, nearestPlace_eq (shiftDecimal_den_pos _ Nat.one_pos scale),
          quotient_shiftDecimal, Nat.cast_one, div_one]

end Double

end LifecycleQuery
