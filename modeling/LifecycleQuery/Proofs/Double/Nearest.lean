import LifecycleQuery.Proofs.Double.Rounding
import Mathlib.Algebra.Order.Group.Nat
import Mathlib.Order.Monotone.Basic

/-!
# Rounding is correct

The place of a number is nearest to it, and of two places equally near it is the even one
(`placeOf_isNearest`). Rounding looks at one grid of numbers, the multiples of two to the power
`powerOf x`. A place off this grid belongs to a finer one, and then it lies below all that the grid
has a full significand for, as `x` itself does not. Places go on beyond the finite ones as if
exponents had no bound, so a number rounds to a finite double exactly when it lies below the middle
between the last finite place and the next (`placeOf_lt_finitePlaces_iff`).
-/

namespace LifecycleQuery.Double

/-- The place is nearest to the number, and the even one if another is as near. -/
structure IsNearest (x : ℚ) (place : ℕ) : Prop where
  least : ∀ p, |magnitude place - x| ≤ |magnitude p - x|
  even : ∀ p, p ≠ place → |magnitude place - x| = |magnitude p - x| → Even place

/-! ## Whole numbers -/

theorem quotient_eq {num den : ℕ} (hd : 0 < den) :
    (num : ℚ) / den = (num / den : ℕ) + (num % den : ℕ) / den := by
  have hdq : (den : ℚ) ≠ 0 := by exact_mod_cast hd.ne'
  rw [div_eq_iff hdq, add_mul, div_mul_cancel₀ _ hdq]
  exact_mod_cast (Nat.div_add_mod' num den).symm

/-- Rounding is off by a half at most, and by a half only to an even number. -/
theorem roundHalfEven_error (num : ℕ) {den : ℕ} (hd : 0 < den) :
    |(roundHalfEven num den : ℚ) - num / den| ≤ 1 / 2 ∧
      (|(roundHalfEven num den : ℚ) - num / den| = 1 / 2 → Even (roundHalfEven num den)) := by
  have hdq : (0 : ℚ) < den := by exact_mod_cast hd
  have hlow : (0 : ℚ) ≤ (num % den : ℕ) / den := by positivity
  have hhigh : ((num % den : ℕ) : ℚ) / den < 1 := by
    rw [div_lt_one hdq]
    exact_mod_cast Nat.mod_lt num hd
  have hbelow : ((num % den : ℕ) : ℚ) / den < 1 / 2 ↔ 2 * (num % den) < den := by
    rw [div_lt_div_iff₀ hdq two_pos, one_mul, mul_comm]
    exact_mod_cast Iff.rfl
  have habove : 1 / 2 < ((num % den : ℕ) : ℚ) / den ↔ den < 2 * (num % den) := by
    rw [div_lt_div_iff₀ two_pos hdq, one_mul, mul_comm]
    exact_mod_cast Iff.rfl
  rw [quotient_eq hd]
  simp only [roundHalfEven, ← hbelow, ← habove]
  generalize ((num % den : ℕ) : ℚ) / den = f at *
  generalize num / den = q at *
  split
  · next hf =>
    have hdist : |(q : ℚ) - (q + f)| = f := by rw [sub_add_cancel_left, abs_neg, abs_of_nonneg hlow]
    rw [hdist]
    exact ⟨hf.le, fun he => absurd he hf.ne⟩
  · split
    · next hf =>
      have hdist : |((q + 1 : ℕ) : ℚ) - (q + f)| = 1 - f := by
        rw [Nat.cast_add_one, add_sub_add_left_eq_sub, abs_of_pos (by linarith)]
      rw [hdist]
      exact ⟨by linarith, fun he => by linarith⟩
    · next hle hge =>
      have hf : f = 1 / 2 := le_antisymm (not_lt.1 hge) (not_lt.1 hle)
      rcases Nat.mod_two_eq_zero_or_one q with hq | hq
      · rw [hq, hf]
        refine ⟨by norm_num [abs_of_pos], fun _ => Nat.even_iff.2 (by omega)⟩
      · rw [hq, hf]
        refine ⟨by norm_num [abs_of_pos], fun _ => Nat.even_iff.2 (by omega)⟩

/-- Any other whole number is off by a half at least. -/
theorem roundHalfEven_nearest {num den : ℕ} (hd : 0 < den) {k : ℕ}
    (hk : k ≠ roundHalfEven num den) :
    |(roundHalfEven num den : ℚ) - num / den| ≤ |(k : ℚ) - num / den| ∧
      (|(roundHalfEven num den : ℚ) - num / den| = |(k : ℚ) - num / den| →
        Even (roundHalfEven num den)) := by
  obtain ⟨herror, htie⟩ := roundHalfEven_error num hd
  have hother : 1 / 2 ≤ |(k : ℚ) - num / den| := by
    rw [abs_le] at herror
    rcases Nat.lt_or_gt_of_ne hk with hlt | hgt
    · have hstep : (k : ℚ) + 1 ≤ roundHalfEven num den := by exact_mod_cast hlt
      exact le_abs.2 (.inr (by linarith))
    · have hstep : (roundHalfEven num den : ℚ) + 1 ≤ k := by exact_mod_cast hgt
      exact le_abs.2 (.inl (by linarith))
  exact ⟨herror.trans hother, fun he => htie (le_antisymm herror (he ▸ hother))⟩

theorem roundHalfEven_le {num den k : ℕ} (hd : 0 < den) (h : (num : ℚ) / den ≤ k) :
    roundHalfEven num den ≤ k := by
  by_contra hlt
  have hstep : (k : ℚ) + 1 ≤ roundHalfEven num den := by exact_mod_cast Nat.lt_of_not_le hlt
  have herror := (abs_le.1 (roundHalfEven_error num hd).1).2
  linarith

/-! ## Places in their order -/

/-- The places of one exponent: the significand may be full, or already that of the next one. -/
theorem magnitude_add {e : ℤ} (he : -1074 ≤ e) {m : ℕ} (hm : m ≤ 2 ^ 53)
    (hfull : e = -1074 ∨ 2 ^ 52 ≤ m) :
    magnitude ((e + 1074).toNat * fullPlace + m) = m * 2 ^ e := by
  have hcases : (significand ((e + 1074).toNat * fullPlace + m) = m ∧
        exponent ((e + 1074).toNat * fullPlace + m) = e) ∨
      m = 2 ^ 53 ∧ significand ((e + 1074).toNat * fullPlace + m) = 2 ^ 52 ∧
        exponent ((e + 1074).toNat * fullPlace + m) = e + 1 := by
    unfold significand exponent fullPlace
    split <;> omega
  rcases hcases with ⟨hsignificand, hexponent⟩ | ⟨rfl, hsignificand, hexponent⟩
  · rw [magnitude, hsignificand, hexponent]
  · rw [magnitude, hsignificand, hexponent, zpow_add_one₀ two_ne_zero]
    push_cast
    ring

/-- The next place is one unit further on. -/
theorem magnitude_succ (place : ℕ) :
    magnitude (place + 1) = magnitude place + 2 ^ exponent place := by
  have hleast : -1074 ≤ exponent place := by
    unfold exponent
    omega
  have hfull : exponent place = -1074 ∨ 2 ^ 52 ≤ significand place + 1 := by
    rcases Nat.lt_or_ge place fullPlace with hsmall | hlarge
    · exact .inl (by rw [exponent, Nat.div_eq_of_lt hsmall]; rfl)
    · exact .inr (Nat.le_succ_of_le (le_significand hlarge))
  have hnext := magnitude_add (m := significand place + 1) hleast (significand_lt place) hfull
  rw [← Nat.add_assoc, place_eq] at hnext
  rw [hnext, magnitude]
  push_cast
  ring

theorem magnitude_strictMono : StrictMono magnitude :=
  strictMono_nat_of_lt_succ fun place => by
    rw [magnitude_succ]
    exact lt_add_of_pos_right _ (zpow_pos two_pos _)

/-! ## Numbers -/

/-- A place is on the grid of multiples of a power of two, or below the full significands of it. -/
theorem magnitude_grid {e : ℤ} (he : -1074 ≤ e) (place : ℕ) :
    (∃ k : ℕ, magnitude place = k * 2 ^ e) ∨
      -1074 < e ∧ magnitude place < (2 ^ 52 : ℕ) * 2 ^ e := by
  rcases le_or_gt e (exponent place) with hle | hlt
  · refine .inl ⟨significand place * 2 ^ (exponent place - e).toNat, ?_⟩
    rw [Nat.cast_mul, Nat.cast_pow, Nat.cast_two, mul_assoc, ← zpow_natCast,
      Int.toNat_of_nonneg (sub_nonneg.2 hle), ← zpow_add₀ two_ne_zero, sub_add_cancel, magnitude]
  · have hleast : -1074 ≤ exponent place := by
      unfold exponent
      omega
    refine .inr ⟨by omega, ?_⟩
    calc magnitude place < (2 ^ 53 : ℕ) * 2 ^ exponent place :=
          mul_lt_mul_of_pos_right (by exact_mod_cast significand_lt place) (zpow_pos two_pos _)
      _ = (2 ^ 52 : ℕ) * 2 ^ (exponent place + 1) := by
          rw [zpow_add_one₀ two_ne_zero]
          push_cast
          ring
      _ ≤ (2 ^ 52 : ℕ) * 2 ^ e := by
          gcongr
          · norm_num
          · omega

theorem le_powerOf (x : ℚ) : -1074 ≤ powerOf x := le_max_right _ _

/-- The place of a number, on the grid that it is rounded to. -/
theorem placeOf_grid {x : ℚ} (hx : 0 < x) : ∃ n d : ℕ, 0 < d ∧ x = n / d * 2 ^ powerOf x ∧
    placeOf x = (powerOf x + 1074).toNat * fullPlace + roundHalfEven n d ∧
    magnitude (placeOf x) = roundHalfEven n d * 2 ^ powerOf x ∧
    (-1074 < powerOf x → ((2 ^ 52 : ℕ) : ℚ) ≤ n / d) := by
  obtain ⟨n, d, hd, hquot, hplace⟩ := placeOf_pos hx
  have hleast := le_powerOf x
  have hfull : -1074 < powerOf x → ((2 ^ 52 : ℕ) : ℚ) ≤ n / d := by
    intro hlt
    rw [hquot]
    exact full_significand hx (by rw [powerOf] at hlt ⊢; omega)
  have hbound : roundHalfEven n d ≤ 2 ^ 53 := by
    have hlt : x < 2 ^ (Int.log 2 x + 1) := by
      exact_mod_cast Int.lt_zpow_succ_log_self Nat.one_lt_two x
    apply roundHalfEven_le hd
    rw [hquot]
    have hle : x ≤ 2 ^ (powerOf x + 53) := by
      refine hlt.le.trans (zpow_le_zpow_right₀ one_le_two ?_)
      rw [powerOf]
      omega
    calc x * 2 ^ (-powerOf x) ≤ 2 ^ (powerOf x + 53) * 2 ^ (-powerOf x) :=
          mul_le_mul_of_nonneg_right hle (zpow_pos two_pos _).le
      _ = (2 ^ 53 : ℕ) := by
          rw [← zpow_add₀ two_ne_zero, add_neg_cancel_comm]
          norm_num
  refine ⟨n, d, hd, ?_, hplace, ?_, hfull⟩
  · rw [hquot, mul_assoc, ← zpow_add₀ two_ne_zero, neg_add_cancel, zpow_zero, mul_one]
  · rw [hplace]
    apply magnitude_add hleast hbound
    rcases hleast.eq_or_lt with he | hlt
    · exact .inl he.symm
    · exact .inr (le_roundHalfEven hd (hfull hlt))

theorem magnitude_zero : magnitude 0 = 0 := by
  simp [magnitude, significand, fullPlace]

/-- The place of a number is nearest to it, and ties go to the even place. -/
theorem placeOf_isNearest {x : ℚ} (hx : 0 ≤ x) : IsNearest x (placeOf x) := by
  rcases hx.eq_or_lt with rfl | hpos
  · rw [placeOf_zero]
    refine ⟨fun p => ?_, fun p _ _ => Even.zero⟩
    rw [magnitude_zero, sub_zero, abs_zero]
    exact abs_nonneg _
  obtain ⟨n, d, hd, hquot, hplace, hmagnitude, hfull⟩ := placeOf_grid hpos
  have hpower : (0 : ℚ) < 2 ^ powerOf x := zpow_pos two_pos _
  -- distances are those of the significands, in units of the grid
  have hdist : ∀ k : ℕ, |k * 2 ^ powerOf x - x| = |(k : ℚ) - n / d| * 2 ^ powerOf x := by
    intro k
    nth_rewrite 2 [hquot]
    rw [← sub_mul, abs_mul, abs_of_pos hpower]
  have hother : ∀ p, p ≠ placeOf x → |magnitude (placeOf x) - x| ≤ |magnitude p - x| ∧
      (|magnitude (placeOf x) - x| = |magnitude p - x| → Even (placeOf x)) := by
    intro p hp
    rcases magnitude_grid (le_powerOf x) p with ⟨k, hk⟩ | ⟨hlt, hbelow⟩
    · have hne : k ≠ roundHalfEven n d := by
        rintro rfl
        exact hp (magnitude_strictMono.injective (hk.trans hmagnitude.symm))
      obtain ⟨hle, heven⟩ := roundHalfEven_nearest hd hne
      rw [hmagnitude, hk, hdist, hdist]
      refine ⟨mul_le_mul_of_nonneg_right hle hpower.le, fun he => ?_⟩
      rw [hplace]
      exact (Even.mul_left ⟨2 ^ 51, rfl⟩ _).add (heven (mul_right_cancel₀ hpower.ne' he))
    · -- the least full significand lies between the place and the number
      have hle : |(roundHalfEven n d : ℚ) - n / d| ≤ |((2 ^ 52 : ℕ) : ℚ) - n / d| := by
        rcases eq_or_ne (2 ^ 52) (roundHalfEven n d) with he | hne
        · rw [he]
        · exact (roundHalfEven_nearest hd hne).1
      have hstrict : |magnitude (placeOf x) - x| < |magnitude p - x| := by
        have hbetween : ((2 ^ 52 : ℕ) : ℚ) * 2 ^ powerOf x ≤ x := by
          nth_rewrite 2 [hquot]
          exact mul_le_mul_of_nonneg_right (hfull hlt) hpower.le
        calc |magnitude (placeOf x) - x| ≤ |((2 ^ 52 : ℕ) : ℚ) * 2 ^ powerOf x - x| := by
              rw [hmagnitude, hdist, hdist]
              exact mul_le_mul_of_nonneg_right hle hpower.le
          _ = x - (2 ^ 52 : ℕ) * 2 ^ powerOf x := by
              rw [abs_sub_comm, abs_of_nonneg (sub_nonneg.2 hbetween)]
          _ < x - magnitude p := by linarith
          _ ≤ |magnitude p - x| := by
              rw [abs_sub_comm]
              exact le_abs_self _
      exact ⟨hstrict.le, fun he => absurd he hstrict.ne⟩
  constructor
  · intro p
    rcases eq_or_ne p (placeOf x) with rfl | hp
    · exact le_rfl
    · exact (hother p hp).1
  · intro p hp
    exact (hother p hp).2

/-- Places go on behind the finite ones, from here. -/
theorem magnitude_finitePlaces : magnitude finitePlaces = 2 ^ 1024 := by
  have hsignificand : significand finitePlaces = 2 ^ 52 := by decide
  have hexponent : exponent finitePlaces = 972 := by decide
  rw [magnitude, hsignificand, hexponent]
  calc ((2 ^ 52 : ℕ) : ℚ) * 2 ^ (972 : ℤ) = 2 ^ (52 : ℤ) * 2 ^ (972 : ℤ) := by norm_num
    _ = 2 ^ (1024 : ℤ) := (zpow_add₀ two_ne_zero _ _).symm
    _ = 2 ^ 1024 := zpow_ofNat 2 1024

theorem magnitude_last :
    magnitude finitePlaces = magnitude (finitePlaces - 1) + 2 * 2 ^ 970 := by
  have hexponent : exponent (finitePlaces - 1) = 971 := by decide
  have hnext := magnitude_succ (finitePlaces - 1)
  rw [hexponent, zpow_ofNat, pow_succ'] at hnext
  exact hnext

/-- From the middle between the last finite place and the next one numbers are too large. -/
theorem placeOf_lt_finitePlaces_iff {x : ℚ} (hx : 0 ≤ x) :
    placeOf x < finitePlaces ↔ x < 2 ^ 1024 - 2 ^ 970 := by
  have hnearest := placeOf_isNearest hx
  have hlast := magnitude_last
  have hgap : (0 : ℚ) < 2 ^ 970 := by positivity
  rw [← magnitude_finitePlaces]
  generalize (2 : ℚ) ^ 970 = gap at *
  constructor
  · intro hfinite
    by_contra hlarge
    have hle : magnitude (placeOf x) ≤ magnitude (finitePlaces - 1) :=
      magnitude_strictMono.monotone (Nat.le_sub_one_of_lt hfinite)
    have hleast := hnearest.least finitePlaces
    have hdist : |magnitude (placeOf x) - x| = x - magnitude (placeOf x) := by
      rw [abs_sub_comm, abs_of_pos (by linarith)]
    have hbelow : x < magnitude finitePlaces := by
      by_contra habove
      rw [hdist, abs_of_nonpos (by linarith)] at hleast
      linarith
    have hdist' : |magnitude finitePlaces - x| = magnitude finitePlaces - x :=
      abs_of_pos (by linarith)
    rw [hdist, hdist'] at hleast
    -- it is the middle itself, which goes to the even place behind
    have hplace : magnitude (placeOf x) = magnitude (finitePlaces - 1) := by linarith
    have hodd := hnearest.even finitePlaces hfinite.ne' (by rw [hdist, hdist']; linarith)
    rw [magnitude_strictMono.injective hplace] at hodd
    exact absurd hodd (by decide)
  · intro hsmall
    by_contra hlarge
    have hle : magnitude finitePlaces ≤ magnitude (placeOf x) :=
      magnitude_strictMono.monotone (Nat.le_of_not_lt hlarge)
    have hleast := hnearest.least (finitePlaces - 1)
    rw [abs_of_pos (by linarith)] at hleast
    rcases le_total (magnitude (finitePlaces - 1)) x with habove | hbelow
    · rw [abs_of_nonpos (by linarith)] at hleast
      linarith
    · rw [abs_of_nonneg (by linarith)] at hleast
      linarith

end LifecycleQuery.Double
