import Lox.Proofs.Number.Rounding

/-!
# Shortest decimals are rounded back

The decimal that is written for a magnitude is one that is rounded to it
(`Magnitude.covers_shortest`).  A grid point is only taken if it is in the interval of the
magnitude, and some grid has a point there: the grids are refined until a step is shorter than the
upper half of the interval, which is so at the last of them for every double
(`Magnitude.ten_zpow_lt`).
-/

namespace Lox

def Decimal.value (d : Decimal) : ℚ := d.coefficient * 10 ^ d.exponent

/-! ### Powers of ten and of two -/

/-- Powers are compared by their exponents, with a quotient on the other side of the logarithm. -/
theorem ten_zpow_lt_two_zpow {a b : ℤ} {n k : ℕ} (exponents : n * a < k * b)
    (powers : (10 : ℚ) ^ (k * b) ≤ 2 ^ (n * b)) : (10 : ℚ) ^ a < 2 ^ b := by
  refine lt_of_pow_lt_pow_left₀ n (two_zpow_pos b).le ?_
  calc ((10 : ℚ) ^ a) ^ n = 10 ^ (n * a) := by rw [← zpow_natCast, ← zpow_mul, mul_comm]
    _ < 10 ^ (k * b) := zpow_lt_zpow_right₀ (by norm_num) exponents
    _ ≤ 2 ^ (n * b) := powers
    _ = ((2 : ℚ) ^ b) ^ n := by rw [← zpow_natCast, ← zpow_mul, mul_comm]

theorem ten_zpow_le_of_nonneg {b : ℤ} (nonneg : 0 ≤ b) :
    (10 : ℚ) ^ ((3 : ℕ) * b) ≤ 2 ^ ((10 : ℕ) * b) := by
  obtain ⟨n, rfl⟩ := Int.eq_ofNat_of_zero_le nonneg
  simp only [zpow_mul, zpow_natCast]
  exact pow_le_pow_left₀ (by norm_num) (by norm_num) n

theorem ten_zpow_le_of_nonpos {b : ℤ} (nonpos : b ≤ 0) :
    (10 : ℚ) ^ ((28 : ℕ) * b) ≤ 2 ^ ((93 : ℕ) * b) := by
  obtain ⟨n, same⟩ := Int.eq_ofNat_of_zero_le (neg_nonneg.2 nonpos)
  obtain rfl : b = -n := by omega
  simp only [zpow_mul, zpow_neg, zpow_natCast]
  exact inv_anti₀ (by positivity) (pow_le_pow_left₀ (by norm_num) (by norm_num) n)

namespace Magnitude

variable {v : Magnitude} {tie : Tie} {step : ℤ} {d : Decimal}

/-! ### Grids -/

theorem gapBelow_pos (v : Magnitude) : 0 < v.gapBelow := by
  rw [gapBelow]
  split <;> omega

theorem two_zpow_sub_two (z : ℤ) : (2 : ℚ) ^ z = 4 * 2 ^ (z - 2) := by
  have split := two_zpow_add_natCast (z - 2) 2
  rw [Nat.cast_ofNat, sub_add_cancel] at split
  rw [split]
  norm_num

/-- The steps of a grid and the quarters of a magnitude's last bit, as natural numbers: both are
multiplied by the same factor. -/
structure Scaled (quarters step : ℤ) (unit scale : ℕ) (factor : ℚ) : Prop where
  positive : 0 < factor
  unit : (unit : ℚ) = 10 ^ step * factor
  scale : (scale : ℚ) = 2 ^ quarters * factor

theorem scaled (quarters step : ℤ) :
    Scaled quarters step (Nat.pow 2 (-quarters).toNat * Nat.pow 10 step.toNat)
      (Nat.pow 2 quarters.toNat * Nat.pow 10 (-step).toNat)
      (2 ^ (-quarters).toNat * 10 ^ (-step).toNat) where
  positive := by positivity
  unit := by
    rw [Nat.pow_eq, Nat.pow_eq, Nat.cast_mul, Nat.cast_pow, Nat.cast_pow, Nat.cast_ofNat,
      Nat.cast_ofNat, zpow_toNat (b := 10) (by norm_num) step]
    ring
  scale := by
    rw [Nat.pow_eq, Nat.pow_eq, Nat.cast_mul, Nat.cast_pow, Nat.cast_pow, Nat.cast_ofNat,
      Nat.cast_ofNat, zpow_toNat two_ne_zero quarters]
    ring

section Scaled

variable {quarters : ℤ} {unit scale : ℕ} {factor : ℚ}

/-- Whether a grid point is rounded to a magnitude, in natural numbers. -/
theorem Scaled.covers_iff (h : Scaled (v.exponent - 2) step unit scale factor)
    (nonzero : v.significand ≠ 0) (n : ℕ) :
    v.Covers (Decimal.value ⟨n, step⟩) ↔
      ((4 * v.significand - v.gapBelow) * scale < n * unit ∨
        v.significand % 2 = 0 ∧ (4 * v.significand - v.gapBelow) * scale = n * unit) ∧
      (n * unit < (4 * v.significand + 2) * scale ∨
        v.significand % 2 = 0 ∧ n * unit = (4 * v.significand + 2) * scale) := by
  have gap := v.gapBelow_le
  have low_eq : (((4 * v.significand - v.gapBelow) * scale : ℕ) : ℚ) = v.low * factor := by
    rw [low, two_zpow_sub_two, Nat.cast_mul, Nat.cast_sub (by omega), h.scale]
    push_cast
    ring
  have high_eq : (((4 * v.significand + 2) * scale : ℕ) : ℚ) = v.high * factor := by
    rw [high, two_zpow_sub_two, Nat.cast_mul, h.scale]
    push_cast
    ring
  have point_eq : ((n * unit : ℕ) : ℚ) = Decimal.value ⟨n, step⟩ * factor := by
    rw [Decimal.value, Nat.cast_mul, h.unit]
    ring
  rw [Covers, lt_iff_of_factor h.positive low_eq point_eq,
    eq_iff_of_factor h.positive low_eq point_eq, lt_iff_of_factor h.positive point_eq high_eq,
    eq_iff_of_factor h.positive point_eq high_eq]

theorem Scaled.unit_pos (h : Scaled quarters step unit scale factor) : 0 < unit := by
  have positive := h.positive
  rw [← Nat.cast_pos (α := ℚ), h.unit]
  positivity

theorem Scaled.scale_pos (h : Scaled quarters step unit scale factor) : 0 < scale := by
  have positive := h.positive
  rw [← Nat.cast_pos (α := ℚ), h.scale]
  positivity

end Scaled

/-- A grid point that is taken is rounded to the magnitude. -/
theorem covers_of_onGrid? (nonzero : v.significand ≠ 0) (found : v.onGrid? tie step = some d) :
    v.Covers d.value := by
  have h := scaled (v.exponent - 2) step
  rw [onGrid?] at found
  generalize Nat.pow 2 (-(v.exponent - 2)).toNat * Nat.pow 10 step.toNat = unit at h found
  generalize Nat.pow 2 (v.exponent - 2).toNat * Nat.pow 10 (-step).toNat = scale at h found
  have positive := h.scale_pos
  split at found
  · rename_i taken
    obtain rfl := Option.some.inj found
    refine (h.covers_iff nonzero _).2 ⟨taken.1, .inl ?_⟩
    calc 4 * v.significand * scale / unit * unit ≤ 4 * v.significand * scale :=
          Nat.div_mul_le_self _ _
      _ < (4 * v.significand + 2) * scale := by rw [Nat.add_mul]; omega
  · split at found
    · rename_i taken
      obtain rfl := Option.some.inj found
      refine (h.covers_iff nonzero _).2 ⟨.inl ?_, taken⟩
      calc (4 * v.significand - v.gapBelow) * scale ≤ 4 * v.significand * scale :=
            Nat.mul_le_mul_right _ (Nat.sub_le _ _)
        _ < (4 * v.significand * scale / unit + 1) * unit :=
            (Nat.div_lt_iff_lt_mul h.unit_pos).1 (Nat.lt_succ_self _)
    · cases found

/-- A grid with steps shorter than the upper half of the interval of a magnitude has a point
there. -/
theorem isSome_onGrid? (fine : (10 : ℚ) ^ step < 2 ^ (v.exponent - 1)) (tie : Tie) :
    (v.onGrid? tie step).isSome := by
  have h := scaled (v.exponent - 2) step
  rw [onGrid?]
  generalize Nat.pow 2 (-(v.exponent - 2)).toNat * Nat.pow 10 step.toNat = unit at h ⊢
  generalize Nat.pow 2 (v.exponent - 2).toNat * Nat.pow 10 (-step).toNat = scale at h ⊢
  generalize (2 ^ (-(v.exponent - 2)).toNat * 10 ^ (-step).toNat : ℚ) = factor at h
  have short : unit < 2 * scale := by
    have half : (2 : ℚ) ^ (v.exponent - 1) = 2 * 2 ^ (v.exponent - 2) := by
      rw [← two_zpow_succ]
      congr 1
      ring
    have positive := h.positive
    rw [← Nat.cast_lt (α := ℚ), Nat.cast_mul, h.unit, h.scale, Nat.cast_ofNat, ← mul_assoc, ← half]
    gcongr
  have above : (4 * v.significand * scale / unit + 1) * unit < (4 * v.significand + 2) * scale := by
    have reached := Nat.div_mul_le_self (4 * v.significand * scale) unit
    rw [Nat.succ_mul, Nat.add_mul]
    omega
  split
  · rfl
  · rw [if_pos (.inl above)]
    rfl

/-! ### The shortest decimal -/

/-- The last grid of the search is fine enough for every double. -/
theorem Proper.ten_zpow_lt (proper : v.Proper) (finite : v.exponent ≤ 971) :
    (10 : ℚ) ^ (v.decimalBound - (19 : ℕ)) < 2 ^ (v.exponent - 1) := by
  have bits : v.significand.log2 < 53 := by
    rcases Nat.eq_zero_or_pos v.significand with zero | positive
    · rw [zero]
      decide
    · exact (Nat.log2_lt positive.ne').2 proper.bounded
  have least := proper.least
  rw [Binary64.leastExponent] at least
  rw [decimalBound]
  by_cases whole : 0 ≤ v.exponent - 1
  · exact ten_zpow_lt_two_zpow (by omega) (ten_zpow_le_of_nonneg whole)
  · exact ten_zpow_lt_two_zpow (by omega) (ten_zpow_le_of_nonpos (by omega))

/-- The shortest decimal of a magnitude is rounded to it. -/
theorem Proper.covers_shortest (proper : v.Proper) (finite : v.exponent ≤ 971) (tie : Tie) :
    v.Covers (v.shortest tie).value := by
  rw [shortest]
  split
  · rename_i zero
    -- The interval of zero has zero inside.
    have unit := two_zpow_pos v.exponent
    have gap : (0 : ℚ) < v.gapBelow := Nat.cast_pos.2 v.gapBelow_pos
    rw [Decimal.value, Covers, low, high, zero, Nat.cast_zero, zero_mul, zero_sub, zero_add]
    exact ⟨.inl (mul_neg_of_neg_of_pos (by linarith) unit), .inl (by positivity)⟩
  · rename_i nonzero
    have hit : ((List.range 20).findSome? fun n : ℕ => v.onGrid? tie (v.decimalBound - n)).isSome :=
      List.findSome?_isSome_iff.2 ⟨19, by decide, isSome_onGrid? (proper.ten_zpow_lt finite) tie⟩
    obtain ⟨d, found⟩ := Option.isSome_iff_exists.1 hit
    obtain ⟨n, -, taken⟩ := List.exists_of_findSome?_eq_some found
    dsimp only
    rw [found, Option.getD_some]
    exact covers_of_onGrid? nonzero taken

end Magnitude

namespace Binary64

theorem exponent_magnitudeOfCode_le {code : ℕ} (finite : code < infinityCode) :
    (magnitudeOfCode code).exponent ≤ 971 := by
  have field : code / Nat.pow 2 storedBits < 2047 :=
    Nat.div_lt_of_lt_mul (lt_of_lt_of_eq finite (Nat.mul_comm _ _))
  rw [magnitudeOfCode, leastExponent]
  split <;> dsimp only <;> omega

/-- The shortest decimal of the magnitude of a finite double is rounded to it. -/
theorem covers_shortest {code : ℕ} (finite : code < infinityCode) (tie : Tie) :
    (magnitudeOfCode code).Covers ((magnitudeOfCode code).shortest tie).value :=
  (proper_magnitudeOfCode code).covers_shortest (exponent_magnitudeOfCode_le finite) tie

end Binary64

end Lox
