import Mathlib.Algebra.Order.Field.Power
import Mathlib.Data.Rat.Cast.Order
import Mathlib.Tactic.FieldSimp
import Mathlib.Tactic.Linarith
import Mathlib.Tactic.NormNum
import Mathlib.Tactic.Positivity
import Mathlib.Tactic.Ring
import Lox.Number.Shortest

/-!
# Rounding to the nearest double

The numbers that are nearer to one magnitude of a double than to any other make up an interval
around it, which the two ends belong to if the significand is even (`Magnitude.Covers`).  Just below
a power of two the interval is half as wide as above it.  A quotient in the interval of a magnitude
is rounded to this magnitude (`Binary64.nearestCode_of_covers`).

Everything is compared in the rationals.  The natural numbers that the definitions compute with are
numerators and denominators there (`zpow_toNat`).
-/

namespace Lox

def Magnitude.value (v : Magnitude) : ℚ := v.significand * 2 ^ v.exponent

def Magnitude.low (v : Magnitude) : ℚ := (v.significand - v.gapBelow / 4) * 2 ^ v.exponent

def Magnitude.high (v : Magnitude) : ℚ := (v.significand + 1 / 2) * 2 ^ v.exponent

/-- The number is rounded to the magnitude: it is between the ends, or an end if the significand is
even. -/
def Magnitude.Covers (v : Magnitude) (q : ℚ) : Prop :=
  (v.low < q ∨ v.significand % 2 = 0 ∧ v.low = q) ∧
    (q < v.high ∨ v.significand % 2 = 0 ∧ q = v.high)

/-- The magnitude is that of a double that is finite or too large: its significand has all its bits,
unless the exponent is the least one. -/
structure Magnitude.Proper (v : Magnitude) : Prop where
  bounded : v.significand < 2 ^ 53
  least : Binary64.leastExponent ≤ v.exponent
  normal : 2 ^ 52 ≤ v.significand ∨ v.exponent = Binary64.leastExponent

def Magnitude.code (v : Magnitude) : Nat :=
  (v.exponent - Binary64.leastExponent).toNat * Nat.pow 2 Binary64.storedBits + v.significand

/-- The number is rounded to the integer, a half to an even one. -/
def RoundsTo (q : ℚ) (n : ℕ) : Prop :=
  ((n : ℚ) - 1 / 2 < q ∨ n % 2 = 0 ∧ (n : ℚ) - 1 / 2 = q) ∧
    (q < (n : ℚ) + 1 / 2 ∨ n % 2 = 0 ∧ q = (n : ℚ) + 1 / 2)

/-! ### Powers of natural and of integral exponents -/

/-- A power of an integral exponent is a quotient of two powers, one of which is one. -/
theorem zpow_toNat {b : ℚ} (ne : b ≠ 0) (z : ℤ) : b ^ z.toNat = b ^ z * b ^ (-z).toNat := by
  rw [← zpow_natCast, ← zpow_natCast, ← zpow_add₀ ne]
  congr 1
  omega

theorem two_zpow_pos (z : ℤ) : (0 : ℚ) < 2 ^ z := zpow_pos two_pos z

theorem two_zpow_succ (z : ℤ) : (2 : ℚ) ^ (z + 1) = 2 * 2 ^ z := by
  rw [zpow_add_one₀ two_ne_zero, mul_comm]

theorem two_zpow_add_natCast (z : ℤ) (n : ℕ) : (2 : ℚ) ^ (z + n) = 2 ^ n * 2 ^ z := by
  rw [zpow_add₀ two_ne_zero, zpow_natCast, mul_comm]

/-! ### Comparisons of natural numbers

Two numbers are compared as the natural numbers that they become when both are multiplied by the
same factor. -/

section Factor

variable {factor x y : ℚ} {a b : ℕ}

theorem lt_iff_of_factor (positive : 0 < factor) (ha : (a : ℚ) = x * factor)
    (hb : (b : ℚ) = y * factor) : x < y ↔ a < b := by
  rw [← Nat.cast_lt (α := ℚ), ha, hb, mul_lt_mul_iff_left₀ positive]

theorem eq_iff_of_factor (positive : 0 < factor) (ha : (a : ℚ) = x * factor)
    (hb : (b : ℚ) = y * factor) : x = y ↔ a = b := by
  rw [← Nat.cast_inj (R := ℚ), ha, hb, mul_left_inj' positive.ne']

end Factor

namespace Binary64

variable {num den n : ℕ} {e : ℤ}

theorem two_zpow_le_div_iff (positive : 0 < den) (z : ℤ) :
    (2 : ℚ) ^ z ≤ num / den ↔ den * 2 ^ z.toNat ≤ num * 2 ^ (-z).toNat := by
  have factor : (0 : ℚ) < 2 ^ (-z).toNat := by positivity
  have natural : ((den * 2 ^ z.toNat : ℕ) : ℚ) = 2 ^ z * den * 2 ^ (-z).toNat := by
    rw [Nat.cast_mul, Nat.cast_pow, Nat.cast_ofNat, zpow_toNat two_ne_zero]
    ring
  rw [le_div_iff₀ (Nat.cast_pos.2 positive), ← Nat.cast_le (α := ℚ), natural, Nat.cast_mul,
    Nat.cast_pow, Nat.cast_ofNat, mul_le_mul_iff_left₀ factor]

/-! ### The nearest integer -/

/-- The two bounds of a quotient, multiplied by twice its denominator. -/
theorem bounds_of_roundsTo (positive : 0 < den) (rounds : RoundsTo (num / den) n) :
    (2 * (n * den) < 2 * num + den ∨ n % 2 = 0 ∧ 2 * (n * den) = 2 * num + den) ∧
      (2 * num < 2 * (n * den) + den ∨ n % 2 = 0 ∧ 2 * num = 2 * (n * den) + den) := by
  have pos : (0 : ℚ) < den := Nat.cast_pos.2 positive
  have factor : (0 : ℚ) < 2 * den := by positivity
  have integer : ((2 * (n * den) : ℕ) : ℚ) = n * (2 * den) := by
    push_cast
    ring
  have integer_above : ((2 * (n * den) + den : ℕ) : ℚ) = (n + 1 / 2) * (2 * den) := by
    push_cast
    ring
  have quotient : ((2 * num : ℕ) : ℚ) = num / den * (2 * den) := by
    push_cast
    field_simp
  have quotient_above : ((2 * num + den : ℕ) : ℚ) = (num / den + 1 / 2) * (2 * den) := by
    push_cast
    field_simp
  rwa [RoundsTo, sub_lt_iff_lt_add, sub_eq_iff_eq_add,
    lt_iff_of_factor factor integer quotient_above, eq_iff_of_factor factor integer quotient_above,
    lt_iff_of_factor factor quotient integer_above,
    eq_iff_of_factor factor quotient integer_above] at rounds

theorem divNearest_of_roundsTo (positive : 0 < den) (rounds : RoundsTo (num / den) n) :
    divNearest num den = n := by
  obtain ⟨lower, upper⟩ := bounds_of_roundsTo positive rounds
  have split := Nat.div_add_mod num den
  have small := Nat.mod_lt num positive
  rw [divNearest]
  generalize num / den = quotient at split ⊢
  generalize num % den = rest at split small ⊢
  have below : quotient < n + 1 := by
    refine Nat.lt_of_mul_lt_mul_left (a := den) ?_
    rw [Nat.mul_succ, Nat.mul_comm den n]
    omega
  have above : n < quotient + 2 := by
    refine Nat.lt_of_mul_lt_mul_left (a := den) ?_
    rw [Nat.mul_add, Nat.mul_comm den n]
    omega
  obtain rfl | rfl : n = quotient ∨ n = quotient + 1 := by omega
  · rw [Nat.mul_comm den n] at split
    rw [if_pos (by omega)]
  · rw [Nat.mul_comm den quotient] at split
    rw [Nat.succ_mul quotient den] at lower upper
    rw [if_neg (by omega)]

/-! ### The exponent -/

theorem log2_bounds (positive : 0 < n) :
    (2 : ℚ) ^ (n.log2 : ℤ) ≤ n ∧ (n : ℚ) < 2 ^ ((n.log2 : ℤ) + 1) := by
  rw [← Nat.cast_succ, zpow_natCast, zpow_natCast]
  exact ⟨by exact_mod_cast Nat.log2_self_le positive.ne', by exact_mod_cast Nat.lt_log2_self⟩

/-- The greatest power of two that is not above a quotient. -/
theorem floorLog2_bounds (hnum : 0 < num) (hden : 0 < den) :
    (2 : ℚ) ^ floorLog2 num den ≤ num / den ∧ (num / den : ℚ) < 2 ^ (floorLog2 num den + 1) := by
  have pos : (0 : ℚ) < den := Nat.cast_pos.2 hden
  obtain ⟨num_low, num_high⟩ := log2_bounds hnum
  obtain ⟨den_low, den_high⟩ := log2_bounds hden
  rw [floorLog2]
  generalize (num.log2 : ℤ) = a at num_low num_high ⊢
  generalize (den.log2 : ℤ) = b at den_low den_high ⊢
  split
  · rename_i reached
    refine ⟨(two_zpow_le_div_iff hden _).2 reached, ?_⟩
    rw [div_lt_iff₀ pos]
    calc (num : ℚ) < 2 ^ (a + 1) := num_high
      _ = 2 ^ (a - b + 1) * 2 ^ b := by rw [← zpow_add₀ two_ne_zero]; congr 1; ring
      _ ≤ 2 ^ (a - b + 1) * den := by gcongr
  · rename_i missed
    rw [sub_add_cancel]
    refine ⟨?_, lt_of_not_ge fun reached => missed ((two_zpow_le_div_iff hden _).1 reached)⟩
    rw [le_div_iff₀ pos]
    calc (2 : ℚ) ^ (a - b - 1) * den ≤ 2 ^ (a - b - 1) * 2 ^ (b + 1) := by gcongr
      _ = 2 ^ a := by rw [← zpow_add₀ two_ne_zero]; congr 1; ring
      _ ≤ num := num_low

/-- The exponent that a quotient is rounded with, from the power of two below it. -/
theorem roundingExponent_eq (hnum : 0 < num) (hden : 0 < den) (least : leastExponent ≤ e)
    (upper : (num / den : ℚ) < 2 ^ (e + 53))
    (lower : (2 : ℚ) ^ (e + 52) ≤ num / den ∨ e = leastExponent) :
    roundingExponent num den = e := by
  obtain ⟨below, above⟩ := floorLog2_bounds hnum hden
  have high : floorLog2 num den < e + 53 :=
    (zpow_lt_zpow_iff_right₀ one_lt_two).1 (below.trans_lt upper)
  have low : e + 52 < floorLog2 num den + 1 ∨ e = leastExponent :=
    lower.imp_left fun le => (zpow_lt_zpow_iff_right₀ one_lt_two).1 (le.trans_lt above)
  rw [roundingExponent, storedBits]
  omega

theorem nearestCode_eq (hnum : 0 < num) (hden : 0 < den) (least : leastExponent ≤ e)
    (upper : (num / den : ℚ) < 2 ^ (e + 53))
    (lower : (2 : ℚ) ^ (e + 52) ≤ num / den ∨ e = leastExponent)
    (rounds : RoundsTo (num / den / 2 ^ e) n) :
    nearestCode num den =
      min infinityCode ((e - leastExponent).toNat * Nat.pow 2 storedBits + n) := by
  have scaled : (num / den / 2 ^ e : ℚ) =
      ((num * Nat.pow 2 (-e).toNat : ℕ) : ℚ) / (den * Nat.pow 2 e.toNat : ℕ) := by
    have two := two_zpow_pos e
    have factor : (0 : ℚ) < 2 ^ (-e).toNat := by positivity
    have den_ne : (den : ℚ) ≠ 0 := Nat.cast_ne_zero.2 hden.ne'
    rw [Nat.pow_eq, Nat.pow_eq, Nat.cast_mul, Nat.cast_mul, Nat.cast_pow, Nat.cast_pow,
      Nat.cast_ofNat, zpow_toNat two_ne_zero e]
    field_simp
  rw [scaled] at rounds
  have positive : 0 < den * Nat.pow 2 e.toNat := Nat.mul_pos hden (Nat.pow_pos Nat.two_pos)
  rw [nearestCode, if_neg hnum.ne', roundingExponent_eq hnum hden least upper lower]
  dsimp only
  rw [divNearest_of_roundsTo positive rounds]

end Binary64

/-! ### The nearest double -/

namespace Magnitude

variable {v : Magnitude} {q : ℚ}

theorem gapBelow_le (v : Magnitude) : v.gapBelow ≤ 2 := by
  rw [gapBelow]
  split <;> omega

theorem low_le_of_covers (covers : v.Covers q) : v.low ≤ q :=
  covers.1.elim le_of_lt fun even => even.2.le

theorem le_high_of_covers (covers : v.Covers q) : q ≤ v.high :=
  covers.2.elim le_of_lt fun even => even.2.le

/-- Numbers that are rounded to a magnitude have no more bits than it has. -/
theorem Proper.lt_of_covers (proper : v.Proper) (covers : v.Covers q) :
    q < 2 ^ (v.exponent + 53) := by
  have bounded : (v.significand : ℚ) + 1 ≤ 2 ^ 53 := by exact_mod_cast proper.bounded
  have unit := two_zpow_pos v.exponent
  calc q ≤ (v.significand + 1 / 2) * 2 ^ v.exponent := le_high_of_covers covers
    _ < 2 ^ 53 * 2 ^ v.exponent := by gcongr; linarith
    _ = 2 ^ (v.exponent + 53) := (two_zpow_add_natCast _ 53).symm

/-- Where the doubles below are as dense as those above, the significand is the nearest integer. -/
theorem Covers.roundsTo (covers : v.Covers q) (regular : v.gapBelow = 2 ∨ v.value ≤ q) :
    RoundsTo (q / 2 ^ v.exponent) v.significand := by
  have unit := two_zpow_pos v.exponent
  obtain ⟨lower, upper⟩ := covers
  rw [low] at lower
  rw [high] at upper
  constructor
  · rcases regular with two | above
    · rw [two, Nat.cast_ofNat] at lower
      rw [lt_div_iff₀ unit, eq_div_iff unit.ne']
      norm_num at lower ⊢
      exact lower
    · left
      rw [lt_div_iff₀ unit]
      rw [value] at above
      linarith
  · rw [div_lt_iff₀ unit, div_eq_iff unit.ne']
    exact upper

/-- Where the doubles below are as dense as those above, a number that is rounded to a magnitude has
as many bits as it has. -/
theorem Proper.le_of_covers (proper : v.Proper) (covers : v.Covers q)
    (regular : v.gapBelow = 2 ∨ v.value ≤ q) :
    2 ^ (v.exponent + 52) ≤ q ∨ v.exponent = Binary64.leastExponent := by
  refine or_iff_not_imp_right.2 fun above => ?_
  have normal := proper.normal.resolve_right above
  have unit := two_zpow_pos v.exponent
  have split : (2 : ℚ) ^ (v.exponent + 52) = 2 ^ 52 * 2 ^ v.exponent := two_zpow_add_natCast _ 52
  rw [split]
  by_cases reached : v.value ≤ q
  · refine le_trans ?_ reached
    have significand : (2 ^ 52 : ℚ) ≤ v.significand := by exact_mod_cast normal
    rw [value]
    gcongr
  · have two := regular.resolve_right reached
    -- The significand of a power of two would have a smaller interval.
    have more : 2 ^ 52 < v.significand := by
      refine lt_of_le_of_ne normal fun same => ?_
      rw [gapBelow, if_pos ⟨same.symm, above⟩] at two
      cases two
    have significand : (2 ^ 52 + 1 : ℚ) ≤ v.significand := by exact_mod_cast more
    refine le_trans ?_ (low_le_of_covers covers)
    rw [low, two]
    gcongr
    push_cast
    linarith

/-- Below a power of two the doubles are twice as dense as above it. -/
theorem eq_of_gapBelow_ne (irregular : v.gapBelow ≠ 2) :
    v.significand = 2 ^ 52 ∧ v.exponent ≠ Binary64.leastExponent ∧ v.gapBelow = 1 := by
  rw [gapBelow] at irregular ⊢
  split at irregular
  · rename_i power
    exact ⟨power.1, power.2, if_pos power⟩
  · exact absurd rfl irregular

/-- Zero is rounded to the magnitude without bits only. -/
theorem Proper.code_eq_zero (proper : v.Proper) (covers : v.Covers 0) : v.code = 0 := by
  have unit := two_zpow_pos v.exponent
  have below := low_le_of_covers covers
  have gap : (v.gapBelow : ℚ) ≤ 2 := by exact_mod_cast v.gapBelow_le
  have none : v.significand = 0 := by
    have small := nonpos_of_mul_nonpos_left below unit
    have bounded : (v.significand : ℚ) < 1 := by linarith
    exact Nat.lt_one_iff.1 (by exact_mod_cast bounded)
  have least := proper.normal.resolve_left (by simp [none])
  simp [code, none, least]

/-- A quotient below a power of two that is rounded up to it has the next smaller exponent, and its
significand is rounded up to a power of two, too. -/
theorem Proper.nearestCode_of_lt (proper : v.Proper) {num den : ℕ} (hnum : 0 < num) (hden : 0 < den)
    (covers : v.Covers (num / den)) (irregular : v.gapBelow ≠ 2)
    (below : (num / den : ℚ) < v.value) :
    Binary64.nearestCode num den = min Binary64.infinityCode v.code := by
  obtain ⟨power, above, one⟩ := eq_of_gapBelow_ne irregular
  have lower := covers.1
  have half : (2 : ℚ) ^ v.exponent = 2 * 2 ^ (v.exponent - 1) := by
    rw [← two_zpow_succ, sub_add_cancel]
  have unit := two_zpow_pos (v.exponent - 1)
  rw [low, power, one, half] at lower
  rw [value, power, half] at below
  have least := lt_of_le_of_ne proper.least (Ne.symm above)
  have rounds : RoundsTo (num / den / 2 ^ (v.exponent - 1)) (2 ^ 53) := by
    rw [RoundsTo, lt_div_iff₀ unit, eq_div_iff unit.ne', div_lt_iff₀ unit]
    push_cast at lower below ⊢
    refine ⟨lower.imp (fun less => by linarith) fun same => ⟨by norm_num, by linarith⟩, .inl ?_⟩
    linarith
  have upper : (num / den : ℚ) < 2 ^ (v.exponent - 1 + 53) := by
    refine lt_of_lt_of_eq below ?_
    rw [show (2 : ℚ) ^ (v.exponent - 1 + 53) = _ from two_zpow_add_natCast _ 53]
    push_cast
    ring
  have bits : (2 : ℚ) ^ (v.exponent - 1 + 52) ≤ num / den := by
    rw [show (2 : ℚ) ^ (v.exponent - 1 + 52) = _ from two_zpow_add_natCast _ 52]
    push_cast at lower
    rcases lower with less | ⟨-, same⟩ <;> linarith
  rw [Binary64.nearestCode_eq hnum hden (Int.le_sub_one_of_lt least) upper (.inl bits) rounds]
  have carried : (v.exponent - 1 - Binary64.leastExponent).toNat * 2 ^ 52 + 2 ^ 53 =
      (v.exponent - Binary64.leastExponent).toNat * 2 ^ 52 + 2 ^ 52 := by
    omega
  rw [code, power]
  exact congrArg _ carried

/-- A quotient that is rounded to a magnitude gets its code. -/
theorem Proper.nearestCode_of_covers (proper : v.Proper) {num den : ℕ} (hden : 0 < den)
    (covers : v.Covers (num / den)) :
    Binary64.nearestCode num den = min Binary64.infinityCode v.code := by
  rcases Nat.eq_zero_or_pos num with rfl | hnum
  · rw [Nat.cast_zero, zero_div] at covers
    rw [proper.code_eq_zero covers, Nat.min_zero, Binary64.nearestCode, if_pos rfl]
  · by_cases regular : v.gapBelow = 2 ∨ v.value ≤ num / den
    · exact Binary64.nearestCode_eq hnum hden proper.least (proper.lt_of_covers covers)
        (proper.le_of_covers covers regular) (covers.roundsTo regular)
    · obtain ⟨irregular, below⟩ := not_or.1 regular
      exact proper.nearestCode_of_lt hnum hden covers irregular (lt_of_not_ge below)

end Magnitude

/-! ### Magnitudes and codes -/

namespace Binary64

theorem proper_magnitudeOfCode (code : Nat) : (magnitudeOfCode code).Proper := by
  have size : Nat.pow 2 storedBits = 2 ^ 52 := rfl
  have stored : code % Nat.pow 2 storedBits < 2 ^ 52 := Nat.mod_lt _ (by decide)
  rw [magnitudeOfCode]
  generalize code % Nat.pow 2 storedBits = stored_bits at stored
  generalize code / Nat.pow 2 storedBits = field
  split
  · exact ⟨by dsimp only; omega, le_rfl, .inr rfl⟩
  · exact ⟨by dsimp only; omega, by dsimp only; omega, .inl (by dsimp only; omega)⟩

theorem code_magnitudeOfCode (code : Nat) : (magnitudeOfCode code).code = code := by
  rw [Magnitude.code, magnitudeOfCode]
  generalize Nat.pow 2 storedBits = size
  have parts := Nat.div_add_mod' code size
  generalize code % size = stored at parts
  generalize code / size = field at parts
  split
  · rename_i zero
    rw [zero, Nat.zero_mul] at parts
    rw [sub_self, Int.toNat_zero, Nat.zero_mul]
    exact parts
  · rename_i positive
    obtain ⟨before, rfl⟩ := Nat.exists_eq_succ_of_ne_zero positive
    have exponent : (leastExponent + (before + 1 : ℕ) - 1 - leastExponent).toNat = before := by
      omega
    rw [exponent, ← parts, Nat.succ_mul, Nat.add_assoc]

/-- A quotient that is rounded to the magnitude with a code gets this code. -/
theorem nearestCode_of_covers {code num den : Nat} (finite : code < infinityCode) (hden : 0 < den)
    (covers : (magnitudeOfCode code).Covers (num / den)) : nearestCode num den = code := by
  rw [(proper_magnitudeOfCode code).nearestCode_of_covers hden covers, code_magnitudeOfCode,
    Nat.min_eq_right finite.le]

end Binary64

end Lox
