import Lox.Proofs.Number.Rounding

/-!
# Bits of doubles

A finite double is the one with its bits (`Binary64.ofBits_toBits`): to make a double of a bit
pattern is to unpack the pattern and to pack it again, and only what is not a number is changed by
that.  The bits of a finite double without a sign are the code of its magnitude
(`Binary64.Unsigned.shape_eq`), so that it is the double nearest to the numbers that are rounded to
this magnitude (`Binary64.Unsigned.nearest_of_covers`).
-/

namespace Lox

namespace Binary64

open Float.Model Float.Model.UnpackedFloat

theorem toBitVec_ofBitVec (b : BitVec 1) : (Sign.ofBitVec b).toBitVec = b := by
  revert b
  decide

variable {b : BitVec Format.binary64.numBits}

/-- A bit pattern consists of its sign, its exponent field and its stored significand. -/
theorem packComponents_unpack (b : BitVec Format.binary64.numBits) :
    packComponents .binary64 (.ofBitVec (unpackSign b)) (unpackExponent b) (unpackMantissa b) =
      b := by
  rw [packComponents, toBitVec_ofBitVec]
  change ((b.extractLsb 63 63).cast _ ++ (b.extractLsb 62 52).cast _) ++
    (b.extractLsb 51 0).cast _ = b
  refine BitVec.eq_of_getLsbD_eq fun i inside => ?_
  have inside : i < 64 := inside
  simp only [BitVec.getLsbD_append, BitVec.getLsbD_cast, BitVec.getLsbD_extractLsb]
  -- The place of a bit tells which part it belongs to.
  split
  · rw [decide_eq_true (by omega), Bool.true_and, Nat.zero_add]
  · split
    · rw [decide_eq_true (by omega), Bool.true_and, Nat.add_sub_of_le (by omega)]
    · rw [decide_eq_true (by omega), Bool.true_and]
      congr 1
      omega

/-- The significand of a normal double has one bit more than is stored of it. -/
theorem toNat_implicit (m : BitVec 52) : (1#1 ++ m).toNat = 2 ^ 52 + m.toNat := by
  rw [BitVec.toNat_append, ← Nat.shiftLeft_add_eq_or_of_lt m.isLt]
  rfl

section Pack

variable {s : Sign} {e : BitVec 11} {m : BitVec 52}

theorem pack_subnormal (positive : 0 < m.toNat) {exponent : Int}
    (least : exponent = leastExponent) :
    UnpackedFloat.pack .binary64 (.finite s m.toNat exponent positive) =
      packComponents .binary64 s 0#11 m := by
  have bits : m.toNat.log2 < 52 := (Nat.log2_lt (Nat.ne_of_gt positive)).2 m.isLt
  have biased : (exponent + (1023 : Nat) + (52 : Nat)).toNat = 1 := by
    rw [least, leastExponent]
    rfl
  change (if 2 ^ 11 ≤ (exponent + (1023 : Nat) + (52 : Nat)).toNat + 1 then _
    else if m.toNat.log2 + 1 = 53 then _ else _) = _
  rw [biased, if_neg (by decide), if_neg (by omega), BitVec.ofNat_toNat, BitVec.setWidth_eq]

theorem pack_normal (positive : 0 < (1#1 ++ m).toNat) (finite : e ≠ -1#11)
    {exponent : Int} (biased : exponent = e.toNat - 1075) :
    UnpackedFloat.pack .binary64 (.finite s (1#1 ++ m).toNat exponent positive) =
      packComponents .binary64 s e m := by
  have bounded : e.toNat + 1 < 2 ^ 11 := by
    have bound := e.isLt
    have other : e.toNat ≠ 2047 := fun same => finite (BitVec.eq_of_toNat_eq same)
    omega
  have small := m.isLt
  have bits : (1#1 ++ m).toNat.log2 = 52 := by
    rw [toNat_implicit, Nat.log2_eq_iff (by omega)]
    omega
  have field : (exponent + (1023 : Nat) + (52 : Nat)).toNat = e.toNat := by omega
  have stored : BitVec.ofNat 52 (1#1 ++ m).toNat = m := by
    refine BitVec.eq_of_toNat_eq ?_
    rw [BitVec.toNat_ofNat, toNat_implicit, Nat.add_mod_left, Nat.mod_eq_of_lt small]
  change (if 2 ^ 11 ≤ (exponent + (1023 : Nat) + (52 : Nat)).toNat + 1 then _
    else if (1#1 ++ m).toNat.log2 + 1 = 53 then
      packComponents .binary64 s (BitVec.ofNat 11 (exponent + (1023 : Nat) + (52 : Nat)).toNat)
        (BitVec.ofNat 52 (1#1 ++ m).toNat)
    else _) = _
  rw [field, bits, stored, if_neg (by omega), if_pos rfl, BitVec.ofNat_toNat, BitVec.setWidth_eq]

end Pack

/-- A pattern that is neither of an infinity nor of what is not a number is unpacked without a
loss. -/
theorem pack_unpack (finite : unpackExponent b ≠ -1#11) :
    UnpackedFloat.pack .binary64 (UnpackedFloat.unpack .binary64 b) = b := by
  refine Eq.trans ?_ (packComponents_unpack b)
  change UnpackedFloat.pack .binary64 (if unpackExponent b = -1#11 then _
    else if unpackExponent b = 0#11 then _ else _) = _
  rw [if_neg finite]
  by_cases least : unpackExponent b = 0#11
  · rw [if_pos least]
    by_cases zero : unpackMantissa b = 0#52
    · rw [dif_pos zero, least, zero]
      rfl
    · rw [dif_neg zero, least]
      exact pack_subnormal _ rfl
  · rw [if_neg least]
    exact pack_normal _ finite rfl

/-! ### Finite doubles -/

variable {x : Float}

theorem unpackExponent_ne_of_isFinite (finite : x.isFinite) :
    @unpackExponent .binary64 x.toBits.toBitVec ≠ -1#11 := by
  intro special
  have unpacked : UnpackedFloat.isFinite (if @unpackExponent .binary64 x.toBits.toBitVec = -1#11
      then if @unpackMantissa .binary64 x.toBits.toBitVec = 0#52 then .infinity _ else .notANumber
      else _) = true := finite
  rw [if_pos special] at unpacked
  split at unpacked <;> cases unpacked

theorem model_eq_of_toBits_eq {v w : Float.Model} (same : v.toBits = w.toBits) : v = w := by
  cases v
  cases w
  cases same
  rfl

/-- A finite double is the one with its bits. -/
theorem ofBits_toBits (finite : x.isFinite) : Float.ofBits x.toBits = x := by
  have packed := pack_unpack (unpackExponent_ne_of_isFinite finite)
  have same : (Float.Model.ofBits x.toBits).toBits = x.toModel.toBits :=
    congrArg UInt64.ofBitVec packed
  exact congrArg Float.ofModel (model_eq_of_toBits_eq same)

/-- The double is finite and its sign bit is clear. -/
structure Unsigned (x : Float) : Prop where
  finite : x.isFinite
  clear : x.toBits >>> 63 = 0

namespace Unsigned

theorem toNat_toBits_lt (h : Unsigned x) : x.toBits.toNat < Nat.pow 2 63 := by
  have shifted := congrArg UInt64.toNat h.clear
  rw [UInt64.toNat_shiftRight, Nat.shiftRight_eq_div_pow] at shifted
  exact Nat.lt_of_div_eq_zero (by decide) shifted

/-- The bits are the code of a magnitude. -/
theorem toNat_toBits_lt_infinityCode (h : Unsigned x) : x.toBits.toNat < infinityCode := by
  have other := unpackExponent_ne_of_isFinite h.finite
  have bounded : x.toBits.toNat / 2 ^ 52 < 2 ^ 11 := Nat.div_lt_of_lt_mul h.toNat_toBits_lt
  have field : (@unpackExponent .binary64 x.toBits.toBitVec).toNat = x.toBits.toNat / 2 ^ 52 := by
    rw [unpackExponent, BitVec.toNat_cast, BitVec.extractLsb_toNat, Nat.shiftRight_eq_div_pow]
    exact Nat.mod_eq_of_lt bounded
  have ne : x.toBits.toNat / 2 ^ 52 ≠ 2047 := fun same =>
    other (BitVec.eq_of_toNat_eq (field.trans same))
  rw [infinityCode, storedBits, Nat.pow_eq]
  omega

theorem shape_eq (h : Unsigned x) : shape x = .finite false (magnitudeOfCode x.toBits.toNat) := by
  have bounded := h.toNat_toBits_lt
  rw [shape, Nat.mod_eq_of_lt bounded, if_pos h.toNat_toBits_lt_infinityCode,
    decide_eq_false (Nat.not_le.2 bounded)]

/-- The double is the nearest one to what is rounded to its magnitude. -/
theorem nearest_of_covers (h : Unsigned x) {num den : ℕ} (hden : 0 < den)
    (covers : (magnitudeOfCode x.toBits.toNat).Covers (num / den)) : nearest num den = x := by
  rw [nearest, nearestCode_of_covers h.toNat_toBits_lt_infinityCode hden covers, UInt64.ofNat_toNat,
    ofBits_toBits h.finite]

end Unsigned

end Binary64

end Lox
