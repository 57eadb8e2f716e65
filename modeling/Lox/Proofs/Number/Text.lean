import Lox.Heap
import Lox.Program.Printer
import Lox.Token.Listing
import Lox.Proofs.Number.Bits
import Lox.Proofs.Number.Shortest
import Lox.Proofs.Token.Spaced

/-!
# Number texts are literals

The texts that are written for a number are literals of the same number, for every finite double
whose sign bit is clear (`number_texts_are_literals`).  A text that is written is a numeral, digits
with a fraction or without (`IsNumeral`), of the number itself or of its shortest decimal.  Either
is rounded to the number, so that the double nearest to the numeral is the one that was written
(`IsNumeral.ofDigits_eq`).
-/

namespace Lox

open Number

/-- The digits before and behind a point are those of the number. -/
structure IsNumeral (q : ℚ) (whole fraction : List Char) : Prop where
  some : whole ≠ []
  digits : ∀ c ∈ whole, c.isDigit
  fraction_digits : ∀ c ∈ fraction, c.isDigit
  value : (natOfDigits (whole ++ fraction) : ℚ) / 10 ^ fraction.length = q

/-! ### The number that digits denote -/

theorem natOfDigits_eq (cs : List Char) : natOfDigits cs = Nat.ofDigitChars 10 cs 0 :=
  Nat.ofDigitChars_eq_foldl.symm

@[simp] theorem natOfDigits_toDigits (n : ℕ) : natOfDigits (Nat.toDigits 10 n) = n := by
  rw [natOfDigits_eq, Nat.ofDigitChars_ten_toDigits]

/-- Zeros at the end. -/
theorem natOfDigits_append_zeros (cs : List Char) (n : ℕ) :
    natOfDigits (cs ++ List.replicate n '0') = natOfDigits cs * 10 ^ n := by
  rw [natOfDigits_eq, natOfDigits_eq, Nat.ofDigitChars_append, Nat.ofDigitChars_replicate_zero,
    Nat.mul_comm]

/-- Zeros in front. -/
theorem natOfDigits_zeros_append (n : ℕ) (cs : List Char) :
    natOfDigits (List.replicate n '0' ++ cs) = natOfDigits cs := by
  rw [natOfDigits_eq, natOfDigits_eq, Nat.ofDigitChars_append, Nat.ofDigitChars_replicate_zero,
    Nat.mul_zero]

theorem isDigit_of_mem_toDigits {n : ℕ} {c : Char} (hc : c ∈ Nat.toDigits 10 n) : c.isDigit :=
  Nat.isDigit_of_mem_toDigits (by decide) (by decide) hc

theorem isDigit_of_mem_zeros {n : ℕ} {c : Char} (hc : c ∈ List.replicate n '0') : c.isDigit := by
  rw [List.eq_of_mem_replicate hc]
  decide

namespace IsNumeral

/-- A natural number is written with its digits. -/
theorem natural (n : ℕ) : IsNumeral n (Nat.toDigits 10 n) [] where
  some := Nat.toDigits_ne_nil
  digits _ hc := isDigit_of_mem_toDigits hc
  fraction_digits _ hc := by cases hc
  value := by
    rw [List.append_nil, natOfDigits_toDigits, List.length_nil, pow_zero, div_one]

/-- A fraction of zeros does not change the number. -/
theorem append_zeros {q : ℚ} {whole : List Char} (h : IsNumeral q whole []) (n : ℕ) :
    IsNumeral q whole (List.replicate n '0') where
  some := h.some
  digits := h.digits
  fraction_digits _ hc := isDigit_of_mem_zeros hc
  value := by
    have value := h.value
    rw [List.append_nil, List.length_nil, pow_zero, div_one] at value
    rw [natOfDigits_append_zeros, List.length_replicate, Nat.cast_mul, Nat.cast_pow, Nat.cast_ofNat,
      mul_div_cancel_right₀ _ (by positivity), value]

end IsNumeral

/-! ### Positional form -/

namespace Decimal

variable (d : Decimal)

theorem digits_ne_nil : d.digits ≠ [] := Nat.toDigits_ne_nil

theorem isDigit_of_mem_digits {c : Char} (hc : c ∈ d.digits) : c.isDigit :=
  isDigit_of_mem_toDigits hc

theorem natOfDigits_digits : natOfDigits d.digits = d.coefficient := natOfDigits_toDigits _

theorem value_of_nonneg (nonneg : 0 ≤ d.exponent) :
    d.value = d.coefficient * 10 ^ d.exponent.toNat := by
  rw [value, zpow_toNat (by norm_num), Int.toNat_of_nonpos (Int.neg_nonpos_of_nonneg nonneg),
    pow_zero, mul_one]

theorem value_of_nonpos (nonpos : d.exponent ≤ 0) :
    d.value = d.coefficient / 10 ^ (-d.exponent).toNat := by
  have ten : (10 : ℚ) ^ (-d.exponent).toNat ≠ 0 := by positivity
  rw [value, eq_div_iff ten, mul_assoc, ← zpow_toNat (by norm_num), Int.toNat_of_nonpos nonpos,
    pow_zero, mul_one]

/-- The zeros of a positive exponent stand behind the digits. -/
theorem isNumeral_whole (nonneg : 0 ≤ d.exponent) :
    IsNumeral d.value (d.digits ++ List.replicate d.exponent.toNat '0') [] where
  some := List.append_ne_nil_of_left_ne_nil d.digits_ne_nil _
  digits _ hc := (List.mem_append.1 hc).elim d.isDigit_of_mem_digits isDigit_of_mem_zeros
  fraction_digits _ hc := by cases hc
  value := by
    rw [List.append_nil, natOfDigits_append_zeros, natOfDigits_digits, List.length_nil, pow_zero,
      div_one, d.value_of_nonneg nonneg, Nat.cast_mul, Nat.cast_pow, Nat.cast_ofNat]

/-- The point stands among the digits. -/
theorem isNumeral_inside (negative : d.exponent < 0) (inside : 0 < d.point) :
    IsNumeral d.value (d.digits.take d.point.toNat) (d.digits.drop d.point.toNat) where
  some := by
    rw [Ne, List.take_eq_nil_iff]
    rintro (none | none)
    · omega
    · exact d.digits_ne_nil none
  digits _ hc := d.isDigit_of_mem_digits (List.mem_of_mem_take hc)
  fraction_digits _ hc := d.isDigit_of_mem_digits (List.mem_of_mem_drop hc)
  value := by
    have places : (d.digits.drop d.point.toNat).length = (-d.exponent).toNat := by
      rw [point] at inside
      rw [List.length_drop, point]
      omega
    rw [List.take_append_drop, places, natOfDigits_digits, d.value_of_nonpos negative.le]

/-- The point stands before the digits, with a zero before and other zeros behind it. -/
theorem isNumeral_below (below : d.point ≤ 0) :
    IsNumeral d.value ['0'] (List.replicate (-d.point).toNat '0' ++ d.digits) where
  some := List.cons_ne_nil _ _
  digits _ hc := isDigit_of_mem_zeros (n := 1) hc
  fraction_digits _ hc :=
    (List.mem_append.1 hc).elim isDigit_of_mem_zeros d.isDigit_of_mem_digits
  value := by
    rw [point] at below
    have places : (List.replicate (-d.point).toNat '0' ++ d.digits).length =
        (-d.exponent).toNat := by
      rw [List.length_append, List.length_replicate, point]
      omega
    have zeros : natOfDigits (['0'] ++ (List.replicate (-d.point).toNat '0' ++ d.digits)) =
        d.coefficient := by
      rw [← List.append_assoc, List.singleton_append, ← List.replicate_succ,
        natOfDigits_zeros_append, natOfDigits_digits]
    rw [zeros, places, d.value_of_nonpos (by omega)]

/-- The positional form of a decimal is a numeral of it. -/
theorem isNumeral_parts : IsNumeral d.value d.parts.1 d.parts.2 := by
  rw [parts]
  split
  · rename_i nonneg
    exact d.isNumeral_whole nonneg
  · rename_i negative
    split
    · rename_i inside
      exact d.isNumeral_inside (by omega) inside
    · rename_i below
      exact d.isNumeral_below (by omega)

theorem toList_positional : d.positional.toList = d.parts.1 ++ fractionText d.parts.2 := by
  rw [positional]
  split
  · rename_i whole same
    rw [same, String.toList_ofList, fractionText, if_pos rfl, List.append_nil]
  · rename_i whole fraction some same
    rw [same, String.toList_ofList, fractionText, if_neg fun none => some none]

end Decimal

/-! ### Whole numbers -/

namespace Magnitude

variable {v : Magnitude}

theorem value_of_whole? {n : ℕ} (found : v.whole? = some n) : v.value = n := by
  rw [whole?, Nat.pow_eq, Nat.pow_eq] at found
  split at found
  · rename_i divides
    obtain ⟨quotient, split⟩ := Nat.dvd_of_mod_eq_zero divides
    rw [← Option.some.inj found, value, split, Nat.mul_div_cancel_left _ (Nat.two_pow_pos _),
      Nat.cast_mul, Nat.cast_mul, Nat.cast_pow, Nat.cast_pow, Nat.cast_ofNat,
      zpow_toNat two_ne_zero v.exponent]
    ring
  · cases found

/-- A magnitude is rounded to itself. -/
theorem covers_value (v : Magnitude) : v.Covers v.value := by
  have unit := two_zpow_pos v.exponent
  have gap : (0 : ℚ) < v.gapBelow := Nat.cast_pos.2 v.gapBelow_pos
  rw [Covers, low, high, value]
  exact ⟨.inl (mul_lt_mul_of_pos_right (by linarith) unit),
    .inl (mul_lt_mul_of_pos_right (by linarith) unit)⟩

theorem covers_of_whole? {n : ℕ} (found : v.whole? = some n) : v.Covers n := by
  rw [← value_of_whole? found]
  exact v.covers_value

end Magnitude

/-! ### Literals -/

/-- The text is a literal of the number: digits, perhaps with a point and digits after it, which are
scanned as one token and are this number, bit for bit. -/
structure LiteralOf (x : Float) (text : String) : Prop where
  numeral : ∃ whole fraction : List Char, whole ≠ [] ∧ (∀ c ∈ whole, c.isDigit) ∧
    (∀ c ∈ fraction, c.isDigit) ∧ text.toList = whole ++ fractionText fraction
  scanned : scan text = [.ok ⟨.number x, text, 1⟩, .ok (endOfFile 1)]

/-- A text that is a token is scanned as this token. -/
theorem scan_of_forms {kind : Kind} {text : String} (forms : Forms kind text.toList)
    (one_line : '\n' ∉ text.toList) : scan text = [.ok ⟨kind, text, 1⟩, .ok (endOfFile 1)] := by
  have apart : Apart [] := fun _ h => by cases h
  have cut := pieces_of_longest (forms.longest apart) (forms.no_comment apart)
  rw [List.append_nil, pieces_nil] at cut
  have lines : (⟨.token kind, text.toList⟩ : Piece).newlines = 0 := List.count_eq_zero.2 one_line
  rw [scan_eq, cut, itemsFrom, lineAfter, lines, Piece.item?, String.ofList_toList]
  rfl

namespace IsNumeral

variable {q : ℚ} {whole fraction : List Char} {x : Float}

theorem forms (h : IsNumeral q whole fraction) :
    Forms (.number (ofDigits whole fraction)) (whole ++ fractionText fraction) := by
  by_cases none : fraction = []
  · rw [none, fractionText, if_pos rfl, List.append_nil]
    exact .whole h.some h.digits
  · rw [fractionText, if_neg none]
    exact .decimal h.some h.digits none h.fraction_digits

theorem newline_not_mem (h : IsNumeral q whole fraction) :
    '\n' ∉ whole ++ fractionText fraction := by
  rw [List.mem_append]
  rintro (digit | behind)
  · exact absurd (h.digits _ digit) (by decide)
  · rw [fractionText] at behind
    split at behind
    · cases behind
    · exact absurd (h.fraction_digits _ (List.mem_of_ne_of_mem (by decide) behind)) (by decide)

/-- The double nearest to a numeral is the one that the number is rounded to. -/
theorem ofDigits_eq (h : IsNumeral q whole fraction) (unsigned : Binary64.Unsigned x)
    (covers : (Binary64.magnitudeOfCode x.toBits.toNat).Covers q) :
    ofDigits whole fraction = x := by
  have quotient : (natOfDigits (whole ++ fraction) : ℚ) / (Nat.pow 10 fraction.length : ℕ) = q := by
    rw [Nat.pow_eq, Nat.cast_pow, Nat.cast_ofNat, h.value]
  rw [← quotient] at covers
  exact unsigned.nearest_of_covers (Nat.pow_pos (by decide)) covers

/-- A text is a literal of a double if its digits are those of a number that is rounded to it. -/
theorem literalOf (h : IsNumeral q whole fraction) (unsigned : Binary64.Unsigned x)
    (covers : (Binary64.magnitudeOfCode x.toBits.toNat).Covers q) {text : String}
    (written : text.toList = whole ++ fractionText fraction) : LiteralOf x text where
  numeral := ⟨whole, fraction, h.some, h.digits, h.fraction_digits, written⟩
  scanned := by
    have forms := h.forms
    have one_line := h.newline_not_mem
    rw [h.ofDigits_eq unsigned covers, ← written] at forms
    rw [← written] at one_line
    exact scan_of_forms forms one_line

end IsNumeral

/-! ### The three texts -/

theorem sign_false_append (text : String) : sign false ++ text = text := by
  rw [sign, if_neg Bool.false_ne_true, String.empty_append]

namespace Binary64.Unsigned

variable {x : Float}

theorem literalOf_positional (h : Unsigned x) :
    LiteralOf x (positional false (magnitudeOfCode x.toBits.toNat)) := by
  refine (Decimal.isNumeral_parts _).literalOf h
    (covers_shortest h.toNat_toBits_lt_infinityCode .up) ?_
  rw [positional, sign_false_append, Decimal.toList_positional]

theorem literalOf_whole (h : Unsigned x) {n : ℕ}
    (found : (magnitudeOfCode x.toBits.toNat).whole? = some n) : LiteralOf x (toString n) := by
  refine (IsNumeral.natural n).literalOf h (Magnitude.covers_of_whole? found) ?_
  rw [Nat.toString_eq_repr, Nat.toList_repr, fractionText, if_pos rfl, List.append_nil]

theorem literalOf_whole_point (h : Unsigned x) {n : ℕ}
    (found : (magnitudeOfCode x.toBits.toNat).whole? = some n) :
    LiteralOf x (toString n ++ ".0") := by
  refine ((IsNumeral.natural n).append_zeros 1).literalOf h (Magnitude.covers_of_whole? found) ?_
  rw [String.toList_append, Nat.toString_eq_repr, Nat.toList_repr]
  rfl

theorem literalOf_printed (h : Unsigned x) : LiteralOf x (printed x) := by
  rw [printed, h.shape_eq]
  dsimp only
  split
  · rename_i n found
    rw [sign_false_append]
    exact h.literalOf_whole found
  · exact h.literalOf_positional

theorem literalOf_inTree (h : Unsigned x) : LiteralOf x (inTree x) := by
  rw [inTree, h.shape_eq]
  dsimp only
  split
  · rename_i n found
    rw [sign_false_append]
    exact h.literalOf_whole_point found
  · exact h.literalOf_positional

theorem literalOf_inToken (h : Unsigned x) : LiteralOf x (inToken x) := by
  rw [inToken, h.shape_eq]
  dsimp only
  split
  · rename_i n found
    split
    · rw [Bool.false_and, sign_false_append]
      exact h.literalOf_whole_point found
    · exact h.literalOf_positional
  · exact h.literalOf_positional

end Binary64.Unsigned

/-- What is printed for a finite number whose sign bit is clear, its text in a syntax tree and its
text in a token listing are literals of the number. -/
theorem number_texts_are_literals {x : Float} (finite : x.isFinite) (clear : x.toBits >>> 63 = 0) :
    (∀ h : Heap, LiteralOf x (h.text (.number x))) ∧
      LiteralOf x (Expr.literal (.number x)).printed ∧
      ∃ payload, LiteralOf x payload ∧ ∀ lexeme line,
        Token.listing ⟨.number x, lexeme, line⟩ = "NUMBER " ++ lexeme ++ " " ++ payload := by
  have unsigned : Binary64.Unsigned x := ⟨finite, clear⟩
  refine ⟨fun h => ?_, unsigned.literalOf_inTree, inToken x, unsigned.literalOf_inToken,
    fun lexeme line => rfl⟩
  rw [Heap.text, Heap.pieces, String.join]
  exact unsigned.literalOf_printed

/-- The least whole number that a token listing does not write as an integer. -/
theorem number_texts_are_literals_bound :
    let x := Float.ofBits 0x430c6bf526340000
    x.isFinite ∧ x.toBits >>> 63 = 0 ∧ (∀ h : Heap, LiteralOf x (h.text (.number x))) ∧
      LiteralOf x (Expr.literal (.number x)).printed ∧
      ∃ payload, LiteralOf x payload ∧ ∀ lexeme line,
        Token.listing ⟨.number x, lexeme, line⟩ = "NUMBER " ++ lexeme ++ " " ++ payload := by
  intro x
  have finite : x.isFinite := by decide +kernel
  have clear : x.toBits >>> 63 = 0 := by decide +kernel
  exact ⟨finite, clear, number_texts_are_literals finite clear⟩

/-- The three texts of this number, and one that is not whole. -/
example :
    let x := Float.ofBits 0x430c6bf526340000
    let y := Float.ofBits 0x3f1a36e2eb1c432d
    [printed x, inTree x, inToken x] =
        ["1000000000000000", "1000000000000000.0", "1000000000000000"] ∧
      [printed y, inTree y, inToken y] = ["0.0001", "0.0001", "0.0001"] := by
  decide +kernel

end Lox
