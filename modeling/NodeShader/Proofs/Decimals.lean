import NodeShader.Proofs.Digits
import Mathlib.Algebra.Order.Field.Rat
import Mathlib.Data.List.Forall2
import Mathlib.Tactic.FieldSimp
import Mathlib.Tactic.Linarith
import Mathlib.Tactic.Positivity
import Mathlib.Tactic.Ring

namespace NodeShader

def signFactor (negative : Bool) : ℚ := if negative then -1 else 1

theorem abs_signFactor_mul (negative : Bool) (q : ℚ) : |signFactor negative * q| = |q| := by
  cases negative <;> simp [signFactor]

theorem cast_twoPow (k : Nat) : (twoPow k : ℚ) = 2 ^ k := by
  simp [twoPow]

theorem cast_tenPow (k : Nat) : (tenPow k : ℚ) = 10 ^ k := by
  simp [tenPow]

theorem abs_roundHalfEven_sub_le (num : Nat) {den : Nat} (hd : 0 < den) :
    |(roundHalfEven num den : ℚ) - num / den| ≤ 1 / 2 := by
  have hden : (0 : ℚ) < den := by exact_mod_cast hd
  have hupper : 2 * ((roundHalfEven num den : ℚ) * den) ≤ 2 * num + den := by
    exact_mod_cast roundHalfEven_mul_le hd
  have hlower : 2 * (num : ℚ) ≤ 2 * (roundHalfEven num den * den) + den := by
    exact_mod_cast le_roundHalfEven_mul hd
  have hscaled : ((roundHalfEven num den : ℚ) - num / den) * den = roundHalfEven num den * den - num := by
    field_simp
  rw [abs_le]
  constructor
  · refine le_of_mul_le_mul_right ?_ hden
    linarith
  · refine le_of_mul_le_mul_right ?_ hden
    linarith

namespace FloatFormat

/-- The exponent field of the numbers from one to two. -/
def bias (F : FloatFormat) : ℤ := twoPow (F.exponentBits - 1) - 1

theorem exists_bias {F : FloatFormat} (hF : 2 ≤ F.exponentBits) :
    ∃ k : Nat, F.bias = k + 1 ∧ F.unitExponent = k + F.fractionBits := by
  have htwo : 2 ≤ twoPow (F.exponentBits - 1) :=
    Nat.pow_le_pow_right (show 0 < 2 by decide) (show 1 ≤ F.exponentBits - 1 by omega)
  obtain ⟨k, hk⟩ := Nat.exists_eq_add_of_le htwo
  refine ⟨k, ?_, ?_⟩
  · rw [bias, hk]
    push_cast
    ring
  · rw [unitExponent, hk, Nat.add_sub_cancel_left]

end FloatFormat

namespace Binary

variable {F : FloatFormat}

/-- The number that a finite bit pattern stands for: where the exponent field is not zero the fraction has
a leading one that is not written. -/
def value (x : Binary F) : ℚ :=
  let exponent := x.magnitude.val / twoPow F.fractionBits
  let fraction : ℚ := (x.magnitude.val % twoPow F.fractionBits : Nat) / 2 ^ F.fractionBits
  signFactor x.negative *
    if exponent = 0 then fraction * 2 ^ (1 - F.bias) else (1 + fraction) * 2 ^ (exponent - F.bias)

theorem value_eq_units (hF : 2 ≤ F.exponentBits) (x : Binary F) :
    x.value = signFactor x.negative * (x.units / 2 ^ F.unitExponent) := by
  obtain ⟨k, hbias, hunit⟩ := FloatFormat.exists_bias hF
  unfold value units
  dsimp only
  rw [hbias, hunit, pow_add]
  split
  · rename_i hzero
    have hlt : x.magnitude.val < twoPow F.fractionBits :=
      (Nat.div_eq_zero_iff_lt (twoPow_pos _)).1 hzero
    have hpower : (2 : ℚ) ^ (1 - ((k : ℤ) + 1)) = (2 ^ k)⁻¹ := by
      rw [show 1 - ((k : ℤ) + 1) = -k by ring, zpow_neg, zpow_natCast]
    rw [Nat.mod_eq_of_lt hlt, hpower]
    field_simp
  · rename_i hpos
    obtain ⟨j, hj⟩ := Nat.exists_eq_succ_of_ne_zero hpos
    have hpower : (2 : ℚ) ^ (((j + 1 : Nat) : ℤ) - ((k : ℤ) + 1)) = 2 ^ j / 2 ^ k := by
      rw [show ((j + 1 : Nat) : ℤ) - ((k : ℤ) + 1) = (j : ℤ) - k by push_cast; ring,
        zpow_sub₀ two_ne_zero, zpow_natCast, zpow_natCast]
    rw [hj, hpower, Nat.succ_sub_one]
    push_cast
    rw [cast_twoPow, cast_twoPow]
    field_simp
    ring

end Binary

namespace Glsl

/-- The zeros at the end do not change the value of the decimals. -/
theorem fraction_trimDecimals (ds : List Char) :
    (Nat.ofDigitChars 10 (trimDecimals ds) 0 : ℚ) / 10 ^ (trimDecimals ds).length =
      Nat.ofDigitChars 10 ds 0 / 10 ^ ds.length := by
  obtain ⟨k, ⟨hds, htrim⟩ | ⟨hds, -⟩⟩ := trimDecimals_cases ds
  · have hzero : Nat.ofDigitChars 10 ['0'] 0 = 0 := rfl
    rw [htrim, hzero, hds, Nat.ofDigitChars_replicate_zero]
    simp
  · have hvalue : Nat.ofDigitChars 10 ds 0 = 10 ^ k * Nat.ofDigitChars 10 (trimDecimals ds) 0 := by
      conv_lhs => rw [hds]
      rw [Nat.ofDigitChars_append, Nat.ofDigitChars_replicate_zero]
    have hlength : ds.length = (trimDecimals ds).length + k := by
      conv_lhs => rw [hds]
      rw [List.length_append, List.length_replicate]
    rw [hvalue, hlength, pow_add]
    push_cast
    field_simp

@[ext]
structure Decimal where
  negative : Bool
  whole : List Char
  decimals : List Char
  whole_ne_nil : whole ≠ []
  decimals_ne_nil : decimals ≠ []
  isDigit_whole : ∀ c ∈ whole, c.isDigit
  isDigit_decimals : ∀ c ∈ decimals, c.isDigit

namespace Decimal

def text (d : Decimal) : String :=
  String.ofList ((if d.negative then ['-'] else []) ++ d.whole ++ '.' :: d.decimals)

def value (d : Decimal) : ℚ :=
  signFactor d.negative *
    (Nat.ofDigitChars 10 d.whole 0 + Nat.ofDigitChars 10 d.decimals 0 / 10 ^ d.decimals.length)

/-- No digit is written that could be left out, there are at most six decimals, and zero has no sign. -/
structure IsTidy (d : Decimal) : Prop where
  whole : d.whole.head? = some '0' → d.whole = ['0']
  decimals : d.decimals.getLast? = some '0' → d.decimals = ['0']
  length : d.decimals.length ≤ 6
  unsigned : d.value = 0 → d.negative = false

theorem negative_iff (d : Decimal) : d.negative ↔ d.text.toList.head? = some '-' := by
  rw [text, String.toList_ofList]
  cases d.negative with
  | true => simp
  | false =>
    obtain ⟨c, cs, hwhole⟩ := List.exists_cons_of_ne_nil d.whole_ne_nil
    have hdigit := d.isDigit_whole c (hwhole ▸ List.mem_cons_self)
    simp only [hwhole, List.cons_append, List.head?_cons, Option.some.injEq, Bool.false_eq_true, if_false,
      List.nil_append, false_iff]
    rintro rfl
    cases hdigit

/-- The text tells what it is made of, so its value is that of the text. -/
theorem text_injective : Function.Injective text := by
  intro d d' h
  have hsign : d.negative = d'.negative := by
    rw [Bool.eq_iff_iff, negative_iff, negative_iff, h]
  have hlist := String.ofList_injective h
  rw [hsign, List.append_assoc, List.append_assoc, List.append_cancel_left_eq] at hlist
  obtain ⟨hwhole, -, hdecimals⟩ := (List.append_cons_inj_of_notMem
    (point_not_mem_of_isDigit d.isDigit_whole) (point_not_mem_of_isDigit d.isDigit_decimals)).1 hlist
  exact Decimal.ext hsign hwhole hdecimals

def ofMillionths (negative : Bool) (n : Nat) : Decimal where
  negative := negative && n != 0
  whole := digits (n / tenPow 6)
  decimals := trimDecimals (sixDigits (n % tenPow 6))
  whole_ne_nil := Nat.toDigits_ne_nil
  decimals_ne_nil := trimDecimals_ne_nil _
  isDigit_whole _ := isDigit_of_mem_digits
  isDigit_decimals := isDigit_of_mem_trimDecimals fun _ ↦ isDigit_of_mem_sixDigits

theorem value_ofMillionths (negative : Bool) (n : Nat) :
    (ofMillionths negative n).value = signFactor negative * (n / 10 ^ 6) := by
  have hparts : ((n / tenPow 6 : Nat) : ℚ) + (n % tenPow 6 : Nat) / 10 ^ 6 = n / 10 ^ 6 := by
    have hn : ((tenPow 6 * (n / tenPow 6) + n % tenPow 6 : Nat) : ℚ) = n := by rw [Nat.div_add_mod]
    push_cast [cast_tenPow] at hn
    field_simp
    linarith
  have hrest : n % tenPow 6 < tenPow 6 := Nat.mod_lt n (tenPow_pos 6)
  simp only [value, ofMillionths, fraction_trimDecimals, ofDigitChars_digits, ofDigitChars_sixDigits,
    length_sixDigits hrest, hparts]
  by_cases hn : n = 0
  · simp [hn]
  · rw [bne_iff_ne.2 hn, Bool.and_true]

theorem isTidy_ofMillionths (negative : Bool) (n : Nat) : (ofMillionths negative n).IsTidy where
  whole := digits_of_head?
  decimals := trimDecimals_of_getLast?
  length := by
    have hsix := length_sixDigits (Nat.mod_lt n (tenPow_pos 6))
    have hne : sixDigits (n % tenPow 6) ≠ [] := List.ne_nil_of_length_pos (by omega)
    exact (length_trimDecimals_le hne).trans_eq hsix
  unsigned h := by
    rw [value_ofMillionths] at h
    have hn : n = 0 := by
      cases negative <;> simpa [signFactor] using h
    simp [ofMillionths, hn]

theorem IsTidy.text_ne_minusZero {d : Decimal} (h : d.IsTidy) : d.text ≠ "-0.0" := by
  intro htext
  have hdigit : ∀ c ∈ ['0'], c.isDigit := by simp
  obtain rfl := @text_injective d
    ⟨true, ['0'], ['0'], List.cons_ne_nil _ _, List.cons_ne_nil _ _, hdigit, hdigit⟩ htext
  cases h.unsigned (by simp [value, Nat.ofDigitChars])

/-- A decimal that can stand for a number in a shader. What has no finite value is written as zero. -/
structure Denotes (d : Decimal) (x : Binary32) : Prop where
  tidy : d.IsTidy
  near : x.isFinite → |d.value - x.value| ≤ 1 / 2 / 10 ^ 6
  zero : ¬ x.isFinite → d.text = "0.0"

end Decimal

def decimal (x : Binary32) : Decimal :=
  if x.isFinite then
    .ofMillionths x.negative (millionths x)
  else .ofMillionths false 0

theorem floatLiteral_eq_text (x : Binary32) : floatLiteral x = (decimal x).text := by
  rw [floatLiteral_eq, decimal]
  split
  · rfl
  · rfl

theorem isTidy_decimal (x : Binary32) : (decimal x).IsTidy := by
  unfold decimal
  split
  · exact Decimal.isTidy_ofMillionths _ _
  · exact Decimal.isTidy_ofMillionths _ _

theorem abs_decimal_sub_le {x : Binary32} (h : x.isFinite) :
    |(decimal x).value - x.value| ≤ 1 / 2 / 10 ^ 6 := by
  have hround := abs_roundHalfEven_sub_le (x.units * tenPow 6)
    (twoPow_pos FloatFormat.single.unitExponent)
  rw [decimal, if_pos h, Decimal.value_ofMillionths, millionths, Binary.value_eq_units (by decide), ← mul_sub,
    abs_signFactor_mul]
  push_cast [cast_twoPow, cast_tenPow] at hround ⊢
  generalize (roundHalfEven _ _ : ℚ) = n at hround ⊢
  have hscale : n / 10 ^ 6 - x.units / 2 ^ FloatFormat.single.unitExponent =
      (n - x.units * 10 ^ 6 / 2 ^ FloatFormat.single.unitExponent) / 10 ^ 6 := by
    field_simp
  rw [hscale, abs_div, abs_of_pos (show (0 : ℚ) < 10 ^ 6 by norm_num)]
  exact div_le_div_of_nonneg_right hround (by norm_num)

theorem decimal_denotes (x : Binary32) : (decimal x).Denotes x where
  tidy := isTidy_decimal x
  near := abs_decimal_sub_le
  zero h := by
    rw [decimal, if_neg h]
    rfl

/-- Every bit pattern has a tidy decimal as its literal, never the negative zero, and within half a millionth
of the number if it is finite. A vector literal is made of one of them for each component. -/
theorem literal_notation (x : Binary32) (xs : List Binary32) :
    (∃ d : Decimal, floatLiteral x = d.text ∧ d.Denotes x) ∧ floatLiteral x ≠ "-0.0" ∧
      ∃ ds : List Decimal, List.Forall₂ Decimal.Denotes ds xs ∧
        vectorLiteral xs =
          "vec" ++ toString xs.length ++ "(" ++ ", ".intercalate (ds.map Decimal.text) ++ ")" := by
  refine ⟨⟨decimal x, floatLiteral_eq_text x, decimal_denotes x⟩, ?_, xs.map decimal, ?_, ?_⟩
  · rw [floatLiteral_eq_text]
    exact (isTidy_decimal x).text_ne_minusZero
  · exact List.forall₂_map_left_iff.2 (List.forall₂_same.2 fun x _ ↦ decimal_denotes x)
  · have htexts : xs.map floatLiteral = (xs.map decimal).map Decimal.text := by
      rw [List.map_map]
      exact List.map_congr_left fun x _ ↦ floatLiteral_eq_text x
    rw [vectorLiteral, htexts]

-- A hundred, a negative number that rounds to zero, and what is not a number.
example : vectorLiteral [.ofBits 0x42c80000, .ofBits 0xb3d6bf95, .ofBits 0x7fc00000] =
    "vec3(100.0, 0.0, 0.0)" := by
  decide +kernel

end Glsl

end NodeShader
