import NodeShader.Glsl.Literal
import Mathlib.Data.List.DropRight

namespace NodeShader.Glsl

variable {n : Nat} {ds : List Char}

theorem isDigit_of_mem_digits {c : Char} (h : c ∈ digits n) : c.isDigit :=
  Nat.isDigit_of_mem_toDigits (by decide) (by decide) h

theorem point_not_mem_of_isDigit (h : ∀ c ∈ ds, c.isDigit) : '.' ∉ ds := by
  intro hmem
  cases h '.' hmem

theorem ofDigitChars_digits (n : Nat) : Nat.ofDigitChars 10 (digits n) 0 = n :=
  Nat.ofDigitChars_ten_toDigits

theorem digits_of_head? (h : (digits n).head? = some '0') : digits n = ['0'] := by
  induction n using Nat.strong_induction_on with
  | _ n ih =>
    rw [digits, Nat.toDigits_eq_if (by decide)] at h ⊢
    split at h
    · rename_i hsmall
      rw [if_pos hsmall, Option.some.inj h]
    · -- The first digit is that of the quotient, which then is zero.
      rename_i hlarge
      rw [List.head?_append_of_ne_nil _ Nat.toDigits_ne_nil] at h
      have hquotient := congrArg (Nat.ofDigitChars 10 · 0) (ih (n / 10) (by omega) h)
      simp only [ofDigitChars_digits] at hquotient
      have hzero : Nat.ofDigitChars 10 ['0'] 0 = 0 := rfl
      omega

theorem isDigit_of_mem_sixDigits {c : Char} (h : c ∈ sixDigits n) : c.isDigit := by
  rcases List.mem_append.1 h with hzero | hdigit
  · rw [List.eq_of_mem_replicate hzero]
    rfl
  · exact isDigit_of_mem_digits hdigit

theorem length_sixDigits (h : n < tenPow 6) : (sixDigits n).length = 6 := by
  have hle : (digits n).length ≤ 6 := (Nat.length_toDigits_le_iff (by decide) (by decide)).2 h
  simp only [sixDigits, List.length_append, List.length_replicate]
  omega

theorem ofDigitChars_sixDigits (n : Nat) : Nat.ofDigitChars 10 (sixDigits n) 0 = n := by
  rw [sixDigits, Nat.ofDigitChars_append, Nat.ofDigitChars_replicate_zero, Nat.mul_zero, ofDigitChars_digits]

/-- The decimals without their trailing zeros, but never none. -/
def trimDecimals (ds : List Char) : List Char :=
  if trimZeros ds = [] then ['0'] else trimZeros ds

/-- What is cut off are zeros, and all that may be left of them is one. -/
theorem trimDecimals_cases (ds : List Char) : ∃ k,
    (ds = List.replicate k '0' ∧ trimDecimals ds = ['0']) ∨
      (ds = trimDecimals ds ++ List.replicate k '0' ∧ trimDecimals ds ≠ [] ∧
        (trimDecimals ds).getLast? ≠ some '0') := by
  have hsplit := List.rdropWhile_append_rtakeWhile (p := (· == '0')) (l := ds)
  have hzeros : ds.rtakeWhile (· == '0') = List.replicate (ds.rtakeWhile (· == '0')).length '0' :=
    List.eq_replicate_iff.2 ⟨rfl, fun c hc ↦ by simpa using List.mem_rtakeWhile_imp hc⟩
  refine ⟨(ds.rtakeWhile (· == '0')).length, ?_⟩
  rw [← hzeros]
  by_cases hkept : ds.rdropWhile (· == '0') = []
  · left
    have htrim : trimDecimals ds = ['0'] := if_pos hkept
    rw [hkept, List.nil_append] at hsplit
    exact ⟨hsplit.symm, htrim⟩
  · right
    have htrim : trimDecimals ds = ds.rdropWhile (· == '0') := if_neg hkept
    rw [htrim]
    refine ⟨hsplit.symm, hkept, fun hlast ↦ ?_⟩
    have hnot := List.rdropWhile_last_not (· == '0') ds hkept
    rw [List.getLast?_eq_getLast_of_ne_nil hkept] at hlast
    exact hnot (by simpa using Option.some.inj hlast)

theorem trimDecimals_ne_nil (ds : List Char) : trimDecimals ds ≠ [] := by
  obtain ⟨k, ⟨-, htrim⟩ | ⟨-, hne, -⟩⟩ := trimDecimals_cases ds
  · rw [htrim]
    exact List.cons_ne_nil _ _
  · exact hne

theorem isDigit_of_mem_trimDecimals (h : ∀ c ∈ ds, c.isDigit) : ∀ c ∈ trimDecimals ds, c.isDigit := by
  intro c hc
  obtain ⟨k, ⟨-, htrim⟩ | ⟨hds, -⟩⟩ := trimDecimals_cases ds
  · rw [htrim, List.mem_singleton] at hc
    rw [hc]
    rfl
  · exact h c (hds ▸ List.mem_append_left _ hc)

theorem trimDecimals_of_getLast? (h : (trimDecimals ds).getLast? = some '0') : trimDecimals ds = ['0'] := by
  obtain ⟨k, ⟨-, htrim⟩ | ⟨-, -, hlast⟩⟩ := trimDecimals_cases ds
  · exact htrim
  · exact absurd h hlast

theorem length_trimDecimals_le (h : ds ≠ []) : (trimDecimals ds).length ≤ ds.length := by
  obtain ⟨k, ⟨-, htrim⟩ | ⟨hds, -⟩⟩ := trimDecimals_cases ds
  · rw [htrim]
    exact List.length_pos_iff.2 h
  · have hlength := congrArg List.length hds
    rw [List.length_append] at hlength
    omega

/-- The zeros in front of the point are kept. -/
theorem trimZeros_append_point (front ds : List Char) :
    trimZeros (front ++ '.' :: ds) = front ++ '.' :: trimZeros ds := by
  simp only [trimZeros, List.reverse_append, List.reverse_cons, List.append_assoc,
    List.singleton_append, List.dropWhile_append]
  split
  · rename_i hnone
    rw [List.isEmpty_iff.1 hnone]
    simp
  · simp

theorem eq_zero_of_trimDecimals (h : trimDecimals (sixDigits n) = ['0']) : n = 0 := by
  obtain ⟨k, ⟨hzeros, -⟩ | ⟨-, -, hlast⟩⟩ := trimDecimals_cases (sixDigits n)
  · rw [← ofDigitChars_sixDigits n, hzeros, Nat.ofDigitChars_replicate_zero, Nat.mul_zero]
  · rw [h] at hlast
    exact absurd rfl hlast

theorem completePoint_trimZeros (front : List Char) (h : ∀ c ∈ ds, c.isDigit) :
    completePoint (trimZeros (front ++ '.' :: ds)) = front ++ '.' :: trimDecimals ds := by
  rw [trimZeros_append_point, completePoint, trimDecimals]
  by_cases hnone : trimZeros ds = []
  · rw [if_pos hnone, hnone, if_pos (by simp), List.append_assoc]
    rfl
  · have hlast : (front ++ '.' :: trimZeros ds).getLast? ≠ some '.' := by
      rw [List.getLast?_append_cons, List.getLast?_cons_of_ne_nil hnone]
      intro hpoint
      exact point_not_mem_of_isDigit h
        ((List.rdropWhile_prefix _ ds).subset (List.mem_of_getLast? hpoint))
    rw [if_neg hnone, if_neg hlast]

/-- Only a negative zero is written as minus zero. -/
theorem minusZero_iff (negative : Bool) (n : Nat) :
    (if negative then ['-'] else []) ++ digits (n / tenPow 6) ++
      '.' :: trimDecimals (sixDigits (n % tenPow 6)) = ['-', '0', '.', '0'] ↔ negative ∧ n = 0 := by
  constructor
  · intro h
    cases negative with
    | false =>
      have hminus : '-' ∈ digits (n / tenPow 6) := by
        have hne : digits (n / tenPow 6) ≠ [] := Nat.toDigits_ne_nil
        obtain ⟨c, cs, hdigits⟩ := List.exists_cons_of_ne_nil hne
        rw [hdigits] at h ⊢
        rw [← (List.cons.inj h).1]
        exact List.mem_cons_self
      cases isDigit_of_mem_digits hminus
    | true =>
      have hwholePoint : '.' ∉ digits (n / tenPow 6) :=
        point_not_mem_of_isDigit fun _ ↦ isDigit_of_mem_digits
      have hdecimalsPoint : '.' ∉ trimDecimals (sixDigits (n % tenPow 6)) :=
        point_not_mem_of_isDigit (isDigit_of_mem_trimDecimals fun _ ↦ isDigit_of_mem_sixDigits)
      have htail : digits (n / tenPow 6) ++ '.' :: trimDecimals (sixDigits (n % tenPow 6)) =
          ['0'] ++ '.' :: ['0'] := (List.cons.inj h).2
      obtain ⟨hwhole, -, hdecimals⟩ :=
        (List.append_cons_inj_of_notMem hwholePoint hdecimalsPoint).1 htail
      have hquotient : n / tenPow 6 = 0 := by
        rw [← ofDigitChars_digits (n / tenPow 6), hwhole]
        rfl
      have hrest := eq_zero_of_trimDecimals hdecimals
      refine ⟨rfl, ?_⟩
      rw [← Nat.div_add_mod n (tenPow 6), hquotient, hrest, Nat.mul_zero]
  · rintro ⟨hnegative, rfl⟩
    rw [if_pos hnegative]
    rfl

/-- The literal in one piece: what is cut off are the last zeros of the decimals, and what is replaced is
a sign in front of a zero. -/
theorem floatLiteral_eq (x : Binary32) : floatLiteral x =
    if x.isFinite then
      String.ofList ((if x.negative && millionths x != 0 then ['-'] else []) ++
        digits (millionths x / tenPow 6) ++ '.' :: trimDecimals (sixDigits (millionths x % tenPow 6)))
    else "0.0" := by
  unfold floatLiteral
  split
  · rw [fixedPoint, completePoint_trimZeros _ fun _ ↦ isDigit_of_mem_sixDigits]
    generalize millionths x = n
    by_cases hzero : x.negative ∧ n = 0
    · have hminus := (minusZero_iff _ _).2 hzero
      rw [hminus, hzero.2]
      cases x.negative with
      | false => rfl
      | true => rfl
    · have hsign : (x.negative && n != 0) = x.negative := by
        cases hneg : x.negative with
        | false => rfl
        | true => simpa [hneg] using hzero
      have hminus := mt (minusZero_iff x.negative n).1 hzero
      rw [hsign, if_neg fun h ↦ hminus (String.ofList_injective h)]
  · rfl

end NodeShader.Glsl
