namespace NodeShader

def roundHalfEven (num den : Nat) : Nat :=
  let q := num / den
  let r := num % den
  if 2 * r < den then q
  else if den < 2 * r then q + 1
  else q + q % 2

theorem roundHalfEven_of_dvd {num den : Nat} (hd : 0 < den) (h : den ∣ num) :
    roundHalfEven num den = num / den := by
  simp [roundHalfEven, Nat.mod_eq_zero_of_dvd h, hd]

theorem roundHalfEven_mul_le {num den : Nat} (hd : 0 < den) :
    2 * (roundHalfEven num den * den) ≤ 2 * num + den := by
  have h := Nat.div_add_mod num den
  have hm : num / den * den = den * (num / den) := Nat.mul_comm _ _
  unfold roundHalfEven
  dsimp only
  split
  · omega
  · split
    · rw [Nat.add_mul]
      omega
    · rw [Nat.add_mul]
      rcases Nat.mod_two_eq_zero_or_one (num / den) with h2 | h2 <;> rw [h2] <;> omega

theorem le_roundHalfEven_mul {num den : Nat} (hd : 0 < den) :
    2 * num ≤ 2 * (roundHalfEven num den * den) + den := by
  have h := Nat.div_add_mod num den
  have hm : num / den * den = den * (num / den) := Nat.mul_comm _ _
  have hl := Nat.mod_lt num hd
  unfold roundHalfEven
  dsimp only
  split
  · omega
  · split
    · rw [Nat.add_mul]
      omega
    · rw [Nat.add_mul]
      rcases Nat.mod_two_eq_zero_or_one (num / den) with h2 | h2 <;> rw [h2] <;> omega

end NodeShader
