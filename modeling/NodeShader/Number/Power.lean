namespace NodeShader

def twoPow (k : Nat) : Nat := Nat.pow 2 k

def tenPow (k : Nat) : Nat := Nat.pow 10 k

theorem twoPow_pos (k : Nat) : 0 < twoPow k := Nat.pow_pos (by decide)

theorem tenPow_pos (k : Nat) : 0 < tenPow k := Nat.pow_pos (by decide)

@[simp] theorem twoPow_zero : twoPow 0 = 1 := rfl

theorem twoPow_succ (k : Nat) : twoPow (k + 1) = 2 * twoPow k := Nat.mul_comm _ _

theorem twoPow_add (j k : Nat) : twoPow (j + k) = twoPow j * twoPow k := Nat.pow_add 2 j k

end NodeShader
