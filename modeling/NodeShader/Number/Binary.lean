import NodeShader.Number.Power
import NodeShader.Number.Rounding

namespace NodeShader

structure FloatFormat where
  exponentBits : Nat
  fractionBits : Nat
deriving DecidableEq

namespace FloatFormat

variable (F : FloatFormat)

def single : FloatFormat := ⟨8, 23⟩

def double : FloatFormat := ⟨11, 52⟩

def patterns : Nat := twoPow (F.exponentBits + F.fractionBits)

/-- The bit pattern of infinity; the patterns above it are not numbers. -/
def infinity : Nat := (twoPow F.exponentBits - 1) * twoPow F.fractionBits

/-- The least positive number of the format is `2 ^ (-F.unitExponent)`. -/
def unitExponent : Nat := twoPow (F.exponentBits - 1) - 2 + F.fractionBits

theorem patterns_pos : 0 < F.patterns := twoPow_pos _

theorem infinity_lt_patterns : F.infinity < F.patterns := by
  rw [infinity, patterns, twoPow_add]
  exact Nat.mul_lt_mul_of_pos_right (Nat.sub_lt (twoPow_pos _) (by decide)) (twoPow_pos _)

/-- The pattern of the number nearest to `num / den`, ties going to the even pattern. The scaled
quotient is cut to the precision of the format before it is rounded; adding the shift to the exponent
field also takes care of a carry. -/
def nearest (num den : Nat) : Nat :=
  let scaled := num * twoPow F.unitExponent
  let shift := (scaled / den).log2 - F.fractionBits
  min F.infinity (shift * twoPow F.fractionBits + roundHalfEven scaled (den * twoPow shift))

theorem nearest_lt_patterns (num den : Nat) : F.nearest num den < F.patterns :=
  Nat.lt_of_le_of_lt (Nat.min_le_left _ _) F.infinity_lt_patterns

end FloatFormat

structure Binary (F : FloatFormat) where
  negative : Bool
  magnitude : Fin F.patterns
deriving DecidableEq

abbrev Binary32 := Binary .single

abbrev Binary64 := Binary .double

namespace Binary

variable {F : FloatFormat}

def zero : Binary F := ⟨false, ⟨0, F.patterns_pos⟩⟩

instance : Inhabited (Binary F) := ⟨zero⟩

def isFinite (x : Binary F) : Bool := x.magnitude.val < F.infinity

def isNaN (x : Binary F) : Bool := F.infinity < x.magnitude.val

/-- The magnitude of a finite number as a multiple of the least positive number. -/
def units (x : Binary F) : Nat :=
  let exponent := x.magnitude.val / twoPow F.fractionBits
  if exponent = 0 then x.magnitude.val
  else (x.magnitude.val % twoPow F.fractionBits + twoPow F.fractionBits) * twoPow (exponent - 1)

def ofRatio (negative : Bool) (num den : Nat) : Binary F :=
  ⟨negative, ⟨F.nearest num den, F.nearest_lt_patterns num den⟩⟩

def ofInt (z : Int) : Binary F := ofRatio (z < 0) z.natAbs 1

def toBits (x : Binary F) : Nat := (if x.negative then F.patterns else 0) + x.magnitude.val

def ofBits (n : Nat) : Binary F :=
  ⟨n / F.patterns % 2 == 1, ⟨n % F.patterns, Nat.mod_lt _ F.patterns_pos⟩⟩

def convert (G : FloatFormat) (x : Binary F) : Binary G :=
  if x.isFinite then ofRatio x.negative x.units (twoPow F.unitExponent)
  else if x.isNaN then ⟨x.negative, ⟨G.patterns - 1, Nat.sub_lt G.patterns_pos (by decide)⟩⟩
  else ⟨x.negative, ⟨G.infinity, G.infinity_lt_patterns⟩⟩

def mul (x y : Binary F) : Binary F :=
  ofRatio (x.negative != y.negative) (x.units * y.units)
    (twoPow F.unitExponent * twoPow F.unitExponent)

def div (x y : Binary F) : Binary F :=
  ofRatio (x.negative != y.negative) x.units y.units

def neg (x : Binary F) : Binary F := { x with negative := !x.negative }

/-- Equality of values: the two zeros are equal, and what is not a number equals nothing. -/
def same (x y : Binary F) : Bool :=
  !x.isNaN && !y.isNaN &&
    (x.magnitude == y.magnitude && (x.negative == y.negative || x.magnitude.val == 0))

def floorMagnitude (x : Binary F) : Nat := x.units / twoPow F.unitExponent

end Binary

end NodeShader
