import NodeShader.Number.Binary

namespace NodeShader.Glsl

def digits (n : Nat) : List Char := Nat.toDigits 10 n

def sixDigits (n : Nat) : List Char :=
  let ds := digits n
  List.replicate (6 - ds.length) '0' ++ ds

/-- The magnitude in millionths, a half going to the even neighbour. -/
def millionths (x : Binary32) : Nat :=
  roundHalfEven (x.units * tenPow 6) (twoPow FloatFormat.single.unitExponent)

/-- The value with six decimals. A sign is also written in front of a zero. -/
def fixedPoint (x : Binary32) : List Char :=
  (if x.negative then ['-'] else []) ++ digits (millionths x / tenPow 6) ++
    '.' :: sixDigits (millionths x % tenPow 6)

def trimZeros (cs : List Char) : List Char := (cs.reverse.dropWhile (· == '0')).reverse

def completePoint (cs : List Char) : List Char :=
  if cs.getLast? = some '.' then cs ++ ['0'] else cs

/-- A float literal always has a decimal point and a digit behind it. Zero carries no sign, and what has
no finite value is written as zero. -/
def floatLiteral (x : Binary32) : String :=
  if x.isFinite then
    let text := String.ofList (completePoint (trimZeros (fixedPoint x)))
    if text = "-0.0" then "0.0" else text
  else "0.0"

def vectorLiteral (xs : List Binary32) : String :=
  "vec" ++ toString xs.length ++ "(" ++ ", ".intercalate (xs.map floatLiteral) ++ ")"

end NodeShader.Glsl
