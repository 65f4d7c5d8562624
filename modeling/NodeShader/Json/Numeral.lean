import NodeShader.Json.Basic

namespace NodeShader

structure Numeral where
  negative : Bool
  whole : List Char
  fraction : Option (List Char)
  exponent : Option (Bool × List Char)

namespace Numeral

def digit (c : Char) : Nat := c.toNat - '0'.toNat

/-- Appends digits to a significand as long as it stays below `2 ^ 64`, and gives back the others. -/
def absorb (significand : Nat) : List Char → Nat × List Char
  | [] => (significand, [])
  | c :: cs =>
    let next := significand * 10 + digit c
    if next < twoPow 64 then absorb next cs else (significand, c :: cs)

def powerOfTen (k : Nat) : Binary64 := .ofRatio false (tenPow k) 1

/-- Division by a power of ten, in steps of at most `10 ^ 308`. Three steps take any 64-bit
significand to zero. -/
def shrink : Nat → Binary64 → Nat → Binary64
  | 0, x, _ => x
  | n + 1, x, k =>
    if k ≤ 308 then x.div (powerOfTen k)
    else if x.units = 0 then x
    else shrink n (x.div (powerOfTen 308)) (k - 308)

/-- A significand times a power of ten, by a single rounded multiplication or division where the
power is itself a number of the format; nothing when the result is too large. -/
def scale (significand : Nat) (exponent : Int) : Option Binary64 :=
  let x : Binary64 := .ofRatio false significand 1
  if exponent < 0 then some (shrink 4 x exponent.natAbs)
  else if exponent ≤ 308 then
    let y := x.mul (powerOfTen exponent.natAbs)
    if y.isFinite then some y else none
  else if significand = 0 then some x
  else none

def exponentLimit : Nat := twoPow 31 - 1

/-- The magnitude of a numeral that is no integer. Digits that do not fit the significand count by
their place before the point and not at all after it. -/
def magnitude? (n : Numeral) : Option Binary64 :=
  let (whole, overflow) := absorb 0 n.whole
  let fraction := n.fraction.getD []
  let (significand, ignored) := absorb whole fraction
  let shift : Int := overflow.length - (fraction.length - ignored.length : Nat)
  match n.exponent with
  | none => scale significand shift
  | some (negative, ds) =>
    let e := ds.foldl (fun e c ↦ e * 10 + digit c) 0
    if e ≤ exponentLimit then scale significand (if negative then shift - e else shift + e)
    else if negative || significand == 0 then some .zero
    else none

def float? (n : Numeral) : Option Number :=
  n.magnitude?.map fun x ↦ .float (if n.negative then x.neg else x)

/-- The number a numeral stands for: an integer if it has neither point nor exponent and fits 64 bits,
else the floating-point number, which fails when it is too large. A negative zero is no integer. -/
def number? (n : Numeral) : Option Number :=
  match n.fraction, n.exponent, absorb 0 n.whole with
  | none, none, (significand, []) =>
    if !n.negative then some (.int significand)
    else if significand = 0 ∨ twoPow 63 < significand then n.float?
    else some (.int (-significand))
  | _, _, _ => n.float?

end Numeral

end NodeShader
