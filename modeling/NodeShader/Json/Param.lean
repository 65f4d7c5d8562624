import NodeShader.Json.Basic

namespace NodeShader.Json

/-- A parameter as a number in single precision. Switches count as zero and one. -/
def single? : Json → Option Binary32
  | number n => some (n.toDouble.convert .single)
  | bool b => some (.ofInt (if b then 1 else 0))
  | _ => none

def countLimit : Nat := twoPow 32 - 1

/-- A parameter as a count below `2 ^ 32`. Floating-point numbers are cut to their integer part, and
then into the range; of the integers only negative ones are, larger ones are no counts. -/
def count? : Json → Option Nat
  | number (.int (.ofNat n)) => if n ≤ countLimit then some n else none
  | number (.int (.negSucc _)) => some 0
  | number (.float x) =>
    if x.isFinite then some (if x.negative then 0 else min countLimit x.floorMagnitude) else none
  | _ => none

def componentNames : List (List String) := [["x", "r"], ["y", "g"], ["z", "b"], ["w", "a"]]

/-- A parameter as a vector of `n` components: a list of them, an object with named ones, of which
there are four, or one number for all. Missing components are zero. -/
def vector? (n : Nat) : Json → Option (List Binary32)
  | array items =>
    some ((items.take n).map (fun v ↦ v.single?.getD .zero) ++
      List.replicate (n - items.length) .zero)
  | object fields =>
    some ((componentNames.take n).map fun names ↦
      (names.findSome? fun k ↦ (Dict.get? fields k).bind single?).getD .zero)
  | v => v.single?.map (List.replicate n)

def nodeId? (item : Json) : Option String :=
  item.string? <|> (item.field? "id").bind string? <|> (item.field? "nodeId").bind string?

def nodeIds : Json → List String
  | array items => items.filterMap nodeId?
  | _ => []

end NodeShader.Json
