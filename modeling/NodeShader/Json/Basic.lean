import NodeShader.Dict
import NodeShader.Number.Binary

namespace NodeShader

/-- A number of a JSON value: integers and floating-point numbers are kept apart. -/
inductive Number where
  | int (z : Int)
  | float (x : Binary64)
deriving DecidableEq

namespace Number

def toDouble : Number → Binary64
  | .int z => .ofInt z
  | .float x => x

def same : Number → Number → Bool
  | .int y, .int z => y == z
  | .float x, .float y => x.same y
  | _, _ => false

end Number

/-- A JSON value. An object is a `Dict`, which has to be written out here. -/
inductive Json where
  | null
  | bool (b : Bool)
  | number (n : Number)
  | string (s : String)
  | array (items : List Json)
  | object (fields : Sorted Json none)

namespace Json

instance : Inhabited Json := ⟨null⟩

def int (z : Int) : Json := number (.int z)

def float (x : Binary64) : Json := number (.float x)

def string? : Json → Option String
  | string s => some s
  | _ => none

def field? (k : String) : Json → Option Json
  | object fields => Dict.get? fields k
  | _ => none

def ofFields (fields : List (String × Json)) : Json := object (Dict.ofList fields)

mutual

def same : Json → Json → Bool
  | null, null => true
  | bool a, bool b => a == b
  | number m, number n => m.same n
  | string s, string t => s == t
  | array xs, array ys => sameItems xs ys
  | object xs, object ys => sameFields xs ys
  | _, _ => false

def sameItems : List Json → List Json → Bool
  | [], [] => true
  | x :: xs, y :: ys => same x y && sameItems xs ys
  | _, _ => false

def sameFields {bound bound' : Option String} : Sorted Json bound → Sorted Json bound' → Bool
  | .nil, .nil => true
  | .cons k x _ xs, .cons l y _ ys => k == l && same x y && sameFields xs ys
  | _, _ => false

end

mutual

def depth : Json → Nat
  | array xs => depthItems xs + 1
  | object xs => depthFields xs + 1
  | _ => 0

def depthItems : List Json → Nat
  | [] => 0
  | x :: xs => max (depth x) (depthItems xs)

def depthFields {bound : Option String} : Sorted Json bound → Nat
  | .nil => 0
  | .cons _ x _ xs => max (depth x) (depthFields xs)

end

end Json

end NodeShader
