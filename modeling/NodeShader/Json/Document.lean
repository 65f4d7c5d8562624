import NodeShader.Json.Basic

namespace NodeShader

/-- A JSON text as a tree. Fields stand as written, repeated keys included, and a scalar that is well
formed but stands for nothing (a number beyond the largest one, a string with half of a surrogate
pair) is there without a value: it only matters to those who read it. -/
inductive Document where
  | null
  | bool (b : Bool)
  | number (n : Option Number)
  | string (s : Option String)
  | array (items : List Document)
  | object (fields : List (Option String × Document))

namespace Document

instance : Inhabited Document := ⟨null⟩

mutual

/-- The value, if everything in it has one and it nests at most `room` deep. Of fields with one key
the last stays. -/
def toJson? (room : Nat) : Document → Option Json
  | null => some .null
  | bool b => some (.bool b)
  | number n => n.map .number
  | string s => s.map .string
  | array xs =>
    match room with
    | 0 => none
    | room + 1 => (itemsToJson? room xs).map .array
  | object xs =>
    match room with
    | 0 => none
    | room + 1 => (fieldsToJson? room xs).map .ofFields

def itemsToJson? (room : Nat) : List Document → Option (List Json)
  | [] => some []
  | x :: xs => do return (← toJson? room x) :: (← itemsToJson? room xs)

def fieldsToJson? (room : Nat) : List (Option String × Document) → Option (List (String × Json))
  | [] => some []
  | (k, x) :: xs => do return (← k, ← toJson? room x) :: (← fieldsToJson? room xs)

end

mutual

def ofJson : Json → Document
  | .null => null
  | .bool b => bool b
  | .number n => number (some n)
  | .string s => string (some s)
  | .array xs => array (ofItems xs)
  | .object xs => object (ofFields xs)

def ofItems : List Json → List Document
  | [] => []
  | x :: xs => ofJson x :: ofItems xs

def ofFields {bound : Option String} : Sorted Json bound → List (Option String × Document)
  | .nil => []
  | .cons k x _ xs => (some k, ofJson x) :: ofFields xs

end

def string? : Document → Option String
  | string s => s
  | _ => none

def bool? : Document → Option Bool
  | bool b => some b
  | _ => none

/-- A number in single precision; an integer is rounded in one step. -/
def single? : Document → Option Binary32
  | number (some (.int z)) => some (.ofInt z)
  | number (some (.float x)) => some (x.convert .single)
  | _ => none

def word? : Document → Option Nat
  | number (some (.int (.ofNat n))) => if n < twoPow 32 then some n else none
  | _ => none

def array? : Document → Option (List Document)
  | array xs => some xs
  | _ => none

/-- The entry of each name in a record. A record is an object in which no name occurs twice and other
keys are passed over, or an array of the entries in the order of the names, of which the last ones
may be missing. -/
def entries? (names : List String) : Document → Option (List (Option Document))
  | object fields =>
    let known := fields.filter fun f ↦ f.1.any (names.contains ·)
    if fields.all (·.1.isSome) && names.all fun n ↦ known.countP (·.1 == some n) ≤ 1 then
      some (names.map fun n ↦ (known.find? (·.1 == some n)).map (·.2))
    else none
  | array items =>
    if items.length ≤ names.length then
      some (names.mapIdx fun i _ ↦ items[i]?)
    else none
  | _ => none

def required {α : Type} (read : Document → Option α) (entry : Option Document) : Option α :=
  entry.bind read

def optional {α : Type} (default : α) (read : Document → Option α) : Option Document → Option α
  | none => some default
  | some d => read d

end Document

end NodeShader
