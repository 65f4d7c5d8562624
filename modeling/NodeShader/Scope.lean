import NodeShader.NodeType.Site

namespace NodeShader

/-- The names in use: beginnings of variables, variables, and the symbols of nodes. -/
structure Scope where
  stems : List String := []
  declared : List String := []
  symbols : Dict String := .empty

namespace Scope

def candidate (base : String) (n : Nat) : String :=
  if n = 0 then base else Glsl.identifier (base ++ "_" ++ toString n)

/-- The first free candidate from the `n`-th on, or else the one after `budget` others. -/
def firstFree (free : String → Bool) (base : String) : (budget n : Nat) → String
  | 0, n => candidate base n
  | budget + 1, n =>
    if free (candidate base n) then candidate base n else firstFree free base budget (n + 1)

def isFree (s : Scope) (keys : List String) (stem : String) : Bool :=
  !s.stems.contains stem && keys.all fun k ↦ !s.declared.contains (Glsl.variableName stem k)

/-- A new stem for an instance with the given output keys, and the scope in which it is taken. A stem
in use spoils at most one candidate, and a variable at most one for each key. -/
def reserve (s : Scope) (base : String) (keys : List String) : String × Scope :=
  let budget := s.stems.length + keys.length * s.declared.length
  let stem := firstFree (s.isFree keys) (Glsl.identifier base) budget 0
  (stem, { s with
    stems := stem :: s.stems
    declared := keys.map (Glsl.variableName stem) ++ s.declared })

def record (s : Scope) (e : Emission) : Scope :=
  { s with declared := e.outputs.map (·.2.text) ++ e.statements.map (·.name) ++ s.declared }

/-- A symbol does not begin with an underscore, so that it can follow one. -/
def symbolBase (id : String) : String :=
  let base := Glsl.identifier id
  if base.toList.head? = some '_' then "n" ++ base else base

def symbol (s : Scope) (id : String) : String × Scope :=
  match s.symbols.get? id with
  | some name => (name, s)
  | none =>
    let taken := s.symbols.entries.map (·.2)
    let name := firstFree (fun n ↦ !taken.contains n) (symbolBase id) taken.length 0
    (name, { s with symbols := s.symbols.insert id name })

end Scope

end NodeShader
