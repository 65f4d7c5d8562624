import NodeShader.Catalogue.Basic

namespace NodeShader.Catalogue

def unary (name : String) (value : List Piece) : NodeType where
  name := name
  category := "Math"
  inputs := [socket "x" .float "X"]
  outputs := [socket "out" .float "Out"]
  generator := .recipe [⟨"out", .float, value, true⟩]

def binary (name : String) (default : Int) (value : List Piece) : NodeType where
  name := name
  category := "Math"
  inputs := [socket "a" .float "A", socket "b" .float "B"]
  outputs := [socket "out" .float "Out"]
  defaults := .ofList [("a", real default 1), ("b", real default 1)]
  generator := .recipe [⟨"out", .float, value, true⟩]

def add : NodeType := binary "Add" 0 [scalar "a", " + ", scalar "b"]

def subtract : NodeType := binary "Subtract" 0 [scalar "a", " - ", scalar "b"]

def multiply : NodeType := binary "Multiply" 1 [scalar "a", " * ", scalar "b"]

/-- A quotient, zero where the divisor vanishes. -/
def divide : NodeType :=
  binary "Divide" 1
    ["(abs(", scalar "b", ") > 1e-6 ? ", scalar "a", " / ", scalar "b", " : 0.0)"]

/-- A power of the absolute value, since those of negative numbers are undefined. -/
def power : NodeType := binary "Power" 1 ["pow(abs(", scalar "a", "), ", scalar "b", ")"]

def min : NodeType := binary "Min" 0 ["min(", scalar "a", ", ", scalar "b", ")"]

def max : NodeType := binary "Max" 0 ["max(", scalar "a", ", ", scalar "b", ")"]

def abs : NodeType := unary "Abs" ["abs(", scalar "x", ")"]

def fract : NodeType := unary "Fract" ["fract(", scalar "x", ")"]

def floor : NodeType := unary "Floor" ["floor(", scalar "x", ")"]

def oneMinus : NodeType := unary "OneMinus" ["1.0 - ", scalar "x"]

def clamp : NodeType where
  name := "Clamp"
  category := "Math"
  inputs := [socket "x" .float "X", socket "min" .float "Min", socket "max" .float "Max"]
  outputs := [socket "out" .float "Out"]
  defaults := .ofList [("min", real 0 1), ("max", real 1 1)]
  generator := .recipe
    [⟨"out", .float, ["clamp(", scalar "x", ", ", scalar "min", ", ", scalar "max", ")"], true⟩]

def mix : NodeType where
  name := "Mix"
  category := "Math"
  inputs := [socket "a" .float "A", socket "b" .float "B", socket "t" .float "T"]
  outputs := [socket "out" .float "Out"]
  defaults := .ofList [("b", real 1 1), ("t", real 1 2)]
  generator := .recipe
    [⟨"out", .float, ["mix(", scalar "a", ", ", scalar "b", ", ", scalar "t", ")"], true⟩]

def step : NodeType where
  name := "Step"
  category := "Math"
  inputs := [socket "edge" .float "Edge", socket "x" .float "X"]
  outputs := [socket "out" .float "Out"]
  defaults := .ofList [("edge", real 1 2)]
  generator := .recipe
    [⟨"out", .float, ["step(", scalar "edge", ", ", scalar "x", ")"], true⟩]

def smoothstep : NodeType where
  name := "Smoothstep"
  category := "Math"
  inputs := [socket "edge0" .float "Edge 0", socket "edge1" .float "Edge 1", socket "x" .float "X"]
  outputs := [socket "out" .float "Out"]
  defaults := .ofList [("edge0", real 0 1), ("edge1", real 1 1)]
  generator := .recipe
    [⟨"out", .float,
      ["smoothstep(", scalar "edge0", ", ", scalar "edge1", ", ", scalar "x", ")"], true⟩]

def remap : NodeType where
  name := "Remap"
  category := "Math"
  inputs := [socket "x" .float "X", socket "inMin" .float "In Min", socket "inMax" .float "In Max",
    socket "outMin" .float "Out Min", socket "outMax" .float "Out Max"]
  outputs := [socket "out" .float "Out"]
  defaults := .ofList
    [("inMin", real (-1) 1), ("inMax", real 1 1), ("outMin", real 0 1), ("outMax", real 1 1)]
  generator := .recipe
    [⟨"out", .float,
      [scalar "outMin", " + (", scalar "x", " - ", scalar "inMin", ") / max(", scalar "inMax", " - ",
        scalar "inMin", ", 1e-6) * (", scalar "outMax", " - ", scalar "outMin", ")"], true⟩]

def arithmetic : List NodeType :=
  [add, subtract, multiply, divide, power, min, max, abs, fract, floor, oneMinus, clamp, mix, step,
    smoothstep, remap]

end NodeShader.Catalogue
