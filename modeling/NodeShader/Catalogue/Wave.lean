import NodeShader.Catalogue.Basic

namespace NodeShader.Catalogue

def hasPhase (site : Site) : Bool :=
  site.wires.contains "phase" || !(site.single "phase" .zero).same .zero

/-- The oscillation `f (x * freq + phase)`; the phase is left out where there is none. -/
def oscillation (f : String) (site : Site) : Emission :=
  let argument : List Piece := [scalar "x", " * ", scalar "freq"] ++
    if hasPhase site then [.text " + ", scalar "phase"] else []
  Recipe.emit [⟨"out", .float, .text f :: .text "(" :: argument ++ [.text ")"], true⟩] site

def wave (name f : String) : NodeType where
  name := name
  category := "Trigonometry"
  inputs := [socket "x" .float "X", socket "freq" .float "Frequency", socket "phase" .float "Phase"]
  outputs := [socket "out" .float "Out"]
  defaults := .ofList [("freq", real 1 1), ("phase", real 0 1)]
  generator := .code (oscillation f)

def sin : NodeType := wave "Sin" "sin"

def cos : NodeType := wave "Cos" "cos"

def atan2 : NodeType where
  name := "Atan2"
  category := "Trigonometry"
  inputs := [socket "y" .float "Y", socket "x" .float "X"]
  outputs := [socket "out" .float "Angle"]
  defaults := .ofList [("x", real 1 1)]
  generator := .recipe [⟨"out", .float, ["atan(", scalar "y", ", ", scalar "x", ")"], true⟩]

def waves : List NodeType := [sin, cos, atan2]

end NodeShader.Catalogue
