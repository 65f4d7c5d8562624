import NodeShader.Catalogue.Basic

namespace NodeShader.Catalogue

def middle : Json := reals [(1, 2), (1, 2)]

def length : NodeType where
  name := "Length"
  category := "Vector"
  inputs := [socket "v" .vec2 "Vector"]
  outputs := [socket "out" .float "Length"]
  generator := .recipe [⟨"out", .float, ["length(", plane "v", ")"], true⟩]

def distance : NodeType where
  name := "Distance"
  category := "Vector"
  inputs := [socket "a" .vec2 "A", socket "b" .vec2 "B"]
  outputs := [socket "out" .float "Distance"]
  defaults := .ofList [("b", middle)]
  generator := .recipe [⟨"out", .float, ["distance(", plane "a", ", ", plane "b", ")"], true⟩]

def splitVec2 : NodeType where
  name := "SplitVec2"
  category := "Vector"
  inputs := [socket "v" .vec2 "Vector"]
  outputs := [socket "x" .float "X", socket "y" .float "Y"]
  generator := .recipe
    [⟨"x", .float, ["(", plane "v", ").x"], true⟩, ⟨"y", .float, ["(", plane "v", ").y"], true⟩]

def splitVec3 : NodeType where
  name := "SplitVec3"
  category := "Vector"
  inputs := [socket "v" .vec3 "Vector"]
  outputs := [socket "x" .float "X", socket "y" .float "Y", socket "z" .float "Z"]
  generator := .recipe
    [⟨"x", .float, ["(", space "v", ").x"], true⟩, ⟨"y", .float, ["(", space "v", ").y"], true⟩,
      ⟨"z", .float, ["(", space "v", ").z"], true⟩]

def combineVec3 : NodeType where
  name := "CombineVec3"
  category := "Vector"
  inputs := [socket "x" .float "X", socket "y" .float "Y", socket "z" .float "Z"]
  outputs := [socket "out" .vec3 "Vector"]
  generator := .recipe
    [⟨"out", .vec3, ["vec3(", scalar "x", ", ", scalar "y", ", ", scalar "z", ")"], true⟩]

def rotate2D : NodeType where
  name := "Rotate2D"
  category := "Vector"
  inputs := [socket "uv" .vec2 "UV", socket "angle" .float "Angle", socket "center" .vec2 "Center"]
  outputs := [socket "uv" .vec2 "UV"]
  defaults := .ofList [("center", middle)]
  generator := .recipe
    [⟨"uv", .vec2,
      ["mat2(cos(", scalar "angle", "), sin(", scalar "angle", "), -sin(", scalar "angle", "), cos(",
        scalar "angle", ")) * (", plane "uv", " - ", plane "center", ") + ", plane "center"], true⟩]

def scaleUV : NodeType where
  name := "ScaleUV"
  category := "Vector"
  inputs := [socket "uv" .vec2 "UV", socket "scale" .float "Scale", socket "offset" .vec2 "Offset"]
  outputs := [socket "uv" .vec2 "UV"]
  defaults := .ofList [("scale", real 1 1)]
  generator := .recipe
    [⟨"uv", .vec2, [plane "uv", " * ", scalar "scale", " + ", plane "offset"], true⟩]

def polar : NodeType where
  name := "Polar"
  category := "Vector"
  inputs := [socket "uv" .vec2 "UV", socket "center" .vec2 "Center"]
  outputs := [socket "radius" .float "Radius", socket "angle" .float "Angle"]
  defaults := .ofList [("center", middle)]
  generator := .recipe
    [⟨"delta", .vec2, [plane "uv", " - ", plane "center"], false⟩,
      ⟨"radius", .float, ["length(", .var "delta", ")"], true⟩,
      ⟨"angle", .float, ["atan(", .var "delta", ".y, ", .var "delta", ".x)"], true⟩]

def vectors : List NodeType :=
  [length, distance, splitVec2, splitVec3, combineVec3, rotate2D, scaleUV, polar]

end NodeShader.Catalogue
