import NodeShader.Catalogue.Vector

namespace NodeShader.Catalogue

def sminHelper : String := "float smin(float a, float b, float k) \x7b
    float h = clamp(0.5 + 0.5 * (b - a) / k, 0.0, 1.0);
    return mix(b, a, h) - k * h * (1.0 - h);
\x7d"

def smaxHelper : String := "float smax(float a, float b, float k) \x7b
    float h = clamp(0.5 - 0.5 * (b - a) / k, 0.0, 1.0);
    return mix(b, a, h) + k * h * (1.0 - h);
\x7d"

def sdBoxHelper : String := "float sd_box(vec2 p, vec2 b) \x7b
    vec2 d = abs(p) - b;
    return length(max(d, 0.0)) + min(max(d.x, d.y), 0.0);
\x7d"

def sdCircle : NodeType where
  name := "SdCircle"
  category := "SDF"
  inputs := [socket "p" .vec2 "Position", socket "center" .vec2 "Center",
    socket "radius" .float "Radius"]
  outputs := [socket "out" .float "Distance"]
  defaults := .ofList [("center", middle), ("radius", real 1 4)]
  generator := .recipe
    [⟨"out", .float, ["length(", plane "p", " - ", plane "center", ") - ", scalar "radius"], true⟩]

def sdBox : NodeType where
  name := "SdBox"
  category := "SDF"
  inputs := [socket "p" .vec2 "Position", socket "center" .vec2 "Center",
    socket "size" .vec2 "Half Size"]
  outputs := [socket "out" .float "Distance"]
  defaults := .ofList [("center", middle), ("size", reals [(1, 5), (1, 5)])]
  helpers := [sdBoxHelper]
  generator := .recipe
    [⟨"out", .float,
      ["sd_box(", plane "p", " - ", plane "center", ", ", plane "size", ")"], true⟩]

def combination (name : String) (value : List Piece) : NodeType where
  name := name
  category := "SDF"
  inputs := [socket "a" .float "A", socket "b" .float "B"]
  outputs := [socket "out" .float "Distance"]
  generator := .recipe [⟨"out", .float, value, true⟩]

def smoothCombination (name f helper : String) : NodeType where
  name := name
  category := "SDF"
  inputs := [socket "a" .float "A", socket "b" .float "B", socket "k" .float "Smoothness"]
  outputs := [socket "out" .float "Distance"]
  defaults := .ofList [("k", real 1 10)]
  helpers := [helper]
  generator := .recipe
    [⟨"out", .float,
      [f, "(", scalar "a", ", ", scalar "b", ", max(", scalar "k", ", 1e-4))"], true⟩]

def smoothMin : NodeType := smoothCombination "SmoothMin" "smin" sminHelper

def smoothMax : NodeType := smoothCombination "SmoothMax" "smax" smaxHelper

def sdfUnion : NodeType := combination "SdfUnion" ["min(", scalar "a", ", ", scalar "b", ")"]

def sdfIntersect : NodeType := combination "SdfIntersect" ["max(", scalar "a", ", ", scalar "b", ")"]

def sdfSubtract : NodeType :=
  combination "SdfSubtract" ["max(", scalar "a", ", -(", scalar "b", "))"]

def sdfFill : NodeType where
  name := "SdfFill"
  category := "SDF"
  inputs := [socket "d" .float "Distance", socket "softness" .float "Softness"]
  outputs := [socket "mask" .float "Mask"]
  defaults := .ofList [("softness", real 5 1000)]
  generator := .recipe
    [⟨"mask", .float,
      ["1.0 - smoothstep(0.0, max(", scalar "softness", ", 1e-4), ", scalar "d", ")"], true⟩]

def shapes : List NodeType :=
  [sdCircle, sdBox, smoothMin, smoothMax, sdfUnion, sdfIntersect, sdfSubtract, sdfFill]

end NodeShader.Catalogue
