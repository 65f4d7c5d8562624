import NodeShader.Catalogue.Basic

namespace NodeShader.Catalogue

def uv : NodeType where
  name := "UV"
  category := "Input"
  outputs := [socket "uv" .vec2 "UV", socket "u" .float "U", socket "v" .float "V"]
  generator := .recipe
    [⟨"uv", .vec2, [uvInput], true⟩, ⟨"u", .float, [.var "uv", ".x"], true⟩,
      ⟨"v", .float, [.var "uv", ".y"], true⟩]

def time : NodeType where
  name := "Time"
  category := "Input"
  inputs := [socket "speed" .float "Speed"]
  outputs := [socket "time" .float "Time"]
  defaults := .ofList [("speed", real 1 1)]
  generator := .recipe [⟨"time", .float, [timeInput, " * ", scalar "speed"], true⟩]

def resolution : NodeType where
  name := "Resolution"
  category := "Input"
  outputs := [socket "resolution" .vec2 "Resolution"]
  generator := .recipe [⟨"resolution", .vec2, [resolutionInput], true⟩]

def float : NodeType where
  name := "Float"
  category := "Input"
  outputs := [socket "value" .float "Value"]
  defaults := .ofList [("value", real 0 1)]
  generator := .recipe [⟨"value", .float, [scalar "value"], true⟩]

def vec2 : NodeType where
  name := "Vec2"
  category := "Input"
  inputs := [socket "x" .float "X", socket "y" .float "Y"]
  outputs := [socket "value" .vec2 "Vector"]
  generator := .recipe
    [⟨"value", .vec2, ["vec2(", scalar "x", ", ", scalar "y", ")"], true⟩]

def vec3 : NodeType where
  name := "Vec3"
  category := "Input"
  inputs := [socket "x" .float "X", socket "y" .float "Y", socket "z" .float "Z"]
  outputs := [socket "value" .vec3 "Vector"]
  generator := .recipe
    [⟨"value", .vec3, ["vec3(", scalar "x", ", ", scalar "y", ", ", scalar "z", ")"], true⟩]

def color : NodeType where
  name := "Color"
  category := "Input"
  outputs := [socket "color" .vec3 "Color"]
  defaults := .ofList [("color", reals [(1, 1), (1, 1), (1, 1)])]
  generator := .recipe [⟨"color", .vec3, [space "color"], true⟩]

def sources : List NodeType := [uv, time, resolution, float, vec2, vec3, color]

end NodeShader.Catalogue
