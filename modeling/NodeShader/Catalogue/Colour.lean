import NodeShader.Catalogue.Basic

namespace NodeShader.Catalogue

def paletteHelper : String := "vec3 palette(float t, vec3 a, vec3 b, vec3 c, vec3 d) \x7b
    return a + b * cos(6.28318530718 * (c * t + d));
\x7d"

def hsv2rgbHelper : String := "vec3 hsv2rgb(vec3 c) \x7b
    vec3 p = abs(fract(c.xxx + vec3(1.0, 2.0 / 3.0, 1.0 / 3.0)) * 6.0 - 3.0);
    return c.z * mix(vec3(1.0), clamp(p - 1.0, 0.0, 1.0), c.y);
\x7d"

def white : Json := reals [(1, 1), (1, 1), (1, 1)]

def grey : Json := reals [(1, 2), (1, 2), (1, 2)]

def palette : NodeType where
  name := "Palette"
  category := "Color"
  inputs := [socket "t" .float "T", socket "a" .vec3 "Bias", socket "b" .vec3 "Amplitude",
    socket "c" .vec3 "Frequency", socket "d" .vec3 "Phase"]
  outputs := [socket "color" .vec3 "Color"]
  defaults := .ofList
    [("a", grey), ("b", grey), ("c", white), ("d", reals [(0, 1), (33, 100), (67, 100)])]
  helpers := [paletteHelper]
  generator := .recipe
    [⟨"color", .vec3,
      ["palette(", scalar "t", ", ", space "a", ", ", space "b", ", ", space "c", ", ", space "d",
        ")"], true⟩]

def hsvToRgb : NodeType where
  name := "HsvToRgb"
  category := "Color"
  inputs := [socket "h" .float "Hue", socket "s" .float "Saturation", socket "v" .float "Value"]
  outputs := [socket "color" .vec3 "Color"]
  defaults := .ofList [("s", real 1 1), ("v", real 1 1)]
  helpers := [hsv2rgbHelper]
  generator := .recipe
    [⟨"color", .vec3,
      ["hsv2rgb(vec3(", scalar "h", ", ", scalar "s", ", ", scalar "v", "))"], true⟩]

def grayscale : NodeType where
  name := "Grayscale"
  category := "Color"
  inputs := [socket "color" .vec3 "Color"]
  outputs := [socket "value" .float "Luminance"]
  generator := .recipe
    [⟨"value", .float, ["dot(", space "color", ", vec3(0.2126, 0.7152, 0.0722))"], true⟩]

def invert : NodeType where
  name := "Invert"
  category := "Color"
  inputs := [socket "color" .vec3 "Color"]
  outputs := [socket "color" .vec3 "Color"]
  generator := .recipe [⟨"color", .vec3, ["vec3(1.0) - ", space "color"], true⟩]

def colorMix : NodeType where
  name := "ColorMix"
  category := "Color"
  inputs := [socket "a" .vec3 "A", socket "b" .vec3 "B", socket "t" .float "T"]
  outputs := [socket "color" .vec3 "Color"]
  defaults := .ofList [("b", white), ("t", real 1 2)]
  generator := .recipe
    [⟨"color", .vec3, ["mix(", space "a", ", ", space "b", ", ", scalar "t", ")"], true⟩]

def brightness : NodeType where
  name := "Brightness"
  category := "Color"
  inputs := [socket "color" .vec3 "Color", socket "amount" .float "Amount"]
  outputs := [socket "color" .vec3 "Color"]
  defaults := .ofList [("amount", real 1 1)]
  generator := .recipe [⟨"color", .vec3, [space "color", " * ", scalar "amount"], true⟩]

def colours : List NodeType := [palette, hsvToRgb, grayscale, invert, colorMix, brightness]

end NodeShader.Catalogue
