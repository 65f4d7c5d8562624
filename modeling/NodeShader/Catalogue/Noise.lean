import NodeShader.Catalogue.Basic

namespace NodeShader.Catalogue

def hash22Helper : String := "vec2 hash22(vec2 p) \x7b
    p = vec2(dot(p, vec2(127.1, 311.7)), dot(p, vec2(269.5, 183.3)));
    return fract(sin(p) * 43758.5453123);
\x7d"

def gradientNoiseHelper : String := "float gradient_noise(vec2 p) \x7b
    vec2 i = floor(p);
    vec2 f = fract(p);
    vec2 u = f * f * (3.0 - 2.0 * f);
    float a = dot(hash22(i) * 2.0 - 1.0, f);
    float b = dot(hash22(i + vec2(1.0, 0.0)) * 2.0 - 1.0, f - vec2(1.0, 0.0));
    float c = dot(hash22(i + vec2(0.0, 1.0)) * 2.0 - 1.0, f - vec2(0.0, 1.0));
    float d = dot(hash22(i + vec2(1.0, 1.0)) * 2.0 - 1.0, f - vec2(1.0, 1.0));
    return mix(mix(a, b, u.x), mix(c, d, u.x), u.y);
\x7d"

def fbmHelper : String := "float fbm(vec2 p, int octaves, float gain) \x7b
    float sum = 0.0;
    float amp = 0.5;
    for (int i = 0; i < 8; i++) \x7b
        if (i >= octaves) break;
        sum += amp * gradient_noise(p);
        p *= 2.0;
        amp *= gain;
    \x7d
    return sum;
\x7d"

def voronoiHelper : String := "vec2 voronoi(vec2 p) \x7b
    vec2 n = floor(p);
    vec2 f = fract(p);
    float md = 8.0;
    vec2 mc = vec2(0.0);
    for (int j = -1; j <= 1; j++) \x7b
        for (int i = -1; i <= 1; i++) \x7b
            vec2 g = vec2(float(i), float(j));
            vec2 r = g + hash22(n + g) - f;
            float d = dot(r, r);
            if (d < md) \x7b
                md = d;
                mc = n + g;
            \x7d
        \x7d
    \x7d
    return vec2(sqrt(md), fract(sin(dot(mc, vec2(12.9898, 78.233))) * 43758.5453));
\x7d"

def noise : NodeType where
  name := "Noise"
  category := "Noise"
  inputs := [socket "uv" .vec2 "UV", socket "scale" .float "Scale"]
  outputs := [socket "value" .float "Value"]
  defaults := .ofList [("scale", real 4 1)]
  helpers := [hash22Helper, gradientNoiseHelper]
  generator := .recipe
    [⟨"value", .float, ["0.5 + 0.5 * gradient_noise(", plane "uv", " * ", scalar "scale", ")"], true⟩]

def maxOctaves : Nat := 8

def octaves (site : Site) : Nat := Nat.max 1 (Nat.min maxOctaves (site.count "octaves" 5))

def fbm : NodeType where
  name := "Fbm"
  category := "Noise"
  inputs := [socket "uv" .vec2 "UV", socket "scale" .float "Scale", socket "gain" .float "Gain"]
  outputs := [socket "value" .float "Value"]
  defaults := .ofList [("scale", real 4 1), ("gain", real 1 2), ("octaves", .int 5)]
  helpers := [hash22Helper, gradientNoiseHelper, fbmHelper]
  generator := .code fun site ↦ Recipe.emit
    [⟨"value", .float,
      ["0.5 + 0.5 * fbm(", plane "uv", " * ", scalar "scale", ", ", toString (octaves site), ", ",
        scalar "gain", ")"], true⟩] site

def voronoi : NodeType where
  name := "Voronoi"
  category := "Noise"
  inputs := [socket "uv" .vec2 "UV", socket "scale" .float "Scale"]
  outputs := [socket "distance" .float "Distance", socket "cell" .float "Cell"]
  defaults := .ofList [("scale", real 6 1)]
  helpers := [hash22Helper, voronoiHelper]
  generator := .recipe
    [⟨"cells", .vec2, ["voronoi(", plane "uv", " * ", scalar "scale", ")"], false⟩,
      ⟨"distance", .float, [.var "cells", ".x"], true⟩, ⟨"cell", .float, [.var "cells", ".y"], true⟩]

def noises : List NodeType := [noise, fbm, voronoi]

end NodeShader.Catalogue
