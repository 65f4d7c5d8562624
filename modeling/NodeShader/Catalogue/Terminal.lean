import NodeShader.Catalogue.Basic

namespace NodeShader.Catalogue

def output : NodeType where
  name := "Output"
  category := "Output"
  role := .output false
  inputs := [socket "color" .vec3 "Color"]
  generator := .recipe [⟨"color", .vec3, [space "color"], true⟩]

def outputRgba : NodeType where
  name := "OutputRgba"
  category := "Output"
  role := .output true
  inputs := [socket "color" .vec4 "Color"]
  generator := .recipe [⟨"color", .vec4, [.read "color" .vec4], true⟩]

def terminals : List NodeType := [output, outputRgba]

end NodeShader.Catalogue
