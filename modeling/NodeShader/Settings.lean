import NodeShader.Graph.Document

namespace NodeShader

structure Prologue where
  header : String
  declarations : String
  fragColor : String
deriving DecidableEq

namespace Prologue

def webgl : Prologue where
  header := "precision highp float;"
  declarations := "uniform float u_time;\nuniform vec2 u_resolution;\nvarying vec2 vUv;"
  fragColor := "gl_FragColor"

def glsl450 : Prologue where
  header := "#version 450"
  declarations :=
    "layout(location = 0) in vec2 vUv;\nlayout(location = 0) out vec4 fragColor;\n" ++
    "layout(set = 0, binding = 0) uniform Globals \x7b\n    float u_time;\n" ++
    "    vec2 u_resolution;\n\x7d;"
  fragColor := "fragColor"

instance : Inhabited Prologue := ⟨webgl⟩

def ofDocument? (d : Document) : Option Prologue := do
  let [header, declarations, fragColor] ←
    d.entries? ["header", "declarations", "fragColor"] | none
  return { header := ← Document.optional webgl.header Document.string? header
           declarations := ← Document.optional webgl.declarations Document.string? declarations
           fragColor := ← Document.optional webgl.fragColor Document.string? fragColor }

def toJson (p : Prologue) : Json :=
  .ofFields [("header", .string p.header), ("declarations", .string p.declarations),
    ("fragColor", .string p.fragColor)]

end Prologue

structure Settings where
  prologue : Prologue := .webgl
  /-- No loop runs more often than this. -/
  maxLoopIterations : Nat := 64
  /-- Whether the last result is kept for a repeated request. -/
  memoize : Bool := true
deriving DecidableEq

namespace Settings

instance : Inhabited Settings := ⟨{}⟩

def glsl450 : Settings := { prologue := .glsl450 }

def ofDocument? (d : Document) : Option Settings := do
  let [prologue, maxLoopIterations, memoize] ←
    d.entries? ["prologue", "maxLoopIterations", "memoize"] | none
  return { prologue := ← Document.optional .webgl Prologue.ofDocument? prologue
           maxLoopIterations := ← Document.optional 64 Document.word? maxLoopIterations
           memoize := ← Document.optional true Document.bool? memoize }

def parse? (text : String) : Option Settings := (Document.parse? text).bind ofDocument?

def toJson (s : Settings) : Json :=
  .ofFields [("prologue", s.prologue.toJson), ("maxLoopIterations", .int s.maxLoopIterations),
    ("memoize", .bool s.memoize)]

end Settings

end NodeShader
