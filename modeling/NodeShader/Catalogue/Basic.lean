import NodeShader.NodeType.Basic

namespace NodeShader.Catalogue

def socket (key : String) (type : GlslType) (label : String) : Socket := { key, type, label }

def real (num : Int) (den : Nat) : Json := .float (.ofRatio (num < 0) num.natAbs den)

def reals (xs : List (Int × Nat)) : Json := .array (xs.map fun x ↦ real x.1 x.2)

def scalar (key : String) : Piece := .read key .float

def plane (key : String) : Piece := .read key .vec2

def space (key : String) : Piece := .read key .vec3

/-- The shader inputs that nodes read; every prologue declares them. -/
def uvInput : String := "vUv"

def timeInput : String := "u_time"

def resolutionInput : String := "u_resolution"

end NodeShader.Catalogue
