import NodeShader.NodeType.Site

namespace NodeShader

inductive Piece where
  | text (s : String)
  | read (key : String) (type : GlslType)
  | var (key : String)
deriving DecidableEq

instance : Coe String Piece := ⟨.text⟩

def Piece.fill (site : Site) : Piece → String
  | text s => s
  | read key type => (site.read key type).text
  | var key => site.variableName key

/-- A declaration with its expression left open. Only exported ones are outputs. -/
structure Line where
  key : String
  type : GlslType
  value : List Piece
  exported : Bool := true
deriving DecidableEq

def Line.fill (l : Line) (site : Site) : String := String.join (l.value.map (·.fill site))

abbrev Recipe := List Line

namespace Recipe

def addLine (site : Site) (e : Emission) (l : Line) : Emission :=
  if l.exported then e.declare site l.key l.type (l.fill site)
  else e.bind site l.key l.type (l.fill site)

def emit (r : Recipe) (site : Site) : Emission := r.foldl (addLine site) {}

end Recipe

end NodeShader
