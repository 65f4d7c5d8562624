import NodeShader.Catalogue.Source
import NodeShader.Catalogue.Arithmetic
import NodeShader.Catalogue.Wave
import NodeShader.Catalogue.Vector
import NodeShader.Catalogue.Noise
import NodeShader.Catalogue.Shape
import NodeShader.Catalogue.Colour
import NodeShader.Catalogue.Custom
import NodeShader.Catalogue.Terminal
import NodeShader.Catalogue.Loop

namespace NodeShader

def Catalogue.all : List NodeType :=
  sources ++ arithmetic ++ waves ++ vectors ++ noises ++ shapes ++ colours ++ customs ++ terminals ++
    [loop]

def Library.builtin : Library := .ofList Catalogue.all

end NodeShader
