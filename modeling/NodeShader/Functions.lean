import NodeShader.Text.Blank

namespace NodeShader

/-- The functions of a shader, each text once and in the order of first use. -/
structure Functions where
  blocks : List String := []
deriving DecidableEq

namespace Functions

def contains (h : Functions) (text : String) : Bool := h.blocks.contains text

def accepts (h : Functions) (text : String) : Bool := !Text.blank text && !h.contains text

def insert (h : Functions) (text : String) : Functions :=
  if h.accepts text then ⟨h.blocks ++ [text]⟩ else h

def insertAll (h : Functions) (texts : List String) : Functions := texts.foldl insert h

def size (h : Functions) : Nat := h.blocks.length

end Functions

end NodeShader
