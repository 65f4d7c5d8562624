import NodeShader.Shader

namespace NodeShader

structure Memo where
  graph : Graph
  target : Target
  shader : Shader

structure Workshop where
  library : Library
  settings : Settings
  memo : Option Memo := none

namespace Workshop

def recalled? (w : Workshop) (g : Graph) (target : Target) : Option Shader :=
  if w.settings.memoize then
    w.memo.bind fun m ↦ if m.target = target && m.graph.same g then some m.shader else none
  else none

def remember (w : Workshop) (g : Graph) (target : Target) (shader : Shader) : Workshop :=
  if w.settings.memoize then { w with memo := some ⟨g, target, shader⟩ } else w

/-- Compiles, or recalls what was compiled last. Faults are not remembered. -/
def compile (w : Workshop) (g : Graph) (target : Target) : Except Fault Shader × Workshop :=
  match w.recalled? g target with
  | some shader => (.ok shader, w)
  | none =>
    match NodeShader.compile g w.library w.settings target with
    | .ok shader => (.ok shader, w.remember g target shader)
    | .error f => (.error f, w)

def forget (w : Workshop) : Workshop := { w with memo := none }

/-- Adds a type of node. What was compiled without it is forgotten. -/
def register (w : Workshop) (t : NodeType) : Workshop :=
  { w with library := w.library.register t, memo := none }

end Workshop

end NodeShader
