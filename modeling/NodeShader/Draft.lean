import NodeShader.Functions
import NodeShader.Settings
import NodeShader.Unroll

namespace NodeShader

/-- A shader while its nodes are emitted one after the other. -/
structure Draft where
  scope : Scope := {}
  /-- The declarations of each node that has some. -/
  blocks : List (List Statement) := []
  helpers : Functions := {}
  outputs : Dict Exports := .empty
  diagnostics : List Diagnostic := []

namespace Draft

variable (g : Graph) (lib : Library) (settings : Settings)

def append (d : Draft) (id : String) (e : Emission) (scope : Scope) : Draft where
  scope := scope.record e
  blocks := if e.statements.isEmpty then d.blocks else d.blocks ++ [e.statements]
  helpers := d.helpers.insertAll e.helpers
  outputs := d.outputs.insert id e.outputs
  diagnostics := mergeNew d.diagnostics e.diagnostics

def bench (d : Draft) : Bench := ⟨g, lib, settings.maxLoopIterations, d.outputs⟩

/-- Emits the node with the id, with at most `room` loops inside each other. Missing nodes and nodes
of unknown type are left out. -/
def addNode (room : Nat) (d : Draft) (id : String) : Except Fault Draft :=
  match g.find? id with
  | none => .ok d
  | some n =>
    match lib.find? n.typeName with
    | none => .ok d
    | some t => do
      let bench := bench g lib settings d
      let wires ← bench.resolve n t
      let (stem, scope) := d.scope.reserve n.id (outputKeys n t)
      let (e, scope) ← bench.emit room n t stem wires scope
      return d.append n.id e scope

def ofOrderWithin (room : Nat) (order : List String) : Except Fault Draft :=
  order.foldlM (addNode g lib settings room) {}

/-- Emits nodes in the given order. More loops than the graph has nodes stand inside each other only
if one of them is inside itself. -/
def ofOrder (order : List String) : Except Fault Draft :=
  ofOrderWithin g lib settings (g.nodes.length + 1) order

end Draft

end NodeShader
