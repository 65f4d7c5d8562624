import NodeShader.Graph.Basic
import NodeShader.Json.Reader

namespace NodeShader

/-- A type in a document: its name, or an object with the name as its only key and nothing in it. -/
def GlslType.ofDocument? : Document → Option GlslType
  | .string s => s.bind ofName?
  | .object [(some k, .null)] => ofName? k
  | _ => none

def Wire.ofDocument? (d : Document) : Option Wire := do
  let [node, output] ← d.entries? ["nodeId", "outputKey"] | none
  return { node := ← Document.required Document.string? node
           output := ← Document.required Document.string? output }

def Wire.maybeOfDocument? : Document → Option (Option Wire)
  | .null => some none
  | d => (Wire.ofDocument? d).map some

def InputSocket.ofDocument? (d : Document) : Option InputSocket := do
  let [key, type, label, wire] ← d.entries? ["key", "type", "label", "connection"] | none
  return { key := ← Document.required Document.string? key
           type := ← Document.required GlslType.ofDocument? type
           label := ← Document.optional "" Document.string? label
           wire := ← Document.optional none Wire.maybeOfDocument? wire }

def Socket.ofDocument? (d : Document) : Option Socket := do
  let [key, type, label] ← d.entries? ["key", "type", "label"] | none
  return { key := ← Document.required Document.string? key
           type := ← Document.required GlslType.ofDocument? type
           label := ← Document.optional "" Document.string? label }

def Position.ofDocument? (d : Document) : Option Position := do
  let [x, y] ← d.entries? ["x", "y"] | none
  return { x := ← Document.required Document.single? x
           y := ← Document.required Document.single? y }

def Params.ofDocument? (room : Nat) : Document → Option Params
  | .object fields => (Document.fieldsToJson? room fields).map Dict.ofList
  | _ => none

def Document.list? {α : Type} (read : Document → Option α) (d : Document) : Option (List α) :=
  d.array?.bind fun items ↦ items.mapM read

def Node.ofDocument? (room : Nat) (d : Document) : Option Node := do
  let [id, type, position, params, inputs, outputs] ←
    d.entries? ["id", "type", "position", "params", "inputs", "outputs"] | none
  return { id := ← Document.required Document.string? id
           typeName := ← Document.required Document.string? type
           position := ← Document.optional {} Position.ofDocument? position
           params := ← Document.optional .empty (Params.ofDocument? room) params
           inputs := ← Document.optional [] (Document.list? InputSocket.ofDocument?) inputs
           outputs := ← Document.optional [] (Document.list? Socket.ofDocument?) outputs }

def Graph.ofDocument? (room : Nat) (d : Document) : Option Graph := do
  let [nodes] ← d.entries? ["nodes"] | none
  return { nodes := ← Document.optional [] (Document.list? (Node.ofDocument? room)) nodes }

def Document.maxDepth : Nat := 127

/-- The graph in a JSON text. The values of parameters stand in four arrays and objects. -/
def Graph.parse? (text : String) : Option Graph :=
  (Document.parse? text).bind (Graph.ofDocument? (Document.maxDepth - 4))

/-- A coordinate in double precision; one that is not finite has no number in JSON. -/
def Position.coordinate (x : Binary32) : Json :=
  if x.isFinite then .float (x.convert .double) else .null

def Position.toJson (p : Position) : Json :=
  .ofFields [("x", coordinate p.x), ("y", coordinate p.y)]

def Wire.toJson (w : Wire) : Json :=
  .ofFields [("nodeId", .string w.node), ("outputKey", .string w.output)]

def InputSocket.toJson (s : InputSocket) : Json :=
  .ofFields [("key", .string s.key), ("type", .string s.type.name), ("label", .string s.label),
    ("connection", (s.wire.map Wire.toJson).getD .null)]

def Socket.toJson (s : Socket) : Json :=
  .ofFields [("key", .string s.key), ("type", .string s.type.name), ("label", .string s.label)]

def Node.toJson (n : Node) : Json :=
  .ofFields [("id", .string n.id), ("type", .string n.typeName), ("position", n.position.toJson),
    ("params", .object n.params), ("inputs", .array (n.inputs.map InputSocket.toJson)),
    ("outputs", .array (n.outputs.map Socket.toJson))]

def Graph.toJson (g : Graph) : Json := .ofFields [("nodes", .array (g.nodes.map Node.toJson))]

end NodeShader
