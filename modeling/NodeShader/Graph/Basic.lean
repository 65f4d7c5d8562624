import NodeShader.Glsl.Type
import NodeShader.Json.Basic

namespace NodeShader

structure Pin where
  key : String
  type : GlslType
deriving DecidableEq

structure Socket extends Pin where
  label : String := ""
deriving DecidableEq

structure Wire where
  node : String
  output : String
deriving DecidableEq

structure InputSocket extends Socket where
  wire : Option Wire := none
deriving DecidableEq

structure Position where
  x : Binary32 := .zero
  y : Binary32 := .zero
deriving DecidableEq

abbrev Params := Dict Json

/-- A node of the editor. Without sockets of its own it has those of its type. -/
structure Node where
  id : String
  typeName : String
  position : Position := {}
  params : Params := .empty
  inputs : List InputSocket := []
  outputs : List Socket := []

structure Graph where
  nodes : List Node := []

instance : Inhabited Graph := ⟨{}⟩

def modifyFirst {α : Type} (p : α → Bool) (f : α → α) : List α → List α
  | [] => []
  | x :: xs => if p x then f x :: xs else x :: modifyFirst p f xs

namespace Node

def setParam (n : Node) (k : String) (v : Json) : Node := { n with params := n.params.insert k v }

def input? (n : Node) (key : String) : Option InputSocket := n.inputs.find? (·.key == key)

def modifyInput (n : Node) (key : String) (f : InputSocket → InputSocket) : Node :=
  { n with inputs := modifyFirst (·.key == key) f n.inputs }

def connect (n : Node) (key : String) (wire : Wire) : Node :=
  n.modifyInput key fun s ↦ { s with wire := some wire }

/-- Equality of nodes, numbers being compared by value. -/
def same (m n : Node) : Bool :=
  m.id == n.id && m.typeName == n.typeName && m.position.x.same n.position.x &&
    m.position.y.same n.position.y && Json.sameFields m.params n.params &&
    m.inputs == n.inputs && m.outputs == n.outputs

end Node

namespace Graph

/-- The node with the id, the first if there are several. -/
def find? (g : Graph) (id : String) : Option Node := g.nodes.find? (·.id == id)

def add (g : Graph) (n : Node) : Graph := ⟨g.nodes ++ [n]⟩

def modify (g : Graph) (id : String) (f : Node → Node) : Graph :=
  ⟨modifyFirst (·.id == id) f g.nodes⟩

def remove (g : Graph) (id : String) : Graph := ⟨g.nodes.filter (·.id != id)⟩

def index (g : Graph) : Dict Node := .ofList (g.nodes.reverse.map fun n ↦ (n.id, n))

def same (g h : Graph) : Bool :=
  g.nodes.length == h.nodes.length && (g.nodes.zip h.nodes).all fun p ↦ p.1.same p.2

theorem id_of_find? {g : Graph} {id : String} {n : Node} (h : g.find? id = some n) : n.id = id := by
  simpa using List.find?_some h

theorem mem_of_find? {g : Graph} {id : String} {n : Node} (h : g.find? id = some n) : n ∈ g.nodes :=
  List.mem_of_find?_eq_some h

end Graph

end NodeShader
