import NodeShader.NodeType.Recipe

namespace NodeShader

/-- How the code of a node is made: by a recipe, or from all that there is at its site. -/
inductive Generator where
  | recipe (r : Recipe)
  | code (f : Site → Emission)

structure NodeType extends Profile where
  generator : Generator

namespace NodeType

instance : Coe NodeType Profile := ⟨toProfile⟩

def recipe? (t : NodeType) : Option Recipe :=
  match t.generator with
  | .recipe r => some r
  | .code _ => none

def emit (t : NodeType) : Site → Emission :=
  match t.generator with
  | .recipe r => r.emit
  | .code f => f

/-- What an instance emits, the functions of its type before its own. -/
def emission (t : NodeType) (s : Site) : Emission :=
  let e := t.emit s
  { e with helpers := t.helpers ++ e.helpers }

end NodeType

namespace Node

def ofType (id : String) (t : NodeType) : Node where
  id := id
  typeName := t.name
  inputs := t.inputs.map fun s ↦ { s with }
  outputs := t.outputs

def site (n : Node) (t : NodeType) (stem : String) (wires : Dict Term) : Site where
  node := n
  profile := t
  stem := stem
  symbol := Glsl.identifier n.id
  wires := wires

end Node

structure Library where
  types : Dict NodeType

namespace Library

def empty : Library := ⟨.empty⟩

instance : Inhabited Library := ⟨empty⟩

def find? (l : Library) (name : String) : Option NodeType := l.types.get? name

def contains (l : Library) (name : String) : Bool := l.types.contains name

def register (l : Library) (t : NodeType) : Library := ⟨l.types.insert t.name t⟩

def ofList (ts : List NodeType) : Library := ts.foldl register empty

def names (l : Library) : List String := l.types.keys

def size (l : Library) : Nat := l.types.size

theorem find?_register (l : Library) (t : NodeType) (name : String) :
    (l.register t).find? name = if name = t.name then some t else l.find? name :=
  Dict.get?_insert l.types t.name t name

theorem find?_ofList_eq_some {ts : List NodeType} {name : String} {t : NodeType}
    (h : (ofList ts).find? name = some t) : t ∈ ts ∧ t.name = name := by
  have hfold : ∀ l : Library, (ts.foldl register l).find? name = some t →
      (t ∈ ts ∧ t.name = name) ∨ l.find? name = some t := by
    clear h
    induction ts with
    | nil => exact fun l h ↦ .inr h
    | cons u ts ih =>
      intro l h
      rcases ih (l.register u) h with ⟨h, hname⟩ | h
      · exact .inl ⟨List.mem_cons_of_mem u h, hname⟩
      · rw [find?_register] at h
        split at h
        · rename_i hname
          obtain rfl := Option.some.inj h
          exact .inl ⟨List.mem_cons_self, hname.symm⟩
        · exact .inr h
  exact (hfold empty h).resolve_right nofun

theorem mem_of_find?_ofList {ts : List NodeType} {name : String} {t : NodeType}
    (h : (ofList ts).find? name = some t) : t ∈ ts := (find?_ofList_eq_some h).1

end Library

end NodeShader
