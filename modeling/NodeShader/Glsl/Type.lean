import NodeShader.Text.Blank

namespace NodeShader

inductive GlslType where
  | float
  | vec2
  | vec3
  | vec4
deriving DecidableEq

namespace GlslType

def name : GlslType → String
  | .float => "float"
  | .vec2 => "vec2"
  | .vec3 => "vec3"
  | .vec4 => "vec4"

def title : GlslType → String
  | .float => "Float"
  | .vec2 => "Vec2"
  | .vec3 => "Vec3"
  | .vec4 => "Vec4"

/-- What an input without a value reads. A `vec4` is a colour, so its zero is opaque black. -/
def zero : GlslType → String
  | .float => "0.0"
  | .vec2 => "vec2(0.0)"
  | .vec3 => "vec3(0.0)"
  | .vec4 => "vec4(0.0, 0.0, 0.0, 1.0)"

def components : GlslType → Nat
  | .float => 1
  | .vec2 => 2
  | .vec3 => 3
  | .vec4 => 4

def ofName? : String → Option GlslType
  | "float" => some .float
  | "vec2" => some .vec2
  | "vec3" => some .vec3
  | "vec4" => some .vec4
  | _ => none

/-- The type an editor means by a word, in any case and with blanks around it. -/
def ofWord? (s : String) : Option GlslType :=
  match Text.lowerAscii (Text.trim s) with
  | "float" | "f32" | "number" => some .float
  | "vec2" | "vector2" => some .vec2
  | "vec3" | "vector3" | "color" => some .vec3
  | "vec4" | "vector4" | "rgba" => some .vec4
  | _ => none

@[simp] theorem ofName?_name (t : GlslType) : ofName? t.name = some t := by cases t <;> rfl

def feeds (source target : GlslType) : Bool :=
  source == target || (source == .float && target == .vec3)

@[simp] theorem feeds_self (t : GlslType) : t.feeds t = true := by simp [feeds]

end GlslType

structure Term where
  type : GlslType
  text : String
deriving DecidableEq

namespace Term

def zero (t : GlslType) : Term := ⟨t, t.zero⟩

/-- A scalar spread over all components; the alpha of a colour stays one. -/
def spread (x : Term) : GlslType → Term
  | .float => x
  | .vec2 => ⟨.vec2, "vec2(" ++ x.text ++ ")"⟩
  | .vec3 => ⟨.vec3, "vec3(" ++ x.text ++ ")"⟩
  | .vec4 => ⟨.vec4, "vec4(vec3(" ++ x.text ++ "), 1.0)"⟩

def coerce (x : Term) (t : GlslType) : Term :=
  if x.type = t then x
  else if x.type = .float then x.spread t
  else x

def displayColour (x : Term) : String :=
  match x.type with
  | .float => "vec3(" ++ x.text ++ ")"
  | .vec2 => "vec3(" ++ x.text ++ ", 0.0)"
  | .vec3 => x.text
  | .vec4 => "(" ++ x.text ++ ").rgb"

end Term

end NodeShader
