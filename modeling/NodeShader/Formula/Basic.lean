import NodeShader.Distinct

namespace NodeShader

inductive UnaryOp where
  | minus
  | plus
  | not
deriving DecidableEq

def UnaryOp.text : UnaryOp → String
  | .minus => "-"
  | .plus => "+"
  | .not => "!"

inductive BinaryOp where
  | or
  | and
  | eq
  | ne
  | lt
  | le
  | gt
  | ge
  | add
  | sub
  | mul
  | div
deriving DecidableEq

namespace BinaryOp

def text : BinaryOp → String
  | or => "||"
  | and => "&&"
  | eq => "=="
  | ne => "!="
  | lt => "<"
  | le => "<="
  | gt => ">"
  | ge => ">="
  | add => "+"
  | sub => "-"
  | mul => "*"
  | div => "/"

/-- How tightly the operator binds. Operators of equal strength group to the left. -/
def precedence : BinaryOp → Nat
  | or => 2
  | and => 3
  | eq | ne => 4
  | lt | le | gt | ge => 5
  | add | sub => 6
  | mul | div => 7

end BinaryOp

/-- An expression of the formula language. Spliced text stands for a whole expression that was
written elsewhere. -/
inductive Formula where
  | number (text : String)
  | name (name : String)
  | spliced (text : String)
  | call (callee : String) (args : List Formula)
  | member (base : Formula) (field : String)
  | unary (op : UnaryOp) (operand : Formula)
  | binary (op : BinaryOp) (lhs rhs : Formula)
  | conditional (test yes no : Formula)

namespace Formula

instance : Inhabited Formula := ⟨name ""⟩

def conditionalPrecedence : Nat := 1

def unaryPrecedence : Nat := 8

def postfixPrecedence : Nat := 9

def precedence : Formula → Nat
  | conditional .. => conditionalPrecedence
  | binary op _ _ => op.precedence
  | unary .. => unaryPrecedence
  | _ => postfixPrecedence

mutual

/-- The names read as values, from left to right; what is called and the fields of members are not. -/
def uses : Formula → List String
  | number _ => []
  | name x => [x]
  | spliced _ => []
  | call _ args => usesAll args
  | member base _ => uses base
  | unary _ operand => uses operand
  | binary _ lhs rhs => uses lhs ++ uses rhs
  | conditional test yes no => uses test ++ uses yes ++ uses no

def usesAll : List Formula → List String
  | [] => []
  | e :: es => uses e ++ usesAll es

end

def freeNames (e : Formula) : List String := distinct e.uses

mutual

def substitute (bound : String → Option String) : Formula → Formula
  | number n => number n
  | name x =>
    match bound x with
    | some text => spliced text
    | none => name x
  | spliced text => spliced text
  | call callee args => call callee (substituteAll bound args)
  | member base field => member (substitute bound base) field
  | unary op operand => unary op (substitute bound operand)
  | binary op lhs rhs => binary op (substitute bound lhs) (substitute bound rhs)
  | conditional test yes no =>
    conditional (substitute bound test) (substitute bound yes) (substitute bound no)

def substituteAll (bound : String → Option String) : List Formula → List Formula
  | [] => []
  | e :: es => substitute bound e :: substituteAll bound es

end

end Formula

end NodeShader
