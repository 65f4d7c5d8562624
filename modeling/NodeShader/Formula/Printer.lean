import NodeShader.Formula.Parser

namespace NodeShader.Formula

/-- Whole numbers get a decimal point: the shading language has no conversion from integers. -/
def floatText (n : String) : String :=
  if n.toList.any (fun c ↦ c == '.' || c == 'e' || c == 'E') then n else n ++ ".0"

def isAtomic (text : String) : Bool :=
  match text.toList with
  | [] => false
  | c :: cs => c != '.' && (c :: cs).all (fun c ↦ Text.isWordChar c || c == '.')

def parenthesize (s : String) : String := "(" ++ s ++ ")"

mutual

/-- The text of an expression where only operators binding at least as tightly as `least` stand
without parentheses. -/
def render (least : Nat) (e : Formula) : String :=
  let text := match e with
    | number n => floatText n
    | name x => x
    | spliced text => if isAtomic text then text else parenthesize text
    | call callee args => callee ++ parenthesize (renderAll args)
    | member base field => render postfixPrecedence base ++ "." ++ field
    | unary op operand => op.text ++ render (unaryPrecedence + 1) operand
    | binary op lhs rhs =>
      render op.precedence lhs ++ " " ++ op.text ++ " " ++ render (op.precedence + 1) rhs
    | conditional test yes no =>
      render (conditionalPrecedence + 1) test ++ " ? " ++ render conditionalPrecedence yes ++ " : " ++
        render conditionalPrecedence no
  if e.precedence < least then parenthesize text else text

def renderAll : List Formula → String
  | [] => ""
  | [e] => render 0 e
  | e :: es => render 0 e ++ ", " ++ renderAll es

end

def print (e : Formula) : String := render 0 e

def toGlsl (text : String) (bound : String → Option String) : Except Error String := do
  let e ← parse text
  return print (e.substitute bound)

end NodeShader.Formula
