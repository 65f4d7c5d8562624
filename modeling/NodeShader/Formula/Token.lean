import NodeShader.Formula.Basic
import NodeShader.Text.Blank

namespace NodeShader.Formula

inductive Token where
  | name (s : String)
  | number (s : String)
  | openParen
  | closeParen
  | comma
  | dot
  | question
  | colon
  | bang
  | operator (op : BinaryOp)
deriving DecidableEq

def Token.text : Token → String
  | name s => s
  | number s => s
  | openParen => "("
  | closeParen => ")"
  | comma => ","
  | dot => "."
  | question => "?"
  | colon => ":"
  | bang => "!"
  | operator op => op.text

def Token.sign? : Token → Option UnaryOp
  | operator .sub => some .minus
  | operator .add => some .plus
  | bang => some .not
  | _ => none

/-- A token and the place of its first character, counted from one. -/
structure Lexeme where
  token : Token
  column : Nat
deriving DecidableEq

/-- What can be wrong with a formula. A missing token is the end of the text. -/
inductive Cause where
  | strayCharacter (c : Char)
  | malformedExponent (text : String)
  | malformedNumber (text : String)
  | empty
  | tooDeep
  | unexpected (found : Option Token)
  | expected (wanted : Token) (found : Option Token)
  | expectedField (found : Option Token)
deriving DecidableEq

namespace Cause

def isLexical : Cause → Bool
  | strayCharacter _ | malformedExponent _ | malformedNumber _ => true
  | _ => false

def shown : Option Token → String
  | some t => t.text
  | none => "end of input"

def message : Cause → String
  | strayCharacter c => "unexpected character '" ++ c.toString ++ "'"
  | malformedExponent text => "malformed exponent in '" ++ text ++ "'"
  | malformedNumber text => "malformed number '" ++ text ++ "'"
  | empty => "empty expression"
  | tooDeep => "expression nests too deeply"
  | unexpected found => "unexpected '" ++ shown found ++ "'"
  | expected wanted found => "expected '" ++ wanted.text ++ "', found '" ++ shown found ++ "'"
  | expectedField found => "expected field name after '.', found '" ++ shown found ++ "'"

end Cause

structure Error where
  cause : Cause
  column : Nat
deriving DecidableEq

def Error.message (e : Error) : String := e.cause.message ++ " at column " ++ toString e.column

end NodeShader.Formula
