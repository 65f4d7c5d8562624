import NodeShader.Formula.Lexer

namespace NodeShader.Formula

abbrev Outcome := Except Error (Formula × List Lexeme)

section

variable (stop : Nat)

/-- Where the next lexeme stands; `stop` is the column after the text. -/
def columnOf : List Lexeme → Nat
  | [] => stop
  | l :: _ => l.column

def failAt {α : Type} (cause : Cause) (ls : List Lexeme) : Except Error α :=
  .error ⟨cause, columnOf stop ls⟩

def nextToken (ls : List Lexeme) : Option Token := ls.head?.map (·.token)

def expect (wanted : Token) (ls : List Lexeme) : Except Error (List Lexeme) :=
  match ls with
  | l :: rest =>
    if l.token = wanted then .ok rest else failAt stop (.expected wanted (some l.token)) ls
  | [] => failAt stop (.expected wanted none) ls

def members (e : Formula) : List Lexeme → Outcome
  | ⟨.dot, _⟩ :: ⟨.name field, _⟩ :: rest => members (.member e field) rest
  | ⟨.dot, _⟩ :: l :: _ => .error ⟨.expectedField (some l.token), l.column⟩
  | ⟨.dot, _⟩ :: [] => .error ⟨.expectedField none, stop⟩
  | ls => .ok (e, ls)

/-- Arguments with commas between them, at most one more than `budget`. -/
def arguments (inner : List Lexeme → Outcome) :
    (budget : Nat) → List Lexeme → Except Error (List Formula × List Lexeme)
  | 0, ls => do
    let (e, rest) ← inner ls
    return ([e], rest)
  | budget + 1, ls => do
    let (e, rest) ← inner ls
    match rest with
    | ⟨.comma, _⟩ :: rest => do
      let (es, rest) ← arguments inner budget rest
      return (e :: es, rest)
    | _ => return ([e], rest)

/-- Numbers, names, calls and what stands in parentheses. No list of arguments is longer than
`limit`. -/
def primary (limit : Nat) (inner : List Lexeme → Outcome) : List Lexeme → Outcome
  | ⟨.number n, _⟩ :: rest => .ok (.number n, rest)
  | ⟨.name callee, _⟩ :: ⟨.openParen, _⟩ :: ⟨.closeParen, _⟩ :: rest => .ok (.call callee [], rest)
  | ⟨.name callee, _⟩ :: ⟨.openParen, _⟩ :: rest => do
    let (args, rest) ← arguments inner limit rest
    let rest ← expect stop .closeParen rest
    return (.call callee args, rest)
  | ⟨.name x, _⟩ :: rest => .ok (.name x, rest)
  | ⟨.openParen, _⟩ :: rest => do
    let (e, rest) ← inner rest
    let rest ← expect stop .closeParen rest
    return (e, rest)
  | l :: _ => .error ⟨.unexpected (some l.token), l.column⟩
  | [] => .error ⟨.unexpected none, stop⟩

/-- An operand: signs, then a primary expression with its fields. What follows a sign is read by
`signed`, what stands inside parentheses by `inner`. -/
def operand (limit : Nat) (signed inner : List Lexeme → Outcome) (ls : List Lexeme) : Outcome :=
  match (nextToken ls).bind Token.sign? with
  | some op => do
    let (e, rest) ← signed ls.tail
    return (.unary op e, rest)
  | none => do
    let (e, rest) ← primary stop limit inner ls
    members stop e rest

/-- Extends `lhs` by the operators that bind at least as tightly as `least`, at most `budget` of
them on every level. -/
def operators (read : List Lexeme → Outcome) :
    (budget : Nat) → (least : Nat) → (lhs : Formula) → List Lexeme → Outcome
  | 0, _, lhs, ls => .ok (lhs, ls)
  | budget + 1, least, lhs, ls =>
    match nextToken ls with
    | some (.operator op) =>
      if op.precedence < least then .ok (lhs, ls)
      else do
        let (first, rest) ← read ls.tail
        let (rhs, rest) ← operators read budget (op.precedence + 1) first rest
        operators read budget least (.binary op lhs rhs) rest
    | _ => .ok (lhs, ls)

def choice (limit : Nat) (read inner : List Lexeme → Outcome) (ls : List Lexeme) : Outcome := do
  let (first, rest) ← read ls
  let (test, rest) ← operators read limit 2 first rest
  match rest with
  | ⟨.question, _⟩ :: rest => do
    let (yes, rest) ← inner rest
    let rest ← expect stop .colon rest
    let (no, rest) ← inner rest
    return (.conditional test yes no, rest)
  | _ => return (test, rest)

structure Readers where
  operand : List Lexeme → Outcome
  whole : List Lexeme → Outcome

/-- The readers for what may nest `room` levels deep and is no longer than `limit`. A sign and a whole
expression each cost one level. -/
def readers (limit : Nat) : (room : Nat) → Readers
  | 0 =>
    let refuse := failAt stop .tooDeep
    ⟨Formula.operand stop limit refuse refuse, refuse⟩
  | room + 1 =>
    let below := readers limit room
    let whole := choice stop limit below.operand below.whole
    ⟨Formula.operand stop limit below.operand whole, whole⟩

end

def maxNesting : Nat := 128

def ofLexemes (stop : Nat) (ls : List Lexeme) : Except Error Formula :=
  match ls with
  | [] => failAt stop .empty ls
  | _ => do
    let (e, rest) ← (readers stop ls.length maxNesting).whole ls
    match rest with
    | [] => return e
    | l :: _ => failAt stop (.unexpected (some l.token)) rest

def parse (text : String) : Except Error Formula := do
  let ls ← lexemes text
  ofLexemes (endColumn text) ls

end NodeShader.Formula
