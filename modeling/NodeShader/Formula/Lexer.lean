import NodeShader.Formula.Token

namespace NodeShader.Formula

def isNameStart (c : Char) : Bool := c.isAlpha || c == '_'

def isNumeric (c : Char) : Bool := c.isDigit || c == '.'

def startsNumber : List Char → Bool
  | '.' :: c :: _ => c.isDigit
  | c :: _ => c.isDigit
  | [] => false

/-- The exponent at the head of a text as it is kept, and its width there. The mark is kept in lower
case. -/
def exponentAt : List Char → Except (List Char) (List Char × Nat)
  | c :: cs =>
    if c == 'e' || c == 'E' then
      let sign := match cs with
        | '+' :: _ => ['+']
        | '-' :: _ => ['-']
        | _ => []
      let ds := (cs.drop sign.length).takeWhile Char.isDigit
      if ds.isEmpty then .error ('e' :: sign)
      else .ok ('e' :: sign ++ ds, 1 + sign.length + ds.length)
    else .ok ([], 0)
  | [] => .ok ([], 0)

/-- The number at the head of a text and its width, which counts the letter `f` that may end it. -/
def numberAt (cs : List Char) : Except Cause (Token × Nat) :=
  let body := cs.takeWhile isNumeric
  match exponentAt (cs.dropWhile isNumeric) with
  | .error exponent => .error (.malformedExponent (String.ofList (body ++ exponent)))
  | .ok (exponent, width) =>
    let text := String.ofList (body ++ exponent)
    let suffix := match cs.drop (body.length + width) with
      | 'f' :: _ | 'F' :: _ => 1
      | _ => 0
    if body.count '.' > 1 then .error (.malformedNumber text)
    else .ok (.number text, body.length + width + suffix)

/-- The mark at the head of a text and its width; of two marks the longer. -/
def markAt : List Char → Except Cause (Token × Nat)
  | '(' :: _ => .ok (.openParen, 1)
  | ')' :: _ => .ok (.closeParen, 1)
  | ',' :: _ => .ok (.comma, 1)
  | '.' :: _ => .ok (.dot, 1)
  | '?' :: _ => .ok (.question, 1)
  | ':' :: _ => .ok (.colon, 1)
  | '+' :: _ => .ok (.operator .add, 1)
  | '-' :: _ => .ok (.operator .sub, 1)
  | '*' :: _ => .ok (.operator .mul, 1)
  | '/' :: _ => .ok (.operator .div, 1)
  | '<' :: '=' :: _ => .ok (.operator .le, 2)
  | '<' :: _ => .ok (.operator .lt, 1)
  | '>' :: '=' :: _ => .ok (.operator .ge, 2)
  | '>' :: _ => .ok (.operator .gt, 1)
  | '!' :: '=' :: _ => .ok (.operator .ne, 2)
  | '!' :: _ => .ok (.bang, 1)
  | '=' :: '=' :: _ => .ok (.operator .eq, 2)
  | '&' :: '&' :: _ => .ok (.operator .and, 2)
  | '|' :: '|' :: _ => .ok (.operator .or, 2)
  | c :: _ => .error (.strayCharacter c)
  | [] => .error .empty

def tokenAt (cs : List Char) : Except Cause (Token × Nat) :=
  if cs.head?.any isNameStart then
    let name := cs.takeWhile Text.isWordChar
    .ok (.name (String.ofList name), name.length)
  else if startsNumber cs then numberAt cs
  else markAt cs

/-- The tokens of a text that starts at a column, the first `skip` characters being part of the token
before it. -/
def scan (skip column : Nat) : List Char → Except Error (List Lexeme)
  | [] => .ok []
  | c :: cs =>
    match skip with
    | skip + 1 => scan skip (column + 1) cs
    | 0 =>
      if Text.isBlank c then scan 0 (column + 1) cs
      else match tokenAt (c :: cs) with
        | .error cause => .error ⟨cause, column⟩
        | .ok (token, width) =>
          match scan (width - 1) (column + 1) cs with
          | .error e => .error e
          | .ok lexemes => .ok (⟨token, column⟩ :: lexemes)

def lexemes (text : String) : Except Error (List Lexeme) := scan 0 1 text.toList

def endColumn (text : String) : Nat := text.length + 1

end NodeShader.Formula
