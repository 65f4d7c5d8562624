import NodeShader.Json.Numeral
import NodeShader.Json.Document

namespace NodeShader.Reader

def isSpace (c : Char) : Bool := c == ' ' || c == '\n' || c == '\t' || c == '\r'

def skipSpace (cs : List Char) : List Char := cs.dropWhile isSpace

/-- A piece of a string: a character, or a unit of UTF-16 given by its code. -/
inductive Piece where
  | char (c : Char)
  | unit (n : Nat)

def hexDigit? (c : Char) : Option Nat :=
  if c.isDigit then some (c.toNat - 48)
  else if 'a' ≤ c ∧ c ≤ 'f' then some (c.toNat - 87)
  else if 'A' ≤ c ∧ c ≤ 'F' then some (c.toNat - 55)
  else none

def escape? : Char → Option Char
  | '"' => some '"'
  | '\\' => some '\\'
  | '/' => some '/'
  | 'b' => some '\x08'
  | 'f' => some '\x0c'
  | 'n' => some '\n'
  | 'r' => some '\r'
  | 't' => some '\t'
  | _ => none

def pieces? : List Char → Option (List Piece × List Char)
  | [] => none
  | '"' :: cs => some ([], cs)
  | '\\' :: 'u' :: a :: b :: c :: d :: cs => do
    let n := (((← hexDigit? a) * 16 + (← hexDigit? b)) * 16 + (← hexDigit? c)) * 16 + (← hexDigit? d)
    let (ps, rest) ← pieces? cs
    return (.unit n :: ps, rest)
  | '\\' :: e :: cs => do
    let c ← escape? e
    let (ps, rest) ← pieces? cs
    return (.char c :: ps, rest)
  | c :: cs =>
    if c == '\\' || c.toNat < 0x20 then none
    else do
      let (ps, rest) ← pieces? cs
      return (.char c :: ps, rest)

/-- The characters of the pieces; surrogates must come in pairs. -/
def join? : List Piece → Option (List Char)
  | [] => some []
  | .char c :: ps => (c :: ·) <$> join? ps
  | .unit m :: .unit n :: ps =>
    if 0xD800 ≤ m ∧ m < 0xDC00 then
      if 0xDC00 ≤ n ∧ n < 0xE000 then
        (Char.ofNat (0x10000 + (m - 0xD800) * 0x400 + (n - 0xDC00)) :: ·) <$> join? ps
      else none
    else if 0xDC00 ≤ m ∧ m < 0xE000 then none
    else (Char.ofNat m :: ·) <$> join? (.unit n :: ps)
  | .unit m :: ps =>
    if 0xD800 ≤ m ∧ m < 0xE000 then none else (Char.ofNat m :: ·) <$> join? ps

def string? (cs : List Char) : Option (Option String × List Char) := do
  let (ps, rest) ← pieces? cs
  return ((join? ps).map String.ofList, rest)

def digits? (cs : List Char) : Option (List Char × List Char) :=
  match cs.takeWhile Char.isDigit with
  | [] => none
  | ds => some (ds, cs.dropWhile Char.isDigit)

def whole? (cs : List Char) : Option (List Char × List Char) := do
  let (ds, rest) ← digits? cs
  if ds.head? = some '0' ∧ ds.length ≠ 1 then none else return (ds, rest)

def fraction? : List Char → Option (Option (List Char) × List Char)
  | '.' :: cs => do
    let (ds, rest) ← digits? cs
    return (some ds, rest)
  | cs => some (none, cs)

def exponent? (cs : List Char) : Option (Option (Bool × List Char) × List Char) :=
  match cs with
  | c :: cs' =>
    if c == 'e' || c == 'E' then do
      let (negative, cs'') := match cs' with
        | '-' :: r => (true, r)
        | '+' :: r => (false, r)
        | r => (false, r)
      let (ds, rest) ← digits? cs''
      return (some (negative, ds), rest)
    else some (none, cs)
  | [] => some (none, [])

def numeral? (cs : List Char) : Option (Numeral × List Char) := do
  let (negative, cs) := match cs with
    | '-' :: r => (true, r)
    | r => (false, r)
  let (whole, cs) ← whole? cs
  let (fraction, cs) ← fraction? cs
  let (exponent, cs) ← exponent? cs
  return (⟨negative, whole, fraction, exponent⟩, cs)

mutual

/-- One value and what follows it. Every call has a smaller budget, and each character of the text
pays for two calls. -/
def value? : Nat → List Char → Option (Document × List Char)
  | 0, _ => none
  | budget + 1, cs =>
    match skipSpace cs with
    | 'n' :: 'u' :: 'l' :: 'l' :: rest => some (.null, rest)
    | 't' :: 'r' :: 'u' :: 'e' :: rest => some (.bool true, rest)
    | 'f' :: 'a' :: 'l' :: 's' :: 'e' :: rest => some (.bool false, rest)
    | '"' :: rest => do
      let (s, rest) ← string? rest
      return (.string s, rest)
    | '[' :: rest =>
      match skipSpace rest with
      | ']' :: rest => some (.array [], rest)
      | rest => do
        let (xs, rest) ← items? budget rest
        return (.array xs, rest)
    | '\x7b' :: rest =>
      match skipSpace rest with
      | '\x7d' :: rest => some (.object [], rest)
      | rest => do
        let (xs, rest) ← fields? budget rest
        return (.object xs, rest)
    | rest => do
      let (n, rest) ← numeral? rest
      return (.number n.number?, rest)

def items? : Nat → List Char → Option (List Document × List Char)
  | 0, _ => none
  | budget + 1, cs => do
    let (x, rest) ← value? budget cs
    match skipSpace rest with
    | ',' :: rest => do
      let (xs, rest) ← items? budget rest
      return (x :: xs, rest)
    | ']' :: rest => return ([x], rest)
    | _ => none

def fields? : Nat → List Char → Option (List (Option String × Document) × List Char)
  | 0, _ => none
  | budget + 1, cs =>
    match skipSpace cs with
    | '"' :: rest => do
      let (k, rest) ← string? rest
      match skipSpace rest with
      | ':' :: rest => do
        let (x, rest) ← value? budget rest
        match skipSpace rest with
        | ',' :: rest => do
          let (xs, rest) ← fields? budget rest
          return ((k, x) :: xs, rest)
        | '\x7d' :: rest => return ([(k, x)], rest)
        | _ => none
      | _ => none
    | _ => none

end

end NodeShader.Reader

namespace NodeShader.Document

def parse? (text : String) : Option Document := do
  let cs := text.toList
  let (d, rest) ← Reader.value? (2 * cs.length + 2) cs
  if (Reader.skipSpace rest).isEmpty then return d else none

end NodeShader.Document
