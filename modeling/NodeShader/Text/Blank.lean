namespace NodeShader.Text

/-- The characters with the Unicode property `White_Space`. -/
def isBlank (c : Char) : Bool :=
  let n := c.toNat
  (9 ≤ n && n ≤ 13) || n == 0x20 || n == 0x85 || n == 0xA0 || n == 0x1680 ||
    (0x2000 ≤ n && n ≤ 0x200A) || n == 0x2028 || n == 0x2029 || n == 0x202F ||
    n == 0x205F || n == 0x3000

def dropEndWhile (p : Char → Bool) (s : String) : String :=
  String.ofList (s.toList.reverse.dropWhile p).reverse

def trimEnd (s : String) : String := dropEndWhile isBlank s

def trim (s : String) : String := trimEnd (String.ofList (s.toList.dropWhile isBlank))

def blank (s : String) : Bool := s.toList.all isBlank

@[simp] theorem blank_empty : blank "" = true := rfl

def lowerAscii (s : String) : String := String.ofList (s.toList.map Char.toLower)

def isWordChar (c : Char) : Bool := c.isAlphanum || c == '_'

def words (cs : List Char) : List (List Char) :=
  match cs with
  | [] => []
  | c :: cs =>
    if isWordChar c then
      match cs with
      | [] => [[c]]
      | d :: _ =>
        if isWordChar d then
          match words cs with
          | [] => [[c]]
          | w :: ws => (c :: w) :: ws
        else [c] :: words cs
    else words cs

end NodeShader.Text
