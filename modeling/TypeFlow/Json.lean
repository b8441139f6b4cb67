/-!
JSON values, the tokens they are written with, and their compact text.

Numbers are read as integers. A number written in any other way, a text that spells half of a
surrogate pair, and what stands too deep, are recognised so that they can be skipped, but nothing
reads them.
-/

namespace TypeFlow

inductive Json
  | null
  | bool (b : Bool)
  | int (n : Int)
  /-- A number with a fraction or an exponent, or minus zero, as it was written. -/
  | real (lexeme : String)
  | str (s : String)
  /-- A text with half of a surrogate pair, an object that has such a key, or an array or object
  that stands too deep. -/
  | illegible
  | array (items : List Json)
  /-- The members in the order they were written, a key as often as it occurs. -/
  | object (members : List (String × Json))

namespace Json

instance : Inhabited Json := ⟨null⟩

inductive Token
  | openArray | closeArray | openObject | closeObject | colon | comma
  | null
  | bool (b : Bool)
  | int (n : Int)
  | real (lexeme : String)
  | str (s : String)
  | illegible
deriving DecidableEq

/-! ### From values to tokens -/

mutual

def tokens : Json → List Token
  | .null => [.null]
  | .bool b => [.bool b]
  | .int n => [.int n]
  | .real lexeme => [.real lexeme]
  | .str s => [.str s]
  | .illegible => [.illegible]
  | .array [] => [.openArray, .closeArray]
  | .array (j :: js) => .openArray :: j.tokens ++ itemTokens js ++ [.closeArray]
  | .object [] => [.openObject, .closeObject]
  | .object ((k, j) :: ms) =>
    .openObject :: .str k :: .colon :: j.tokens ++ memberTokens ms ++ [.closeObject]

/-- The items after the first one, each with the comma before it. -/
def itemTokens : List Json → List Token
  | [] => []
  | j :: js => .comma :: j.tokens ++ itemTokens js

/-- The members after the first one, each with the comma before it. -/
def memberTokens : List (String × Json) → List Token
  | [] => []
  | (k, j) :: ms => .comma :: .str k :: .colon :: j.tokens ++ memberTokens ms

end

/-! ### From tokens to text -/

def hexPair (n : Nat) : List Char := [Nat.digitChar (n / 16), Nat.digitChar (n % 16)]

/-- Quotes, backslashes and the characters below the blank are escaped, and nothing else. -/
def escape (c : Char) : List Char :=
  match c with
  | '"' => ['\\', '"']
  | '\\' => ['\\', '\\']
  | '\n' => ['\\', 'n']
  | '\r' => ['\\', 'r']
  | '\t' => ['\\', 't']
  | '\x08' => ['\\', 'b']
  | '\x0c' => ['\\', 'f']
  | c => if c.toNat < 0x20 then ['\\', 'u', '0', '0'] ++ hexPair c.toNat else [c]

def quote (s : List Char) : List Char := ['"'] ++ s.flatMap escape ++ ['"']

def spellInt (n : Int) : List Char :=
  (if n < 0 then ['-'] else []) ++ Nat.toDigits 10 n.natAbs

def Token.spell : Token → List Char
  | openArray => ['[']
  | closeArray => [']']
  | openObject => ['\x7b']
  | closeObject => ['\x7d']
  | colon => [':']
  | comma => [',']
  | null => ['n', 'u', 'l', 'l']
  | bool true => ['t', 'r', 'u', 'e']
  | bool false => ['f', 'a', 'l', 's', 'e']
  | int n => spellInt n
  | real lexeme => lexeme.toList
  | str s => quote s.toList
  | illegible => ['"', '\\', 'u', 'd', '8', '0', '0', '"']

/-- The text without blanks between tokens. -/
def render (j : Json) : String := String.ofList (j.tokens.flatMap Token.spell)

end Json

end TypeFlow
