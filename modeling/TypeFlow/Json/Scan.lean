import TypeFlow.Json

/-!
The tokens of a JSON text, found in one scan.

The scan keeps the tokens found so far, the last one first, and where it stands: between
tokens, in a word, in a number or in a text. A number ends at the first character that cannot
go on with it.
-/

namespace TypeFlow.Json

/-- How far a number has been read. -/
inductive NumberPart
  | minus | zero | whole | point | fraction | exponentMark | exponentSign | exponent
deriving DecidableEq

namespace NumberPart

/-- The part that `c` leads to; `none` if it cannot go on with the number. -/
def next (p : NumberPart) (c : Char) : Option NumberPart :=
  match p with
  | minus => if c = '0' then some zero else if c.isDigit then some whole else none
  | zero => if c = '.' then some point else if c = 'e' ∨ c = 'E' then some exponentMark else none
  | whole =>
    if c.isDigit then some whole
    else if c = '.' then some point
    else if c = 'e' ∨ c = 'E' then some exponentMark
    else none
  | point => if c.isDigit then some fraction else none
  | fraction =>
    if c.isDigit then some fraction
    else if c = 'e' ∨ c = 'E' then some exponentMark
    else none
  | exponentMark =>
    if c = '+' ∨ c = '-' then some exponentSign
    else if c.isDigit then some exponent
    else none
  | exponentSign => if c.isDigit then some exponent else none
  | exponent => if c.isDigit then some exponent else none

end NumberPart

/-- The value of a number that ended in part `p`; `none` if it must not end there. -/
def numberToken (p : NumberPart) (lexeme : List Char) : Option Token :=
  match p, lexeme with
  | .zero, ['0'] => some (.int 0)
  | .whole, '-' :: ds => some (.int (-(Nat.ofDigitChars 10 ds 0)))
  | .whole, ds => some (.int (Nat.ofDigitChars 10 ds 0))
  | .zero, _ | .fraction, _ | .exponent, _ => some (.real (String.ofList lexeme))
  | .minus, _ | .point, _ | .exponentMark, _ | .exponentSign, _ => none

def hexDigit? (c : Char) : Option Nat :=
  if c.isDigit then some (c.toNat - 48)
  else if 'a' ≤ c ∧ c ≤ 'f' then some (c.toNat - 87)
  else if 'A' ≤ c ∧ c ≤ 'F' then some (c.toNat - 55)
  else none

def unescape? (c : Char) : Option Char :=
  match c with
  | '"' => some '"'
  | '\\' => some '\\'
  | '/' => some '/'
  | 'b' => some '\x08'
  | 'f' => some '\x0c'
  | 'n' => some '\n'
  | 'r' => some '\r'
  | 't' => some '\t'
  | _ => none

/-- The characters of a text so far, the last one first; `none` once half of a surrogate pair
stands alone. -/
abbrev Chars := Option (List Char)

def Chars.push (cs : Chars) (c : Char) : Chars := cs.map (c :: ·)

inductive Mode
  | gap
  /-- In a word with `rest` still to come. -/
  | word (rest : List Char) (t : Token)
  /-- In a number; its characters so far, the last one first. -/
  | number (p : NumberPart) (lexeme : List Char)
  | text (cs : Chars)
  /-- After the first half of a surrogate pair. -/
  | half (cs : Chars) (high : Nat)
  /-- After a backslash, and after the first half of a pair if there is one. -/
  | escape (cs : Chars) (high : Option Nat)
  /-- In an escape by number: the digits still to come and the value so far. -/
  | code (cs : Chars) (high : Option Nat) (digits : Nat) (value : Nat)

structure Scan where
  tokens : List Token
  mode : Mode

def Scan.start (ts : List Token) (c : Char) : Option Scan :=
  match c with
  | ' ' | '\t' | '\n' | '\r' => some ⟨ts, .gap⟩
  | '[' => some ⟨.openArray :: ts, .gap⟩
  | ']' => some ⟨.closeArray :: ts, .gap⟩
  | '\x7b' => some ⟨.openObject :: ts, .gap⟩
  | '\x7d' => some ⟨.closeObject :: ts, .gap⟩
  | ':' => some ⟨.colon :: ts, .gap⟩
  | ',' => some ⟨.comma :: ts, .gap⟩
  | '"' => some ⟨ts, .text (some [])⟩
  | 'n' => some ⟨ts, .word ['u', 'l', 'l'] .null⟩
  | 't' => some ⟨ts, .word ['r', 'u', 'e'] (.bool true)⟩
  | 'f' => some ⟨ts, .word ['a', 'l', 's', 'e'] (.bool false)⟩
  | '-' => some ⟨ts, .number .minus [c]⟩
  | '0' => some ⟨ts, .number .zero [c]⟩
  | c => if c.isDigit then some ⟨ts, .number .whole [c]⟩ else none

def Chars.token : Chars → Token
  | some cs => .str (String.ofList cs.reverse)
  | none => .illegible

/-- Reads a character of a text. Only an escape can make a pair of the half before it. -/
def Scan.inText (ts : List Token) (cs : Chars) (high : Option Nat) (c : Char) : Option Scan :=
  if c = '\\' then some ⟨ts, .escape cs high⟩
  else
    let cs : Chars := if high.isSome then none else cs
    if c = '"' then some ⟨cs.token :: ts, .gap⟩
    else if c.toNat < 0x20 then none
    else some ⟨ts, .text (cs.push c)⟩

/-- Where the scan stands after an escape by number, given the half of a pair before it. -/
def codeMode (cs : Chars) (high : Option Nat) (value : Nat) : Mode :=
  match high with
  | some h =>
    if 0xDC00 ≤ value ∧ value < 0xE000 then
      .text (cs.push (Char.ofNat (0x10000 + (h - 0xD800) * 0x400 + (value - 0xDC00))))
    else .text none
  | none =>
    if 0xD800 ≤ value ∧ value < 0xDC00 then .half cs value
    else if 0xDC00 ≤ value ∧ value < 0xE000 then .text none
    else .text (cs.push (Char.ofNat value))

def Scan.step (s : Scan) (c : Char) : Option Scan :=
  match s.mode with
  | .gap => start s.tokens c
  | .word rest t =>
    match rest with
    | [d] => if c = d then some ⟨t :: s.tokens, .gap⟩ else none
    | d :: ds => if c = d then some ⟨s.tokens, .word ds t⟩ else none
    | [] => none
  | .number p lexeme =>
    match p.next c with
    | some q => some ⟨s.tokens, .number q (c :: lexeme)⟩
    | none => (numberToken p lexeme.reverse).bind fun t => start (t :: s.tokens) c
  | .text cs => inText s.tokens cs none c
  | .half cs high => inText s.tokens cs (some high) c
  | .escape cs high =>
    if c = 'u' then some ⟨s.tokens, .code cs high 4 0⟩
    else
      (unescape? c).map fun d =>
        ⟨s.tokens, .text (if high.isSome then none else cs.push d)⟩
  | .code cs high digits value =>
    (hexDigit? c).map fun d =>
      let value := 16 * value + d
      ⟨s.tokens, if digits = 1 then codeMode cs high value else .code cs high (digits - 1) value⟩

def Scan.finish (s : Scan) : Option (List Token) :=
  match s.mode with
  | .gap => some s.tokens.reverse
  | .number p lexeme => (numberToken p lexeme.reverse).map fun t => (t :: s.tokens).reverse
  | _ => none

def scan (text : List Char) : Option (List Token) :=
  (text.foldlM Scan.step ⟨[], .gap⟩).bind Scan.finish

end TypeFlow.Json
