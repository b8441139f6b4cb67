import TypeFlow.Number
import TypeFlow.Operator

/-!
Expressions: their text, their size and the variables they read.
-/

namespace TypeFlow

abbrev VarName := String

/-- A name with a leading colon belongs to a device outside the program, which may write it. -/
def VarName.isExternal (x : VarName) : Bool := x.toList.head? = some ':'

inductive Expr
  | number (n : Number)
  | string (s : String)
  | var (x : VarName)
  | paren (e : Expr)
  | unary (op : UnaryOp) (e : Expr)
  | binary (op : BinaryOp) (l r : Expr)
deriving DecidableEq

namespace Expr

instance : Inhabited Expr := ⟨.number default⟩

/-- Nothing is escaped inside a string, and brackets stand only where the tree has them. -/
def text : Expr → String
  | number n => n.text
  | string s => "\"" ++ s ++ "\""
  | var x => x
  | paren e => "(" ++ e.text ++ ")"
  | unary op e => op.keyword ++ e.text
  | binary op l r => l.text ++ op.symbol ++ r.text

/-- The number of nodes, brackets not counted. -/
def size : Expr → Nat
  | number _ | string _ | var _ => 1
  | paren e => e.size
  | unary _ e => e.size + 1
  | binary _ l r => l.size + r.size + 1

/-- The variables read, from left to right, as often as they occur. -/
def reads : Expr → List VarName
  | number _ | string _ => []
  | var x => [x]
  | paren e | unary _ e => e.reads
  | binary _ l r => l.reads ++ r.reads

/-- A numeric constant other than zero, in any number of brackets. -/
def isNonzeroConstant : Expr → Bool
  | number n => !n.isZero
  | paren e => e.isNonzeroConstant
  | _ => false

end Expr

end TypeFlow
