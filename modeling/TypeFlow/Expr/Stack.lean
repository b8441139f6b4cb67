import TypeFlow.Expr

/-!
Building an expression from the leaves up, on a stack.

The top of the stack comes first. Every instruction but a push is repeated a number of times,
so that a few instructions build a deep tree.
-/

namespace TypeFlow.Expr

inductive Instr
  | push (e : Expr)
  | paren (times : Nat)
  | unary (op : UnaryOp) (times : Nat)
  /-- Takes the right operand off the stack; every repetition has the expression so far on its
  left. -/
  | binary (op : BinaryOp) (times : Nat)
  /-- Takes the left operand off the stack; every repetition has the expression so far on its
  right. -/
  | binaryRight (op : BinaryOp) (times : Nat)

/-- Applies `f` to the top of the stack, over and over; `none` if there is no top to apply it
to. -/
def onTop (f : Expr → Expr) : Nat → List Expr → Option (List Expr)
  | 0, stack => some stack
  | n + 1, e :: stack => some (Nat.repeat f (n + 1) e :: stack)
  | _ + 1, [] => none

def Instr.exec (stack : List Expr) : Instr → Option (List Expr)
  | push e => some (e :: stack)
  | paren times => onTop .paren times stack
  | unary op times => onTop (.unary op) times stack
  | binary op times =>
    match stack with
    | r :: rest => onTop (fun l => .binary op l r) times rest
    | [] => none
  | binaryRight op times =>
    match stack with
    | l :: rest => onTop (fun r => .binary op l r) times rest
    | [] => none

def ofInstrs? (code : List Instr) : Option (Expr × List Expr) :=
  match code.foldlM Instr.exec [] with
  | some (e :: rest) => some (e, rest)
  | _ => none

end TypeFlow.Expr
