import TypeFlow.Usage

/-!
Looking through statements without changing them.

A visitor has a hook for assignments of each sort, for markers and for expressions. The traversal
goes through lists and branches in source order, a test before its branches.
-/

namespace TypeFlow

variable {m : Type → Type}

/-- An expression comes to its hook where it is a statement, the line of a jump or a test. Those
inside an assignment or a marker are for the hook of the assignment or the marker to go into. -/
structure Visitor (m : Type → Type) where
  assign : Assignment → m Unit
  typed : TypedAssignment → m Unit
  compound : CompoundAssignment → m Unit
  marker : Marker → m Unit
  expr : Expr → m Unit

namespace Visitor

variable [Monad m] (v : Visitor m)

def visitLeaf : Leaf → m Unit
  | .empty => pure ()
  | .assign a => v.assign a
  | .typed a => v.typed a
  | .compound a => v.compound a
  | .eval e | .goto e => v.expr e
  | .marker k => v.marker k

mutual

def visitStmt : Stmt → m Unit
  | .leaf l => v.visitLeaf l
  | .list body => visitStmts body
  | .ifElse c t f => do
    v.expr c
    visitStmts t
    visitStmts f

def visitStmts : List Stmt → m Unit
  | [] => pure ()
  | s :: ss => do
    visitStmt s
    visitStmts ss

end

end Visitor

/-- Reports the variables read, from left to right. -/
def Expr.visit [Monad m] (read : VarName → m Unit) : Expr → m Unit
  | .number _ | .string _ => pure ()
  | .var x => read x
  | .paren e | .unary _ e => e.visit read
  | .binary _ l r => do
    l.visit read
    r.visit read

namespace Visitor

/-- The visitor without rules of its own: it goes into all expressions and reports the names that
are read and written. -/
def names [Monad m] (read write : VarName → m Unit) : Visitor m where
  assign a := do
    a.value.visit read
    write a.target
  typed a := do
    a.value.visit read
    write a.target
  compound a := do
    read a.target
    a.value.visit read
    write a.target
  marker
    | .conditional e => e.visit read
  expr e := e.visit read

def recorder : Visitor (StateM (List Access)) :=
  names (fun x => modify (· ++ [.read x])) fun x => modify (· ++ [.write x])

/-- Lists the assignments, those without an annotation apart from those with one. -/
def collector : Visitor (StateM (List Assignment × List TypedAssignment)) :=
  { names (fun _ => pure ()) (fun _ => pure ()) with
    assign := fun a => modify fun (as, ts) => (as ++ [a], ts)
    typed := fun a => modify fun (as, ts) => (as, ts ++ [a]) }

end Visitor

end TypeFlow
