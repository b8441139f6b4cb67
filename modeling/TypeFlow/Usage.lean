import TypeFlow.Stmt

/-!
Which variables statements read and write, and in which order.
-/

namespace TypeFlow

inductive Access
  | read (x : VarName)
  | write (x : VarName)
deriving DecidableEq

def Expr.accesses (e : Expr) : List Access := e.reads.map .read

/-- A value is computed before it is stored, and a compound assignment reads its target
first. -/
def Leaf.accesses : Leaf → List Access
  | .empty => []
  | .assign a => a.value.accesses ++ [.write a.target]
  | .typed a => a.value.accesses ++ [.write a.target]
  | .compound a => .read a.target :: a.value.accesses ++ [.write a.target]
  | .eval e => e.accesses
  | .goto e => e.accesses
  | .marker (.conditional e) => e.accesses

namespace Stmt

mutual

/-- Every read and write in source order; a test comes before its branches. -/
def accesses : Stmt → List Access
  | .leaf l => l.accesses
  | .list body => accessesOf body
  | .ifElse c t f => c.accesses ++ accessesOf t ++ accessesOf f

def accessesOf : List Stmt → List Access
  | [] => []
  | s :: ss => s.accesses ++ accessesOf ss

end

end Stmt

/-- The names read and the names written, each once and in the order they are first met. -/
structure Usage where
  reads : List VarName
  writes : List VarName
deriving DecidableEq

namespace Usage

def ofAccesses (as : List Access) : Usage where
  reads := (as.filterMap fun | .read x => some x | .write _ => none).eraseDups
  writes := (as.filterMap fun | .write x => some x | .read _ => none).eraseDups

def ofStmts (ss : List Stmt) : Usage := ofAccesses (Stmt.accessesOf ss)

/-- The names read that belong to the program and that nothing in it writes. -/
def unwritten (u : Usage) : List VarName :=
  u.reads.filter fun x => !VarName.isExternal x && !u.writes.contains x

def sameNames (u v : Usage) : Bool :=
  u.reads.isPerm v.reads && u.writes.isPerm v.writes

end Usage

end TypeFlow
