import TypeFlow.Ty
import TypeFlow.Expr

/-!
Statements, lines and programs.

A statement is a leaf, a list of statements or a conditional with two lists. Leaves do all the
work: they assign, jump or evaluate.
-/

namespace TypeFlow

structure Assignment where
  target : VarName
  value : Expr
deriving DecidableEq

/-- An assignment that also says which type its value has. -/
structure TypedAssignment extends Assignment where
  ty : Ty
deriving DecidableEq

structure CompoundAssignment where
  target : VarName
  op : CompoundOp
  value : Expr
deriving DecidableEq

/-- The plain assignment that combines the old value of the target with the new one. -/
def CompoundAssignment.expand (a : CompoundAssignment) : Assignment :=
  ⟨a.target, .binary a.op.binary (.var a.target) a.value⟩

/-- A note left in a block for the analyses; no program text produces one. -/
inductive Marker
  /-- The test on which the edges that leave the block depend. -/
  | conditional (test : Expr)
deriving DecidableEq

inductive Leaf
  | empty
  | assign (a : Assignment)
  | typed (a : TypedAssignment)
  | compound (a : CompoundAssignment)
  /-- An expression evaluated for its own sake. -/
  | eval (e : Expr)
  | goto (e : Expr)
  | marker (m : Marker)
deriving DecidableEq

inductive Stmt
  | leaf (l : Leaf)
  | list (body : List Stmt)
  | ifElse (test : Expr) (onTrue onFalse : List Stmt)

structure Conditional where
  test : Expr
  onTrue : List Stmt
  onFalse : List Stmt

structure Line where
  stmts : List Stmt

structure Program where
  lines : List Line

namespace Stmt

instance : Inhabited Stmt := ⟨.leaf .empty⟩

/-! ### Equality -/

mutual

def decEq : (s t : Stmt) → Decidable (s = t)
  | .leaf a, .leaf b => decidable_of_iff (a = b) (by simp)
  | .list a, .list b =>
    match decEqs a b with
    | .isTrue h => .isTrue (h ▸ rfl)
    | .isFalse h => .isFalse fun e => h (list.inj e)
  | .ifElse c t f, .ifElse c' t' f' =>
    if hc : c = c' then
      match decEqs t t', decEqs f f' with
      | .isTrue ht, .isTrue hf => .isTrue (hc ▸ ht ▸ hf ▸ rfl)
      | .isFalse h, _ => .isFalse fun e => h (ifElse.inj e).2.1
      | _, .isFalse h => .isFalse fun e => h (ifElse.inj e).2.2
    else .isFalse fun e => hc (ifElse.inj e).1
  | .leaf _, .list _ | .leaf _, .ifElse .. | .list _, .leaf _ | .list _, .ifElse ..
  | .ifElse .., .leaf _ | .ifElse .., .list _ => .isFalse (by simp)

def decEqs : (ss ts : List Stmt) → Decidable (ss = ts)
  | [], [] => .isTrue rfl
  | s :: ss, t :: ts =>
    match decEq s t, decEqs ss ts with
    | .isTrue h, .isTrue hs => .isTrue (h ▸ hs ▸ rfl)
    | .isFalse h, _ => .isFalse fun e => h (List.cons.inj e).1
    | _, .isFalse h => .isFalse fun e => h (List.cons.inj e).2
  | [], _ :: _ | _ :: _, [] => .isFalse (by simp)

end

instance : DecidableEq Stmt := decEq

end Stmt

deriving instance DecidableEq for Conditional, Line, Program

def Conditional.toStmt (c : Conditional) : Stmt := .ifElse c.test c.onTrue c.onFalse

def Program.ofStmts (stmts : List Stmt) : Program := ⟨[⟨stmts⟩]⟩

/-! ### The leaves of a statement -/

namespace Stmt

mutual

/-- The leaves in source order, the true branch of a conditional before the false one. -/
def leaves : Stmt → List Leaf
  | .leaf l => [l]
  | .list body => leavesOf body
  | .ifElse _ t f => leavesOf t ++ leavesOf f

def leavesOf : List Stmt → List Leaf
  | [] => []
  | s :: ss => s.leaves ++ leavesOf ss

end

end Stmt

/-! ### Text -/

def Marker.kindName : Marker → String
  | .conditional _ => "conditional"

def Leaf.kindName : Leaf → String
  | .empty => "empty statement"
  | .assign _ => "assignment"
  | .typed _ => "typed assignment"
  | .compound _ => "compound assignment"
  | .eval _ => "expression statement"
  | .goto _ => "goto"
  | .marker m => m.kindName

def Stmt.kindName : Stmt → String
  | .leaf l => l.kindName
  | .list _ => "statement list"
  | .ifElse .. => "if"

def Leaf.text : Leaf → String
  | .empty => ""
  | .assign a => a.target ++ "=" ++ a.value.text
  | .typed a => a.target ++ ":" ++ a.ty.text ++ "=" ++ a.value.text
  | .compound a => a.target ++ a.op.binary.symbol ++ "=" ++ a.value.text
  | .eval e => e.text
  | .goto e => "goto " ++ e.text
  | .marker (.conditional e) => "<branch " ++ e.text ++ ">"

namespace Stmt

mutual

/-- An absent false branch is not written. -/
def text : Stmt → String
  | .leaf l => l.text
  | .list body => " ".intercalate (textsOf body)
  | .ifElse c t f =>
    "if " ++ c.text ++ " then " ++ " ".intercalate (textsOf t) ++
      (if f.isEmpty then "" else " else " ++ " ".intercalate (textsOf f)) ++ " end"

def textsOf : List Stmt → List String
  | [] => []
  | s :: ss => s.text :: textsOf ss

end

/-- The statements of a list stand side by side, a blank between them. -/
def listText (ss : List Stmt) : String := " ".intercalate (textsOf ss)

end Stmt

def Program.text (p : Program) : String :=
  "\n".intercalate (p.lines.map fun l => Stmt.listText l.stmts)

end TypeFlow
