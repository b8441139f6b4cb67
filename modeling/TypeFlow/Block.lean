import TypeFlow.Stmt

/-!
Basic blocks and the edges between them.
-/

namespace TypeFlow

structure BlockId where
  val : UInt64
deriving DecidableEq

namespace BlockId

instance : Inhabited BlockId := ⟨⟨0⟩⟩

def text (id : BlockId) : String := "#" ++ String.ofList (Nat.toDigits 10 id.val.toNat)

/-- The next larger id; the largest one is its own successor. -/
def next (id : BlockId) : BlockId := if id.val.toNat + 1 < UInt64.size then ⟨id.val + 1⟩ else id

end BlockId

/-- Where a block stands: at the entry or exit of the program, at the start of a line, where a
line goes on after a jump, or anywhere else. -/
inductive BlockKind
  | entry | exit | lineStart | resume | basic
deriving DecidableEq

structure Block where
  id : BlockId
  kind : BlockKind
  line : UInt64
  stmts : List Stmt
deriving DecidableEq

/-- Why control may pass along an edge. -/
inductive EdgeKind
  | fallThrough | conditionalTrue | conditionalFalse | gotoNumber | gotoString | gotoExpr
  | runtimeError
deriving DecidableEq

structure Edge where
  source : BlockId
  target : BlockId
  kind : EdgeKind
deriving DecidableEq

end TypeFlow
