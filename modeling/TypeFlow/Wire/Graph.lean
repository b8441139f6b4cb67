import TypeFlow.Typing.Run
import TypeFlow.Wire.Syntax

/-!
How blocks, graphs and the results of flow typing are written as JSON. Graphs and results are
only written.
-/

namespace TypeFlow

instance : Wire BlockId where
  toJson id := Wire.toJson id.val
  ofJson? j := (Wire.ofJson? j).map .mk

def BlockKind.all : List BlockKind := [entry, exit, lineStart, resume, basic]

def BlockKind.name : BlockKind → String
  | entry => "Entry"
  | exit => "Exit"
  | lineStart => "LineStart"
  | resume => "Continue"
  | basic => "Basic"

instance : Wire BlockKind where
  toJson k := .str k.name
  ofJson? := Json.case? BlockKind.all BlockKind.name

def EdgeKind.all : List EdgeKind :=
  [fallThrough, conditionalTrue, conditionalFalse, gotoNumber, gotoString, gotoExpr, runtimeError]

def EdgeKind.name : EdgeKind → String
  | fallThrough => "Continue"
  | conditionalTrue => "ConditionalTrue"
  | conditionalFalse => "ConditionalFalse"
  | gotoNumber => "GotoConstNumber"
  | gotoString => "GotoConstString"
  | gotoExpr => "GotoExpression"
  | runtimeError => "RuntimeError"

instance : Wire EdgeKind where
  toJson k := .str k.name
  ofJson? := Json.case? EdgeKind.all EdgeKind.name

instance : Wire Edge where
  toJson e :=
    .object [("start", Wire.toJson e.source), ("end", Wire.toJson e.target),
      ("kind", Wire.toJson e.kind)]
  ofJson? j :=
    match j.record? ["start", "end", "kind"] with
    | some [s, t, k] => do
      let s ← Wire.ofJson? s
      let t ← Wire.ofJson? t
      let k ← Wire.ofJson? k
      pure ⟨s, t, k⟩
    | _ => none

instance : Wire Block where
  toJson b :=
    .object [("id", Wire.toJson b.id), ("kind", Wire.toJson b.kind),
      ("line_number", Wire.toJson b.line), ("statements", .array (Stmt.listToJson b.stmts))]
  ofJson? j :=
    match j.record? ["id", "kind", "line_number", "statements"] with
    | some [id, kind, line, ss] => do
      let id ← Wire.ofJson? id
      let kind ← Wire.ofJson? kind
      let line ← Wire.ofJson? line
      let js ← ss.array?
      let ss ← Stmt.listOfJson? true js
      pure ⟨id, kind, line, ss⟩
    | _ => none

/-- The blocks stand under their ids in the order they were made. -/
def Graph.toJson (g : Graph) : Json :=
  .object [
    ("blocks", .object (g.blocks.map fun b => (b.id.val.toNat.repr, Wire.toJson b))),
    ("edges", Wire.toJson g.edges)]

def TypeTable.toJson (t : TypeTable) : Json :=
  .object (t.entries.map fun (x, ty) => (x, Wire.toJson ty))

def Typing.toJson (t : Typing) : Json :=
  .object [("graph", t.graph.toJson), ("types", t.types.toJson),
    ("pass_modifications", .array (t.passes.map fun (n : Nat) => .int n))]

end TypeFlow
