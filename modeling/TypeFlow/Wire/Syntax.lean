import TypeFlow.Stmt
import TypeFlow.Wire

/-!
How types, expressions, statements and programs are written as JSON.

The contents of a unary or binary expression are a record. In a text that record may be an array
like any other; in a value that has been read already it has to be an object. The flag
`positional` says which.
-/

namespace TypeFlow

instance : Wire Ty where
  toJson t := .str t.text
  ofJson? j := j.str?.bind fun s => (Ty.read s).toOption

instance : Wire Number where
  toJson n := .int n.raw.toInt
  ofJson? j :=
    (j.intIn? Int64.minValue.toInt (Int64.maxValue.toInt + 1)).map fun n => ⟨Int64.ofInt n⟩

/-! ### Operators -/

def UnaryOp.all : List UnaryOp :=
  [negate, not, abs, sqrt, sine, cosine, tangent, arcSine, arcCosine, arcTangent]

def UnaryOp.name : UnaryOp → String
  | negate => "Negate"
  | not => "Not"
  | abs => "Abs"
  | sqrt => "Sqrt"
  | sine => "Sine"
  | cosine => "Cosine"
  | tangent => "Tangent"
  | arcSine => "ArcSine"
  | arcCosine => "ArcCosine"
  | arcTangent => "ArcTangent"

instance : Wire UnaryOp where
  toJson op := .str op.name
  ofJson? := Json.case? UnaryOp.all UnaryOp.name

def BinaryOp.all : List BinaryOp :=
  [add, subtract, multiply, divide, modulo, exponent, equalTo, notEqualTo, lessThan, greaterThan,
   lessThanEqualTo, greaterThanEqualTo, and, or]

def BinaryOp.name : BinaryOp → String
  | add => "Add"
  | subtract => "Subtract"
  | multiply => "Multiply"
  | divide => "Divide"
  | modulo => "Modulo"
  | exponent => "Exponent"
  | equalTo => "EqualTo"
  | notEqualTo => "NotEqualTo"
  | lessThan => "LessThan"
  | greaterThan => "GreaterThan"
  | lessThanEqualTo => "LessThanEqualTo"
  | greaterThanEqualTo => "GreaterThanEqualTo"
  | and => "And"
  | or => "Or"

instance : Wire BinaryOp where
  toJson op := .str op.name
  ofJson? := Json.case? BinaryOp.all BinaryOp.name

def CompoundOp.all : List CompoundOp := [add, subtract, multiply, divide, modulo]

instance : Wire CompoundOp where
  toJson op := .str op.binary.name
  ofJson? := Json.case? CompoundOp.all fun op => op.binary.name

/-! ### Expressions -/

namespace Expr

def toJson : Expr → Json
  | number n => .object [("ConstantNumber", Wire.toJson n)]
  | string s => .object [("ConstantString", .str s)]
  | var x => .object [("Variable", .str x)]
  | paren e => .object [("Bracketed", e.toJson)]
  | unary op e => .object [("Unary", .object [("op", Wire.toJson op), ("operand", e.toJson)])]
  | binary op l r =>
    .object [("Binary",
      .object [("op", Wire.toJson op), ("left", l.toJson), ("right", r.toJson)])]

mutual

def ofJson? (positional : Bool) : Json → Option Expr
  | .object [(name, contents)] =>
    match name, contents with
    | "ConstantNumber", j => (Wire.ofJson? j).map .number
    | "ConstantString", .str s => some (.string s)
    | "Variable", .str x => some (.var x)
    | "Bracketed", j => (ofJson? positional j).map .paren
    | "Unary", .object ms =>
      if Json.eachOnce ["op", "operand"] ms then do
        let op ← (ms.lookup "op").bind Wire.ofJson?
        let e ← ofField? positional "operand" ms
        pure (.unary op e)
      else none
    | "Unary", .array [op, e] =>
      if positional then do
        let op ← Wire.ofJson? op
        let e ← ofJson? positional e
        pure (.unary op e)
      else none
    | "Binary", .object ms =>
      if Json.eachOnce ["op", "left", "right"] ms then do
        let op ← (ms.lookup "op").bind Wire.ofJson?
        let l ← ofField? positional "left" ms
        let r ← ofField? positional "right" ms
        pure (.binary op l r)
      else none
    | "Binary", .array [op, l, r] =>
      if positional then do
        let op ← Wire.ofJson? op
        let l ← ofJson? positional l
        let r ← ofJson? positional r
        pure (.binary op l r)
      else none
    | _, _ => none
  | _ => none
termination_by structural j => j

def ofField? (positional : Bool) (name : String) : List (String × Json) → Option Expr
  | [] => none
  | (k, j) :: ms => if k = name then ofJson? positional j else ofField? positional name ms
termination_by structural ms => ms

end

end Expr

instance : Wire Expr where
  toJson := Expr.toJson
  ofJson? := Expr.ofJson? true

/-! ### Leaves -/

def Assignment.ofJson? (positional : Bool) (j : Json) : Option Assignment :=
  match j.record? ["left", "right"] with
  | some [x, e] => do
    let x ← x.str?
    let e ← Expr.ofJson? positional e
    pure ⟨x, e⟩
  | _ => none

instance : Wire Assignment where
  toJson a := .object [("left", .str a.target), ("right", Wire.toJson a.value)]
  ofJson? := Assignment.ofJson? true

def TypedAssignment.ofJson? (positional : Bool) (j : Json) : Option TypedAssignment :=
  match j.record? ["ty", "left", "right"] with
  | some [ty, x, e] => do
    let ty ← Wire.ofJson? ty
    let x ← x.str?
    let e ← Expr.ofJson? positional e
    pure ⟨⟨x, e⟩, ty⟩
  | _ => none

instance : Wire TypedAssignment where
  toJson a :=
    .object [("ty", Wire.toJson a.ty), ("left", .str a.target), ("right", Wire.toJson a.value)]
  ofJson? := TypedAssignment.ofJson? true

def CompoundAssignment.ofJson? (positional : Bool) (j : Json) : Option CompoundAssignment :=
  match j.record? ["left", "op", "right"] with
  | some [x, op, e] => do
    let x ← x.str?
    let op ← Wire.ofJson? op
    let e ← Expr.ofJson? positional e
    pure ⟨x, op, e⟩
  | _ => none

instance : Wire CompoundAssignment where
  toJson a :=
    .object [("left", .str a.target), ("op", Wire.toJson a.op), ("right", Wire.toJson a.value)]
  ofJson? := CompoundAssignment.ofJson? true

def Marker.ofJson? (positional : Bool) : Json → Option Marker
  | .object [("Conditional", e)] => (Expr.ofJson? positional e).map .conditional
  | _ => none

instance : Wire Marker where
  toJson
    | .conditional e => .object [("Conditional", Wire.toJson e)]
  ofJson? := Marker.ofJson? true

def Leaf.toJson : Leaf → Json
  | .empty => .str "Empty"
  | .assign a => .object [("Assignment", Wire.toJson a)]
  | .typed a => .object [("TypedAssignment", Wire.toJson a)]
  | .compound a => .object [("CompoundAssignment", Wire.toJson a)]
  | .eval e => .object [("ExpressionWrapper", Wire.toJson e)]
  | .goto e => .object [("Goto", Wire.toJson e)]
  | .marker m => .object [("Marker", Wire.toJson m)]

def Leaf.ofJson? (positional : Bool) : Json → Option Leaf
  | .str "Empty" => some .empty
  | .object [(name, j)] =>
    match name, j with
    | "Empty", .null => some .empty
    | "Assignment", j => (Assignment.ofJson? positional j).map .assign
    | "TypedAssignment", j => (TypedAssignment.ofJson? positional j).map .typed
    | "CompoundAssignment", j => (CompoundAssignment.ofJson? positional j).map .compound
    | "ExpressionWrapper", j => (Expr.ofJson? positional j).map .eval
    | "Goto", j => (Expr.ofJson? positional j).map .goto
    | "Marker", j => (Marker.ofJson? positional j).map .marker
    | _, _ => none
  | _ => none

/-! ### Statements -/

namespace Stmt

mutual

def toJson : Stmt → Json
  | .leaf l => l.toJson
  | .list body => .object [("List", .array (listToJson body))]
  | .ifElse c t f =>
    .object [("If", .object [("condition", Wire.toJson c),
      ("true_branch", .array (listToJson t)), ("false_branch", .array (listToJson f))])]

def listToJson : List Stmt → List Json
  | [] => []
  | s :: ss => s.toJson :: listToJson ss

end

mutual

def ofJson? (positional : Bool) : Json → Option Stmt
  | .object [("List", .array js)] => (listOfJson? positional js).map .list
  | .object [("If", .object ms)] =>
    if Json.eachOnce ["condition", "true_branch", "false_branch"] ms then do
      let c ← (ms.lookup "condition").bind (Expr.ofJson? positional)
      let t ← branch? positional "true_branch" ms
      let f ← branch? positional "false_branch" ms
      pure (.ifElse c t f)
    else none
  | .object [("If", .array [c, .array t, .array f])] => do
    let c ← Expr.ofJson? positional c
    let t ← listOfJson? positional t
    let f ← listOfJson? positional f
    pure (.ifElse c t f)
  | j => (Leaf.ofJson? positional j).map .leaf
termination_by structural j => j

def listOfJson? (positional : Bool) : List Json → Option (List Stmt)
  | [] => some []
  | j :: js => do
    let s ← ofJson? positional j
    let ss ← listOfJson? positional js
    pure (s :: ss)
termination_by structural js => js

def branch? (positional : Bool) (name : String) : List (String × Json) → Option (List Stmt)
  | [] => none
  | (k, j) :: ms =>
    if k = name then
      match j with
      | .array js => listOfJson? positional js
      | _ => none
    else branch? positional name ms
termination_by structural ms => ms

end

end Stmt

instance : Wire Stmt where
  toJson := Stmt.toJson
  ofJson? := Stmt.ofJson? true

instance : Wire Conditional where
  toJson c :=
    .object [("condition", Wire.toJson c.test), ("true_branch", Wire.toJson c.onTrue),
      ("false_branch", Wire.toJson c.onFalse)]
  ofJson? j :=
    match Stmt.ofJson? true (.object [("If", j)]) with
    | some (.ifElse c t f) => some ⟨c, t, f⟩
    | _ => none

/-! ### Programs -/

def Line.ofJson? (positional : Bool) (j : Json) : Option Line :=
  match j.record? ["statements"] with
  | some [ss] => ss.array?.bind fun js => (Stmt.listOfJson? positional js).map .mk
  | _ => none

instance : Wire Line where
  toJson l := .object [("statements", .array (Stmt.listToJson l.stmts))]
  ofJson? := Line.ofJson? true

def Program.ofJson? (positional : Bool) (j : Json) : Option Program :=
  match j.record? ["lines"] with
  | some [ls] => ls.array?.bind fun js => (js.mapM (Line.ofJson? positional)).map .mk
  | _ => none

instance : Wire Program where
  toJson p := .object [("lines", Wire.toJson p.lines)]
  ofJson? := Program.ofJson? true

end TypeFlow
