import TypeFlow.Block

/-!
What can go wrong in building, transforming and typing a graph.
-/

namespace TypeFlow

/-- The statements that have to be lowered before flow typing. -/
inductive Unsupported
  | compoundAssignment
  | expressionStatement
deriving DecidableEq

def Unsupported.kindName : Unsupported → String
  | compoundAssignment => "compound assignment"
  | expressionStatement => "expression statement"

def Unsupported.remedy : Unsupported → String
  | compoundAssignment => "desugar `a op= b` into `a = a op b` before flow typing"
  | expressionStatement => "lower expression statements into assignments before flow typing"

inductive Error
  /-- A new edge starts or ends at an id that is no block. -/
  | danglingEdge (id : BlockId)
  | unknownBlock (id : BlockId)
  | duplicateBlock (id : BlockId)
  /-- A name has a type already and is given another. -/
  | retyped (name : VarName) (existing attempted : Ty)
  | unsupported (stmt : Unsupported)
  /-- The statements of a block no longer make up exactly one line. -/
  | malformedEdit (block : BlockId) (lines : Nat)
  | passLimit (limit : UInt64)
  /-- An editor without a rule for markers met one. -/
  | unhandledMarker (kind : String)
deriving DecidableEq

def Error.message : Error → String
  | danglingEdge id => "edge endpoint " ++ id.text ++ " is not a block of this graph"
  | unknownBlock id => "no block with id " ++ id.text
  | duplicateBlock id => "a block with id " ++ id.text ++ " already exists"
  | retyped name existing attempted =>
    "type already assigned to `" ++ name ++ "` (" ++ existing.text ++ "), cannot assign " ++
      attempted.text
  | unsupported stmt => "cannot flow type a " ++ stmt.kindName ++ ": " ++ stmt.remedy
  | malformedEdit block lines =>
    "rewriting block " ++ block.text ++ " produced " ++ lines.repr ++
      " lines, expected exactly one"
  | passLimit limit => "flow typing still changing after " ++ limit.toNat.repr ++ " passes"
  | unhandledMarker kind => "no rewrite rule for `" ++ kind ++ "` marker statement"

end TypeFlow
