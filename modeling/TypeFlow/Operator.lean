/-!
The operators of the language and how they are written.
-/

namespace TypeFlow

inductive UnaryOp
  | negate | not | abs | sqrt | sine | cosine | tangent | arcSine | arcCosine | arcTangent
deriving DecidableEq

inductive BinaryOp
  | add | subtract | multiply | divide | modulo | exponent
  | equalTo | notEqualTo | lessThan | greaterThan | lessThanEqualTo | greaterThanEqualTo
  | and | or
deriving DecidableEq

inductive CompoundOp
  | add | subtract | multiply | divide | modulo
deriving DecidableEq

/-- A word is written with the blank that divides it from its operand. -/
def UnaryOp.keyword : UnaryOp → String
  | negate => "-"
  | not => "not "
  | abs => "abs "
  | sqrt => "sqrt "
  | sine => "sin "
  | cosine => "cos "
  | tangent => "tan "
  | arcSine => "asin "
  | arcCosine => "acos "
  | arcTangent => "atan "

def BinaryOp.symbol : BinaryOp → String
  | add => "+"
  | subtract => "-"
  | multiply => "*"
  | divide => "/"
  | modulo => "%"
  | exponent => "^"
  | equalTo => "=="
  | notEqualTo => "!="
  | lessThan => "<"
  | greaterThan => ">"
  | lessThanEqualTo => "<="
  | greaterThanEqualTo => ">="
  | and => " and "
  | or => " or "

def BinaryOp.isComparison : BinaryOp → Bool
  | equalTo | notEqualTo | lessThan | greaterThan | lessThanEqualTo | greaterThanEqualTo => true
  | _ => false

def CompoundOp.binary : CompoundOp → BinaryOp
  | add => .add
  | subtract => .subtract
  | multiply => .multiply
  | divide => .divide
  | modulo => .modulo

end TypeFlow
