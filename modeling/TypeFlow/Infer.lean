import TypeFlow.Ty
import TypeFlow.Expr

/-!
The type of an expression, from the types of the variables it reads.

Operators are ruled kind by kind: an operand that may be a number or a string contributes the
results for both. An unknown operand leaves the result unknown, and a possible fault of an
operand is a possible fault of the result.
-/

namespace TypeFlow

def Ty.faultIf (b : Bool) : Ty := ⟨false, false, b⟩

/-- Roots and inverse sines or cosines are not defined on all numbers. -/
def UnaryOp.isPartial : UnaryOp → Bool
  | sqrt | arcSine | arcCosine => true
  | _ => false

/-- No unary operator is defined on strings. -/
def UnaryOp.onKind (op : UnaryOp) : Kind → Ty
  | .number => .number ∪ .faultIf op.isPartial
  | .string => .error

def UnaryOp.result (op : UnaryOp) (t : Ty) : Ty :=
  if t = .unassigned then .unassigned
  else t.kinds.foldl (fun acc k => acc ∪ op.onKind k) (.faultIf t.hasError)

/-- The result for operands of given kinds. Adding and subtracting is defined on strings, and
a number beside a string counts as its text. Dividing numbers faults at zero, which a divisor
that is a nonzero constant rules out. -/
def BinaryOp.onKinds (op : BinaryOp) (nonzeroDivisor : Bool) (l r : Kind) : Ty :=
  let numbers := l = .number ∧ r = .number
  match op with
  | .add | .subtract => if numbers then .number else .string
  | .multiply | .exponent | .and | .or => if numbers then .number else .error
  | .divide | .modulo => if numbers then .number ∪ .faultIf !nonzeroDivisor else .error
  | .equalTo | .notEqualTo | .lessThan | .greaterThan | .lessThanEqualTo
  | .greaterThanEqualTo => .number

/-- A comparison is a number whatever it compares. Elsewhere an operand that can only fault
makes the whole expression fault. -/
def BinaryOp.result (op : BinaryOp) (nonzeroDivisor : Bool) (l r : Ty) : Ty :=
  if l = .unassigned ∨ r = .unassigned then .unassigned
  else
    let carried := Ty.faultIf (l.hasError || r.hasError)
    if op.isComparison then .number ∪ carried
    else
      let pairs := l.kinds.flatMap fun k => r.kinds.map fun k' => (k, k')
      if pairs.isEmpty then carried ∪ .error
      else pairs.foldl (fun acc (k, k') => acc ∪ op.onKinds nonzeroDivisor k k') carried

abbrev Lookup := VarName → Option Ty

/-- A variable without a known type leaves every expression around it without one. -/
def Expr.infer (known : Lookup) : Expr → Ty
  | number _ => .number
  | string _ => .string
  | var x => (known x).getD .unassigned
  | paren e => e.infer known
  | unary op e => op.result (e.infer known)
  | binary op l r => op.result r.isNonzeroConstant (l.infer known) (r.infer known)

end TypeFlow
