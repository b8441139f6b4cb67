import TypeFlow.Graph.Transform
import TypeFlow.TypeTable

/-!
One pass of flow typing: every assignment whose value can be typed by now is annotated with
its type, and its target is entered in the table. What is entered counts for the statements
that come later in the same pass.
-/

namespace TypeFlow

/-- What a pass has changed so far. -/
structure Progress where
  /-- Statements given an annotation they did not have. -/
  modified : Nat
  /-- Names entered because of a statement that had the right annotation already. -/
  recorded : Nat
deriving DecidableEq

namespace Progress

def none : Progress := ⟨0, 0⟩

/-- Another pass could learn more. -/
def changed (p : Progress) : Bool := 0 < p.modified || 0 < p.recorded

end Progress

/-- What to do about a leaf, given the types known so far. -/
inductive Verdict
  /-- Leave it. -/
  | keep
  /-- Leave it, and enter the type of its target. -/
  | record (x : VarName) (ty : Ty)
  /-- Annotate it, and enter the type of its target. -/
  | annotate (a : Assignment) (ty : Ty)
  | refuse (stmt : Unsupported)

/-- An annotation that is there already is checked against the inferred type and replaced if
it is wrong. -/
def Leaf.verdict (types : TypeTable) : Leaf → Verdict
  | .assign a =>
    let ty := a.value.infer types.get?
    if ty = .unassigned then .keep else .annotate a ty
  | .typed a =>
    let ty := a.value.infer types.get?
    if ty = .unassigned then .keep
    else if ty ≠ a.ty then .annotate a.toAssignment ty
    else if types.contains a.target then .keep
    else .record a.target ty
  | .compound _ => .refuse .compoundAssignment
  | .eval _ => .refuse .expressionStatement
  | .empty | .goto _ | .marker _ => .keep

structure PassState where
  types : TypeTable
  progress : Progress

/-- Passes fail with the table as it was when they failed. -/
abbrev PassM := EStateM Error PassState

def PassM.enter (x : VarName) (ty : Ty) (count : Progress → Progress) (r : Stmt) : PassM Stmt :=
  fun s =>
    match s.types.assign x ty with
    | .ok types => .ok r ⟨types, count s.progress⟩
    | .error e => .error e s

def Leaf.assignType (l : Leaf) : PassM Stmt := fun s =>
  match l.verdict s.types with
  | .keep => .ok (.leaf l) s
  | .record x ty =>
    PassM.enter x ty (fun p => { p with recorded := p.recorded + 1 }) (.leaf l) s
  | .annotate a ty =>
    PassM.enter a.target ty (fun p => { p with modified := p.modified + 1 })
      (.leaf (.typed { a with ty })) s
  | .refuse stmt => .error (.unsupported stmt) s

/-- Types the statements of all blocks, in the order blocks were made. -/
def Graph.assignTypes (g : Graph) : PassM Graph :=
  g.modifyBlocks fun b => (Editor.ofLeaf Leaf.assignType).editStmts b.stmts

/-- One pass over `g`. The table comes back also when the pass fails, with what was entered
before the failure. -/
def Graph.typingPass (g : Graph) (types : TypeTable) : Except Error (Graph × Progress) × TypeTable :=
  match g.assignTypes.run ⟨types, .none⟩ with
  | .ok h s => (.ok (h, s.progress), s.types)
  | .error e s => (.error e, s.types)

end TypeFlow
