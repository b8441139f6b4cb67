import TypeFlow.Typing.Config
import TypeFlow.Typing.Growth
import TypeFlow.Visitor

/-!
Flow typing: passes over a graph until one of them learns nothing.
-/

namespace TypeFlow

/-- The annotated graph, the types found, and how many statements each pass annotated. -/
structure Typing where
  graph : Graph
  types : TypeTable
  passes : List Nat
deriving DecidableEq

/-- The limit, if the run has started as many passes as it may. -/
def Config.exceeded (c : Config) (started : Nat) : Option UInt64 :=
  c.maxPasses.filter fun n => n.toNat ≤ started

/-- Goes on with the passes; `done` says what each pass so far has annotated. -/
def Config.iterate (c : Config) (g : Graph) (types : TypeTable) (done : List Nat) :
    Except Error Typing :=
  match c.exceeded done.length with
  | some n => .error (.passLimit n)
  | none =>
    match _h : g.typingPass types with
    | (.error e, _) => .error e
    | (.ok (g', progress), types') =>
      if progress.changed then c.iterate g' types' (done ++ [progress.modified])
      else .ok ⟨g', types', done ++ [progress.modified]⟩
termination_by (types.missing g.targets).length
decreasing_by exact Graph.missing_lt _h ‹_›

/-- Types every assignment of `g` that can be typed. -/
def Config.run (c : Config) (g : Graph) : Except Error Typing := do
  let types ← c.seed g
  c.iterate g types []

def Graph.flowTyping (g : Graph) (hints : List Hint) : Except Error Typing :=
  (Config.default.addHints hints).run g

namespace Typing

def typeOf? (t : Typing) (x : VarName) : Option Ty := t.types.get? x

/-- The assignments of the graph, in the order of the blocks: those that could not be typed, and
those that are annotated. -/
def assignments (t : Typing) : List Assignment × List TypedAssignment :=
  ((Visitor.collector.visitStmts t.graph.stmts).run ([], [])).2

def indeterminate (t : Typing) : List VarName := t.assignments.1.map Assignment.target

/-- The assignments whose value may be a fault. -/
def typeErrors (t : Typing) : List TypedAssignment := t.assignments.2.filter fun a => a.ty.hasError

end Typing

end TypeFlow
