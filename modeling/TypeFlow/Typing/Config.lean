import TypeFlow.Graph
import TypeFlow.TypeTable

/-!
What flow typing is told beforehand, and the table it starts from.
-/

namespace TypeFlow

/-- The type of a variable the program reads and does not write. -/
structure Hint where
  name : VarName
  ty : Ty
deriving DecidableEq

structure Config where
  hints : List Hint
  /-- The type of a variable of the program that is read and never written: reading it gives
  a zero value. -/
  defaultTy : Ty
  /-- The most passes a run may start, if there is a limit. -/
  maxPasses : Option UInt64
deriving DecidableEq

namespace Config

def default : Config := ⟨[], .number, none⟩

instance : Inhabited Config := ⟨default⟩

def addHints (c : Config) (hints : List Hint) : Config := { c with hints := c.hints ++ hints }

/-- The hints, then the default type for every name that is read, never written and not
hinted. -/
def seed (c : Config) (g : Graph) : Except Error TypeTable := do
  let hinted ← TypeTable.empty.assignAll (c.hints.map fun h => (h.name, h.ty))
  let rest := g.usage.unwritten.filter fun x => !hinted.contains x
  hinted.assignAll (rest.map fun x => (x, c.defaultTy))

end Config

end TypeFlow
