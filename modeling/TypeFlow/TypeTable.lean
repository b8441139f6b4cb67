import TypeFlow.Error
import TypeFlow.Infer

/-!
The table of known types, in the order they became known. A name is given a type once.
-/

namespace TypeFlow

structure TypeTable where
  entries : List (VarName × Ty)
deriving DecidableEq

namespace TypeTable

def empty : TypeTable := ⟨[]⟩

instance : Inhabited TypeTable := ⟨empty⟩

def names (t : TypeTable) : List VarName := t.entries.map (·.1)

def size (t : TypeTable) : Nat := t.entries.length

def get? (t : TypeTable) : Lookup := fun x => t.entries.lookup x

def contains (t : TypeTable) (x : VarName) : Bool := t.names.contains x

/-- Enters a type for `x`, without the fault flag if a kind remains. The error names the type
as it was given. -/
def assign (t : TypeTable) (x : VarName) (ty : Ty) : Except Error TypeTable :=
  match t.get? x with
  | some existing => .error (.retyped x existing ty)
  | none => .ok ⟨t.entries ++ [(x, ty.masked)]⟩

def assignAll (t : TypeTable) (entries : List (VarName × Ty)) : Except Error TypeTable :=
  entries.foldlM (fun t (x, ty) => t.assign x ty) t

/-- The same entries, whatever the order. -/
def sameEntries (t u : TypeTable) : Bool := t.entries.isPerm u.entries

end TypeTable

end TypeFlow
