import TypeFlow.Editor

/-!
A few editors: lowering what flow typing does not take, adding and dropping type annotations,
renaming, flattening.
-/

namespace TypeFlow.Editor

/-- Changes nothing, and refuses markers. -/
def strict : Editor (Except Error) := ofHooks .keep

def lenient : Editor (Except Error) :=
  { strict with marker := fun k => pure (.leaf (.marker k)) }

def rename (before after : String) : Editor (Except Error) :=
  { lenient with
    assign := fun a => pure (.leaf (.assign { a with target := before ++ a.target ++ after })) }

def untype : Editor (Except Error) :=
  { strict with typed := fun a => pure (.leaf (.assign a.toAssignment)) }

def annotate (ty : Ty) : Editor (Except Error) :=
  { strict with assign := fun a => pure (.leaf (.typed { a with ty })) }

/-- Expands compound assignments, and assigns the value of an expression statement to `_`. -/
def desugar : Editor (Except Error) :=
  { strict with
    compound := fun a => pure (.leaf (.assign a.expand))
    eval := fun e => pure (.leaf (.assign ⟨"_", e⟩)) }

/-- Numbers the targets of plain assignments in the order they are met, from zero. An empty
statement becomes a jump to the line with the number reached. -/
def enumerate : Editor (StateT Nat (Except Error)) :=
  ofHooks
    { LeafHooks.keep with
      assign := fun a => do
        let n ← get
        set (n + 1)
        pure (.leaf (.assign { a with target := a.target ++ "_" ++ n.repr }))
      empty := do
        let n ← get
        pure (.leaf (.goto (.number (.ofMilli (n * 1000))))) }

def flatten : Editor (Except Error) :=
  { strict with
    goto := fun _ => pure (.leaf .empty)
    conditional := fun c => pure (.list (c.onTrue ++ c.onFalse)) }

/-- Adds `extra` empty lines at the end, or drops all lines if that is negative. -/
def pad (extra : Int) : Editor (Except Error) :=
  { strict with
    program := fun p =>
      pure ⟨if extra < 0 then [] else p.lines ++ List.replicate extra.toNat ⟨[]⟩⟩ }

def reverse : Editor (Except Error) :=
  { strict with line := fun l => pure ⟨l.stmts.reverse⟩ }

def refuseJumps (e : Error) : Editor (Except Error) :=
  { strict with goto := fun _ => throw e }

end TypeFlow.Editor
