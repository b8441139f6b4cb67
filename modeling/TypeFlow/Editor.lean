import TypeFlow.Error

/-!
Editing programs in one traversal.

An editor has a hook for each kind of leaf, which says what becomes of the leaf. The traversal goes
through lines, lists and branches in source order and keeps their shape; what a hook does may
depend on what the editor has seen, and may fail, as far as its monad allows. An editor may also
have a last word on each conditional, each line and the whole program, once their parts are edited.
-/

namespace TypeFlow

variable {m : Type → Type}

/-- What becomes of a leaf, kind by kind. -/
structure LeafHooks (m : Type → Type) where
  empty : m Stmt
  assign : Assignment → m Stmt
  typed : TypedAssignment → m Stmt
  compound : CompoundAssignment → m Stmt
  eval : Expr → m Stmt
  goto : Expr → m Stmt
  marker : Marker → m Stmt

namespace LeafHooks

/-- Hands a leaf to the hook for its kind. -/
def onLeaf (hooks : LeafHooks m) : Leaf → m Stmt
  | .empty => hooks.empty
  | .assign a => hooks.assign a
  | .typed a => hooks.typed a
  | .compound a => hooks.compound a
  | .eval e => hooks.eval e
  | .goto e => hooks.goto e
  | .marker k => hooks.marker k

def ofLeaf (f : Leaf → m Stmt) : LeafHooks m where
  empty := f .empty
  assign a := f (.assign a)
  typed a := f (.typed a)
  compound a := f (.compound a)
  eval e := f (.eval e)
  goto e := f (.goto e)
  marker k := f (.marker k)

theorem onLeaf_ofLeaf (f : Leaf → m Stmt) : (ofLeaf f).onLeaf = f := by
  funext l
  cases l <;> rfl

end LeafHooks

/-- What becomes of a leaf that an editor has no rule for: it stays, but a marker is refused,
since only an editor that knows of a marker can keep it true. -/
def Leaf.keep [Monad m] [MonadExceptOf Error m] : Leaf → m Stmt
  | .marker k => throw (.unhandledMarker k.kindName)
  | l => pure (.leaf l)

def LeafHooks.keep [Monad m] [MonadExceptOf Error m] : LeafHooks m := ofLeaf Leaf.keep

structure Editor (m : Type → Type) extends LeafHooks m where
  conditional : Conditional → m Stmt
  line : Line → m Line
  program : Program → m Program

/-- The editor that changes leaves only. -/
def Editor.ofHooks [Monad m] (hooks : LeafHooks m) : Editor m :=
  { hooks with
    conditional := fun c => pure c.toStmt
    line := pure
    program := pure }

def Editor.ofLeaf [Monad m] (f : Leaf → m Stmt) : Editor m := ofHooks (.ofLeaf f)

@[simp] theorem Editor.onLeaf_ofLeaf [Monad m] (f : Leaf → m Stmt) : (ofLeaf f).onLeaf = f :=
  LeafHooks.onLeaf_ofLeaf f

namespace Editor

variable [Monad m] (ed : Editor m)

mutual

def editStmt : Stmt → m Stmt
  | .leaf l => ed.onLeaf l
  | .list body => do
    let body ← editStmts body
    pure (.list body)
  | .ifElse c t f => do
    let t ← editStmts t
    let f ← editStmts f
    ed.conditional ⟨c, t, f⟩

def editStmts : List Stmt → m (List Stmt)
  | [] => pure []
  | s :: ss => do
    let s ← editStmt s
    let ss ← editStmts ss
    pure (s :: ss)

end

def editLine (l : Line) : m Line := do
  let stmts ← ed.editStmts l.stmts
  ed.line ⟨stmts⟩

def editProgram (p : Program) : m Program := do
  let lines ← p.lines.mapM ed.editLine
  ed.program ⟨lines⟩

end Editor

end TypeFlow
