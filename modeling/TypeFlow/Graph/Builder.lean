import TypeFlow.Graph

/-!
Building a graph block by block and edge by edge. A call makes its checks before it changes
anything.
-/

namespace TypeFlow

structure Builder where
  graph : Graph
  /-- The id to try first for a new block. -/
  next : BlockId
deriving DecidableEq

namespace Builder

def empty : Builder := ⟨.empty, ⟨0⟩⟩

instance : Inhabited Builder := ⟨empty⟩

variable (b : Builder)

/-- The least id that no block has. Among one id more than there are blocks, one is free, but for
the case that all ids are taken. -/
def leastUnused : BlockId :=
  let candidates := (List.range (b.graph.blocks.length + 1)).map fun n => BlockId.mk n.toUInt64
  (candidates.find? fun id => !b.graph.contains id).getD b.next

/-- An id for a new block: one past the largest id so far, or, once there is nothing past it,
the least unused one. -/
def freshId : BlockId := if b.graph.contains b.next then b.leastUnused else b.next

/-- Puts an empty block under `id`: in the place of the block with this id if there is one, and
after all blocks if there is none. -/
def insert (kind : BlockKind) (line : UInt64) (id : BlockId) : Builder where
  graph :=
    let block : Block := ⟨id, kind, line, []⟩
    { b.graph with
      blocks :=
        if b.graph.contains id then b.graph.blocks.map fun k => if k.id = id then block else k
        else b.graph.blocks ++ [block] }
  next := if b.next.val < id.next.val then id.next else b.next

def newBlock (kind : BlockKind) (line : UInt64) : BlockId × Builder :=
  (b.freshId, b.insert kind line b.freshId)

def append (id : BlockId) (ss : List Stmt) : Builder :=
  let blocks := b.graph.blocks.map fun k =>
    if k.id = id then { k with stmts := k.stmts ++ ss } else k
  { b with graph := { b.graph with blocks } }

def connect (e : Edge) : Builder :=
  { b with graph := { b.graph with edges := b.graph.edges ++ [e] } }

inductive Call
  | createBlock (kind : BlockKind) (line : UInt64) (id : BlockId)
  | newBlock (kind : BlockKind) (line : UInt64)
  /-- Statements to append to a block. -/
  | addStmts (id : BlockId) (ss : List Stmt)
  | createEdge (e : Edge)
deriving DecidableEq

/-- Carries out a call on the builder as it stands. A call that fails comes back with its error
and with the builder it leaves behind. -/
def Call.exec : Call → EStateM Error Builder Unit
  | createBlock kind line id => do
    if (← get).graph.contains id then throw (.duplicateBlock id)
    modify (·.insert kind line id)
  | newBlock kind line => modify fun b => (b.newBlock kind line).2
  | addStmts id ss => do
    if !(← get).graph.contains id then throw (.unknownBlock id)
    modify (·.append id ss)
  | createEdge e => do
    if !(← get).graph.contains e.source then throw (.danglingEdge e.source)
    if !(← get).graph.contains e.target then throw (.danglingEdge e.target)
    modify (·.connect e)

/-- The builder after a call, whether it succeeds or fails. -/
def after (c : Call) : Builder :=
  match c.exec b with
  | .ok _ b | .error _ b => b

/-- The builder after calls made one after the other, from an empty one on. -/
def ofCalls (cs : List Call) : Builder := cs.foldl after empty

def perform (c : Call) : Except Error Builder :=
  match c.exec b with
  | .ok _ b => .ok b
  | .error e _ => .error e

def createBlock (kind : BlockKind) (line : UInt64) (id : BlockId) : Except Error Builder :=
  b.perform (.createBlock kind line id)

def addStmts (id : BlockId) (ss : List Stmt) : Except Error Builder := b.perform (.addStmts id ss)

def createEdge (e : Edge) : Except Error Builder := b.perform (.createEdge e)

/-- Adds `count` new blocks on the lines from `line` on, each one reached from the one before,
and the first from `last` if there is one. An error stops the chain after the block whose edge
failed; the builder reached so far and the last block are given in any case. -/
def chain (kind : BlockKind) : (count : Nat) → (line : UInt64) → (last : Option BlockId) →
    Builder → Option Error × Option BlockId × Builder
  | 0, _, last, b => (none, last, b)
  | n + 1, line, last, b =>
    let (id, b) := b.newBlock kind line
    match last with
    | none => chain kind n (line + 1) (some id) b
    | some l =>
      match b.createEdge ⟨l, id, .fallThrough⟩ with
      | .ok b => chain kind n (line + 1) (some id) b
      | .error e => (some e, last, b)

end Builder

end TypeFlow
