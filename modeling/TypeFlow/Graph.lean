import TypeFlow.Error
import TypeFlow.Usage

/-!
Control flow graphs: blocks in the order they were made, and edges between them.
-/

namespace TypeFlow

/-- A block is kept under its own id, and there is no key besides it: what is found under an id is
the first block that has this id. -/
structure Graph where
  blocks : List Block
  edges : List Edge
deriving DecidableEq

namespace Graph

def empty : Graph := ⟨[], []⟩

instance : Inhabited Graph := ⟨empty⟩

variable (g : Graph)

def ids : List BlockId := g.blocks.map Block.id

/-- No id names two blocks, and edges run between blocks. -/
structure WellFormed : Prop where
  nodup : g.ids.Nodup
  source_mem : ∀ e ∈ g.edges, e.source ∈ g.ids
  target_mem : ∀ e ∈ g.edges, e.target ∈ g.ids

instance : Decidable g.WellFormed :=
  decidable_of_iff
    (g.ids.Nodup ∧ (∀ e ∈ g.edges, e.source ∈ g.ids) ∧ ∀ e ∈ g.edges, e.target ∈ g.ids)
    ⟨fun ⟨hn, hs, ht⟩ => ⟨hn, hs, ht⟩, fun ⟨hn, hs, ht⟩ => ⟨hn, hs, ht⟩⟩

def contains (id : BlockId) : Bool := g.blocks.any (·.id = id)

def block? (id : BlockId) : Option Block := g.blocks.find? (·.id = id)

def block (id : BlockId) : Except Error Block :=
  match g.block? id with
  | some b => .ok b
  | none => .error (.unknownBlock id)

def outgoing (id : BlockId) : List Edge := g.edges.filter (·.source = id)

def incoming (id : BlockId) : List Edge := g.edges.filter (·.target = id)

def successors (id : BlockId) : List BlockId := (g.outgoing id).map Edge.target

def entry? : Option Block := g.blocks.find? (·.kind = .entry)

def stmts : List Stmt := g.blocks.flatMap Block.stmts

def leaves : List Leaf := Stmt.leavesOf g.stmts

def usage : Usage := Usage.ofStmts g.stmts

/-- The same blocks whatever their order, and the same edges in the same order. -/
def sameAs (h : Graph) : Bool := g.blocks.isPerm h.blocks && g.edges = h.edges

end Graph

end TypeFlow
