import TypeFlow.Graph

/-!
Depth-first search from the entry of a graph, and the order in which it leaves the blocks.

The search keeps its own stack: each frame is a block that has been entered and the successors
of it that have not been tried. A block that is left is put in front of those left before it,
so the search ends with the blocks in reverse postorder.
-/

namespace TypeFlow.Graph

/-- A block that has been entered, and its successors still to try. -/
abbrev Frame := BlockId × List BlockId

/-- The steps the stack is good for if no further block is entered. -/
def stackSize : List Frame → Nat
  | [] => 0
  | f :: stack => f.2.length + 1 + stackSize stack

theorem length_successors_le (g : Graph) (b : BlockId) :
    (g.successors b).length ≤ g.edges.length := by
  simp only [successors, outgoing, List.length_map]
  exact List.length_filter_le _ _

/-- Goes on from `stack`, entering only blocks of `unseen`; `left` holds the blocks already left,
the last one first. -/
def search (g : Graph) (unseen : List BlockId) (stack : List Frame) (left : List BlockId) :
    List BlockId :=
  match stack with
  | [] => left
  | (b, []) :: stack => search g unseen stack (b :: left)
  | (b, s :: ss) :: stack =>
    if s ∈ unseen then
      search g (unseen.erase s) ((s, g.successors s) :: (b, ss) :: stack) left
    else search g unseen ((b, ss) :: stack) left
-- a block that is entered brings along as many steps as there are edges, and two more
termination_by unseen.length * (g.edges.length + 2) + stackSize stack
decreasing_by
  · simp [stackSize]
  · rename_i h
    obtain ⟨n, hn⟩ := Nat.exists_eq_add_of_lt (List.length_pos_of_mem h)
    have := g.length_successors_le s
    rw [List.length_erase_of_mem h, hn]
    simp [stackSize, Nat.add_mul]
    omega
  · simp [stackSize]

/-- The blocks that can be reached from the entry. A block comes before its successors, but for
the edges that close a loop. -/
def reversePostorder (g : Graph) : List BlockId :=
  match g.entry? with
  | none => []
  | some e => g.search (g.ids.erase e.id) [(e.id, g.successors e.id)] []

end TypeFlow.Graph
