import TypeFlow.Proofs.Erasure
import TypeFlow.Proofs.Seeding

/-!
Compound assignments are read and written like the plain ones they stand for.

A compound assignment reads its target before anything else, and so does the plain assignment whose
value starts with the target. Written in full, a program makes the same accesses in the same order,
and what flow typing learns beforehand from them is the same.
-/

namespace TypeFlow

/-- A compound assignment in full, and any other leaf as it is. -/
def Leaf.expanded : Leaf → Leaf
  | .compound a => .assign a.expand
  | l => l

/-- The target is the first thing read either way. -/
lemma CompoundAssignment.accesses_expand (a : CompoundAssignment) :
    (Leaf.assign a.expand).accesses = (Leaf.compound a).accesses := rfl

lemma Leaf.accesses_expanded (l : Leaf) : l.expanded.accesses = l.accesses := by
  cases l with
  | compound a => exact a.accesses_expand
  | _ => rfl

lemma Leaf.expanded_ne_compound (l : Leaf) (a : CompoundAssignment) : l.expanded ≠ .compound a := by
  cases l <;> exact Leaf.noConfusion

namespace Graph

/-- The graph with every compound assignment written in full, whatever lists and branches it stands
in. -/
def expanded (g : Graph) : Graph := g.mapLeaves Leaf.expanded

/-- **Compound assignments are sugar to the usage of variables**: written in full, the program makes
the same reads and writes in the same order. So it uses the same names, first met in the same order,
leaves the same reads without a write, and is seeded alike by every configuration. -/
theorem expanded_keeps_accesses (g : Graph) :
    (∀ l ∈ g.expanded.leaves, ∀ a, l ≠ .compound a) ∧
      Stmt.accessesOf g.expanded.stmts = Stmt.accessesOf g.stmts ∧
      g.expanded.usage = g.usage ∧ g.expanded.usage.unwritten = g.usage.unwritten ∧
      ∀ c : Config, c.seed g.expanded = c.seed g := by
  have haccesses : Stmt.accessesOf g.expanded.stmts = Stmt.accessesOf g.stmts :=
    g.accessesOf_mapLeaves Leaf.accesses_expanded
  have husage : g.expanded.usage = g.usage := congrArg Usage.ofAccesses haccesses
  refine ⟨?_, haccesses, husage, congrArg Usage.unwritten husage, fun c => Config.seed_congr husage⟩
  intro l hl
  rw [expanded, leaves_mapLeaves] at hl
  obtain ⟨k, -, rfl⟩ := List.mem_map.mp hl
  exact k.expanded_ne_compound

/-- Compound assignments in a branch and in a list, one of which reads its target again; the name
`k` is first read by one of them, and nothing writes it. -/
theorem expanded_keeps_accesses_nested :
    let g : Graph := ⟨[
      ⟨⟨1⟩, .entry, 1, [.ifElse (.var "c")
        [.leaf (.compound ⟨"x", .add, .binary .multiply (.var "k") (.var "x")⟩)] []]⟩,
      ⟨⟨2⟩, .lineStart, 2, [.list [.leaf (.compound ⟨"y", .modulo, .var "k"⟩)]]⟩], []⟩
    let h : Graph := ⟨[
      ⟨⟨1⟩, .entry, 1, [.ifElse (.var "c")
        [.leaf (.assign ⟨"x", .binary .add (.var "x")
          (.binary .multiply (.var "k") (.var "x"))⟩)] []]⟩,
      ⟨⟨2⟩, .lineStart, 2,
        [.list [.leaf (.assign ⟨"y", .binary .modulo (.var "y") (.var "k")⟩)]]⟩], []⟩
    g.expanded = h ∧
      Stmt.accessesOf h.stmts = [.read "c", .read "x", .read "k", .read "x", .write "x", .read "y",
        .read "k", .write "y"] ∧
      h.usage.unwritten = ["c", "k"] ∧
      Config.default.seed h = .ok ⟨[("c", .number), ("k", .number)]⟩ := by
  intro g h
  have hh : g.expanded = h := rfl
  obtain ⟨-, haccesses, -, hunwritten, hseed⟩ := expanded_keeps_accesses g
  rw [← hh]
  refine ⟨rfl, haccesses.trans ?_, hunwritten.trans ?_, (hseed _).trans ?_⟩ <;> decide

end Graph

end TypeFlow
