import TypeFlow.Proofs.Settling

/-!
Flow typing changes nothing but annotations.

Less its annotations, a graph comes out of a run as it went in: the same blocks in the same
order, each with the same statements, and the same edges. Which variables are read and written
is not a matter of annotations, so it stays as well.
-/

namespace TypeFlow

/-! ### Leaves -/

namespace Leaf

/-- The leaf less its annotation. -/
def untyped : Leaf → Leaf
  | .typed a => .assign a.toAssignment
  | l => l

variable {known : Lookup} {l k : Leaf}

lemma untyped_of_site {a : Assignment} (h : l.site? = some a) : l.untyped = .assign a := by
  cases l with
  | assign b | typed b =>
    cases h
    rfl
  | _ => cases h

lemma untyped_of_none (h : l.site? = none) : l.untyped = l := by
  cases l with
  | typed b => cases h
  | _ => rfl

@[simp] lemma site?_untyped (l : Leaf) : l.untyped.site? = l.site? := by
  cases l <;> rfl

@[simp] lemma accesses_untyped (l : Leaf) : l.untyped.accesses = l.accesses := by
  cases l <;> rfl

@[simp] lemma untyped_annotate (l : Leaf) : (l.annotate known).untyped = l.untyped := by
  cases hs : l.site? with
  | none => rw [annotate_of_none hs]
  | some a =>
    have hs' : (l.annotate known).site? = some a := by rw [site?_annotate, hs]
    rw [untyped_of_site hs, untyped_of_site hs']

/-- Leaves that make no assignment have no annotation to differ in. -/
lemma eq_of_untyped_eq (h : k.untyped = l.untyped) (hs : l.site? = none) : k = l := by
  have hk : k.site? = none := by rw [← site?_untyped, h, site?_untyped, hs]
  rw [← untyped_of_none hk, h, untyped_of_none hs]

end Leaf

lemma Sweep.map_untyped {t u : TypeTable} {ls ls' : List Leaf} (h : Sweep t ls ls' u) :
    ls'.map Leaf.untyped = ls.map Leaf.untyped := by
  induction h with
  | nil t => rfl
  | cons ha h ih => rw [List.map_cons, List.map_cons, ih, Leaf.untyped_annotate]

/-! ### Reads and writes -/

namespace Stmt

variable {f : Leaf → Leaf}

mutual

lemma accesses_mapLeaves (hf : ∀ l, (f l).accesses = l.accesses) (s : Stmt) :
    (s.mapLeaves f).accesses = s.accesses := by
  match s with
  | .leaf l => exact hf l
  | .list body => exact accessesOf_mapLeavesOf hf body
  | .ifElse c t e =>
    simp only [mapLeaves, accesses, accessesOf_mapLeavesOf hf t, accessesOf_mapLeavesOf hf e]

lemma accessesOf_mapLeavesOf (hf : ∀ l, (f l).accesses = l.accesses) (ss : List Stmt) :
    accessesOf (mapLeavesOf f ss) = accessesOf ss := by
  match ss with
  | [] => rfl
  | s :: ss =>
    simp only [mapLeavesOf, accessesOf, accesses_mapLeaves hf s, accessesOf_mapLeavesOf hf ss]

end

lemma mapLeavesOf_append (ss us : List Stmt) :
    mapLeavesOf f (ss ++ us) = mapLeavesOf f ss ++ mapLeavesOf f us := by
  induction ss with
  | nil => rfl
  | cons s ss ih => simp only [List.cons_append, mapLeavesOf, ih]

end Stmt

/-! ### Graphs -/

namespace Graph

lemma stmts_mapLeaves (g : Graph) (f : Leaf → Leaf) :
    (g.mapLeaves f).stmts = Stmt.mapLeavesOf f g.stmts := by
  unfold stmts mapLeaves
  induction g.blocks with
  | nil => rfl
  | cons b bs ih =>
    simp only [List.map_cons, List.flatMap_cons] at ih ⊢
    rw [ih, Stmt.mapLeavesOf_append]

/-- Leaves that are read and written alike can stand for one another anywhere. -/
lemma accessesOf_mapLeaves {f : Leaf → Leaf} (hf : ∀ l, (f l).accesses = l.accesses) (g : Graph) :
    Stmt.accessesOf (g.mapLeaves f).stmts = Stmt.accessesOf g.stmts := by
  rw [stmts_mapLeaves, Stmt.accessesOf_mapLeavesOf hf]

def untyped (g : Graph) : Graph := g.mapLeaves Leaf.untyped

lemma usage_untyped (g : Graph) : g.untyped.usage = g.usage :=
  congrArg Usage.ofAccesses (g.accessesOf_mapLeaves Leaf.accesses_untyped)

lemma untyped_annotate (g : Graph) (known : Lookup) : (g.annotate known).untyped = g.untyped := by
  have hleaf : Leaf.untyped ∘ Leaf.annotate known = Leaf.untyped := by
    funext l
    exact l.untyped_annotate
  rw [untyped, annotate, mapLeaves_mapLeaves, hleaf, untyped]

lemma usage_of_untyped_eq {g g' : Graph} (h : g'.untyped = g.untyped) : g'.usage = g.usage := by
  rw [← usage_untyped, h, usage_untyped]

lemma usage_annotate (g : Graph) (known : Lookup) : (g.annotate known).usage = g.usage :=
  usage_of_untyped_eq (g.untyped_annotate known)

/-- Where a block stands and what it is. -/
def headers (g : Graph) : List (BlockId × BlockKind × UInt64) :=
  g.blocks.map fun b => (b.id, b.kind, b.line)

def untypedStmts (g : Graph) : List (List Stmt) :=
  g.blocks.map fun b => Stmt.mapLeavesOf Leaf.untyped b.stmts

lemma headers_untyped (g : Graph) : g.untyped.headers = g.headers := by
  simp [headers, untyped, mapLeaves]

lemma map_stmts_untyped (g : Graph) : g.untyped.blocks.map Block.stmts = g.untypedStmts := by
  simp [untypedStmts, untyped, mapLeaves]

end Graph

/-- **Nothing but annotations**: a run that succeeds gives back the blocks in their order, each
under its id, with its kind and its line, the edges, and the statements of each block up to
annotations. So the same variables are read and written, and first met in the same order. -/
theorem Config.run_keeps_untyped {c : Config} {g : Graph} {r : Typing} (h : c.run g = .ok r) :
    r.graph.headers = g.headers ∧ r.graph.edges = g.edges ∧
      r.graph.untypedStmts = g.untypedStmts ∧ r.graph.usage = g.usage := by
  obtain ⟨-, -, -, hgraph, -⟩ := run_eq_ok_iff.mp h
  have huntyped : r.graph.untyped = g.untyped := by rw [hgraph, Graph.untyped_annotate]
  refine ⟨?_, ?_, ?_, ?_⟩
  · rw [← Graph.headers_untyped, huntyped, Graph.headers_untyped]
  · have hedges : r.graph.untyped.edges = g.untyped.edges := by rw [huntyped]
    exact hedges
  · rw [← Graph.map_stmts_untyped, huntyped, Graph.map_stmts_untyped]
  · rw [hgraph, Graph.usage_annotate]

/-- Statements in a list and in both branches of a conditional, one of them with a stale
annotation, are annotated over three passes; the blocks form a loop. -/
theorem Config.run_keeps_untyped_loop :
    let g : Graph := ⟨[
      ⟨⟨7⟩, .entry, 1, [.list [.leaf (.assign ⟨"z", .var "y"⟩)], .leaf (.goto (.var "k"))]⟩,
      ⟨⟨3⟩, .lineStart, 2, [.ifElse (.var "k") [.leaf (.typed ⟨⟨"y", .var "k"⟩, .string⟩)]
        [.leaf (.assign ⟨"w", .binary .divide (.var "y") (.var "k")⟩)]]⟩],
      [⟨⟨7⟩, ⟨3⟩, .fallThrough⟩, ⟨⟨3⟩, ⟨7⟩, .gotoExpr⟩]⟩
    let h : Graph := ⟨[
      ⟨⟨7⟩, .entry, 1, [.list [.leaf (.typed ⟨⟨"z", .var "y"⟩, .number⟩)],
        .leaf (.goto (.var "k"))]⟩,
      ⟨⟨3⟩, .lineStart, 2, [.ifElse (.var "k") [.leaf (.typed ⟨⟨"y", .var "k"⟩, .number⟩)]
        [.leaf (.typed ⟨⟨"w", .binary .divide (.var "y") (.var "k")⟩, ⟨true, false, true⟩⟩)]]⟩],
      [⟨⟨7⟩, ⟨3⟩, .fallThrough⟩, ⟨⟨3⟩, ⟨7⟩, .gotoExpr⟩]⟩
    let r : Typing := ⟨h, ⟨[("k", .number), ("y", .number), ("w", .number), ("z", .number)]⟩,
      [2, 1, 0]⟩
    Config.default.run g = .ok r ∧ h.untypedStmts = g.untypedStmts ∧
      h.usage = ⟨["y", "k"], ["z", "y", "w"]⟩ := by
  intro g h r
  have hrun : Config.default.run g = .ok r := by decide +kernel
  obtain ⟨-, -, hstmts, husage⟩ := Config.run_keeps_untyped hrun
  refine ⟨hrun, hstmts, ?_⟩
  have hg : g.usage = ⟨["y", "k"], ["z", "y", "w"]⟩ := by decide +kernel
  rw [← hg]
  exact husage

end TypeFlow
