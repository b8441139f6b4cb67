import TypeFlow.Proofs.InOrder
import TypeFlow.Proofs.Unreachable

/-!
Rebuilding a graph block by block and edge by edge.

Where nothing is turned away and nothing is changed, a transformation gives back the graph it was
given, with blocks and edges in their order. Trims only filter: blocks by a test and edges by a
test, where an edge also goes with either of its ends. So several trims come to one trim by all of
their tests, whatever their order.
-/

namespace TypeFlow

/-! ### Callbacks that let everything through -/

section Callbacks

variable {m : Type → Type} [Monad m] [LawfulMonad m] {α β : Type}

lemma mapM_congr {f f' : α → m β} {as : List α} (h : ∀ a ∈ as, f a = f' a) :
    as.mapM f = as.mapM f' := by
  induction as with
  | nil => rfl
  | cons a as ih =>
    rw [List.mapM_cons, List.mapM_cons, h a List.mem_cons_self,
      ih fun k hk => h k (List.mem_cons_of_mem a hk)]

/-- What a callback does on the side has no part in an answer that is settled beforehand. -/
lemma mapM_note (note : α → m Unit) (f : α → β) (as : List α) :
    (as.mapM fun a => do
      note a
      pure (f a)) = (do
      as.forM note
      pure (as.map f)) := by
  induction as with
  | nil => simp
  | cons a as ih =>
    rw [List.mapM_cons, ih]
    simp

end Callbacks

namespace Graph

variable {g : Graph}

lemma WellFormed.trimEdges_eq (hg : g.WellFormed) (keep : Edge → Bool) :
    g.trimEdges keep = { g with edges := g.edges.filter keep } := by
  rw [trimEdges, hg.edgesAmong_blocks]

section

variable {m : Type → Type} [Monad m] [LawfulMonad m] [MonadExceptOf Error m]

lemma modifyBlocks_copy (g : Graph) (note : Block → m Unit) :
    (g.modifyBlocks fun b => do
      note b
      pure b.stmts) = (do
      g.blocks.forM note
      pure g) := by
  rw [modifyBlocks_eq]
  simp only [bind_assoc, pure_bind]
  rw [mapM_note note fun b => b]
  simp

omit [LawfulMonad m] in
lemma connect_of_mem {e : Edge} (hs : e.source ∈ g.ids) (ht : e.target ∈ g.ids) :
    (g.connect e : m Edge) = pure e := by
  rw [connect, refusal?_eq_none_iff.mpr ⟨hs, ht⟩]

/-- No edge is refused if all edges that are asked for run between blocks. -/
lemma modifyEdges_of_mem (note : Edge → m Unit) {f : Edge → List Edge}
    (h : ∀ e ∈ g.edges, ∀ k ∈ f e, k.source ∈ g.ids ∧ k.target ∈ g.ids) :
    (g.modifyEdges fun e => do
      note e
      pure (f e)) = (do
      g.edges.forM note
      pure { g with edges := g.edges.flatMap f }) := by
  have hconnect : ∀ e ∈ g.edges, (f e).mapM (g.connect : Edge → m Edge) = pure (f e) := by
    intro e he
    rw [mapM_congr fun k hk => connect_of_mem (h e he k hk).1 (h e he k hk).2, List.mapM_pure,
      List.map_id']
  unfold modifyEdges
  simp only [bind_assoc, pure_bind]
  rw [mapM_congr fun e he => by rw [hconnect e he], mapM_note, bind_assoc]
  simp only [pure_bind, List.flatMap_def]

lemma WellFormed.modifyEdges_reconnect (hg : g.WellFormed) (note : Edge → m Unit) :
    (g.modifyEdges fun e => do
      note e
      pure [e]) = (do
      g.edges.forM note
      pure g) := by
  rw [modifyEdges_of_mem]
  · simp
  · intro e he k hk
    cases List.mem_singleton.mp hk
    exact ⟨hg.source_mem e he, hg.target_mem e he⟩

lemma editBlocks_of_pure (g : Graph) {edit : Program → m Program} (h : ∀ p, edit p = pure p) :
    g.editBlocks edit = pure g := by
  have hcopy := g.modifyBlocks_copy fun _ => (pure () : m Unit)
  simp only [pure_bind, forM_pure] at hcopy
  unfold editBlocks
  simp only [h, pure_bind, Program.ofStmts]
  exact hcopy

/-- **Nothing changed**: a graph comes back as it was, with the order of its blocks and edges, from
trims that keep everything, from a rebuild that copies the statements of each block or connects
each edge again, from an addition of no edges, and from an editor that has no rule but to let
markers pass. What the callbacks do besides, they do once for each block or edge, in order. -/
theorem rebuilt_unchanged (hg : g.WellFormed) (onBlock : Block → m Unit) (onEdge : Edge → m Unit) :
    (g.trimBlocks fun _ => true) = g ∧ (g.trimEdges fun _ => true) = g ∧
      (g.modifyBlocks fun b => do
        onBlock b
        pure b.stmts) = (do
        g.blocks.forM onBlock
        pure g) ∧
      (g.modifyEdges fun e => do
        onEdge e
        pure [e]) = (do
        g.edges.forM onEdge
        pure g) ∧
      g.addEdges [] = .ok g ∧
      g.editBlocks (Editor.ofLeaf fun
        | .marker k => (pure (.leaf (.marker k)) : m Stmt)
        | l => l.keep).editProgram = pure g := by
  refine ⟨trimBlocks_eq_self hg fun _ _ => rfl, ?_, g.modifyBlocks_copy onBlock,
    hg.modifyEdges_reconnect onEdge, ?_, ?_⟩
  · rw [hg.trimEdges_eq, List.filter_true]
  · simp [addEdges]
    rfl
  · refine g.editBlocks_of_pure fun p => ?_
    rw [← Editor.editProgram_ofLeaf_keep p]
    congr 2
    funext l
    cases l <;> rfl

/-- A marker in a branch, an edge that is there twice and one that leads back to its block. The
callbacks write down what they are called for. -/
theorem rebuilt_unchanged_noted :
    let g : Graph := ⟨[
      ⟨⟨5⟩, .entry, 1, [.ifElse (.var "c") [.leaf (.marker (.conditional (.var "c")))]
        [.list [.leaf (.assign ⟨"x", .var "y"⟩)]]]⟩,
      ⟨⟨2⟩, .basic, 1, [.leaf .empty, .leaf (.goto (.var "l"))]⟩],
      [⟨⟨5⟩, ⟨2⟩, .fallThrough⟩, ⟨⟨2⟩, ⟨2⟩, .gotoExpr⟩, ⟨⟨5⟩, ⟨2⟩, .fallThrough⟩]⟩
    let note (id : BlockId) : EStateM Error (List BlockId) Unit := modify (· ++ [id])
    let pass : Editor (EStateM Error (List BlockId)) := .ofLeaf fun
      | .marker k => pure (.leaf (.marker k))
      | l => l.keep
    g.WellFormed ∧ (g.trimBlocks fun _ => true) = g ∧ (g.trimEdges fun _ => true) = g ∧
      (g.modifyBlocks fun b => do
        note b.id
        pure b.stmts) [] = .ok g [⟨5⟩, ⟨2⟩] ∧
      (g.modifyEdges fun e => do
        note e.source
        pure [e]) [] = .ok g [⟨5⟩, ⟨2⟩, ⟨5⟩] ∧
      g.addEdges [] = .ok g ∧ g.editBlocks pass.editProgram [] = .ok g [] := by
  intro g note pass
  have hg : g.WellFormed := by decide
  obtain ⟨hblocks, hedges, hcopy, hconnect, hadd, hedit⟩ :=
    rebuilt_unchanged hg (fun b => note b.id) (fun e => note e.source)
  exact ⟨hg, hblocks, hedges, congrFun hcopy [], congrFun hconnect [], hadd, congrFun hedit []⟩

end

/-! ### Trims -/

lemma mem_ids_of_trimBlocks {p : Block → Bool} {id : BlockId} (h : id ∈ (g.trimBlocks p).ids) :
    id ∈ g.ids :=
  (List.filter_sublist.map Block.id).subset h

/-- The edges that the second trim leaves have their ends among the blocks that the first one left,
so what the first one took away is no matter. -/
lemma trimBlocks_trimBlocks (g : Graph) (p q : Block → Bool) :
    (g.trimBlocks p).trimBlocks q = g.trimBlocks fun b => p b && q b := by
  have hblocks : ((g.trimBlocks p).trimBlocks q).blocks =
      (g.trimBlocks fun b => p b && q b).blocks := by
    simp only [trimBlocks, restrict, List.filter_filter, Bool.and_comm]
  have hids : ((g.trimBlocks p).trimBlocks q).ids = (g.trimBlocks fun b => p b && q b).ids := by
    rw [ids, hblocks, ids]
  have hedges : ((g.trimBlocks p).trimBlocks q).edges =
      (g.trimBlocks fun b => p b && q b).edges := by
    rw [edges_trimBlocks, edges_trimBlocks g p, List.filter_filter, edges_trimBlocks g, ← hids]
    refine List.filter_congr fun e _ => ?_
    rw [← Bool.decide_and, decide_eq_decide]
    exact and_iff_left_of_imp fun h => ⟨mem_ids_of_trimBlocks h.1, mem_ids_of_trimBlocks h.2⟩
  exact congrArg₂ Graph.mk hblocks hedges

lemma wellFormed_trimEdges (hg : g.WellFormed) (r : Edge → Bool) : (g.trimEdges r).WellFormed := by
  rw [hg.trimEdges_eq]
  refine hg.of_sublist (.refl _) fun e he => ?_
  have hold := List.mem_of_mem_filter he
  exact ⟨hg.source_mem e hold, hg.target_mem e hold⟩

lemma WellFormed.trimEdges_trimEdges (hg : g.WellFormed) (r s : Edge → Bool) :
    (g.trimEdges r).trimEdges s = g.trimEdges fun e => r e && s e := by
  rw [(wellFormed_trimEdges hg r).trimEdges_eq, hg.trimEdges_eq, hg.trimEdges_eq]
  simp only [List.filter_filter, Bool.and_comm]

lemma WellFormed.trimEdges_trimBlocks (hg : g.WellFormed) (p : Block → Bool) (r : Edge → Bool) :
    (g.trimBlocks p).trimEdges r = (g.trimEdges r).trimBlocks p := by
  rw [(wellFormed_trimBlocks hg p).trimEdges_eq, hg.trimEdges_eq]
  simp only [trimBlocks, restrict, edgesAmong, List.filter_filter, Bool.and_comm]

/-- Edges that pass are connected again, and none of them can be refused. -/
lemma WellFormed.modifyEdges_select (hg : g.WellFormed) (r : Edge → Bool) :
    (g.modifyEdges fun e => pure (if r e then [e] else [])) =
      (.ok (g.trimEdges r) : Except Error Graph) := by
  have hselect (e : Edge) : (if r e then [e] else []) = [e].filter r := by
    rw [List.filter_singleton, Bool.cond_eq_ite]
  have hflat : (g.edges.flatMap fun e => [e].filter r) = g.edges.filter r := by
    rw [← List.filter_flatMap, List.flatMap_singleton']
  have hmodify := modifyEdges_of_mem (g := g) (fun _ => (pure () : Except Error Unit))
    (f := fun e => [e].filter r) fun e he k hk => by
      cases List.mem_singleton.mp (List.mem_of_mem_filter hk)
      exact ⟨hg.source_mem e he, hg.target_mem e he⟩
  simp only [pure_bind, forM_pure, hflat] at hmodify
  simp only [hselect, hmodify, hg.trimEdges_eq]
  rfl

/-- **The algebra of trims**: two trims of blocks are one by both tests, and so are two trims of
edges; trims of blocks and of edges can be made in either order. A trim of edges is also the rebuild
that connects again the edges that pass, and no edge is refused by it. -/
theorem trims_compose (hg : g.WellFormed) (p q : Block → Bool) (r s : Edge → Bool) :
    (g.trimBlocks p).trimBlocks q = (g.trimBlocks fun b => p b && q b) ∧
      (g.trimEdges r).trimEdges s = (g.trimEdges fun e => r e && s e) ∧
      (g.trimBlocks p).trimEdges r = (g.trimEdges r).trimBlocks p ∧
      (g.modifyEdges fun e => pure (if r e then [e] else [])) =
        (.ok (g.trimEdges r) : Except Error Graph) :=
  ⟨g.trimBlocks_trimBlocks p q, hg.trimEdges_trimEdges r s, hg.trimEdges_trimBlocks p r,
    hg.modifyEdges_select r⟩

/-- The first trim of blocks takes away one end of the loop, and the second one an end of the edge
that is there twice. -/
theorem trims_compose_loop :
    let g : Graph := ⟨[⟨⟨7⟩, .entry, 4, []⟩, ⟨⟨5⟩, .basic, 2, [.leaf (.goto (.var "l"))]⟩,
        ⟨⟨8⟩, .basic, 9, []⟩, ⟨⟨2⟩, .exit, 1, [.leaf (.assign ⟨"x", .var "y"⟩)]⟩],
      [⟨⟨7⟩, ⟨8⟩, .fallThrough⟩, ⟨⟨5⟩, ⟨2⟩, .conditionalTrue⟩, ⟨⟨8⟩, ⟨7⟩, .gotoNumber⟩,
        ⟨⟨7⟩, ⟨2⟩, .fallThrough⟩, ⟨⟨5⟩, ⟨2⟩, .conditionalTrue⟩, ⟨⟨7⟩, ⟨7⟩, .gotoNumber⟩]⟩
    let p (b : Block) : Bool := b.line < 5
    let q (b : Block) : Bool := b.kind ≠ .basic
    let r (e : Edge) : Bool := e.kind ≠ .gotoNumber
    let s (e : Edge) : Bool := e.source ≠ ⟨5⟩
    let blocks : List Block :=
      [⟨⟨7⟩, .entry, 4, []⟩, ⟨⟨2⟩, .exit, 1, [.leaf (.assign ⟨"x", .var "y"⟩)]⟩]
    g.WellFormed ∧
      (g.trimBlocks p).trimBlocks q =
        ⟨blocks, [⟨⟨7⟩, ⟨2⟩, .fallThrough⟩, ⟨⟨7⟩, ⟨7⟩, .gotoNumber⟩]⟩ ∧
      (g.trimEdges r).trimEdges s =
        ⟨g.blocks, [⟨⟨7⟩, ⟨8⟩, .fallThrough⟩, ⟨⟨7⟩, ⟨2⟩, .fallThrough⟩]⟩ ∧
      (g.trimEdges r).trimBlocks p = (g.trimBlocks p).trimEdges r ∧
      (g.modifyEdges fun e => pure (if r e then [e] else [])) =
        (.ok (g.trimEdges r) : Except Error Graph) := by
  intro g p q r s blocks
  have hg : g.WellFormed := by decide
  obtain ⟨hblocks, hedges, hswap, hmodify⟩ := trims_compose hg p q r s
  exact ⟨hg, hblocks.trans (by decide +kernel), hedges.trans (by decide +kernel), hswap.symm,
    hmodify⟩

end Graph

end TypeFlow
