import TypeFlow.Editor
import TypeFlow.Graph

/-!
Transformations of graphs. Each gives a new graph; a block that survives keeps its id, its kind
and its line.
-/

namespace TypeFlow

namespace Graph

variable {m : Type → Type} [Monad m] (g : Graph)

/-- The edges between the given blocks. -/
def edgesAmong (blocks : List Block) : List Edge :=
  let ids := blocks.map Block.id
  g.edges.filter fun e => ids.contains e.source && ids.contains e.target

def restrict (blocks : List Block) : Graph := ⟨blocks, g.edgesAmong blocks⟩

/-- Keeps the blocks that pass, and the edges between them. -/
def trimBlocks (keep : Block → Bool) : Graph := g.restrict (g.blocks.filter keep)

def trimEdges (keep : Edge → Bool) : Graph :=
  { g with edges := (g.edgesAmong g.blocks).filter keep }

/-- The test is made once for every block, in the order blocks were made. -/
def trimBlocksM (keep : Block → m Bool) : m Graph := do
  let blocks ← g.blocks.filterM keep
  pure (g.restrict blocks)

def trimEdgesM (keep : Edge → m Bool) : m Graph := do
  let edges ← (g.edgesAmong g.blocks).filterM keep
  pure { g with edges }

/-- No edge of a well-formed graph is lost where all of its blocks are kept. -/
theorem WellFormed.edgesAmong_blocks {g : Graph} (hg : g.WellFormed) :
    g.edgesAmong g.blocks = g.edges := by
  refine List.filter_eq_self.mpr fun e he => ?_
  rw [Bool.and_eq_true, List.contains_iff_mem, List.contains_iff_mem]
  exact ⟨hg.source_mem e he, hg.target_mem e he⟩

theorem WellFormed.restrict_blocks {g : Graph} (hg : g.WellFormed) : g.restrict g.blocks = g := by
  rw [restrict, hg.edgesAmong_blocks]

theorem filterM_pure [LawfulMonad m] {α : Type} (keep : α → Bool) (as : List α) :
    (as.filterM fun a => (pure (keep a) : m Bool)) = pure (as.filter keep) := by
  have haux (kept : List α) :
      as.filterAuxM (fun a => (pure (keep a) : m Bool)) kept =
        pure ((as.filter keep).reverse ++ kept) := by
    induction as generalizing kept with
    | nil => rfl
    | cons a as ih => cases h : keep a <;> simp [List.filterAuxM, h, ih]
  simp [List.filterM, haux]

theorem trimBlocksM_pure [LawfulMonad m] (keep : Block → Bool) :
    (g.trimBlocksM fun b => (pure (keep b) : m Bool)) = pure (g.trimBlocks keep) := by
  simp [trimBlocksM, trimBlocks, filterM_pure]

theorem trimEdgesM_pure [LawfulMonad m] (keep : Edge → Bool) :
    (g.trimEdgesM fun e => (pure (keep e) : m Bool)) = pure (g.trimEdges keep) := by
  simp [trimEdgesM, trimEdges, filterM_pure]

/-- Gives every block the statements that `f` finds for it, in the order blocks were made. The
block to be filled is looked up by its id. -/
def modifyBlocks [MonadExceptOf Error m] (f : Block → m (List Stmt)) : m Graph := do
  let blocks ← g.blocks.mapM fun b =>
    if g.contains b.id then do
      let stmts ← f b
      pure { b with stmts }
    else throw (.unknownBlock b.id)
  pure { g with blocks }

/-- The edges could be looked through first as in a trim. Where all blocks are kept, this is of no
effect. -/
theorem WellFormed.modifyBlocks_restrict [MonadExceptOf Error m] {g : Graph} (hg : g.WellFormed)
    (f : Block → m (List Stmt)) : (g.restrict g.blocks).modifyBlocks f = g.modifyBlocks f := by
  rw [hg.restrict_blocks]

/-- The look-up never fails, since every block is in the graph it comes from. -/
theorem modifyBlocks_eq [LawfulMonad m] [MonadExceptOf Error m] (f : Block → m (List Stmt)) :
    g.modifyBlocks f = (do
      let blocks ← g.blocks.mapM fun b => do
        let stmts ← f b
        pure { b with stmts }
      pure { g with blocks }) := by
  have hmem : ∀ b ∈ g.blocks, g.contains b.id = true := by
    intro b hb
    exact List.any_eq_true.mpr ⟨b, hb, by simp⟩
  unfold modifyBlocks
  congr 1
  generalize g.blocks = bs at hmem
  induction bs with
  | nil => rfl
  | cons b bs ih =>
    rw [List.mapM_cons, List.mapM_cons, if_pos (hmem b List.mem_cons_self),
      ih fun k hk => hmem k (List.mem_cons_of_mem b hk)]

/-- Why an edge cannot be made: the first of its ends that is no block. -/
def refusal? (e : Edge) : Option Error :=
  ([e.source, e.target].find? fun id => !g.contains id).map .danglingEdge

def connect [MonadExceptOf Error m] (e : Edge) : m Edge :=
  match g.refusal? e with
  | some err => throw err
  | none => pure e

def modifyEdges [MonadExceptOf Error m] (f : Edge → m (List Edge)) : m Graph := do
  let edges ← g.edges.mapM fun e => do
    let es ← f e
    es.mapM g.connect
  pure { g with edges := edges.flatten }

def addEdges (es : List Edge) : Except Error Graph := do
  let added ← es.mapM fun e => do
    let _ ← g.block e.source
    let _ ← g.block e.target
    pure e
  pure { g with edges := g.edges ++ added }

/-- Edits the statements of each block as a program of one line, every block on its own. -/
def editBlocks [MonadExceptOf Error m] (edit : Program → m Program) : m Graph :=
  g.modifyBlocks fun b => do
    let p ← edit (.ofStmts b.stmts)
    match p.lines with
    | [l] => pure l.stmts
    | ls => throw (.malformedEdit b.id ls.length)

/-- The editor of a block has the state that `make` gives for it when its turn comes. What `make`
remembers from call to call is all that passes from one block to the next. -/
def editBlocksFresh {ρ σ ε : Type} (make : StateM ρ σ)
    (fold : Program → StateT σ (Except ε) Program) (wrap : ε → Error) : EStateM Error ρ Graph :=
  g.editBlocks fun p => do
    let s ← modifyGet make.run
    match (fold p).run' s with
    | .ok q => pure q
    | .error e => throw (wrap e)

def editBlocksWith [MonadExceptOf Error m] {α : Type} (prepare : Graph → α)
    (edit : α → Program → m Program) : m Graph :=
  g.editBlocks (edit (prepare g))

end Graph

/-! ### Connectors -/

/-- What a callback does with a connector. It asks for edges one after the other, is told of each
whether it has been made, and goes on as it sees fit. In the end it succeeds or fails, and leaves
the state for its next call. -/
inductive Wiring (σ : Type)
  | finish (s : σ)
  | fail (err : Error) (s : σ)
  | connect (e : Edge) (next : Except Error Unit → Wiring σ)

namespace Wiring

variable {σ : Type}

/-- An edge that is refused leaves the graph as it is. -/
def run : Wiring σ → Graph → EStateM Error σ Graph
  | finish s, out => do
    set s
    pure out
  | fail err s, _ => do
    set s
    throw err
  | connect e next, out =>
    match out.refusal? e with
    | some err => (next (.error err)).run out
    | none => (next (.ok ())).run { out with edges := out.edges ++ [e] }

def step (f : Edge → σ → Wiring σ) (out : Graph) (e : Edge) : EStateM Error σ Graph := do
  let s ← get
  (f e s).run out

/-- Asks for all of the edges, and fails with the first that is refused. -/
def all (s : σ) : List Edge → Wiring σ
  | [] => finish s
  | e :: es => connect e fun
    | .ok () => all s es
    | .error err => fail err s

def ofFound (f : Edge → EStateM Error σ (List Edge)) (e : Edge) (s : σ) : Wiring σ :=
  match f e s with
  | .ok es t => all t es
  | .error err t => fail err t

end Wiring

/-- Replaces every edge by the edges that a callback makes for it over a connector. -/
def Graph.rewireEdges {σ : Type} (g : Graph) (f : Edge → σ → Wiring σ) : EStateM Error σ Graph :=
  g.edges.foldlM (Wiring.step f) { g with edges := [] }

end TypeFlow
