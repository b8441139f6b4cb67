import Mathlib.Data.List.Forall2
import TypeFlow.Typing.Growth

/-!
Editing as a walk along the leaves.

An editor that changes leaves only hands each leaf in source order to the hook for its kind, and
puts what it is given in the place of the leaf. So what such an editor does is settled by what it
does to the list of leaves, whatever lists and branches the leaves stand in.
-/

namespace TypeFlow

namespace Stmt

mutual

def refill : Stmt → List Stmt → Stmt
  | .leaf _, rs => rs.headD default
  | .list body, rs => .list (refillAll body rs)
  | .ifElse c t f, rs =>
    .ifElse c (refillAll t (rs.take (leavesOf t).length))
      (refillAll f (rs.drop (leavesOf t).length))

def refillAll : List Stmt → List Stmt → List Stmt
  | [], _ => []
  | s :: ss, rs => s.refill (rs.take s.leaves.length) :: refillAll ss (rs.drop s.leaves.length)

end

mutual

def mapLeaves (f : Leaf → Leaf) : Stmt → Stmt
  | .leaf l => .leaf (f l)
  | .list body => .list (mapLeavesOf f body)
  | .ifElse c t e => .ifElse c (mapLeavesOf f t) (mapLeavesOf f e)

def mapLeavesOf (f : Leaf → Leaf) : List Stmt → List Stmt
  | [] => []
  | s :: ss => s.mapLeaves f :: mapLeavesOf f ss

end

lemma refillAll_cons {s : Stmt} {ss rs rs' : List Stmt} (h : rs.length = s.leaves.length) :
    refillAll (s :: ss) (rs ++ rs') = s.refill rs :: refillAll ss rs' := by
  rw [refillAll, List.take_left' h, List.drop_left' h]

lemma refill_ifElse {c : Expr} {t f rs rs' : List Stmt} (h : rs.length = (leavesOf t).length) :
    (ifElse c t f).refill (rs ++ rs') = ifElse c (refillAll t rs) (refillAll f rs') := by
  rw [refill, List.take_left' h, List.drop_left' h]

mutual

lemma refill_map (f : Leaf → Leaf) (s : Stmt) :
    s.refill (s.leaves.map fun l => .leaf (f l)) = s.mapLeaves f := by
  match s with
  | .leaf l => rfl
  | .list body => simp only [refill, leaves, mapLeaves, refillAll_map f body]
  | .ifElse c t e =>
    rw [leaves, List.map_append, refill_ifElse (by simp), refillAll_map f t, refillAll_map f e,
      mapLeaves]

lemma refillAll_map (f : Leaf → Leaf) (ss : List Stmt) :
    refillAll ss ((leavesOf ss).map fun l => .leaf (f l)) = mapLeavesOf f ss := by
  match ss with
  | [] => rfl
  | s :: ss =>
    rw [leavesOf, List.map_append, refillAll_cons (by simp), refill_map f s, refillAll_map f ss,
      mapLeavesOf]

end

lemma exists_append_of_length {α : Type} {as : List α} {m n : ℕ} (h : as.length = m + n) :
    ∃ bs cs, as = bs ++ cs ∧ bs.length = m ∧ cs.length = n :=
  ⟨as.take m, as.drop m, (List.take_append_drop m as).symm, by simp; omega, by simp; omega⟩

mutual

/-- Refilled with leaves, a statement has these leaves, and can be refilled as it could before. -/
lemma refill_leaves (s : Stmt) (ls : List Leaf) (h : ls.length = s.leaves.length) :
    (s.refill (ls.map .leaf)).leaves = ls ∧
      ∀ rs, (s.refill (ls.map .leaf)).refill rs = s.refill rs := by
  match s with
  | .leaf l =>
    obtain ⟨k, rfl⟩ := List.length_eq_one_iff.mp h
    exact ⟨rfl, fun rs => rfl⟩
  | .list body =>
    obtain ⟨hl, hr⟩ := refillAll_leaves body ls h
    exact ⟨by simpa [refill, leaves] using hl, fun rs => by simp [refill, hr]⟩
  | .ifElse c t f =>
    rw [leaves, List.length_append] at h
    obtain ⟨lt, lf, rfl, ht, hf⟩ := exists_append_of_length h
    obtain ⟨hlt, hrt⟩ := refillAll_leaves t lt ht
    obtain ⟨hlf, hrf⟩ := refillAll_leaves f lf hf
    rw [List.map_append, refill_ifElse (by simpa using ht)]
    exact ⟨by rw [leaves, hlt, hlf], fun rs => by simp only [refill, hlt, hrt, hrf, ht]⟩

lemma refillAll_leaves (ss : List Stmt) (ls : List Leaf) (h : ls.length = (leavesOf ss).length) :
    leavesOf (refillAll ss (ls.map .leaf)) = ls ∧
      ∀ rs, refillAll (refillAll ss (ls.map .leaf)) rs = refillAll ss rs := by
  match ss with
  | [] =>
    obtain rfl := List.length_eq_zero_iff.mp h
    exact ⟨rfl, fun rs => rfl⟩
  | s :: ss =>
    rw [leavesOf, List.length_append] at h
    obtain ⟨l, ls, rfl, hs, hss⟩ := exists_append_of_length h
    obtain ⟨hl, hr⟩ := refill_leaves s l hs
    obtain ⟨hls, hrs⟩ := refillAll_leaves ss ls hss
    rw [List.map_append, refillAll_cons (by simpa using hs)]
    exact ⟨by rw [leavesOf, hl, hls], fun rs => by simp only [refillAll, hl, hr, hrs, hs]⟩

end

end Stmt

/-! ### Steps that may fail -/

namespace EStateM

variable {ε σ α β : Type} {x : EStateM ε σ α} {f : α → EStateM ε σ β} {s t u : σ} {e : ε}

lemma bind_of_ok {a : α} (h : x s = .ok a t) : (x >>= f) s = f a t := by
  simp only [bind, EStateM.bind, h]

lemma bind_of_error (h : x s = .error e t) : (x >>= f) s = .error e t := by
  simp only [bind, EStateM.bind, h]

lemma bind_eq_error (h : (x >>= f) s = .error e u) :
    x s = .error e u ∨ ∃ a t, x s = .ok a t ∧ f a t = .error e u := by
  simp only [bind, EStateM.bind] at h
  split at h
  · exact .inr ⟨_, _, ‹_›, h⟩
  · next hx =>
    cases h
    exact .inl hx

end EStateM

/-! ### Editors -/

section Editor

variable {m : Type → Type} [Monad m]

lemma Editor.conditional_ofHooks (hooks : LeafHooks m) (c : Conditional) :
    (Editor.ofHooks hooks).conditional c = pure c.toStmt := rfl

lemma Editor.onLeaf_ofHooks (hooks : LeafHooks m) :
    (Editor.ofHooks hooks).onLeaf = hooks.onLeaf := rfl

variable [LawfulMonad m]

lemma forM_pure {α : Type} (as : List α) : (as.forM fun _ => (pure () : m Unit)) = pure () := by
  induction as with
  | nil => rfl
  | cons a as ih => simpa using ih

/-- What follows a walk along a list may count on as many results as the list is long. -/
lemma mapM_bind_congr {α β γ : Type} (f : α → m β) (as : List α) {k k' : List β → m γ}
    (h : ∀ bs, bs.length = as.length → k bs = k' bs) :
    (as.mapM f >>= k) = (as.mapM f >>= k') := by
  induction as generalizing k k' with
  | nil => simpa using h [] rfl
  | cons a as ih =>
    simp only [List.mapM_cons, bind_assoc, pure_bind]
    congr 1
    funext b
    exact ih fun bs hbs => h (b :: bs) (by simp [hbs])

section Hooks

variable (hooks : LeafHooks m)

mutual

theorem Editor.editStmt_ofHooks (s : Stmt) :
    (Editor.ofHooks hooks).editStmt s =
      s.leaves.mapM hooks.onLeaf >>= fun rs => pure (s.refill rs) := by
  match s with
  | .leaf l => simp [editStmt, onLeaf_ofHooks, Stmt.leaves, Stmt.refill]
  | .list body =>
    simp only [editStmt, editStmts_ofHooks body, bind_assoc, pure_bind, Stmt.leaves, Stmt.refill]
  | .ifElse c t e =>
    simp only [editStmt, editStmts_ofHooks t, editStmts_ofHooks e, bind_assoc, pure_bind,
      Stmt.leaves, List.mapM_append, conditional_ofHooks, Conditional.toStmt]
    refine mapM_bind_congr hooks.onLeaf _ fun rs hrs => ?_
    congr 1
    funext rs'
    rw [Stmt.refill_ifElse hrs]

theorem Editor.editStmts_ofHooks (ss : List Stmt) :
    (Editor.ofHooks hooks).editStmts ss =
      (Stmt.leavesOf ss).mapM hooks.onLeaf >>= fun rs => pure (Stmt.refillAll ss rs) := by
  match ss with
  | [] => simp [editStmts, Stmt.leavesOf, Stmt.refillAll]
  | s :: ss =>
    simp only [editStmts, editStmt_ofHooks s, editStmts_ofHooks ss, bind_assoc, pure_bind,
      Stmt.leavesOf, List.mapM_append]
    refine mapM_bind_congr hooks.onLeaf _ fun rs hrs => ?_
    congr 1
    funext rs'
    rw [Stmt.refillAll_cons hrs]

end

end Hooks

variable (f : Leaf → m Stmt)

lemma Editor.editStmts_ofLeaf (ss : List Stmt) :
    (Editor.ofLeaf f).editStmts ss =
      (Stmt.leavesOf ss).mapM f >>= fun rs => pure (Stmt.refillAll ss rs) := by
  rw [ofLeaf, editStmts_ofHooks, LeafHooks.onLeaf_ofLeaf]

/-! ### Graphs -/

def Block.leavesOf (bs : List Block) : List Leaf := Stmt.leavesOf (bs.flatMap Block.stmts)

lemma Block.leavesOf_cons (b : Block) (bs : List Block) :
    leavesOf (b :: bs) = Stmt.leavesOf b.stmts ++ leavesOf bs := by
  rw [leavesOf, List.flatMap_cons, Stmt.leavesOf_append, leavesOf]

def Block.refillAll : List Block → List Stmt → List Block
  | [], _ => []
  | b :: bs, rs =>
    { b with stmts := Stmt.refillAll b.stmts (rs.take (Stmt.leavesOf b.stmts).length) } ::
      refillAll bs (rs.drop (Stmt.leavesOf b.stmts).length)

lemma Block.refillAll_cons {b : Block} {bs : List Block} {rs rs' : List Stmt}
    (h : rs.length = (Stmt.leavesOf b.stmts).length) :
    refillAll (b :: bs) (rs ++ rs') =
      { b with stmts := Stmt.refillAll b.stmts rs } :: refillAll bs rs' := by
  rw [refillAll, List.take_left' h, List.drop_left' h]

theorem Block.mapM_editStmts_ofLeaf (bs : List Block) :
    (bs.mapM fun b => do
      let stmts ← (Editor.ofLeaf f).editStmts b.stmts
      pure { b with stmts }) =
      (leavesOf bs).mapM f >>= fun rs => pure (refillAll bs rs) := by
  induction bs with
  | nil => simp [leavesOf, Stmt.leavesOf, refillAll]
  | cons b bs ih =>
    rw [List.mapM_cons, ih, Editor.editStmts_ofLeaf, leavesOf_cons, List.mapM_append]
    simp only [bind_assoc, pure_bind]
    refine mapM_bind_congr f _ fun rs hrs => ?_
    congr 1
    funext rs'
    rw [refillAll_cons hrs]

def Graph.refill (g : Graph) (rs : List Stmt) : Graph :=
  { g with blocks := Block.refillAll g.blocks rs }

/-- **A walk along the leaves**: an editor of leaves does to a graph what it does to the list of
all leaves. -/
theorem Graph.modifyBlocks_ofLeaf [MonadExceptOf Error m] (g : Graph) :
    (g.modifyBlocks fun b => (Editor.ofLeaf f).editStmts b.stmts) =
      g.leaves.mapM f >>= fun rs => pure (g.refill rs) := by
  rw [modifyBlocks_eq, Block.mapM_editStmts_ofLeaf]
  simp only [bind_assoc, pure_bind]
  rfl

end Editor

lemma Block.refillAll_leaves (bs : List Block) (ls : List Leaf)
    (h : ls.length = (leavesOf bs).length) :
    leavesOf (refillAll bs (ls.map .leaf)) = ls ∧
      ∀ rs, refillAll (refillAll bs (ls.map .leaf)) rs = refillAll bs rs := by
  induction bs generalizing ls with
  | nil =>
    obtain rfl := List.length_eq_zero_iff.mp h
    exact ⟨rfl, fun rs => rfl⟩
  | cons b bs ih =>
    rw [leavesOf_cons, List.length_append] at h
    obtain ⟨l, ls, rfl, hb, hbs⟩ := Stmt.exists_append_of_length h
    obtain ⟨hl, hr⟩ := Stmt.refillAll_leaves b.stmts l hb
    obtain ⟨hls, hrs⟩ := ih ls hbs
    rw [List.map_append, refillAll_cons (by simpa using hb)]
    exact ⟨by rw [leavesOf_cons, hl, hls], fun rs => by simp only [refillAll, hl, hr, hrs, hb]⟩

namespace Graph

variable (g : Graph)

def mapLeaves (f : Leaf → Leaf) : Graph :=
  { g with blocks := g.blocks.map fun b => { b with stmts := Stmt.mapLeavesOf f b.stmts } }

variable {g}

lemma leaves_refill {ls : List Leaf} (h : ls.length = g.leaves.length) :
    (g.refill (ls.map .leaf)).leaves = ls :=
  (Block.refillAll_leaves g.blocks ls h).1

lemma refill_refill {ls : List Leaf} (h : ls.length = g.leaves.length) (rs : List Stmt) :
    (g.refill (ls.map .leaf)).refill rs = g.refill rs := by
  rw [refill, refill, refill, (Block.refillAll_leaves g.blocks ls h).2]

lemma refill_map (f : Leaf → Leaf) :
    g.refill ((g.leaves.map f).map .leaf) = g.mapLeaves f := by
  have h (bs : List Block) : Block.refillAll bs (((Block.leavesOf bs).map f).map .leaf) =
      bs.map fun b => { b with stmts := Stmt.mapLeavesOf f b.stmts } := by
    induction bs with
    | nil => rfl
    | cons b bs ih =>
      rw [Block.leavesOf_cons, List.map_append, List.map_append,
        Block.refillAll_cons (by simp), ih, List.map_map]
      simp only [List.map_cons, Function.comp_def, Stmt.refillAll_map]
  rw [refill, mapLeaves, ← h]
  rfl

lemma leaves_mapLeaves (f : Leaf → Leaf) : (g.mapLeaves f).leaves = g.leaves.map f := by
  rw [← refill_map, leaves_refill (by simp)]

lemma mapLeaves_mapLeaves (f f' : Leaf → Leaf) :
    (g.mapLeaves f).mapLeaves f' = g.mapLeaves (f' ∘ f) :=
  calc (g.mapLeaves f).mapLeaves f'
    _ = (g.mapLeaves f).refill (((g.mapLeaves f).leaves.map f').map .leaf) := (refill_map f').symm
    _ = (g.refill ((g.leaves.map f).map .leaf)).refill (((g.leaves.map f).map f').map .leaf) := by
      rw [leaves_mapLeaves, refill_map]
    _ = g.refill ((g.leaves.map (f' ∘ f)).map .leaf) := by
      rw [refill_refill (by simp), ← List.map_map (f := f)]
    _ = g.mapLeaves (f' ∘ f) := refill_map (f' ∘ f)

end Graph

end TypeFlow
