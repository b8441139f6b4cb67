import TypeFlow.Proofs.InOrder
import TypeFlow.Typing.Run

/-!
Visiting against editing.

An editor goes through statements to change them, a visitor to look at them. Flow typing does
both: it edits what it types, and it looks for what is read and written beforehand and for what to
report in the end. So nothing may be met by one of the two only. Here the hooks of any editor and
of any visitor keep a log of what they are handed, and the logs agree.
-/

namespace TypeFlow

/-! ### Names that are read and written -/

section Names

variable {m : Type → Type} [Monad m] [LawfulMonad m] (read write : VarName → m Unit)

def Access.report (read write : VarName → m Unit) : Access → m Unit
  | .read x => read x
  | .write x => write x

lemma Expr.visit_eq (e : Expr) : e.visit read = forM e.reads read := by
  induction e with
  | number | string => rfl
  | var x => simp [visit, reads]
  | paren e ih | unary _ e ih => exact ih
  | binary _ l r ihl ihr => rw [visit, ihl, ihr, reads, List.forM_append]

lemma Expr.visit_eq_report (e : Expr) :
    e.visit read = forM e.accesses (Access.report read write) := by
  rw [visit_eq, accesses, List.forM_map]
  rfl

lemma Visitor.visitLeaf_names (l : Leaf) :
    (names read write).visitLeaf l = forM l.accesses (Access.report read write) := by
  cases l with
  | empty => rfl
  | assign a | typed a | compound a =>
    simp [visitLeaf, names, Leaf.accesses, Access.report, Expr.visit_eq_report read write]
  | eval e | goto e => exact e.visit_eq_report read write
  | marker k =>
    cases k with
    | conditional e => exact e.visit_eq_report read write

namespace Visitor

mutual

lemma visitStmt_names (s : Stmt) :
    (names read write).visitStmt s = forM s.accesses (Access.report read write) := by
  match s with
  | .leaf l => exact visitLeaf_names read write l
  | .list body => exact visitStmts_names body
  | .ifElse c t f =>
    rw [visitStmt, visitStmts_names t, visitStmts_names f, Stmt.accesses, List.forM_append,
      List.forM_append, bind_assoc, ← c.visit_eq_report]
    rfl

/-- **Usage is what a visitor reports**: the reads and writes of statements are those that the
visitor of names is told of, in the order it is told of them. -/
theorem visitStmts_names (ss : List Stmt) :
    (names read write).visitStmts ss = forM (Stmt.accessesOf ss) (Access.report read write) := by
  match ss with
  | [] => rfl
  | s :: ss =>
    rw [visitStmts, visitStmt_names s, visitStmts_names ss, Stmt.accessesOf, List.forM_append]

end

lemma visitStmts_recorder (ss : List Stmt) :
    (recorder.visitStmts ss).run [] = ((), Stmt.accessesOf ss) := by
  have h (as told : List Access) : (forM as (Access.report (fun x => modify (· ++ [.read x]))
      fun x => modify (· ++ [.write x])) : StateM (List Access) Unit).run told =
        ((), told ++ as) := by
    induction as generalizing told with
    | nil =>
      rw [List.append_nil]
      rfl
    | cons a as ih =>
      rw [List.forM_cons, StateT.run_bind]
      cases a <;> exact (ih _).trans (congrArg ((), ·) (List.append_cons told _ as).symm)
  rw [recorder, visitStmts_names, h, List.nil_append]

end Visitor

end Names

/-! ### Assignments that are reported -/

namespace Leaf

/-- The assignment of a leaf that has no annotation. -/
def plain? : Leaf → Option Assignment
  | .assign a => some a
  | _ => none

def plainSites (ls : List Leaf) : List Assignment := ls.filterMap plain?

/-- The assignment of a leaf that has an annotation. -/
def annotated? : Leaf → Option TypedAssignment
  | .typed a => some a
  | _ => none

def annotatedSites (ls : List Leaf) : List TypedAssignment := ls.filterMap annotated?

end Leaf

namespace Visitor

section Leaves

variable {m : Type → Type} [Monad m] [LawfulMonad m] {v : Visitor m}

mutual

lemma visitStmt_eq_forM (hv : ∀ e, v.expr e = pure ()) (s : Stmt) :
    v.visitStmt s = forM s.leaves v.visitLeaf := by
  match s with
  | .leaf l => simp [visitStmt, Stmt.leaves]
  | .list body => exact visitStmts_eq_forM hv body
  | .ifElse c t f =>
    rw [visitStmt, hv, pure_bind, visitStmts_eq_forM hv t, visitStmts_eq_forM hv f, Stmt.leaves,
      List.forM_append]

/-- A visitor that passes over expressions walks along the leaves. -/
lemma visitStmts_eq_forM (hv : ∀ e, v.expr e = pure ()) (ss : List Stmt) :
    v.visitStmts ss = forM (Stmt.leavesOf ss) v.visitLeaf := by
  match ss with
  | [] => rfl
  | s :: ss =>
    rw [visitStmts, visitStmt_eq_forM hv s, visitStmts_eq_forM hv ss, Stmt.leavesOf,
      List.forM_append]

end

end Leaves

lemma collector_expr (e : Expr) : collector.expr e = pure () :=
  (e.visit_eq _).trans (forM_pure e.reads)

lemma visitLeaf_collector (l : Leaf) (as : List Assignment) (ts : List TypedAssignment) :
    (collector.visitLeaf l).run (as, ts) =
      ((), as ++ l.plain?.toList, ts ++ l.annotated?.toList) := by
  have hpass {x : StateM (List Assignment × List TypedAssignment) Unit} (hx : x = pure ()) :
      x.run (as, ts) = ((), as ++ [], ts ++ []) := by
    rw [hx, List.append_nil, List.append_nil]
    rfl
  cases l with
  | assign a =>
    simp only [Leaf.annotated?, Option.toList_none, List.append_nil]
    rfl
  | typed a =>
    simp only [Leaf.plain?, Option.toList_none, List.append_nil]
    rfl
  | empty => exact hpass rfl
  | eval e | goto e => exact hpass (collector_expr e)
  | compound a =>
    -- the target is read and written without effect
    refine hpass (Eq.trans ?_ (collector_expr a.value))
    simp [visitLeaf, collector, names]
  | marker k =>
    cases k with
    | conditional e => exact hpass (collector_expr e)

lemma forM_collector (ls : List Leaf) (as : List Assignment) (ts : List TypedAssignment) :
    (forM ls collector.visitLeaf : StateM _ Unit).run (as, ts) =
      ((), as ++ Leaf.plainSites ls, ts ++ Leaf.annotatedSites ls) := by
  induction ls generalizing as ts with
  | nil =>
    simp only [Leaf.plainSites, Leaf.annotatedSites, List.filterMap_nil, List.append_nil]
    rfl
  | cons l ls ih =>
    rw [List.forM_cons, StateT.run_bind, visitLeaf_collector]
    refine (ih _ _).trans ?_
    rw [List.append_assoc, List.append_assoc]
    cases l <;> rfl

end Visitor

/-- The assignments that are collected are those among the leaves. -/
lemma Typing.assignments_eq (r : Typing) : r.assignments =
    (Leaf.plainSites r.graph.leaves, Leaf.annotatedSites r.graph.leaves) := by
  rw [assignments, Visitor.visitStmts_eq_forM Visitor.collector_expr, Visitor.forM_collector]
  rfl

/-! ### What a visitor is handed -/

/-- Visitors have a hook for leaves of this kind. -/
def Leaf.isVisited : Leaf → Bool
  | .assign _ | .typed _ | .compound _ | .marker _ => true
  | .empty | .eval _ | .goto _ => false

namespace Visitor

section Log

variable {m : Type → Type} [Monad m] (v : Visitor m)

/-- The hooks for assignments and markers keep the log. -/
def logged : Visitor (StateT (List Leaf) m) where
  assign a := noting (.assign a) (v.assign a)
  typed a := noting (.typed a) (v.typed a)
  compound a := noting (.compound a) (v.compound a)
  marker k := noting (.marker k) (v.marker k)
  expr e := v.expr e

variable [LawfulMonad m]

lemma visitLeaf_logged (l : Leaf) (log : List Leaf) :
    (v.logged.visitLeaf l).run log =
      v.visitLeaf l >>= fun _ => pure ((), log ++ [l].filter Leaf.isVisited) := by
  cases l with
  | assign | typed | compound | marker => exact run_noting _ _ log
  | empty | eval | goto => simp [visitLeaf, logged, Leaf.isVisited]

mutual

lemma visitStmt_logged (s : Stmt) (log : List Leaf) :
    (v.logged.visitStmt s).run log =
      v.visitStmt s >>= fun _ => pure ((), log ++ s.leaves.filter Leaf.isVisited) := by
  match s with
  | .leaf l => exact v.visitLeaf_logged l log
  | .list body => exact visitStmts_logged body log
  | .ifElse c t f =>
    have htest : (v.logged.expr c).run log = v.expr c >>= fun _ => pure ((), log) := rfl
    simp only [visitStmt, StateT.run_bind, htest, visitStmts_logged t, visitStmts_logged f,
      bind_assoc, pure_bind, Stmt.leaves, List.filter_append, List.append_assoc]

/-- The log holds the leaves for which there are hooks in source order, whatever the hooks do, and
keeping it changes nothing. -/
lemma visitStmts_logged (ss : List Stmt) (log : List Leaf) :
    (v.logged.visitStmts ss).run log =
      v.visitStmts ss >>= fun _ => pure ((), log ++ (Stmt.leavesOf ss).filter Leaf.isVisited) := by
  match ss with
  | [] => simp [visitStmts, Stmt.leavesOf]
  | s :: ss =>
    simp only [visitStmts, StateT.run_bind, visitStmt_logged s, visitStmts_logged ss, bind_assoc,
      pure_bind, Stmt.leavesOf, List.filter_append, List.append_assoc]

end

end Log

end Visitor

/-! ### Agreement -/

/-- Whatever its state, each hook succeeds and gives back what it was handed. -/
structure LeafHooks.Keeping {ε σ : Type} (hooks : LeafHooks (EStateM ε σ)) : Prop where
  empty (s : σ) : ∃ t, hooks.empty s = .ok (.leaf .empty) t
  assign (a : Assignment) (s : σ) : ∃ t, hooks.assign a s = .ok (.leaf (.assign a)) t
  typed (a : TypedAssignment) (s : σ) : ∃ t, hooks.typed a s = .ok (.leaf (.typed a)) t
  compound (a : CompoundAssignment) (s : σ) : ∃ t, hooks.compound a s = .ok (.leaf (.compound a)) t
  eval (e : Expr) (s : σ) : ∃ t, hooks.eval e s = .ok (.leaf (.eval e)) t
  goto (e : Expr) (s : σ) : ∃ t, hooks.goto e s = .ok (.leaf (.goto e)) t
  marker (k : Marker) (s : σ) : ∃ t, hooks.marker k s = .ok (.leaf (.marker k)) t

section Keeping

variable {ε σ : Type} {hooks : LeafHooks (EStateM ε σ)}

lemma LeafHooks.Keeping.onLeaf (h : hooks.Keeping) (l : Leaf) (s : σ) :
    ∃ t, hooks.onLeaf l s = .ok (.leaf l) t := by
  cases l with
  | empty => exact h.empty s
  | assign a => exact h.assign a s
  | typed a => exact h.typed a s
  | compound a => exact h.compound a s
  | eval e => exact h.eval e s
  | goto e => exact h.goto e s
  | marker k => exact h.marker k s

lemma LeafHooks.Keeping.mapM_eq (h : hooks.Keeping) (ls : List Leaf) (s : σ) :
    ∃ t, ls.mapM hooks.onLeaf s = .ok (ls.map .leaf) t := by
  induction ls generalizing s with
  | nil => exact ⟨s, rfl⟩
  | cons l ls ih =>
    obtain ⟨t, hl⟩ := h.onLeaf l s
    obtain ⟨u, hls⟩ := ih t
    refine ⟨u, ?_⟩
    rw [List.mapM_cons, EStateM.bind_of_ok hl, EStateM.bind_of_ok hls]
    rfl

lemma Editor.editStmts_of_keeping (h : hooks.Keeping) (ss : List Stmt) (s : σ) :
    ∃ t, (ofHooks hooks).editStmts ss s = .ok ss t := by
  obtain ⟨t, ht⟩ := h.mapM_eq (Stmt.leavesOf ss) s
  refine ⟨t, ?_⟩
  rw [editStmts_ofHooks, EStateM.bind_of_ok ht, ← (Stmt.filledAll_self ss).eq_refillAll.2]
  rfl

end Keeping

namespace Visitor

/-- **Editing and visiting meet the same leaves**: let the hooks of an editor give back whatever
they are handed, with any state of their own, and let a visitor do whatever it likes. Then the edit
goes through and changes nothing, and of what its hooks note the assignments of the three sorts and
the markers are what the hooks of the visitor note, each as often and in the same order, at any
depth of lists and branches. All that the edit was handed are the leaves, which reports are drawn
from. -/
theorem agrees_with_editor {ε σ τ : Type} (hooks : LeafHooks (EStateM ε σ)) (hkeep : hooks.Keeping)
    (v : Visitor (StateM τ)) (ss : List Stmt) (s : σ) (x : τ) :
    ∃ calls t y,
      ((Editor.ofHooks hooks.logged).editStmts ss).run [] s = .ok (ss, calls) t ∧
      ((v.logged.visitStmts ss).run []).run x = (((), calls.filter Leaf.isVisited), y) ∧
      calls = Stmt.leavesOf ss ∧
      (Editor.ofHooks hooks).editStmts ss s = .ok ss t ∧ (v.visitStmts ss).run x = ((), y) := by
  obtain ⟨t, ht⟩ := Editor.editStmts_of_keeping hkeep ss s
  refine ⟨Stmt.leavesOf ss, t, ((v.visitStmts ss).run x).2, ?_, ?_, rfl, ht, rfl⟩
  · rw [Editor.editStmts_logged, EStateM.bind_of_ok ht]
    rfl
  · rw [visitStmts_logged]
    rfl

/-- The editor counts assignments by ones and everything else by hundreds, and the visitor lists the
names that are read. Among the leaves are an empty statement, an expression and a jump, which the
visitor has no hooks for, and one assignment stands there twice. -/
theorem agrees_with_editor_nested :
    let keep (weight : ℕ) (l : Leaf) : EStateM Error ℕ Stmt := fun n => .ok (.leaf l) (n + weight)
    let hooks : LeafHooks (EStateM Error ℕ) :=
      ⟨keep 100 .empty, fun a => keep 1 (.assign a), fun a => keep 1 (.typed a),
        fun a => keep 1 (.compound a), fun e => keep 100 (.eval e), fun e => keep 100 (.goto e),
        fun k => keep 100 (.marker k)⟩
    let reads : Visitor (StateM (List VarName)) :=
      names (fun x => modify (· ++ [x])) fun _ => pure ()
    let a : Leaf := .assign ⟨"x", .var "k"⟩
    let b : Leaf := .typed ⟨⟨"y", .var "x"⟩, .number⟩
    let c : Leaf := .compound ⟨"x", .add, .var "y"⟩
    let k : Leaf := .marker (.conditional (.var "d"))
    let ss : List Stmt := [.leaf .empty, .leaf a,
      .ifElse (.var "d") [.list [.leaf c, .leaf (.goto (.var "k"))]]
        [.ifElse (.var "k") [] [.leaf b, .leaf (.eval (.var "x"))], .leaf a],
      .leaf k]
    hooks.Keeping ∧
      ((Editor.ofHooks hooks.logged).editStmts ss).run [] 0 =
        .ok (ss, [.empty, a, c, .goto (.var "k"), b, .eval (.var "x"), a, k]) 404 ∧
      ((reads.logged.visitStmts ss).run []).run [] =
        (((), [a, c, b, a, k]), ["k", "d", "x", "y", "k", "k", "x", "x", "k", "d"]) := by
  intro keep hooks reads a b c k ss
  have hkeep : hooks.Keeping :=
    ⟨fun _ => ⟨_, rfl⟩, fun _ _ => ⟨_, rfl⟩, fun _ _ => ⟨_, rfl⟩, fun _ _ => ⟨_, rfl⟩,
      fun _ _ => ⟨_, rfl⟩, fun _ _ => ⟨_, rfl⟩, fun _ _ => ⟨_, rfl⟩⟩
  obtain ⟨calls, n, xs, hedit, hvisit, rfl, hn, hxs⟩ :=
    agrees_with_editor hooks hkeep reads ss 0 []
  cases hn
  cases hxs
  exact ⟨hkeep, hedit, hvisit⟩

end Visitor

end TypeFlow
