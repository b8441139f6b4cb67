import TypeFlow.Proofs.Determined

/-!
Flow typing does not hang on the order of the program.

Two runs that start from the same knowledge and meet the same assignments, in whatever order
and after however many passes each, either both fail or end with the same types: whatever one
of them enters, the other must have entered too, and for the same assignment.
-/

namespace TypeFlow

open TypeTable

/-! ### Reordered programs -/

/-- The statements in another order, also within lists and branches. -/
inductive Stmt.Reordered : List Stmt → List Stmt → Prop
  | nil : Reordered [] []
  | cons (s : Stmt) {ss ss' : List Stmt} (h : Reordered ss ss') : Reordered (s :: ss) (s :: ss')
  | swap (s s' : Stmt) (ss : List Stmt) : Reordered (s' :: s :: ss) (s :: s' :: ss)
  | trans {ss ss' ss'' : List Stmt} (h : Reordered ss ss') (h' : Reordered ss' ss'') :
    Reordered ss ss''
  | list {body body' : List Stmt} (ss : List Stmt) (h : Reordered body body') :
    Reordered (.list body :: ss) (.list body' :: ss)
  | branches (c : Expr) {t t' f f' : List Stmt} (ss : List Stmt) (ht : Reordered t t')
    (hf : Reordered f f') : Reordered (.ifElse c t f :: ss) (.ifElse c t' f' :: ss)

namespace Stmt.Reordered

variable {ss ss' us us' : List Stmt}

lemma of_perm (h : ss.Perm ss') : Reordered ss ss' := by
  induction h with
  | nil => exact .nil
  | cons s h ih => exact .cons s ih
  | swap s s' ss => exact .swap s s' ss
  | trans h h' ih ih' => exact .trans ih ih'

lemma append_left (us : List Stmt) (h : Reordered ss ss') : Reordered (us ++ ss) (us ++ ss') := by
  induction us with
  | nil => exact h
  | cons u us ih => exact .cons u ih

lemma append_right (us : List Stmt) (h : Reordered ss ss') : Reordered (ss ++ us) (ss' ++ us) := by
  induction h with
  | nil => exact .of_perm (.refl us)
  | cons s h ih => exact .cons s ih
  | swap s s' ss => exact .swap s s' (ss ++ us)
  | trans h h' ih ih' => exact .trans ih ih'
  | list ss h => exact .list (ss ++ us) h
  | branches c ss ht hf => exact .branches c (ss ++ us) ht hf

lemma append (h : Reordered ss ss') (h' : Reordered us us') :
    Reordered (ss ++ us) (ss' ++ us') := (h.append_right us).trans (h'.append_left ss')

lemma leaves_perm (h : Reordered ss ss') : (leavesOf ss).Perm (leavesOf ss') := by
  induction h with
  | nil => exact .refl _
  | cons s h ih => exact ih.append_left s.leaves
  | swap s s' ss =>
    simp only [leavesOf, ← List.append_assoc]
    exact List.perm_append_comm.append_right _
  | trans h h' ih ih' => exact ih.trans ih'
  | list ss h ih => exact ih.append_right (leavesOf ss)
  | branches c ss ht hf iht ihf => exact (iht.append ihf).append_right (leavesOf ss)

lemma accesses_perm (h : Reordered ss ss') : (accessesOf ss).Perm (accessesOf ss') := by
  induction h with
  | nil => exact .refl _
  | cons s h ih => exact ih.append_left s.accesses
  | swap s s' ss =>
    simp only [accessesOf, ← List.append_assoc]
    exact List.perm_append_comm.append_right _
  | trans h h' ih ih' => exact ih.trans ih'
  | list ss h ih => exact ih.append_right (accessesOf ss)
  | branches c ss ht hf iht ihf =>
    exact ((iht.append_left c.accesses).append ihf).append_right (accessesOf ss)

end Stmt.Reordered

/-- A block of the same kind and line with its statements in another order. -/
structure Block.Reordered (b b' : Block) : Prop where
  kind_eq : b'.kind = b.kind
  line_eq : b'.line = b.line
  stmts : Stmt.Reordered b.stmts b'.stmts

/-- The same blocks, made in another order and so under other ids, with their statements in
another order, and with whatever edges. -/
def Graph.Reordered (g h : Graph) : Prop :=
  ∃ bs, g.blocks.Perm bs ∧ List.Forall₂ Block.Reordered bs h.blocks

lemma Graph.Reordered.stmts {g h : Graph} (hr : g.Reordered h) :
    Stmt.Reordered g.stmts h.stmts := by
  obtain ⟨bs, hperm, hbs⟩ := hr
  refine .trans (.of_perm (hperm.flatMap_right Block.stmts)) ?_
  rw [Graph.stmts]
  generalize h.blocks = bs' at hbs
  clear hperm
  induction hbs with
  | nil => exact .nil
  | cons hb hbs ih => exact hb.stmts.append ih

/-! ### Runs that differ in order only -/

/-- What two runs that differ in order only have in common. -/
structure SameUpToOrder (c : Config) (g : Graph) (c' : Config) (g' : Graph) : Prop where
  hints : c.hints.Perm c'.hints
  default : c.defaultTy = c'.defaultTy
  leaves : g.leaves.Perm g'.leaves
  unwritten : ∀ x, x ∈ g.usage.unwritten ↔ x ∈ g'.usage.unwritten

namespace SameUpToOrder

variable {c c' : Config} {g g' : Graph} {t t' : TypeTable} {r r' : Typing}

lemma symm (h : SameUpToOrder c g c' g') : SameUpToOrder c' g' c g :=
  ⟨h.hints.symm, h.default.symm, h.leaves.symm, fun x => (h.unwritten x).symm⟩

lemma hintNames (h : SameUpToOrder c g c' g') : c.hintNames.Perm c'.hintNames := h.hints.map _

lemma sites (h : SameUpToOrder c g c' g') : g.sites.Perm g'.sites := h.leaves.filterMap _

lemma plain (h : SameUpToOrder c g c' g') (hg : g.Plain) : g'.Plain :=
  fun l hl => hg l (h.leaves.mem_iff.mpr hl)

lemma get?_seed (h : SameUpToOrder c g c' g') (ht : c.seed g = .ok t)
    (ht' : c'.seed g' = .ok t') : t.get? = t'.get? := by
  funext x
  refine Option.ext fun ty => ?_
  rw [get?_eq_some_iff (Config.nodup_names_of_seed ht),
    get?_eq_some_iff (Config.nodup_names_of_seed ht'), (Config.seed_eq_ok_iff.mp ht).2,
    (Config.seed_eq_ok_iff.mp ht').2]
  simp [h.hints.mem_iff, h.hintNames.mem_iff, h.unwritten, h.default]

lemma start_eq (h : SameUpToOrder c g c' g') (hn : c.hintNames.Nodup) :
    c.start g = c'.start g' := by
  obtain ⟨t, ht⟩ := (Config.exists_seed_iff (g := g)).mpr hn
  obtain ⟨t', ht'⟩ := (Config.exists_seed_iff (g := g')).mpr (h.hintNames.nodup_iff.mp hn)
  rw [Config.start, Config.start, ht, ht']
  exact h.get?_seed ht ht'

lemma determines (h : SameUpToOrder c g c' g') (hn : c.hintNames.Nodup) {x : VarName}
    (hx : c.Determines g x) : c'.Determines g' x := by
  unfold Config.Determines at hx ⊢
  rw [← h.start_eq hn]
  induction hx with
  | known hx hty => exact .known hx hty
  | site ha _ ih => exact .site (h.sites.mem_iff.mp ha) ih

lemma solvable (h : SameUpToOrder c g c' g') (hs : c.Solvable g) : c'.Solvable g' := by
  have hn : c'.hintNames.Nodup := h.hintNames.nodup_iff.mp hs.hints
  have hD {a : Assignment} (ha : a.ReadsOnly (c'.Determines g')) : a.ReadsOnly (c.Determines g) :=
    fun y hy => h.symm.determines hn (ha y hy)
  refine ⟨hn, fun l hl => hs.supported l (h.leaves.mem_iff.mpr hl), ?_, fun a ha hDa hx => ?_⟩
  · refine (hs.distinct.imp fun hd ha hb => hd (hD ha) (hD hb)).perm h.sites ?_
    exact fun hd hb ha heq => hd ha hb heq.symm
  · exact hs.unhinted a (h.sites.mem_iff.mpr ha) (hD hDa) (h.hintNames.mem_iff.mpr hx)

lemma types_le (h : SameUpToOrder c g c' g') (hg : g.Plain) (hr : c.run g = .ok r)
    (hr' : c'.run g' = .ok r') : r.types.get?.Le r'.types.get? := by
  obtain ⟨t, ht, hset, -, -⟩ := Config.run_eq_ok_iff.mp hr
  obtain ⟨t', ht', hset', -, -⟩ := Config.run_eq_ok_iff.mp hr'
  have hstart : t.get? = t'.get? := h.get?_seed ht ht'
  have hsolv : c'.Solvable g' := Config.solvable_of_run (h.plain hg) hr'
  have hreads {a : Assignment} := (Config.readsOnly_iff (a := a) (h.plain hg) hr').mpr
  refine hset.types_le hset' (hstart ▸ .refl _) h.sites.subset (fun a _ hx => ?_)
    fun a ha b hb hu hbu => hsolv.eq_of_target ha hb (hreads hu) (hreads hbu)
  rwa [mem_names_iff, hstart, ← mem_names_iff]

end SameUpToOrder

lemma Graph.Reordered.sameUpToOrder {c : Config} {g h : Graph} (hr : g.Reordered h)
    {hints : List Hint} (hp : c.hints.Perm hints) : SameUpToOrder c g { c with hints } h where
  hints := hp
  default := rfl
  leaves := hr.stmts.leaves_perm
  unwritten x := by
    have hacc := hr.stmts.accesses_perm
    unfold Graph.usage Usage.ofStmts
    rw [Usage.mem_unwritten, Usage.mem_unwritten, hacc.mem_iff, hacc.mem_iff]

/-- **Order is of no account**: over graphs without annotations and without a limit, a run
succeeds on a graph exactly if it does on the graph reordered, with its edges replaced and with
the hints in another order. Both find the same types and do the same to every leaf. -/
theorem Config.run_of_reordered {c : Config} {g h : Graph} {hints : List Hint}
    (hc : c.maxPasses = none) (hg : g.Plain) (hr : g.Reordered h) (hp : c.hints.Perm hints) :
    ((∃ r, c.run g = .ok r) ↔ ∃ r, { c with hints }.run h = .ok r) ∧
      ∀ r r', c.run g = .ok r → { c with hints }.run h = .ok r' →
        r.types.get? = r'.types.get? ∧
        ∃ f, r.graph = g.mapLeaves f ∧ r'.graph = h.mapLeaves f := by
  have hsame : SameUpToOrder c g { c with hints } h := hr.sameUpToOrder hp
  have hh : h.Plain := hsame.plain hg
  refine ⟨⟨fun ⟨r, hrun⟩ => ?_, fun ⟨r, hrun⟩ => ?_⟩, fun r r' hrun hrun' => ?_⟩
  · exact exists_run_of_solvable hc (hsame.solvable (solvable_of_run hg hrun))
  · exact exists_run_of_solvable hc (hsame.symm.solvable (solvable_of_run hh hrun))
  · have htypes : r.types.get? = r'.types.get? :=
      (hsame.types_le hg hrun hrun').antisymm (hsame.symm.types_le hh hrun' hrun)
    obtain ⟨-, -, -, hgraph, -⟩ := run_eq_ok_iff.mp hrun
    obtain ⟨-, -, -, hgraph', -⟩ := run_eq_ok_iff.mp hrun'
    exact ⟨htypes, Leaf.annotate r.types.get?, hgraph, by rw [htypes]; exact hgraph'⟩

/-- The blocks, the hints and the statements at two depths the other way round, and an edge
more. The types of the first run, found against the order in four passes, are those of the
second. -/
theorem Config.run_of_reordered_branch :
    let c : Config := ⟨[⟨"p", .number⟩, ⟨"q", .string⟩], .number, none⟩
    let g : Graph := ⟨[
      ⟨⟨0⟩, .basic, 1, [.leaf (.assign ⟨"z", .binary .add (.var "y") (.var "q")⟩)]⟩,
      ⟨⟨1⟩, .basic, 2, [.leaf .empty, .ifElse (.var "p")
        [.leaf (.assign ⟨"y", .var "x"⟩), .leaf (.assign ⟨"x", .var "p"⟩)] []]⟩], []⟩
    let h : Graph := ⟨[
      ⟨⟨0⟩, .basic, 2, [.ifElse (.var "p")
        [.leaf (.assign ⟨"x", .var "p"⟩), .leaf (.assign ⟨"y", .var "x"⟩)] [], .leaf .empty]⟩,
      ⟨⟨1⟩, .basic, 1, [.leaf (.assign ⟨"z", .binary .add (.var "y") (.var "q")⟩)]⟩],
      [⟨⟨0⟩, ⟨1⟩, .fallThrough⟩]⟩
    let hints : List Hint := [⟨"q", .string⟩, ⟨"p", .number⟩]
    let r : Typing := ⟨⟨[
      ⟨⟨0⟩, .basic, 1, [.leaf (.typed ⟨⟨"z", .binary .add (.var "y") (.var "q")⟩, .string⟩)]⟩,
      ⟨⟨1⟩, .basic, 2, [.leaf .empty, .ifElse (.var "p")
        [.leaf (.typed ⟨⟨"y", .var "x"⟩, .number⟩),
          .leaf (.typed ⟨⟨"x", .var "p"⟩, .number⟩)] []]⟩], []⟩,
      ⟨[("p", .number), ("q", .string), ("x", .number), ("y", .number), ("z", .string)]⟩,
      [1, 1, 1, 0]⟩
    c.maxPasses = none ∧ g.Plain ∧ g.Reordered h ∧ c.hints.Perm hints ∧ c.run g = .ok r ∧
      ∃ r', { c with hints }.run h = .ok r' ∧ r.types.get? = r'.types.get? := by
  intro c g h hints r
  have hg : g.Plain := by
    simp [g, Graph.Plain, Graph.leaves, Graph.stmts, Stmt.leavesOf, Stmt.leaves]
  have hr : g.Reordered h := by
    refine ⟨_, .swap _ _ _, .cons ⟨rfl, rfl, ?_⟩ (.cons ⟨rfl, rfl, .of_perm (.refl _)⟩ .nil)⟩
    exact .trans (.swap _ _ _) (.branches _ _ (.swap _ _ _) .nil)
  have hp : c.hints.Perm hints := .swap _ _ _
  have hrun : c.run g = .ok r := by decide +kernel
  obtain ⟨hok, hsame⟩ := Config.run_of_reordered (c := c) rfl hg hr hp
  obtain ⟨r', hrun'⟩ := hok.mp ⟨r, hrun⟩
  exact ⟨rfl, hg, hr, hp, hrun, r', hrun', (hsame r r' hrun hrun').1⟩

end TypeFlow
