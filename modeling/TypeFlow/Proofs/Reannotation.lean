import TypeFlow.Proofs.CutOff
import TypeFlow.Proofs.FixedPoint

/-!
The annotations a graph comes with do not matter to what is inferred.

A leaf without an annotation, with the right one and with a wrong one are treated in three ways
and counted in two. But where no two assignments write one name, and none a hinted name, a pass
gets past each of them, and enters the same type for it. So the runs over two graphs that differ
in annotations only go from table to table together, and end in the same pass.
-/

namespace TypeFlow

open TypeTable

/-! ### Graphs that differ in annotations only -/

lemma Leaf.isSupported_untyped (l : Leaf) : l.untyped.IsSupported ↔ l.IsSupported := by
  cases l <;> rfl

lemma Leaf.target?_untyped (l : Leaf) : l.untyped.target? = l.target? := by
  cases l <;> rfl

lemma Leaf.targets_map_untyped (ls : List Leaf) : targets (ls.map untyped) = targets ls := by
  rw [targets, List.filterMap_map]
  exact congrArg (List.filterMap · ls) (funext target?_untyped)

namespace Graph

variable {g g' : Graph}

lemma leaves_of_untyped_eq (h : g'.untyped = g.untyped) :
    g'.leaves.map Leaf.untyped = g.leaves.map Leaf.untyped := by
  have hleaves : g'.untyped.leaves = g.untyped.leaves := by rw [h]
  simpa only [untyped, leaves_mapLeaves] using hleaves

lemma forall₂_of_untyped_eq (h : g'.untyped = g.untyped) :
    List.Forall₂ (fun l l' => l'.untyped = l.untyped) g.leaves g'.leaves := by
  have hmaps : List.Forall₂ (fun k k' => k' = k) (g.leaves.map Leaf.untyped)
      (g'.leaves.map Leaf.untyped) := by
    rw [leaves_of_untyped_eq h]
    exact List.forall₂_same.mpr fun k _ => rfl
  rwa [List.forall₂_map_left_iff, List.forall₂_map_right_iff] at hmaps

lemma targets_of_untyped_eq (h : g'.untyped = g.untyped) : g'.targets = g.targets := by
  rw [targets, targets, ← Leaf.targets_map_untyped, leaves_of_untyped_eq h,
    Leaf.targets_map_untyped]

end Graph

lemma Config.seed_of_untyped_eq {c : Config} {g g' : Graph} (h : g'.untyped = g.untyped) :
    c.seed g' = c.seed g :=
  seed_congr (Graph.usage_of_untyped_eq h)

/-! ### Passes in step -/

/-- Leaves that differ in annotations only. In both lists no two assignments write one name, and
one whose target has an entry is annotated. -/
structure Twins (t : TypeTable) (ls ls' : List Leaf) : Prop where
  untyped : ls'.map Leaf.untyped = ls.map Leaf.untyped
  left : Exclusive (fun _ => True) ls t
  right : Exclusive (fun _ => True) ls' t

namespace Twins

variable {t u : TypeTable} {l l' : Leaf} {ls ls' ms ms' : List Leaf} {e : Error}

lemma exists_cons (h : Twins t (l :: ls) ls') : ∃ l' ks, ls' = l' :: ks := by
  have huntyped := h.untyped
  cases ls' with
  | nil => simp at huntyped
  | cons l' ks => exact ⟨l', ks, rfl⟩

lemma untyped_head (h : Twins t (l :: ls) (l' :: ls')) : l'.untyped = l.untyped :=
  (List.cons.inj h.untyped).1

lemma note_eq (h : Twins t (l :: ls) (l' :: ls')) : t.note l' = t.note l := by
  refine note_congr ?_
  rw [← Leaf.site?_untyped, h.untyped_head, Leaf.site?_untyped]

lemma tail (h : Twins t (l :: ls) (l' :: ls')) : Twins (t.note l) ls ls' := by
  refine ⟨(List.cons.inj h.untyped).2, h.left.note fun _ _ _ _ _ => trivial, ?_⟩
  rw [← h.note_eq]
  exact h.right.note fun _ _ _ _ _ => trivial

lemma accepted (h : Twins t (l :: ls) (l' :: ls')) (ha : l.Accepted t) : l'.Accepted t := by
  refine h.right.accepted ?_ fun _ _ _ => trivial
  rw [← Leaf.isSupported_untyped, h.untyped_head, Leaf.isSupported_untyped]
  exact ha.1

/-- A pass over the one list is matched by a pass over the other, which ends with the same
table. -/
lemma exists_sweep (h : Twins t ls ls') (hs : Sweep t ls ms u) : ∃ ms', Sweep t ls' ms' u := by
  induction hs generalizing ls' with
  | nil t =>
    obtain rfl : ls' = [] := List.map_eq_nil_iff.mp h.untyped
    exact ⟨[], .nil t⟩
  | @cons t u l ls ms ha hs ih =>
    obtain ⟨l', ks, rfl⟩ := h.exists_cons
    obtain ⟨ms', hs'⟩ := ih h.tail
    exact ⟨_, .cons (h.accepted ha) (h.note_eq ▸ hs')⟩

lemma sweep (h : Twins t ls ls') (hs : Sweep t ls ms u) (hs' : Sweep t ls' ms' u) :
    Twins u ms ms' where
  untyped := by rw [hs'.map_untyped, hs.map_untyped, h.untyped]
  left := h.left.sweep hs fun _ _ _ _ _ => trivial
  right := h.right.sweep hs' fun _ _ _ _ _ => trivial

/-- If one of the leaves stops a pass, it is not supported, and so the other is the same leaf. -/
lemma refused (h : Twins t (l :: ls) (l' :: ls')) (hr : l.Refused t e) : l'.Refused t e := by
  cases hr with
  | retyped hl hp hx =>
    have hmem := mem_names_iff.mpr ⟨_, hx⟩
    exact absurd hp (h.left.not_pending List.mem_cons_self hl trivial hmem)
  | unsupported hk =>
    have heq : l' = l := Leaf.eq_of_untyped_eq h.untyped_head (Leaf.site?_of_kindName hk)
    exact .unsupported (by rw [heq, hk])

theorem stops (h : Twins t ls ls') (hs : Stops t ls e u) : Stops t ls' e u := by
  induction hs generalizing ls' with
  | here hr =>
    obtain ⟨l', ks, rfl⟩ := h.exists_cons
    exact .here (h.refused hr)
  | later ha hs ih =>
    obtain ⟨l', ks, rfl⟩ := h.exists_cons
    exact .later (h.accepted ha) (h.note_eq ▸ ih h.tail)

variable {g g' k : Graph}

lemma typingPass (h : Twins t g.leaves g'.leaves) {p : Progress}
    (hp : g.typingPass t = (.ok (k, p), u)) :
    ∃ k' p', g'.typingPass t = (.ok (k', p'), u) ∧ p'.changed = p.changed ∧
      Twins u k.leaves k'.leaves := by
  obtain ⟨ms, hs, rfl, -, -⟩ := Graph.typingPass_eq_ok hp
  obtain ⟨ms', hs'⟩ := h.exists_sweep hs
  obtain ⟨p', hp', -⟩ := hs'.typingPass_eq
  -- either pass reports a change exactly if the table has grown
  have hchanged : p'.changed = true ↔ p.changed = true :=
    (Graph.changed_iff hp').trans (Graph.changed_iff hp).symm
  refine ⟨_, p', hp', Bool.eq_iff_iff.mpr hchanged, ?_⟩
  rw [Graph.leaves_refill hs.length_eq, Graph.leaves_refill hs'.length_eq]
  exact h.sweep hs hs'

lemma typingPass_error (h : Twins t g.leaves g'.leaves)
    (hp : g.typingPass t = (.error e, u)) : g'.typingPass t = (.error e, u) :=
  (h.stops (Graph.typingPass_eq_error hp)).typingPass_eq

end Twins

/-! ### Runs in step -/

/-- Two outcomes with the same error, or with the same table after as many passes. -/
inductive Agree : Except Error Typing → Except Error Typing → Prop
  | error (e : Error) : Agree (.error e) (.error e)
  | ok {r r' : Typing} (types : r'.types = r.types)
    (passes : r'.passes.length = r.passes.length) : Agree (.ok r) (.ok r')

/-- **Runs in step**: over graphs that differ in annotations only, passes end after the same
number of them, and agree in their outcome. -/
theorem Twins.concludes {g g' : Graph} {t : TypeTable} {done : List ℕ} {n : ℕ}
    {out : Except Error Typing} (h : Twins t g.leaves g'.leaves) (hc : Concludes g t done n out)
    (done' : List ℕ) (hdone : done'.length = done.length) :
    ∃ out', Concludes g' t done' n out' ∧ Agree out out' := by
  induction hc generalizing g' done' with
  | @failed g t u done e hp =>
    refine ⟨.error e, ?_, .error e⟩
    rw [← hdone]
    exact .failed (h.typingPass_error hp)
  | @settled g k t u done p hp hchanged =>
    obtain ⟨k', p', hp', hsame, -⟩ := h.typingPass hp
    refine ⟨.ok ⟨k', u, done' ++ [p'.modified]⟩, ?_, .ok rfl (by simp [hdone])⟩
    rw [← hdone]
    exact .settled hp' (hsame.trans hchanged)
  | @next g k t u done p n out hp hchanged hrest ih =>
    obtain ⟨k', p', hp', hsame, htwins⟩ := h.typingPass hp
    obtain ⟨out', hrest', hagree⟩ := ih htwins (done' ++ [p'.modified]) (by simp [hdone])
    exact ⟨out', .next hp' (hsame.trans hchanged) hrest', hagree⟩

namespace Config

variable {c : Config} {g g' : Graph} {t : TypeTable}

/-- The assignments of a graph in single assignment form that writes no hinted name. -/
lemma exclusive_of_seed (hssa : g.SingleAssignment) (hhints : ∀ x ∈ c.hintNames, x ∉ g.targets)
    (ht : c.seed g = .ok t) : Exclusive (fun _ => True) g.leaves t := by
  refine ⟨hssa.pairwise_sites.imp fun hne _ _ => hne, fun l hl a hs _ hx => ?_⟩
  have ha : a ∈ g.sites := Leaf.mem_sites.mpr ⟨l, hl, hs⟩
  exact absurd (Graph.target_mem_targets ha) (hhints _ (hinted_of_mem_names ht ha hx))

theorem agree_of_untyped_eq (hssa : g.SingleAssignment)
    (hhints : ∀ x ∈ c.hintNames, x ∉ g.targets) (h : g'.untyped = g.untyped) :
    Agree (c.run g) (c.run g') := by
  have hseed : c.seed g' = c.seed g := seed_of_untyped_eq h
  cases ht : c.seed g with
  | error e =>
    rw [run_of_seed_error ht, run_of_seed_error (hseed.trans ht)]
    exact .error e
  | ok t =>
    have ht' : c.seed g' = .ok t := hseed.trans ht
    have htargets : g'.targets = g.targets := Graph.targets_of_untyped_eq h
    have hssa' : g'.SingleAssignment := by rwa [Graph.SingleAssignment, htargets]
    have htwins : Twins t g.leaves g'.leaves :=
      ⟨Graph.leaves_of_untyped_eq h, exclusive_of_seed hssa hhints ht,
        exclusive_of_seed hssa' (by rwa [htargets]) ht'⟩
    obtain ⟨n, out, hc⟩ := exists_concludes g t []
    obtain ⟨out', hc', hagree⟩ := htwins.concludes hc [] rfl
    rw [run_of_seed ht, run_of_seed ht']
    by_cases hlim : ∀ k ∈ c.maxPasses, n ≤ k.toNat
    · rwa [hc.iterate_eq hlim, hc'.iterate_eq hlim]
    · -- the limit comes first, in both runs
      push Not at hlim
      obtain ⟨k, hk, hlt⟩ := hlim
      rw [hc.iterate_eq_passLimit hk hlt, hc'.iterate_eq_passLimit hk hlt]
      exact .error _

end Config

lemma Leaf.typable_annotate {known known' : Lookup} {l : Leaf} :
    (l.annotate known).Typable known' ↔ l.Typable known' := by
  rw [Typable, Typable, site?_annotate]

/-- Where a table gives an assignment a type, its annotation does not depend on the one it came
with. -/
lemma Leaf.annotate_eq_of_untyped_eq {known : Lookup} {l l' : Leaf}
    (h : l'.untyped = l.untyped) (ht : l.Typable known) :
    l'.annotate known = l.annotate known := by
  obtain ⟨a, hs, hu⟩ := ht
  have hs' : l'.site? = some a := by rw [← site?_untyped, h, site?_untyped, hs]
  rw [annotate_of_typable hs hu, annotate_of_typable hs' hu]

/-- **Annotations do not matter**: over a graph in single assignment form that writes no hinted
name, a run gives the same error whatever annotations are added, dropped or changed, or it
succeeds with the same table, entry by entry, after as many passes, and with the same annotation
wherever the table gives a type. -/
theorem Config.run_of_reannotated {c : Config} {g g' : Graph} (hssa : g.SingleAssignment)
    (hhints : ∀ x ∈ c.hintNames, x ∉ g.targets) (h : g'.untyped = g.untyped) :
    (∃ e, c.run g = .error e ∧ c.run g' = .error e) ∨
    ∃ r r', c.run g = .ok r ∧ c.run g' = .ok r' ∧ r'.types = r.types ∧
      r'.passes.length = r.passes.length ∧ r'.graph.untyped = r.graph.untyped ∧
      List.Forall₂ (fun l l' => l.Typable r.types.get? → l' = l ∧ l.Settled r.types.get?)
        r.graph.leaves r'.graph.leaves := by
  have hagree := agree_of_untyped_eq hssa hhints h
  generalize hout : c.run g = out at hagree
  generalize hout' : c.run g' = out' at hagree
  cases hagree with
  | error e => exact .inl ⟨e, rfl, rfl⟩
  | @ok r r' htypes hpasses =>
    refine .inr ⟨r, r', rfl, rfl, htypes, hpasses, ?_, ?_⟩
    · obtain ⟨-, -, -, hgraph, -⟩ := run_eq_ok_iff.mp hout
      obtain ⟨-, -, -, hgraph', -⟩ := run_eq_ok_iff.mp hout'
      rw [hgraph, hgraph', Graph.untyped_annotate, Graph.untyped_annotate, h]
    · rw [leaves_of_run hout, leaves_of_run hout', htypes, List.forall₂_map_left_iff,
        List.forall₂_map_right_iff]
      refine (Graph.forall₂_of_untyped_eq h).imp fun l l' heq ht => ?_
      have htyp : l.Typable r.types.get? := Leaf.typable_annotate.mp ht
      exact ⟨Leaf.annotate_eq_of_untyped_eq heq htyp, htyp.settled_annotate⟩

/-- No annotations, against a wrong one that is found out in the second pass, a right one that is
recorded in the first, and one on an assignment that hangs on itself. -/
theorem Config.run_of_reannotated_stale :
    let c : Config := ⟨[⟨"p", .string⟩], .number, some 3⟩
    let w : Assignment := ⟨"w", .binary .add (.var "w") (.var "q")⟩
    let g : Graph := ⟨[
      ⟨⟨0⟩, .lineStart, 1, [.leaf (.assign ⟨"y", .var "x"⟩), .list [.leaf (.assign w)]]⟩,
      ⟨⟨1⟩, .basic, 1, [.ifElse (.var "q") [.leaf (.assign ⟨"x", .var "p"⟩)] []]⟩], []⟩
    let g' : Graph := ⟨[
      ⟨⟨0⟩, .lineStart, 1, [.leaf (.typed ⟨⟨"y", .var "x"⟩, .error⟩),
        .list [.leaf (.typed ⟨w, .number⟩)]]⟩,
      ⟨⟨1⟩, .basic, 1, [.ifElse (.var "q") [.leaf (.typed ⟨⟨"x", .var "p"⟩, .string⟩)] []]⟩], []⟩
    let r : Typing := ⟨⟨[
      ⟨⟨0⟩, .lineStart, 1, [.leaf (.typed ⟨⟨"y", .var "x"⟩, .string⟩), .list [.leaf (.assign w)]]⟩,
      ⟨⟨1⟩, .basic, 1, [.ifElse (.var "q") [.leaf (.typed ⟨⟨"x", .var "p"⟩, .string⟩)] []]⟩], []⟩,
      ⟨[("p", .string), ("q", .number), ("x", .string), ("y", .string)]⟩, [1, 1, 0]⟩
    g.SingleAssignment ∧ (∀ x ∈ c.hintNames, x ∉ g.targets) ∧ g'.untyped = g.untyped ∧
      c.run g = .ok r ∧ ∃ r', c.run g' = .ok r' ∧ r'.types = r.types ∧ r'.passes.length = 3 := by
  intro c w g g' r
  have hssa : g.targets.Nodup := by decide
  have hhints : ∀ x ∈ c.hintNames, x ∉ g.targets := by decide
  have huntyped : g'.untyped = g.untyped := by decide
  have hrun : c.run g = .ok r := by decide +kernel
  refine ⟨hssa, hhints, huntyped, hrun, ?_⟩
  rcases Config.run_of_reannotated hssa hhints huntyped with
    ⟨e, he, -⟩ | ⟨s, r', hs, hr', htypes, hpasses, -, -⟩
  · rw [hrun] at he
    cases he
  · obtain rfl : r = s := Except.ok.inj (hrun.symm.trans hs)
    exact ⟨r', hr', htypes, hpasses⟩

end TypeFlow
