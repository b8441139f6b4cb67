import TypeFlow.Proofs.Determined
import TypeFlow.Proofs.Rerun
import TypeFlow.Proofs.Visiting

/-!
The result of flow typing as a fixed point.

The annotations of a run are made by different tables in different passes. All the same the last
table bears out every one of them: what is annotated has the type it is annotated with, what is
left has none, and a further pass finds nothing to do. So the result can be read off the final
table alone, and so can the reports on what could not be typed and on what may fault.
-/

namespace TypeFlow

open TypeTable

/-! ### One more pass -/

/-- A sweep over what passes have made, with the table they ended with, changes nothing. -/
lemma Settles.sweep_self {t u : TypeTable} {ls ls' : List Leaf} {ns : List ℕ}
    (h : Settles t ls ls' u ns) : Sweep u ls' ls' u := by
  induction h with
  | done h =>
    have hagain := h.again (.refl _)
    rwa [← h.eq_map_annotate rfl] at hagain
  | next h hne h' ih => exact ih

lemma Graph.refill_annotate (g : Graph) (known : Lookup) :
    (g.annotate known).refill ((g.leaves.map (Leaf.annotate known)).map .leaf) =
      g.annotate known := by
  rw [annotate, ← refill_map, refill_refill (by simp)]

lemma Progress.eq_none {p : Progress} (h : p.modified + p.recorded = 0) : p = .none := by
  obtain ⟨modified, recorded⟩ := p
  simp only [Progress.none, Progress.mk.injEq]
  simp only at h
  omega

namespace Config

variable {c : Config} {g : Graph} {r : Typing}

lemma leaves_of_run (h : c.run g = .ok r) :
    r.graph.leaves = g.leaves.map (Leaf.annotate r.types.get?) := by
  obtain ⟨-, -, -, hgraph, -⟩ := run_eq_ok_iff.mp h
  rw [hgraph, Graph.annotate, Graph.leaves_mapLeaves]

/-- One more pass over the result with the final table changes neither. -/
theorem typingPass_of_run (h : c.run g = .ok r) :
    r.graph.typingPass r.types = (.ok (r.graph, .none), r.types) := by
  obtain ⟨t, -, hset, hgraph, -⟩ := run_eq_ok_iff.mp h
  have hsweep := hset.sweep_self
  rw [← leaves_of_run h] at hsweep
  have hself : r.graph.refill (r.graph.leaves.map .leaf) = r.graph := by
    rw [leaves_of_run h, hgraph, Graph.refill_annotate]
  obtain ⟨p, hp, -⟩ := hsweep.typingPass_eq
  rw [hself] at hp
  obtain ⟨-, -, -, -, hsize⟩ := Graph.typingPass_eq_ok hp
  have hnone : p = .none := Progress.eq_none (by omega)
  rw [hp, hnone]

end Config

/-! ### What is left plain, and what may fault -/

namespace Leaf

def faulty? : Leaf → Option TypedAssignment
  | .typed a => if a.ty.hasError then some a else none
  | _ => none

variable {known : Lookup}

/-- A leaf that is plain after annotating was plain before, and its value has no type. -/
lemma plain?_annotate (l : Leaf) : (l.annotate known).plain? =
    l.plain?.filter fun a => a.value.infer known = .unassigned := by
  cases l with
  | assign a =>
    by_cases hu : a.value.infer known = .unassigned
    · rw [annotate_of_unassigned rfl hu]
      simp [plain?, Option.filter_some, hu]
    · rw [annotate_of_typable rfl hu]
      simp [plain?, Option.filter_some, hu]
  | typed a =>
    by_cases hu : a.value.infer known = .unassigned
    · rw [annotate_of_unassigned rfl hu]
      rfl
    · rw [annotate_of_typable (l := .typed a) rfl hu]
      rfl
  | _ => rfl

lemma plainSites_map_annotate (ls : List Leaf) : plainSites (ls.map (annotate known)) =
    (plainSites ls).filter fun a => a.value.infer known = .unassigned := by
  rw [plainSites, plainSites, List.filterMap_map, List.filter_filterMap]
  exact congrArg (List.filterMap · ls) (funext plain?_annotate)

/-- A leaf that comes plain is annotated with a fault exactly if its value may be one. -/
lemma faulty?_annotate {l : Leaf} (hl : ∀ a, l ≠ .typed a) : (l.annotate known).faulty? =
    (l.site?.filter fun a => (a.value.infer known).hasError).map
      fun a => { a with ty := a.value.infer known } := by
  cases l with
  | assign a =>
    rw [site?, Option.filter_some]
    by_cases hu : a.value.infer known = .unassigned
    · rw [annotate_of_unassigned rfl hu, hu]
      rfl
    · rw [annotate_of_typable rfl hu, faulty?]
      by_cases herr : (a.value.infer known).hasError = true
      · rw [if_pos herr, if_pos herr, Option.map_some]
      · rw [if_neg herr, if_neg herr, Option.map_none]
  | typed a => exact absurd rfl (hl a)
  | _ => rfl

lemma filterMap_faulty?_annotate {ls : List Leaf} (hls : ∀ l ∈ ls, ∀ a, l ≠ .typed a) :
    (ls.map (annotate known)).filterMap faulty? =
      ((sites ls).filter fun a => (a.value.infer known).hasError).map
        fun a => { a with ty := a.value.infer known } := by
  rw [sites, List.filterMap_map, List.filter_filterMap, List.map_filterMap]
  exact List.filterMap_congr fun l hl => faulty?_annotate (hls l hl)

end Leaf

namespace Typing

lemma indeterminate_eq (r : Typing) :
    r.indeterminate = (Leaf.plainSites r.graph.leaves).map Assignment.target := by
  rw [indeterminate, assignments_eq]

lemma typeErrors_eq (r : Typing) : r.typeErrors = r.graph.leaves.filterMap Leaf.faulty? := by
  rw [typeErrors, assignments_eq, Leaf.annotatedSites, List.filter_filterMap]
  refine congrArg (List.filterMap · r.graph.leaves) (funext fun l => ?_)
  cases l with
  | typed a => rw [Leaf.annotated?, Option.filter_some, Leaf.faulty?]
  | _ => rfl

end Typing

/-! ### The fixed point -/

namespace Config

variable {c : Config} {g : Graph} {r : Typing}

lemma infer_of_plain (h : c.run g = .ok r) {a : Assignment} (ha : .assign a ∈ r.graph.leaves) :
    a.value.infer r.types.get? = .unassigned := by
  rw [leaves_of_run h] at ha
  obtain ⟨l, hl, heq⟩ := List.mem_map.mp ha
  have hplain : (l.annotate r.types.get?).plain? = some a := by rw [heq]; rfl
  rw [Leaf.plain?_annotate] at hplain
  simpa using (Option.filter_eq_some_iff.mp hplain).2

/-- What is annotated has the type it is annotated with, or came so and has none. -/
lemma infer_of_typed (h : c.run g = .ok r) {l : Leaf} (hl : l ∈ g.leaves) {a : TypedAssignment}
    (ha : l.annotate r.types.get? = .typed a) :
    a.value.infer r.types.get? = a.ty ∧ a.target ∈ r.types.names ∨
      a.value.infer r.types.get? = .unassigned ∧ l = .typed a := by
  obtain ⟨t, -, hset, -, -⟩ := run_eq_ok_iff.mp h
  have hs : l.site? = some a.toAssignment := by
    have hkept : (l.annotate r.types.get?).site? = l.site? := Leaf.site?_annotate
    rw [← hkept, ha]
    rfl
  by_cases hu : a.value.infer r.types.get? = .unassigned
  · rw [Leaf.annotate_of_unassigned hs hu] at ha
    exact .inr ⟨hu, ha⟩
  · rw [Leaf.annotate_of_typable hs hu] at ha
    have hty : a.value.infer r.types.get? = a.ty :=
      congrArg TypedAssignment.ty (Leaf.typed.inj ha)
    exact .inl ⟨hty, hset.target_mem_names (Leaf.mem_sites.mpr ⟨l, hl, hs⟩) hu⟩

end Config

/-- **The result is a fixed point** of the final table: the assignments left plain have no type
by it, and an annotation is the type by it, with an entry for the target, or belongs to an
assignment that has no type and came with it. So a further pass changes nothing, what is reported
as indeterminate are the targets of the plain assignments, which are those that came plain and
have no type, and, if none came annotated, what is reported as faulty are the assignments whose
type has the fault flag. -/
theorem Config.run_fixed_point {c : Config} {g : Graph} {r : Typing} (h : c.run g = .ok r) :
    (∀ a, .assign a ∈ r.graph.leaves → a.value.infer r.types.get? = .unassigned) ∧
    (∃ f, r.graph = g.mapLeaves f ∧ ∀ l ∈ g.leaves, ∀ a, f l = .typed a →
      a.value.infer r.types.get? = a.ty ∧ a.target ∈ r.types.names ∨
      a.value.infer r.types.get? = .unassigned ∧ l = .typed a) ∧
    r.graph.typingPass r.types = (.ok (r.graph, .none), r.types) ∧
    r.indeterminate = (Leaf.plainSites r.graph.leaves).map Assignment.target ∧
    Leaf.plainSites r.graph.leaves =
      (Leaf.plainSites g.leaves).filter (fun a => a.value.infer r.types.get? = .unassigned) ∧
    (g.Plain → r.typeErrors =
      (g.sites.filter fun a => (a.value.infer r.types.get?).hasError).map
        fun a => { a with ty := a.value.infer r.types.get? }) := by
  obtain ⟨-, -, -, hgraph, -⟩ := run_eq_ok_iff.mp h
  refine ⟨fun a => infer_of_plain h, ⟨_, hgraph, fun l hl a => infer_of_typed h hl⟩,
    typingPass_of_run h, r.indeterminate_eq, ?_, fun hg => ?_⟩
  · rw [leaves_of_run h, Leaf.plainSites_map_annotate]
  · rw [r.typeErrors_eq, leaves_of_run h, Leaf.filterMap_faulty?_annotate hg, Graph.sites]

/-- A division that may fault, found against the order of the program, beside an assignment that
hangs on itself. -/
theorem Config.run_fixed_point_division :
    let g : Graph := ⟨[
      ⟨⟨0⟩, .basic, 1, [.leaf (.assign ⟨"w", .binary .divide (.var "y") (.var "k")⟩)]⟩,
      ⟨⟨1⟩, .basic, 2, [.ifElse (.var "k") [.leaf (.assign ⟨"y", .var "k"⟩)]
        [.list [.leaf (.assign ⟨"v", .binary .add (.var "v") (.string "s")⟩)]]]⟩], []⟩
    let w : TypedAssignment := ⟨⟨"w", .binary .divide (.var "y") (.var "k")⟩, ⟨true, false, true⟩⟩
    let r : Typing := ⟨⟨[
      ⟨⟨0⟩, .basic, 1, [.leaf (.typed w)]⟩,
      ⟨⟨1⟩, .basic, 2, [.ifElse (.var "k") [.leaf (.typed ⟨⟨"y", .var "k"⟩, .number⟩)]
        [.list [.leaf (.assign ⟨"v", .binary .add (.var "v") (.string "s")⟩)]]]⟩], []⟩,
      ⟨[("k", .number), ("y", .number), ("w", .number)]⟩, [1, 1, 0]⟩
    Config.default.run g = .ok r ∧ g.Plain ∧
      r.graph.typingPass r.types = (.ok (r.graph, .none), r.types) ∧
      r.indeterminate = ["v"] ∧ r.typeErrors = [w] := by
  intro g w r
  have h : Config.default.run g = .ok r := by decide +kernel
  have hg : g.Plain := by
    simp [g, Graph.Plain, Graph.leaves, Graph.stmts, Stmt.leavesOf, Stmt.leaves]
  obtain ⟨-, -, hpass, hplain, hleft, hfaulty⟩ := Config.run_fixed_point h
  refine ⟨h, hg, hpass, ?_, ?_⟩
  · rw [hplain, hleft]
    decide +kernel
  · rw [hfaulty hg]
    decide +kernel

end TypeFlow
