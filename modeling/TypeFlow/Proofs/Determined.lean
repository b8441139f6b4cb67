import Mathlib.Data.List.Pairwise
import TypeFlow.Proofs.Exclusive

/-!
Which names flow typing finds a type for, and when it succeeds, said without passes.

The names with a type are the least set that has those the run starts with, and the target of
every assignment that reads no others. In which order the assignments stand is of no account.
-/

namespace TypeFlow

open TypeTable

/-- The least set of names that has those with a type in `known`, and the target of each of
`sites` that reads only names of the set. -/
inductive Determined (known : Lookup) (sites : List Assignment) : VarName → Prop
  | known {x : VarName} {ty : Ty} (hx : known x = some ty) (hty : ty ≠ .unassigned) :
    Determined known sites x
  | site {a : Assignment} (ha : a ∈ sites)
    (hreads : ∀ y ∈ a.value.reads, Determined known sites y) : Determined known sites a.target

def Assignment.ReadsOnly (D : VarName → Prop) (a : Assignment) : Prop := ∀ y ∈ a.value.reads, D y

namespace Settles

variable {t u : TypeTable} {ls ls' : List Leaf} {ns : List ℕ}

/-- A run gives types to determined names only. -/
lemma determined_of_get? (h : Settles t ls ls' u ns) {x : VarName}
    (hx : u.get?.tyOf x ≠ .unassigned) : Determined t.get? (Leaf.sites ls) x := by
  obtain ⟨ty, hty, hne⟩ := Lookup.tyOf_ne_unassigned.mp hx
  refine h.grows.entries_induction (Q := fun x ty => ty ≠ .unassigned →
    Determined t.get? (Leaf.sites ls) x) (fun x ty => .known) ?_ x ty hty hne
  intro v a _ _ hv ha hu _ _
  refine .site ha fun y hy => ?_
  have hy' := (Expr.infer_ne_unassigned_iff v.get? a.value).mp hu y hy
  obtain ⟨ty', hty', hne'⟩ := Lookup.tyOf_ne_unassigned.mp hy'
  exact hv y ty' hty' hne'

/-- A run gives types to all determined names, if no assignment finds its target taken at the
start, perhaps by an entry without a type. -/
lemma get?_of_determined (h : Settles t ls ls' u ns)
    (hfresh : ∀ a ∈ Leaf.sites ls, a.value.infer u.get? ≠ .unassigned → a.target ∉ t.names)
    {x : VarName} (hx : Determined t.get? (Leaf.sites ls) x) : u.get?.tyOf x ≠ .unassigned := by
  induction hx with
  | @known x ty hx hty => exact Lookup.tyOf_ne_unassigned.mpr ⟨ty, h.table_extends.le x ty hx, hty⟩
  | @site a ha _ ih =>
    have hu : a.value.infer u.get? ≠ .unassigned := (Expr.infer_ne_unassigned_iff _ _).mpr ih
    obtain ⟨ty, hty⟩ := mem_names_iff.mp (h.target_mem_names ha hu)
    refine Lookup.tyOf_ne_unassigned.mpr ⟨ty, hty, ?_⟩
    rcases h.grows.justified hty with ht | ⟨-, b, -, -, hb, rfl⟩
    · exact absurd (mem_names_iff.mpr ⟨ty, ht⟩) (hfresh a ha hu)
    · exact mt Ty.masked_eq_unassigned.mp hb

end Settles

/-! ### Success -/

/-- What lets passes succeed: the table knows names of `D` only, no two assignments that read
only such names write the same name, and one of them whose target has an entry is annotated. -/
structure Ready (D : VarName → Prop) (ls : List Leaf) (t : TypeTable) : Prop where
  supported : ∀ l ∈ ls, l.IsSupported
  sound : ∀ x, t.get?.tyOf x ≠ .unassigned → D x
  closed : ∀ a ∈ Leaf.sites ls, a.ReadsOnly D → D a.target
  distinct : (Leaf.sites ls).Pairwise fun a b =>
    a.ReadsOnly D → b.ReadsOnly D → a.target ≠ b.target
  settled : ∀ l ∈ ls, ∀ a, l.site? = some a → a.ReadsOnly D → a.target ∈ t.names →
    l.Settled t.get?

namespace Ready

variable {D : VarName → Prop} {t : TypeTable} {l : Leaf} {ls : List Leaf}

lemma readsOnly (h : Ready D ls t) {a : Assignment} (hu : a.value.infer t.get? ≠ .unassigned) :
    a.ReadsOnly D :=
  fun y hy => h.sound y ((Expr.infer_ne_unassigned_iff _ _).mp hu y hy)

lemma closedUnder (h : Ready D ls t) : ClosedUnder t.get? (Assignment.ReadsOnly D) :=
  fun _ _ _ _ hu => h.readsOnly hu

lemma exclusive (h : Ready D ls t) : Exclusive (Assignment.ReadsOnly D) ls t :=
  ⟨h.distinct, h.settled⟩

lemma accepted (h : Ready D (l :: ls) t) : l.Accepted t :=
  h.exclusive.accepted (h.supported l (by simp)) fun _ _ hu => h.readsOnly hu

lemma note (h : Ready D (l :: ls) t) : Ready D ls (t.note l) where
  supported k hk := h.supported k (List.mem_cons_of_mem l hk)
  sound x hx := by
    obtain ⟨ty, hty, hne⟩ := Lookup.tyOf_ne_unassigned.mp hx
    rcases get?_note hty with hold | ⟨-, a, hs, rfl, hu, -⟩
    · exact h.sound x (Lookup.tyOf_ne_unassigned.mpr ⟨ty, hold, hne⟩)
    · exact h.closed a (Leaf.mem_sites.mpr ⟨l, by simp, hs⟩) (h.readsOnly hu)
  closed a ha := h.closed a ((Leaf.sites_sublist_cons l ls).subset ha)
  distinct := (h.exclusive.note h.closedUnder).distinct
  settled := (h.exclusive.note h.closedUnder).settled

/-- A pass succeeds, and leaves all ready for the next one. -/
theorem exists_sweep (h : Ready D ls t) : ∃ ls' u, Sweep t ls ls' u ∧ Ready D ls' u := by
  induction ls generalizing t with
  | nil => exact ⟨[], t, .nil t, h⟩
  | cons l ls ih =>
    obtain ⟨ls', u, hsweep, hrest⟩ := ih h.note
    have hall : Sweep t (l :: ls) (l.annotate t.get? :: ls') u := .cons h.accepted hsweep
    have hexcl : Exclusive (Assignment.ReadsOnly D) (l.annotate t.get? :: ls') u :=
      h.exclusive.sweep hall hrest.closedUnder
    refine ⟨_, u, hall, ?_, hrest.sound, ?_, hexcl.distinct, hexcl.settled⟩
    · simpa using ⟨(h.supported l (by simp)).annotate, hrest.supported⟩
    · rw [hall.sites_eq]
      exact h.closed

end Ready

/-! ### Runs over plain graphs -/

/-- No assignment of the graph comes annotated. -/
def Graph.Plain (g : Graph) : Prop := ∀ l ∈ g.leaves, ∀ a, l ≠ .typed a

lemma Graph.Plain.eq_assign {g : Graph} (hg : g.Plain) {l : Leaf} (hl : l ∈ g.leaves)
    {a : Assignment} (hs : l.site? = some a) : l = .assign a := by
  cases l with
  | assign b => exact congrArg Leaf.assign (Option.some.inj hs)
  | typed b => exact absurd rfl (hg _ hl b)
  | _ => cases hs

lemma Leaf.pending_assign {known : Lookup} {a : Assignment}
    (hu : a.value.infer known ≠ .unassigned) : (Leaf.assign a).Pending known := by
  rw [Pending, annotate_of_typable rfl hu]
  simp

namespace Config

def start (c : Config) (g : Graph) : Lookup :=
  match c.seed g with
  | .ok t => t.get?
  | .error _ => fun _ => none

/-- The names of a graph that can be given a type. -/
def Determines (c : Config) (g : Graph) : VarName → Prop := Determined (c.start g) g.sites

/-- No name is hinted twice, all leaves are supported, and of the assignments that read only
names that can be given a type, no two write the same name and none writes a hinted name. -/
structure Solvable (c : Config) (g : Graph) : Prop where
  hints : c.hintNames.Nodup
  supported : ∀ l ∈ g.leaves, l.IsSupported
  distinct : g.sites.Pairwise fun a b =>
    a.ReadsOnly (c.Determines g) → b.ReadsOnly (c.Determines g) → a.target ≠ b.target
  unhinted : ∀ a ∈ g.sites, a.ReadsOnly (c.Determines g) → a.target ∉ c.hintNames

variable {c : Config} {g : Graph} {r : Typing}

lemma Solvable.eq_of_target (h : c.Solvable g) {a b : Assignment} (ha : a ∈ g.sites)
    (hb : b ∈ g.sites) (hDa : a.ReadsOnly (c.Determines g)) (hDb : b.ReadsOnly (c.Determines g))
    (heq : a.target = b.target) : a = b := by
  have hsymm : Std.Symm fun a b : Assignment => a.ReadsOnly (c.Determines g) →
      b.ReadsOnly (c.Determines g) → a.target ≠ b.target :=
    ⟨fun a b hd hb ha heq => hd ha hb heq.symm⟩
  by_contra hne
  exact h.distinct.forall ha hb hne hDa hDb heq

lemma determines_of_seed {t : TypeTable} (h : c.seed g = .ok t) :
    c.Determines g = Determined t.get? g.sites := by
  rw [Determines, start, h]

lemma tyOf_ne_unassigned_iff (hg : g.Plain) (h : c.run g = .ok r) {x : VarName} :
    r.types.get?.tyOf x ≠ .unassigned ↔ c.Determines g x := by
  obtain ⟨t, ht, hset, -, -⟩ := run_eq_ok_iff.mp h
  rw [determines_of_seed ht]
  refine ⟨hset.determined_of_get?, hset.get?_of_determined fun a ha hu => ?_⟩
  obtain ⟨l, hl, hs⟩ := Leaf.mem_sites.mp ha
  obtain rfl := hg.eq_assign hl hs
  exact hset.unobstructed.fresh _ hl (Leaf.pending_assign hu) a.target rfl

lemma readsOnly_iff (hg : g.Plain) (h : c.run g = .ok r) {a : Assignment} :
    a.ReadsOnly (c.Determines g) ↔ a.value.infer r.types.get? ≠ .unassigned := by
  rw [Expr.infer_ne_unassigned_iff]
  exact forall₂_congr fun y _ => (tyOf_ne_unassigned_iff hg h).symm

/-- A run succeeds on solvable graphs only. -/
lemma solvable_of_run (hg : g.Plain) (h : c.run g = .ok r) : c.Solvable g := by
  obtain ⟨t, ht, hset, -, -⟩ := run_eq_ok_iff.mp h
  have hfree := hset.unobstructed
  refine ⟨exists_seed_iff.mp ⟨t, ht⟩, hset.supported, ?_, fun a ha hD hx => ?_⟩
  · refine List.pairwise_filterMap.mpr (hfree.distinct.imp_of_mem ?_)
    intro l k hl hk hd a hs b hs' hDa hDb
    obtain rfl := hg.eq_assign hl hs
    obtain rfl := hg.eq_assign hk hs'
    have hne := hd (Leaf.pending_assign ((readsOnly_iff hg h).mp hDa))
      (Leaf.pending_assign ((readsOnly_iff hg h).mp hDb))
    exact fun heq => hne (congrArg some heq)
  · obtain ⟨l, hl, hs⟩ := Leaf.mem_sites.mp ha
    obtain rfl := hg.eq_assign hl hs
    have hp : (Leaf.assign a).Pending r.types.get? :=
      Leaf.pending_assign ((readsOnly_iff hg h).mp hD)
    exact hfree.fresh _ hl hp a.target rfl ((mem_names_of_seed ht).mpr (.inl hx))

/-- A run without a limit succeeds on every solvable graph. -/
lemma exists_run_of_solvable (hc : c.maxPasses = none) (h : c.Solvable g) :
    ∃ r, c.run g = .ok r := by
  obtain ⟨t, ht⟩ := exists_seed_iff.mpr h.hints
  rw [run_of_seed ht]
  have hD := determines_of_seed ht
  refine exists_iterate_eq_ok hc (Ready (c.Determines g)) (fun ls t => Ready.exists_sweep) ?_
  refine ⟨h.supported, fun x hx => ?_, fun a ha hD' => ?_, h.distinct, fun l hl a hs hD' hx => ?_⟩
  · obtain ⟨ty, hty, hne⟩ := Lookup.tyOf_ne_unassigned.mp hx
    exact hD ▸ .known hty hne
  · rw [hD] at hD' ⊢
    exact .site ha hD'
  · have ha : a ∈ g.sites := Leaf.mem_sites.mpr ⟨l, hl, hs⟩
    exact absurd (hinted_of_mem_names ht ha hx) (h.unhinted a ha hD')

end Config

/-- What becomes of a leaf when the names of `D` have types: an assignment that reads only such
names is annotated, and all else stays. -/
inductive Leaf.Outcome (D : VarName → Prop) : Leaf → Leaf → Prop
  | typed {a : Assignment} {ty : Ty} (ha : a.ReadsOnly D) (hty : ty ≠ .unassigned) :
    Outcome D (.assign a) (.typed { a with ty })
  | plain {a : Assignment} (ha : ¬ a.ReadsOnly D) : Outcome D (.assign a) (.assign a)
  | other {l : Leaf} (hs : l.site? = none) : Outcome D l l

lemma Config.outcome_annotate {c : Config} {g : Graph} {r : Typing} (hg : g.Plain)
    (h : c.run g = .ok r) {l : Leaf} (hl : l ∈ g.leaves) :
    l.Outcome (c.Determines g) (l.annotate r.types.get?) := by
  cases hs : l.site? with
  | none =>
    rw [Leaf.annotate_of_none hs]
    exact .other hs
  | some a =>
    obtain rfl := hg.eq_assign hl hs
    by_cases hu : a.value.infer r.types.get? = .unassigned
    · rw [Leaf.annotate_of_unassigned hs hu]
      exact .plain fun hD => (readsOnly_iff hg h).mp hD hu
    · rw [Leaf.annotate_of_typable hs hu]
      exact .typed ((readsOnly_iff hg h).mpr hu) hu

/-- **When flow typing succeeds, and what it finds**: over a graph without annotations and
without a limit, a run succeeds exactly if the graph is solvable. It then finds types for the
names that can be given one, and annotates the assignments that read no others. -/
theorem Config.run_iff_solvable {c : Config} {g : Graph} (hc : c.maxPasses = none)
    (hg : g.Plain) :
    ((∃ r, c.run g = .ok r) ↔ c.Solvable g) ∧ ∀ r, c.run g = .ok r →
      (∀ x, (∃ ty, r.types.get? x = some ty ∧ ty ≠ .unassigned) ↔ c.Determines g x) ∧
      ∃ f, r.graph = g.mapLeaves f ∧ ∀ l ∈ g.leaves, l.Outcome (c.Determines g) (f l) := by
  refine ⟨⟨fun ⟨r, h⟩ => solvable_of_run hg h, exists_run_of_solvable hc⟩, fun r h => ?_⟩
  obtain ⟨-, -, -, hgraph, -⟩ := run_eq_ok_iff.mp h
  refine ⟨fun x => ?_, _, hgraph, fun l hl => outcome_annotate hg h hl⟩
  rw [← Lookup.tyOf_ne_unassigned, tyOf_ne_unassigned_iff hg h]

/-- The types of `y` and `z` are found against the order of the program, those of `a` and `b`
hang on each other, and so `a` may be written twice. -/
theorem Config.run_iff_solvable_cycle :
    let g : Graph := ⟨[
      ⟨⟨0⟩, .basic, 0, [.leaf (.assign ⟨"z", .var "y"⟩), .leaf (.assign ⟨"a", .var "b"⟩)]⟩,
      ⟨⟨1⟩, .basic, 1, [.leaf (.assign ⟨"y", .binary .add (.var "x") (.string "s")⟩),
        .ifElse (.var "x") [.leaf (.assign ⟨"b", .var "a"⟩)] [.leaf (.assign ⟨"a", .var "b"⟩)]]⟩],
      []⟩
    let r : Typing := ⟨⟨[
      ⟨⟨0⟩, .basic, 0, [.leaf (.typed ⟨⟨"z", .var "y"⟩, .string⟩),
        .leaf (.assign ⟨"a", .var "b"⟩)]⟩,
      ⟨⟨1⟩, .basic, 1, [.leaf (.typed ⟨⟨"y", .binary .add (.var "x") (.string "s")⟩, .string⟩),
        .ifElse (.var "x") [.leaf (.assign ⟨"b", .var "a"⟩)] [.leaf (.assign ⟨"a", .var "b"⟩)]]⟩],
      []⟩, ⟨[("x", .number), ("y", .string), ("z", .string)]⟩, [1, 1, 0]⟩
    Config.default.maxPasses = none ∧ g.Plain ∧ Config.default.run g = .ok r ∧
      Config.default.Solvable g ∧ Config.default.Determines g "z" ∧
      ¬ Config.default.Determines g "a" := by
  intro g r
  have hg : g.Plain := by
    simp [g, Graph.Plain, Graph.leaves, Graph.stmts, Stmt.leavesOf, Stmt.leaves]
  have h : Config.default.run g = .ok r := by decide +kernel
  obtain ⟨hsolve, hfound⟩ := Config.run_iff_solvable (c := Config.default) rfl hg
  refine ⟨rfl, hg, h, hsolve.mp ⟨r, h⟩, ((hfound r h).1 "z").mp ⟨.string, by decide⟩, fun hD => ?_⟩
  obtain ⟨ty, hty, -⟩ := ((hfound r h).1 "a").mpr hD
  have ha : r.types.get? "a" = none := rfl
  rw [ha] at hty
  cases hty

end TypeFlow
