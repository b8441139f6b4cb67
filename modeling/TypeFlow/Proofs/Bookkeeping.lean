import Mathlib.Algebra.Ring.Nat
import TypeFlow.Proofs.FixedPoint

/-!
What a run has annotated, against its table and against its counts.

Over a graph that comes without annotations every annotation is the run's own. It is made when
the entry for its target is made, with the same type less the fault flag, and it is not touched
again. So a pass counts exactly what it annotates, the counts add up to the annotations, and
what is annotated and what is left plain to the assignments there were.
-/

namespace TypeFlow

open TypeTable

/-- A type that is known is stored without the fault flag, or is a fault and nothing else. -/
lemma Ty.masked_eq_ite {t : Ty} (h : t ≠ .unassigned) :
    t.masked = if t.kinds = [] then .error else t.withoutError := by
  obtain ⟨n, s, e⟩ := t
  revert h
  cases n <;> cases s <;> cases e <;> decide

namespace Leaf

lemma mem_annotatedSites {ls : List Leaf} {a : TypedAssignment} :
    a ∈ annotatedSites ls ↔ .typed a ∈ ls := by
  rw [annotatedSites, List.mem_filterMap]
  constructor
  · rintro ⟨l, hl, ha⟩
    cases l with
    | typed b =>
      cases ha
      exact hl
    | _ => cases ha
  · intro h
    exact ⟨_, h, rfl⟩

lemma sites_map_annotate {known : Lookup} (ls : List Leaf) :
    sites (ls.map (annotate known)) = sites ls := by
  rw [sites, List.filterMap_map]
  exact congrArg (List.filterMap · ls) (funext fun l => site?_annotate)

lemma length_annotatedSites_add (ls : List Leaf) :
    (annotatedSites ls).length + (plainSites ls).length = (sites ls).length := by
  induction ls with
  | nil => rfl
  | cons l ls ih =>
    simp only [annotatedSites, plainSites, sites] at ih ⊢
    cases l <;> simp [List.filterMap_cons, annotated?, plain?, site?] <;> omega

/-- An annotation on the leaf is the type of its value, and is entered for its target. -/
def Booked (t : TypeTable) (l : Leaf) : Prop :=
  ∀ a, l = .typed a → l.Settled t.get? ∧ t.get? a.target = some a.ty.masked

variable {t u : TypeTable} {l : Leaf}

lemma Booked.mono (htu : t.Extends u) (h : l.Booked t) : l.Booked u := by
  intro a ha
  obtain ⟨hsettled, hget⟩ := h a ha
  exact ⟨hsettled.mono htu.le, htu.le _ _ hget⟩

lemma Booked.annotated?_of_pending (h : l.Booked t) (hp : l.Pending t.get?) :
    l.annotated? = none := by
  cases l with
  | typed a => exact absurd hp (h a rfl).1.not_pending
  | _ => rfl

/-- A leaf that a pass leaves as it is enters nothing. -/
lemma Booked.note_eq (h : l.Booked t) (ha : l.annotate t.get? = l) : t.note l = t := by
  cases hs : l.site? with
  | none => simp [note, hs]
  | some a =>
    by_cases hu : a.value.infer t.get? = .unassigned
    · exact note_of_unassigned hs hu
    · rw [annotate_of_typable hs hu] at ha
      obtain ⟨-, hget⟩ := h _ ha.symm
      exact note_of_mem hs (mem_names_iff.mpr ⟨_, hget⟩)

lemma get?_note_of_pending (hacc : l.Accepted t) (hp : l.Pending t.get?) :
    ∃ a, l.annotate t.get? = .typed a ∧ (t.note l).get? a.target = some a.ty.masked ∧
      (t.note l).size = t.size + 1 := by
  obtain ⟨a, hs, hu⟩ := hp.typable
  have hx : a.target ∉ t.names := hacc.2.resolve_left hp a hs
  refine ⟨_, annotate_of_typable hs hu, ?_, ?_⟩
  · rw [note_of_notMem hs hu hx]
    have hnone : t.entries.lookup a.target = none := get?_eq_none_iff.mpr hx
    simp [get?, List.lookup_append, hnone]
  · simp [note_of_notMem hs hu hx, size]

lemma Booked.annotate (h : l.Booked t) (hacc : l.Accepted t) :
    (l.annotate t.get?).Booked (t.note l) := by
  by_cases hp : l.annotate t.get? = l
  · rw [hp]
    exact h.mono (extends_note t l)
  · obtain ⟨a, ha, hget, -⟩ := get?_note_of_pending hacc hp
    have hsettled : (l.annotate t.get?).Settled (t.note l).get? :=
      (Pending.typable hp).settled_annotate.mono (extends_note t l).le
    intro b hb
    obtain rfl : a = b := Leaf.typed.inj (ha.symm.trans hb)
    exact ⟨hsettled, hget⟩

end Leaf

/-! ### Passes and runs -/

/-- If all annotations are entered, a pass keeps it so, and what it counts is what it annotates,
and what it adds to the table. -/
lemma Sweep.booked {t u : TypeTable} {ls ls' : List Leaf} (h : Sweep t ls ls' u)
    (hb : ∀ l ∈ ls, l.Booked t) :
    (∀ l ∈ ls', l.Booked u) ∧
      (Leaf.annotatedSites ls').length = (Leaf.annotatedSites ls).length + Leaf.changes ls ls' ∧
      u.size = t.size + Leaf.changes ls ls' := by
  induction h with
  | nil t => exact ⟨by simp, rfl, rfl⟩
  | @cons t u l ls ls' hacc h ih =>
    obtain ⟨hl, hls⟩ := List.forall_mem_cons.mp hb
    obtain ⟨hbooked, hcount, hsize⟩ := ih fun k hk => (hls k hk).mono (extends_note t l)
    have hhead : (l.annotate t.get?).Booked u := (hl.annotate hacc).mono h.table_extends
    refine ⟨List.forall_mem_cons.mpr ⟨hhead, hbooked⟩, ?_⟩
    rw [Leaf.changes_cons]
    simp only [Leaf.annotatedSites, List.filterMap_cons] at hcount ⊢
    by_cases hp : l.annotate t.get? = l
    · rw [hl.note_eq hp] at hsize
      rw [hp, if_pos rfl]
      refine ⟨?_, by omega⟩
      cases l.annotated? with
      | none => exact hcount
      | some a =>
        simp only [List.length_cons]
        omega
    · obtain ⟨a, ha, -, hone⟩ := Leaf.get?_note_of_pending hacc hp
      rw [hl.annotated?_of_pending hp, if_neg hp, ha]
      simp only [Leaf.annotated?, List.length_cons]
      omega

/-- **The counts of a run**: they add up to what has been annotated, and every pass but the last
has annotated something. -/
theorem Settles.booked {t u : TypeTable} {ls ls' : List Leaf} {ns : List ℕ}
    (h : Settles t ls ls' u ns) (hb : ∀ l ∈ ls, l.Booked t) :
    (∀ l ∈ ls', l.Booked u) ∧
      (Leaf.annotatedSites ls').length = (Leaf.annotatedSites ls).length + ns.sum ∧
      ∃ ms, ns = ms ++ [0] ∧ ∀ m ∈ ms, 1 ≤ m := by
  induction h with
  | @done t ls ls' h =>
    obtain ⟨hbooked, hcount, hsize⟩ := h.booked hb
    have hzero : Leaf.changes ls ls' = 0 := by omega
    exact ⟨hbooked, by simpa using hcount, [], by rw [hzero]; rfl, by simp⟩
  | @next t u v ls ls' ls'' ns h hne h' ih =>
    obtain ⟨hbooked, hcount, hsize⟩ := h.booked hb
    obtain ⟨hfinal, hsum, ms, rfl, hpos⟩ := ih hbooked
    -- the pass has extended the table, so it has counted an entry
    have hone : 1 ≤ Leaf.changes ls ls' := by
      by_contra hlt
      exact hne (h.table_extends.eq_of_size (by omega)).symm
    refine ⟨hfinal, ?_, Leaf.changes ls ls' :: ms, rfl, List.forall_mem_cons.mpr ⟨hone, hpos⟩⟩
    rw [List.sum_cons]
    omega

/-- **The books balance**: over a graph without annotations, a run that succeeds has entered the
target of each annotated assignment with the annotated type, less the fault flag if a kind
remains. The counts of its passes add up to the annotated assignments, which together with the
indeterminate ones are those there were. The last pass counts nothing, and every other one
something. -/
theorem Config.run_books_balance {c : Config} {g : Graph} {r : Typing} (hg : g.Plain)
    (h : c.run g = .ok r) :
    (∀ a ∈ Leaf.annotatedSites r.graph.leaves,
      r.typeOf? a.target = some (if a.ty.kinds = [] then .error else a.ty.withoutError)) ∧
    r.passes.sum = (Leaf.annotatedSites r.graph.leaves).length ∧
    (Leaf.annotatedSites r.graph.leaves).length + r.indeterminate.length =
      (Leaf.plainSites g.leaves).length ∧
    ∃ ns, r.passes = ns ++ [0] ∧ ∀ n ∈ ns, 1 ≤ n := by
  obtain ⟨t, -, hset, -, -⟩ := run_eq_ok_iff.mp h
  obtain ⟨hbooked, hsum, hpasses⟩ := hset.booked fun l hl a ha => absurd ha (hg l hl a)
  have hnone : Leaf.annotatedSites g.leaves = [] :=
    List.eq_nil_iff_forall_not_mem.mpr fun a ha => hg _ (Leaf.mem_annotatedSites.mp ha) a rfl
  rw [hnone, ← leaves_of_run h] at hsum
  rw [← leaves_of_run h] at hbooked
  refine ⟨fun a ha => ?_, by simpa using hsum.symm, ?_, hpasses⟩
  · have hl := Leaf.mem_annotatedSites.mp ha
    obtain ⟨⟨b, hb, -, hty⟩, hget⟩ := hbooked _ hl a rfl
    obtain rfl := Leaf.typed.inj hb
    rw [Typing.typeOf?, hget, Ty.masked_eq_ite hty]
  · have hout := Leaf.length_annotatedSites_add r.graph.leaves
    have hin := Leaf.length_annotatedSites_add g.leaves
    have hsites : Leaf.sites r.graph.leaves = Leaf.sites g.leaves := by
      rw [leaves_of_run h, Leaf.sites_map_annotate]
    rw [hsites] at hout
    rw [hnone, List.length_nil] at hin
    rw [r.indeterminate_eq, List.length_map]
    omega

/-- A division that may fault, found in the second pass, is entered as a number; a product that
can only fault is entered as a fault; and a name that hangs on itself may be written twice. -/
theorem Config.run_books_balance_faults :
    let w : TypedAssignment := ⟨⟨"w", .binary .divide (.var "y") (.var "k")⟩, ⟨true, false, true⟩⟩
    let e : TypedAssignment := ⟨⟨"e", .binary .multiply (.string "s") (.var "k")⟩, .error⟩
    let v : Stmt := .leaf (.assign ⟨"v", .binary .add (.var "v") (.string "s")⟩)
    let g : Graph := ⟨[
      ⟨⟨0⟩, .basic, 1, [.leaf (.assign w.toAssignment), .leaf (.assign e.toAssignment)]⟩,
      ⟨⟨1⟩, .basic, 2, [.ifElse (.var "k") [.leaf (.assign ⟨"y", .var "k"⟩)] [.list [v], v]]⟩],
      []⟩
    let r : Typing := ⟨⟨[
      ⟨⟨0⟩, .basic, 1, [.leaf (.typed w), .leaf (.typed e)]⟩,
      ⟨⟨1⟩, .basic, 2,
        [.ifElse (.var "k") [.leaf (.typed ⟨⟨"y", .var "k"⟩, .number⟩)] [.list [v], v]]⟩], []⟩,
      ⟨[("k", .number), ("e", .error), ("y", .number), ("w", .number)]⟩, [2, 1, 0]⟩
    g.Plain ∧ Config.default.run g = .ok r ∧ r.typeOf? "w" = some .number ∧
      r.typeOf? "e" = some .error ∧ r.passes.sum = 3 ∧ 3 + r.indeterminate.length = 5 := by
  intro w e v g r
  have hg : g.Plain := by
    simp [g, v, Graph.Plain, Graph.leaves, Graph.stmts, Stmt.leavesOf, Stmt.leaves]
  have h : Config.default.run g = .ok r := by decide +kernel
  obtain ⟨htable, hsum, hbalance, -⟩ := Config.run_books_balance hg h
  exact ⟨hg, h, htable w (by decide), htable e (by decide), hsum, hbalance⟩

end TypeFlow
