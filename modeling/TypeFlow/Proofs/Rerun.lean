import TypeFlow.Proofs.Erasure
import TypeFlow.Proofs.Seeding

/-!
Flow typing a second time.

The second run starts from the same table, since annotations are neither read nor written. It
then goes through the same tables as the first, pass by pass and entry by entry: each leaf has
the annotation it will be given in the end, so it is never changed, and what it enters does not
depend on its annotation.
-/

namespace TypeFlow

open TypeTable

lemma Config.seed_annotate (c : Config) (g : Graph) (known : Lookup) :
    c.seed (g.annotate known) = c.seed g :=
  seed_congr (g.usage_annotate known)

lemma Leaf.changes_self (ls : List Leaf) : changes ls ls = 0 := by
  induction ls with
  | nil => rfl
  | cons l ls ih => rw [changes_cons, ih, if_pos rfl]

/-- A sweep goes the same way over leaves that were annotated with more in mind, and leaves
them as they are. -/
lemma Sweep.again {t u : TypeTable} {ls ls' : List Leaf} {known : Lookup}
    (h : Sweep t ls ls' u) (hk : u.get?.Le known) :
    Sweep t (ls.map (Leaf.annotate known)) (ls.map (Leaf.annotate known)) u := by
  induction h with
  | nil t => exact .nil t
  | @cons t u l ls ls' ha h ih =>
    have ht : t.get?.Le known := ((extends_note t l).trans h.table_extends).le.trans hk
    have hl : (l.annotate known).annotate t.get? = l.annotate known :=
      Leaf.annotate_annotate_of_ge ht l
    have hn : t.note (l.annotate known) = t.note l := note_congr Leaf.site?_annotate
    have hcons := Sweep.cons ⟨ha.1.annotate, .inl hl⟩ (hn ▸ ih hk)
    rwa [hl] at hcons

/-- **Passes over what passes have made**: as many, with the same tables, and none of them
changes a leaf. -/
theorem Settles.again {t u : TypeTable} {ls ls' : List Leaf} {ns : List ℕ}
    (h : Settles t ls ls' u ns) :
    Settles t (ls.map (Leaf.annotate u.get?)) (ls.map (Leaf.annotate u.get?)) u
      (List.replicate ns.length 0) := by
  induction h with
  | done h =>
    have hdone := Settles.done (h.again (.refl _))
    rwa [Leaf.changes_self] at hdone
  | @next t u v ls ls' ls'' ns h hne h' ih =>
    have hle : u.get?.Le v.get? := h'.table_extends.le
    rw [h.map_annotate hle] at ih
    have hnext := Settles.next (h.again hle) hne ih
    rwa [Leaf.changes_self] at hnext

/-- **A second run**: on its own result a run gives the same graph and the same table, in as many
passes, none of which changes a statement. -/
theorem Config.run_graph_of_run {c : Config} {g : Graph} {r : Typing} (h : c.run g = .ok r) :
    c.run r.graph = .ok { r with passes := List.replicate r.passes.length 0 } := by
  obtain ⟨t, ht, hset, hgraph, hlim⟩ := run_eq_ok_iff.mp h
  have hsame : Leaf.annotate r.types.get? ∘ Leaf.annotate r.types.get? =
      Leaf.annotate r.types.get? := funext (Leaf.annotate_annotate_of_le (.refl _))
  refine run_eq_ok_iff.mpr ⟨t, ?_, ?_, ?_, fun k hk => by simpa using hlim k hk⟩
  · rw [hgraph, seed_annotate, ht]
  · rw [hgraph, Graph.annotate, Graph.leaves_mapLeaves, List.map_map, hsame]
    exact hset.again
  · change r.graph = r.graph.annotate r.types.get?
    rw [hgraph, Graph.annotate, Graph.annotate, Graph.mapLeaves_mapLeaves, hsame]

/-- A stale annotation, a second write that came annotated, and a type found against the order of
the program, within a limit that is just met. -/
theorem Config.run_graph_of_run_stale :
    let c : Config := ⟨[⟨"p", .number⟩], .string, some 3⟩
    let g : Graph := ⟨[
      ⟨⟨0⟩, .lineStart, 1, [.leaf (.typed ⟨⟨"z", .var "y"⟩, .error⟩),
        .leaf (.assign ⟨"w", .var "w"⟩)]⟩,
      ⟨⟨1⟩, .basic, 1, [.list [.leaf (.assign ⟨"y", .binary .add (.var "p") (.var "q")⟩)],
        .ifElse (.var "z") [.leaf (.typed ⟨⟨"y", .var "p"⟩, .number⟩)] []]⟩], []⟩
    let r : Typing := ⟨⟨[
      ⟨⟨0⟩, .lineStart, 1, [.leaf (.typed ⟨⟨"z", .var "y"⟩, .string⟩),
        .leaf (.assign ⟨"w", .var "w"⟩)]⟩,
      ⟨⟨1⟩, .basic, 1, [.list [.leaf (.typed ⟨⟨"y", .binary .add (.var "p") (.var "q")⟩, .string⟩)],
        .ifElse (.var "z") [.leaf (.typed ⟨⟨"y", .var "p"⟩, .number⟩)] []]⟩], []⟩,
      ⟨[("p", .number), ("q", .string), ("y", .string), ("z", .string)]⟩, [1, 1, 0]⟩
    c.run g = .ok r ∧ c.run r.graph = .ok { r with passes := [0, 0, 0] } := by
  intro c g r
  have h : c.run g = .ok r := by decide +kernel
  exact ⟨h, Config.run_graph_of_run h⟩

end TypeFlow
