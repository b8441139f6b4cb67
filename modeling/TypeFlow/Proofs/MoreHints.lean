import TypeFlow.Proofs.Determined
import TypeFlow.Proofs.Failure

/-!
One hint more.

A hint for a name that nothing writes, and of which nothing was known, adds an entry to the seed
and takes none away. Types may then be found in other passes and in another order, and for more
names. But whatever was found without the hint is found with it, for the same assignment and
hence with the same type.
-/

namespace TypeFlow

open TypeTable

namespace Config

variable {c : Config} {g : Graph} {h : Hint} {t t' : TypeTable}

lemma hintNames_addHints (c : Config) (hs : List Hint) :
    (c.addHints hs).hintNames = c.hintNames ++ hs.map Hint.name := by
  simp [hintNames, addHints]

lemma nodup_hintNames_addHints (hhints : c.hintNames.Nodup) (hname : h.name ∉ c.hintNames) :
    (c.addHints [h]).hintNames.Nodup := by
  rw [hintNames_addHints]
  exact hhints.append (List.nodup_singleton _) (by simpa using hname)

lemma unwritten_addHints (hunwritten : ∀ x ∈ c.hintNames, x ∉ g.targets)
    (hname : h.name ∉ g.targets) : ∀ x ∈ (c.addHints [h]).hintNames, x ∉ g.targets := by
  intro x hx
  rw [hintNames_addHints, List.mem_append] at hx
  rcases hx with hx | hx
  · exact hunwritten x hx
  · obtain rfl : x = h.name := by simpa using hx
    exact hname

/-- All that is known before the first pass is known with one more hint too, if nothing was known
of its name. -/
lemma seed_le_addHints (ht : c.seed g = .ok t) (ht' : (c.addHints [h]).seed g = .ok t')
    (hnew : h.name ∉ t.names) : t.get?.Le t'.get? := by
  intro x ty hx
  have hmem : (x, ty) ∈ t.entries := mem_entries_of_get? hx
  have hne : x ≠ h.name := by
    rintro rfl
    exact hnew (mem_names_iff.mpr ⟨ty, hx⟩)
  rw [get?_eq_some_iff (nodup_names_of_seed ht'), (seed_eq_ok_iff.mp ht').2, hintNames_addHints]
  rw [(seed_eq_ok_iff.mp ht).2] at hmem
  simp only [addHints, List.map_append, List.mem_append, List.mem_map, List.mem_filter,
    decide_eq_true_eq, List.map_cons, List.map_nil, List.mem_singleton] at hmem ⊢
  rcases hmem with hhint | ⟨y, ⟨hy, hyhint⟩, heq⟩
  · exact .inl (.inl hhint)
  · cases heq
    exact .inr ⟨x, ⟨hy, fun hor => hor.elim hyhint hne⟩, rfl⟩

lemma get?_seed_addHints (ht' : (c.addHints [h]).seed g = .ok t') :
    t'.get? h.name = some h.ty.masked := by
  rw [get?_eq_some_iff (nodup_names_of_seed ht'), (seed_eq_ok_iff.mp ht').2]
  simp [addHints]

/-- A graph in single assignment form, with supported statements only, can be typed whatever
names it does not write are hinted. -/
lemma solvable_of_singleAssignment (hssa : g.SingleAssignment)
    (hsupported : ∀ l ∈ g.leaves, l.IsSupported) (hhints : c.hintNames.Nodup)
    (hunwritten : ∀ x ∈ c.hintNames, x ∉ g.targets) : c.Solvable g where
  hints := hhints
  supported := hsupported
  distinct := hssa.pairwise_sites.imp fun hne _ _ => hne
  unhinted _ ha _ hx := hunwritten _ hx (Graph.target_mem_targets ha)

/-- A run has an entry for a name that nothing writes only if it started with one. -/
lemma mem_names_seed_of_run {r : Typing} (ht : c.seed g = .ok t) (hr : c.run g = .ok r)
    {x : VarName} (hx : x ∉ g.targets) (hmem : x ∈ r.types.names) : x ∈ t.names := by
  obtain ⟨t₀, ht₀, hset, -, -⟩ := run_eq_ok_iff.mp hr
  obtain rfl : t = t₀ := Except.ok.inj (ht.symm.trans ht₀)
  obtain ⟨ty, hty⟩ := mem_names_iff.mp hmem
  rcases hset.grows.justified hty with hold | ⟨-, a, ha, rfl, -, -⟩
  · exact mem_names_iff.mpr ⟨ty, hold⟩
  · exact absurd (Graph.target_mem_targets ha) hx

/-- Whatever a run finds it finds with one more hint too. -/
lemma types_le_addHints {r r' : Typing} (hssa : g.SingleAssignment)
    (hunwritten : ∀ x ∈ (c.addHints [h]).hintNames, x ∉ g.targets)
    (ht : c.seed g = .ok t) (hnew : h.name ∉ t.names) (hr : c.run g = .ok r)
    (hr' : (c.addHints [h]).run g = .ok r') : r.types.get?.Le r'.types.get? := by
  obtain ⟨t₀, ht₀, hset, -, -⟩ := run_eq_ok_iff.mp hr
  obtain rfl : t = t₀ := Except.ok.inj (ht.symm.trans ht₀)
  obtain ⟨t', ht', hset', -, -⟩ := run_eq_ok_iff.mp hr'
  have hstart : t.get?.Le t'.get? := seed_le_addHints ht ht' hnew
  refine hset.types_le hset' hstart (List.Subset.refl _) ?_ ?_
  · intro a ha hx
    exact absurd (Graph.target_mem_targets ha) (hunwritten _ (hinted_of_mem_names ht' ha hx))
  · intro a ha b hb _ _ heq
    exact hssa.eq_of_target ha hb heq

/-- **More hints only add**: over a graph in single assignment form, with supported statements
only, without a limit and with distinct hints for names that are not written, a run succeeds, and
still does with a further hint for a name that is neither written nor known from the start. That
run keeps the type of every name the first one has, and adds at least that of the hint. -/
theorem run_addHints_keeps (hssa : g.SingleAssignment)
    (hsupported : ∀ l ∈ g.leaves, l.IsSupported) (hlimit : c.maxPasses = none)
    (hhints : c.hintNames.Nodup) (hunwritten : ∀ x ∈ c.hintNames, x ∉ g.targets)
    (hname : h.name ∉ g.targets) (hnew : ∀ t, c.seed g = .ok t → h.name ∉ t.names) :
    ∃ r r', c.run g = .ok r ∧ (c.addHints [h]).run g = .ok r' ∧
      (∀ x ty, r.typeOf? x = some ty → r'.typeOf? x = some ty) ∧
      r.typeOf? h.name = none ∧ r'.typeOf? h.name = some h.ty.masked := by
  obtain ⟨t, ht⟩ := (exists_seed_iff (g := g)).mpr hhints
  have hunhinted : h.name ∉ c.hintNames := fun hx =>
    hnew t ht ((mem_names_of_seed ht).mpr (.inl hx))
  have hhints' : (c.addHints [h]).hintNames.Nodup := nodup_hintNames_addHints hhints hunhinted
  have hunwritten' : ∀ x ∈ (c.addHints [h]).hintNames, x ∉ g.targets :=
    unwritten_addHints hunwritten hname
  obtain ⟨r, hr⟩ := exists_run_of_solvable hlimit
    (solvable_of_singleAssignment hssa hsupported hhints hunwritten)
  obtain ⟨r', hr'⟩ := exists_run_of_solvable (c := c.addHints [h]) hlimit
    (solvable_of_singleAssignment hssa hsupported hhints' hunwritten')
  refine ⟨r, r', hr, hr', types_le_addHints hssa hunwritten' ht (hnew t ht) hr hr', ?_, ?_⟩
  · refine get?_eq_none_iff.mpr fun hx => ?_
    exact hnew t ht (mem_names_seed_of_run ht hr hname hx)
  · obtain ⟨t', ht', hset', -, -⟩ := run_eq_ok_iff.mp hr'
    exact hset'.table_extends.le _ _ (get?_seed_addHints ht')

/-- A hint for an external name of which nothing is known without it. The type of `y`, which came
with a wrong annotation, is the same in both runs. -/
theorem run_addHints_keeps_external :
    let c : Config := ⟨[⟨"p", .string⟩], .number, none⟩
    let h : Hint := ⟨":d", .number⟩
    let z : Stmt := .leaf (.assign ⟨"z", .binary .add (.var ":d") (.var "y")⟩)
    let a : Stmt := .leaf (.assign ⟨"a", .binary .add (.var "a") (.var ":d")⟩)
    let g : Graph := ⟨[
      ⟨⟨0⟩, .lineStart, 1, [z, .leaf (.typed ⟨⟨"y", .var "p"⟩, .number⟩)]⟩,
      ⟨⟨1⟩, .basic, 1, [.ifElse (.var "q") [.leaf (.assign ⟨"v", .var ":d"⟩)] [a]]⟩], []⟩
    let r : Typing := ⟨⟨[
      ⟨⟨0⟩, .lineStart, 1, [z, .leaf (.typed ⟨⟨"y", .var "p"⟩, .string⟩)]⟩,
      ⟨⟨1⟩, .basic, 1, [.ifElse (.var "q") [.leaf (.assign ⟨"v", .var ":d"⟩)] [a]]⟩], []⟩,
      ⟨[("p", .string), ("q", .number), ("y", .string)]⟩, [1, 0]⟩
    g.SingleAssignment ∧ (∀ l ∈ g.leaves, l.IsSupported) ∧ c.maxPasses = none ∧
      c.hintNames.Nodup ∧ (∀ x ∈ c.hintNames, x ∉ g.targets) ∧ h.name ∉ g.targets ∧
      c.seed g = .ok ⟨[("p", .string), ("q", .number)]⟩ ∧ c.run g = .ok r ∧
      ∃ r', (c.addHints [h]).run g = .ok r' ∧ r'.typeOf? "y" = some .string ∧
        r'.typeOf? ":d" = some .number := by
  intro c h z a g r
  have hssa : g.targets.Nodup := by decide
  have hsupported : ∀ l ∈ g.leaves, l.IsSupported := by
    simp [g, z, a, Graph.leaves, Graph.stmts, Stmt.leavesOf, Stmt.leaves, Leaf.IsSupported]
  have hhints : c.hintNames.Nodup := by decide
  have hunwritten : ∀ x ∈ c.hintNames, x ∉ g.targets := by decide
  have hname : h.name ∉ g.targets := by decide
  have hseed : c.seed g = .ok ⟨[("p", .string), ("q", .number)]⟩ := by decide +kernel
  have hnew : ∀ t, c.seed g = .ok t → h.name ∉ t.names := by
    intro t ht
    obtain rfl := Except.ok.inj (hseed.symm.trans ht)
    decide
  have hrun : c.run g = .ok r := by decide +kernel
  obtain ⟨s, r', hs, hr', hkeeps, -, hadds⟩ :=
    run_addHints_keeps hssa hsupported rfl hhints hunwritten hname hnew
  obtain rfl : r = s := Except.ok.inj (hrun.symm.trans hs)
  exact ⟨hssa, hsupported, rfl, hhints, hunwritten, hname, hseed, hrun, r', hr',
    hkeeps "y" .string rfl, hadds⟩

end Config

end TypeFlow
