import TypeFlow.Proofs.Sweep
import TypeFlow.Typing.Run

/-!
A run as a series of sweeps that ends with one that enters nothing.

Every sweep but the last extends the table, and the last has judged all leaves by the final
table. So the result of a run is its input annotated by the table it ends with, whatever tables
the annotations were made by on the way.
-/

namespace TypeFlow

open TypeTable

/-- Passes over the leaves `ls` with the table `t` end with the leaves `ls'` and the table `u`;
each has changed as many leaves as `ns` says. -/
inductive Settles : TypeTable → List Leaf → List Leaf → TypeTable → List ℕ → Prop
  | done {t : TypeTable} {ls ls' : List Leaf} (h : Sweep t ls ls' t) :
    Settles t ls ls' t [Leaf.changes ls ls']
  | next {t u v : TypeTable} {ls ls' ls'' : List Leaf} {ns : List ℕ} (h : Sweep t ls ls' u)
    (hne : u ≠ t) (h' : Settles u ls' ls'' v ns) :
    Settles t ls ls'' v (Leaf.changes ls ls' :: ns)

namespace Settles

variable {t u : TypeTable} {ls ls' : List Leaf} {ns : List ℕ}

lemma supported (h : Settles t ls ls' u ns) : ∀ l ∈ ls, l.IsSupported := by
  cases h with
  | done h => exact h.supported
  | next h hne h' => exact h.supported

lemma grows (h : Settles t ls ls' u ns) : Grows (Leaf.sites ls) t u := by
  induction h with
  | done h => exact h.grows
  | next h hne h' ih => exact h.grows.trans (h.sites_eq ▸ ih)

lemma table_extends (h : Settles t ls ls' u ns) : t.Extends u := h.grows.table_extends

/-- **The final form**: the leaves end annotated by the table that the run ends with. -/
theorem eq_map_annotate (h : Settles t ls ls' u ns) : ls' = ls.map (Leaf.annotate u.get?) := by
  induction h with
  | done h => exact h.eq_map_annotate rfl
  | next h hne h' ih => rw [ih, h.map_annotate h'.table_extends.le]

lemma target_mem_names (h : Settles t ls ls' u ns) {a : Assignment} (ha : a ∈ Leaf.sites ls)
    (hu : a.value.infer u.get? ≠ .unassigned) : a.target ∈ u.names := by
  induction h with
  | done h => exact h.target_mem_names ha hu
  | next h hne h' ih => exact ih (h.sites_eq ▸ ha) hu

/-- **Less to go by, less to find**: passes that start from less than others, and meet no other
assignments, end with less, if of the assignments that get a type no two write one name, and none
a name that only the others start with. -/
theorem types_le {t' u' : TypeTable} {ks ks' : List Leaf} {ms : List ℕ}
    (h : Settles t ls ls' u ns) (h' : Settles t' ks ks' u' ms) (hstart : t.get?.Le t'.get?)
    (hsites : Leaf.sites ls ⊆ Leaf.sites ks)
    (hfresh : ∀ a ∈ Leaf.sites ls, a.target ∈ t'.names → a.target ∈ t.names)
    (hunique : ∀ a ∈ Leaf.sites ks, ∀ b ∈ Leaf.sites ks, a.value.infer u'.get? ≠ .unassigned →
      b.value.infer u'.get? ≠ .unassigned → a.target = b.target → a = b) :
    u.get?.Le u'.get? := by
  refine h.grows.entries_induction (fun x ty hx => h'.table_extends.le x ty (hstart x ty hx)) ?_
  -- the value has its type by the other table as well, so the target has an entry there
  intro v a htv _ hv ha hu hnew
  have hinfer : a.value.infer u'.get? = a.value.infer v.get? := Expr.infer_eq_of_le hv hu
  have hu' : a.value.infer u'.get? ≠ .unassigned := by rwa [hinfer]
  obtain ⟨ty, hty⟩ := mem_names_iff.mp (h'.target_mem_names (hsites ha) hu')
  rw [hty, ← hinfer]
  rcases h'.grows.justified hty with hold | ⟨-, b, hb, heq, hbu, rfl⟩
  · have hx : a.target ∈ t.names := hfresh a ha (mem_names_iff.mpr ⟨ty, hold⟩)
    exact absurd (htv.names_subset hx) hnew
  · -- and the entry was made for no other assignment
    rw [hunique a (hsites ha) b hb hu' hbu heq.symm]

end Settles

/-! ### Runs -/

lemma Progress.changed_iff {p : Progress} : p.changed = true ↔ 0 < p.modified + p.recorded := by
  simp only [changed, Bool.or_eq_true, decide_eq_true_eq]
  omega

/-- A pass reports a change exactly when it has extended the table. -/
lemma Graph.changed_iff {g h : Graph} {t u : TypeTable} {p : Progress}
    (hp : g.typingPass t = (.ok (h, p), u)) : p.changed = true ↔ u ≠ t := by
  obtain ⟨ls', hsweep, -, -, hsize⟩ := typingPass_eq_ok hp
  rw [Progress.changed_iff]
  constructor
  · rintro hpos rfl
    omega
  · intro hne
    by_contra hzero
    exact hne (hsweep.table_extends.eq_of_size (by omega)).symm

lemma Config.exceeded_eq_none {c : Config} {n : ℕ} :
    c.exceeded n = none ↔ ∀ k ∈ c.maxPasses, n < k.toNat := by
  simp [exceeded, Option.filter_eq_none_iff]

theorem Config.iterate_eq_ok {c : Config} {g : Graph} {t : TypeTable} {done : List ℕ}
    {r : Typing} (h : c.iterate g t done = .ok r) :
    ∃ ls' ns, Settles t g.leaves ls' r.types ns ∧ r.graph = g.refill (ls'.map .leaf) ∧
      r.passes = done ++ ns ∧ ∀ k ∈ c.maxPasses, done.length + ns.length ≤ k.toNat := by
  fun_induction c.iterate g t done with
  | case1 => cases h
  | case2 => cases h
  | case3 g t done hlim g' p t' hp hc ih =>
    obtain ⟨ls₁, hsweep, rfl, hmod, -⟩ := Graph.typingPass_eq_ok hp
    obtain ⟨ls', ns, hset, hgraph, hpasses, hle⟩ := ih h
    rw [Graph.leaves_refill hsweep.length_eq] at hset
    rw [Graph.refill_refill hsweep.length_eq] at hgraph
    refine ⟨ls', _, .next hsweep ((Graph.changed_iff hp).mp hc) hset, hgraph, ?_, ?_⟩
    · simp [hpasses, hmod]
    · intro k hk
      have := hle k hk
      simp only [List.length_append, List.length_cons, List.length_nil] at this ⊢
      omega
  | case4 g t done hlim g' p t' hp hc =>
    cases h
    obtain ⟨ls', hsweep, rfl, hmod, -⟩ := Graph.typingPass_eq_ok hp
    obtain rfl : t' = t := by
      by_contra hne
      exact hc ((Graph.changed_iff hp).mpr hne)
    refine ⟨ls', _, .done hsweep, rfl, by rw [hmod], fun k hk => ?_⟩
    have := Config.exceeded_eq_none.mp hlim k hk
    simp
    omega

lemma Config.iterate_of_typingPass {c : Config} {g h : Graph} {t u : TypeTable} {p : Progress}
    {done : List ℕ} (hlim : c.exceeded done.length = none)
    (hp : g.typingPass t = (.ok (h, p), u)) :
    c.iterate g t done = if p.changed then c.iterate h u (done ++ [p.modified])
      else .ok ⟨h, u, done ++ [p.modified]⟩ := by
  rw [iterate, hlim]
  dsimp only
  split
  · next hp' => rw [hp] at hp'; cases hp'
  · next hp' =>
    rw [hp] at hp'
    cases hp'
    rfl

lemma Config.iterate_of_typingPass_error {c : Config} {g : Graph} {t u : TypeTable} {e : Error}
    {done : List ℕ} (hlim : c.exceeded done.length = none)
    (hp : g.typingPass t = (.error e, u)) : c.iterate g t done = .error e := by
  rw [iterate, hlim]
  dsimp only
  split
  · next hp' =>
    rw [hp] at hp'
    cases hp'
    rfl
  · next hp' => rw [hp] at hp'; cases hp'

theorem Settles.iterate_eq {c : Config} {g : Graph} {t u : TypeTable} {ls ls' : List Leaf}
    {ns : List ℕ} (h : Settles t ls ls' u ns) (hg : g.leaves = ls) (done : List ℕ)
    (hlim : ∀ k ∈ c.maxPasses, done.length + ns.length ≤ k.toNat) :
    c.iterate g t done = .ok ⟨g.refill (ls'.map .leaf), u, done ++ ns⟩ := by
  induction h generalizing g done with
  | @done t ls ls' h =>
    subst hg
    have hlim' : c.exceeded done.length = none :=
      Config.exceeded_eq_none.mpr fun k hk => hlim k hk
    obtain ⟨p, hp, hmod⟩ := h.typingPass_eq
    have hc : ¬ p.changed = true := fun hc => (Graph.changed_iff hp).mp hc rfl
    rw [Config.iterate_of_typingPass hlim' hp, if_neg hc, hmod]
  | @next t u v ls ls' ls'' ns h hne h' ih =>
    subst hg
    simp only [List.length_cons] at hlim
    have hlim' : c.exceeded done.length = none :=
      Config.exceeded_eq_none.mpr fun k hk => by have := hlim k hk; omega
    obtain ⟨p, hp, hmod⟩ := h.typingPass_eq
    have hrest := ih (Graph.leaves_refill h.length_eq) (done ++ [Leaf.changes g.leaves ls'])
      fun k hk => by
        have := hlim k hk
        simp only [List.length_append, List.length_cons, List.length_nil]
        omega
    rw [Config.iterate_of_typingPass hlim' hp, if_pos ((Graph.changed_iff hp).mpr hne), hmod,
      hrest, Graph.refill_refill h.length_eq, List.append_assoc, List.singleton_append]

def Graph.annotate (g : Graph) (known : Lookup) : Graph := g.mapLeaves (Leaf.annotate known)

lemma Config.run_of_seed {c : Config} {g : Graph} {t : TypeTable} (h : c.seed g = .ok t) :
    c.run g = c.iterate g t [] := by
  rw [run, h]
  rfl

lemma Config.seed_of_run {c : Config} {g : Graph} {r : Typing} (h : c.run g = .ok r) :
    ∃ t, c.seed g = .ok t := by
  cases hs : c.seed g with
  | ok t => exact ⟨t, rfl⟩
  | error e =>
    rw [run, hs] at h
    cases h

/-- **What a run is**: passes from the seeded table until one enters nothing, within the limit,
and then the graph annotated by the last table. -/
theorem Config.run_eq_ok_iff {c : Config} {g : Graph} {r : Typing} :
    c.run g = .ok r ↔ ∃ t, c.seed g = .ok t ∧
      Settles t g.leaves (g.leaves.map (Leaf.annotate r.types.get?)) r.types r.passes ∧
      r.graph = g.annotate r.types.get? ∧ ∀ k ∈ c.maxPasses, r.passes.length ≤ k.toNat := by
  constructor
  · intro h
    obtain ⟨t, ht⟩ := seed_of_run h
    rw [run_of_seed ht] at h
    obtain ⟨ls', ns, hset, hgraph, hpasses, hle⟩ := iterate_eq_ok h
    obtain rfl := hset.eq_map_annotate
    rw [List.nil_append] at hpasses
    subst hpasses
    refine ⟨t, ht, hset, ?_, fun k hk => by simpa using hle k hk⟩
    rw [hgraph, Graph.refill_map, Graph.annotate]
  · rintro ⟨t, ht, hset, hgraph, hle⟩
    have h := hset.iterate_eq rfl [] fun k hk => by simpa using hle k hk
    rw [run_of_seed ht, h, Graph.refill_map, List.nil_append, ← Graph.annotate, ← hgraph]

/-- A run without a limit succeeds if some invariant lets every pass succeed. -/
theorem Config.exists_iterate_eq_ok {c : Config} (hc : c.maxPasses = none)
    (Inv : List Leaf → TypeTable → Prop)
    (hstep : ∀ ls t, Inv ls t → ∃ ls' u, Sweep t ls ls' u ∧ Inv ls' u) {g : Graph}
    {t : TypeTable} {done : List ℕ} (h : Inv g.leaves t) : ∃ r, c.iterate g t done = .ok r := by
  fun_induction c.iterate g t done with
  | case1 g t done n hn => simp [exceeded, hc] at hn
  | case2 g t done hlim e u hp =>
    obtain ⟨ls', u', hsweep, -⟩ := hstep _ _ h
    obtain ⟨p, hp', -⟩ := hsweep.typingPass_eq
    rw [hp] at hp'
    cases hp'
  | case3 g t done hlim g' p t' hp hchanged ih =>
    obtain ⟨ls', u, hsweep, hinv⟩ := hstep _ _ h
    obtain ⟨q, hq, -⟩ := hsweep.typingPass_eq
    rw [hp] at hq
    cases hq
    exact ih (by rwa [Graph.leaves_refill hsweep.length_eq])
  | case4 g t done hlim g' p t' hp hchanged => exact ⟨_, rfl⟩

end TypeFlow
