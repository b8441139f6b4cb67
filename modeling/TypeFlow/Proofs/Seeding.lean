import Mathlib.Data.List.Induction
import Mathlib.Data.List.Nodup
import TypeFlow.Proofs.Annotation
import TypeFlow.Typing.Config

/-!
The table a run starts from, entry by entry: the hints, and then the default type for the names
that the program reads and never writes.
-/

namespace TypeFlow

/-! ### Tables -/

namespace TypeTable

variable {t u : TypeTable}

lemma assignAll_cons (t : TypeTable) (x : VarName) (ty : Ty) (es : List (VarName × Ty)) :
    t.assignAll ((x, ty) :: es) = t.assign x ty >>= fun u => u.assignAll es := rfl

/-- Several entries can be made exactly if their names are new and differ among themselves. -/
lemma assignAll_eq_ok_iff {es : List (VarName × Ty)} :
    t.assignAll es = .ok u ↔ (es.map Prod.fst).Nodup ∧ (∀ e ∈ es, e.1 ∉ t.names) ∧
      u.entries = t.entries ++ es.map fun e => (e.1, e.2.masked) := by
  induction es generalizing t with
  | nil =>
    obtain ⟨ts⟩ := t
    obtain ⟨us⟩ := u
    simp [assignAll, pure, Except.pure, eq_comm]
  | cons e es ih =>
    obtain ⟨x, ty⟩ := e
    rw [assignAll_cons]
    by_cases hx : x ∈ t.names
    · obtain ⟨e, he⟩ := assign_of_mem hx ty
      simp [he, bind, Except.bind, hx]
    · have hnames (v : TypeTable) (hv : v.entries = t.entries ++ [(x, ty.masked)]) (y : VarName) :
          y ∈ v.names ↔ y ∈ t.names ∨ y = x := by simp [names, hv]
      rw [assign_of_notMem hx]
      simp only [bind, Except.bind, ih, hnames _ rfl, List.map_cons, List.nodup_cons,
        List.mem_cons, forall_eq_or_imp, List.append_assoc, List.singleton_append, List.mem_map,
        not_exists, not_and, not_or]
      constructor
      · rintro ⟨hnodup, hnew, hu⟩
        exact ⟨⟨fun e he => (hnew e he).2, hnodup⟩, ⟨hx, fun e he => (hnew e he).1⟩, hu⟩
      · rintro ⟨⟨hne, hnodup⟩, ⟨-, hnew⟩, hu⟩
        exact ⟨hnodup, fun e he => ⟨hnew e he, hne e he⟩, hu⟩

/-- Several entries cannot be made if the name of one has an entry, or is that of another. -/
lemma assignAll_eq_error {es : List (VarName × Ty)} {e : Error} (h : t.assignAll es = .error e) :
    ∃ x existing attempted, e = .retyped x existing attempted ∧
      (x ∈ t.names ∧ x ∈ es.map Prod.fst ∨ 2 ≤ (es.map Prod.fst).count x) := by
  induction es generalizing t with
  | nil => cases h
  | cons p es ih =>
    obtain ⟨y, ty⟩ := p
    rw [assignAll_cons] at h
    by_cases hy : y ∈ t.names
    · obtain ⟨ty', hget⟩ := mem_names_iff.mp hy
      rw [assign, hget] at h
      cases h
      exact ⟨y, ty', ty, rfl, .inl ⟨hy, by simp⟩⟩
    · rw [assign_of_notMem hy] at h
      obtain ⟨x, existing, attempted, he, hx⟩ := ih h
      refine ⟨x, existing, attempted, he, ?_⟩
      rw [List.map_cons]
      rcases hx with ⟨hx, hmem⟩ | htwo
      · have hcount : 1 ≤ (es.map Prod.fst).count x := List.one_le_count_iff.mpr hmem
        by_cases hxy : x = y
        · -- the entry is that of the first name, which comes again
          subst hxy
          refine .inr ?_
          rw [List.count_cons_self]
          omega
        · have hold : x ∈ t.names := by simpa [names, hxy] using hx
          exact .inl ⟨hold, List.mem_cons_of_mem y hmem⟩
      · exact .inr (Nat.le_trans htwo List.count_le_count_cons)

/-- With no name twice, what can be looked up is what is entered. -/
lemma get?_eq_some_iff (h : t.names.Nodup) {x : VarName} {ty : Ty} :
    t.get? x = some ty ↔ (x, ty) ∈ t.entries := by
  refine ⟨mem_entries_of_get?, fun hm => ?_⟩
  obtain ⟨es⟩ := t
  simp only [get?, names] at h hm ⊢
  induction es with
  | nil => cases hm
  | cons e es ih =>
    obtain ⟨y, ty'⟩ := e
    obtain ⟨hy, hes⟩ := List.nodup_cons.mp h
    rcases List.mem_cons.mp hm with heq | hm
    · cases heq
      exact List.lookup_cons_self
    · have hxy : x ≠ y := fun he => hy (List.mem_map.mpr ⟨(x, ty), hm, he⟩)
      rw [List.lookup_cons, beq_false_of_ne hxy]
      exact ih hes hm

end TypeTable

/-! ### Usage -/

lemma eraseDups_concat {α : Type} [DecidableEq α] (as : List α) (a : α) :
    (as ++ [a]).eraseDups = if a ∈ as then as.eraseDups else as.eraseDups ++ [a] := by
  rw [List.eraseDups_append]
  split <;> simp [List.removeAll, List.eraseDups_cons, *]

lemma nodup_eraseDups {α : Type} [DecidableEq α] (as : List α) : as.eraseDups.Nodup := by
  induction as using List.reverseRecOn with
  | nil => simp
  | append_singleton as a ih =>
    rw [eraseDups_concat]
    split
    · exact ih
    · next ha =>
      rw [← List.concat_eq_append]
      exact ih.concat (mt List.mem_eraseDups.mp ha)

namespace Usage

variable {as bs : List Access} {x : VarName}

lemma mem_reads : x ∈ (ofAccesses as).reads ↔ .read x ∈ as := by
  simp only [ofAccesses, List.mem_eraseDups, List.mem_filterMap]
  constructor
  · rintro ⟨a, ha, hx⟩
    cases a <;> simp_all
  · intro h
    exact ⟨_, h, rfl⟩

lemma mem_writes : x ∈ (ofAccesses as).writes ↔ .write x ∈ as := by
  simp only [ofAccesses, List.mem_eraseDups, List.mem_filterMap]
  constructor
  · rintro ⟨a, ha, hx⟩
    cases a <;> simp_all
  · intro h
    exact ⟨_, h, rfl⟩

/-- A name is left to the default type if the program reads it, never writes it, and owns it. -/
lemma mem_unwritten : x ∈ (ofAccesses as).unwritten ↔
    .read x ∈ as ∧ VarName.isExternal x = false ∧ .write x ∉ as := by
  simp [unwritten, mem_reads, mem_writes]

lemma nodup_unwritten (as : List Access) : (ofAccesses as).unwritten.Nodup :=
  (nodup_eraseDups _).filter _

end Usage

namespace Stmt

mutual

lemma mem_accesses_of_leaf {l : Leaf} {a : Access} (s : Stmt) (hl : l ∈ s.leaves)
    (ha : a ∈ l.accesses) : a ∈ s.accesses := by
  match s with
  | .leaf l' =>
    rw [leaves, List.mem_singleton] at hl
    exact hl ▸ ha
  | .list body => exact mem_accessesOf_of_leaf body hl ha
  | .ifElse c t f =>
    rw [accesses, List.mem_append, List.mem_append]
    rcases List.mem_append.mp hl with hl | hl
    · exact .inl (.inr (mem_accessesOf_of_leaf t hl ha))
    · exact .inr (mem_accessesOf_of_leaf f hl ha)

lemma mem_accessesOf_of_leaf {l : Leaf} {a : Access} (ss : List Stmt) (hl : l ∈ leavesOf ss)
    (ha : a ∈ l.accesses) : a ∈ accessesOf ss := by
  match ss with
  | [] => cases hl
  | s :: ss =>
    rw [accessesOf, List.mem_append]
    rcases List.mem_append.mp hl with hl | hl
    · exact .inl (mem_accesses_of_leaf s hl ha)
    · exact .inr (mem_accessesOf_of_leaf ss hl ha)

end

end Stmt

lemma Leaf.write_mem_accesses {l : Leaf} {a : Assignment} (h : l.site? = some a) :
    .write a.target ∈ l.accesses := by
  cases l <;> simp_all [site?, accesses]

def Graph.sites (g : Graph) : List Assignment := Leaf.sites g.leaves

lemma Graph.target_notMem_unwritten {g : Graph} {a : Assignment} (ha : a ∈ g.sites) :
    a.target ∉ g.usage.unwritten := by
  obtain ⟨l, hl, hs⟩ := Leaf.mem_sites.mp ha
  intro hx
  exact (Usage.mem_unwritten.mp hx).2.2
    (Stmt.mem_accessesOf_of_leaf g.stmts hl (Leaf.write_mem_accesses hs))

/-! ### The seed -/

namespace Config

variable {c : Config} {g : Graph} {t : TypeTable}

def hintNames (c : Config) : List VarName := c.hints.map Hint.name

lemma assignAll_hints {u : TypeTable} :
    TypeTable.empty.assignAll (c.hints.map fun h => (h.name, h.ty)) = .ok u ↔
      c.hintNames.Nodup ∧ u.entries = c.hints.map fun h => (h.name, h.ty.masked) := by
  rw [TypeTable.assignAll_eq_ok_iff]
  simp [TypeTable.empty, TypeTable.names, hintNames, Function.comp_def]

/-- Of the program only the usage counts. -/
lemma seed_congr {g' : Graph} (h : g'.usage = g.usage) : c.seed g' = c.seed g := by
  rw [seed, seed, h]

/-- **The seed**: there is one exactly if no name is hinted twice, and it has the hints first. -/
theorem seed_eq_ok_iff : c.seed g = .ok t ↔ c.hintNames.Nodup ∧
    t.entries = (c.hints.map fun h => (h.name, h.ty.masked)) ++
      (g.usage.unwritten.filter fun x => x ∉ c.hintNames).map fun x => (x, c.defaultTy.masked) := by
  unfold seed
  cases hh : TypeTable.empty.assignAll (c.hints.map fun h => (h.name, h.ty)) with
  | error e =>
    have hdup : ¬ c.hintNames.Nodup := by
      intro hn
      have := (assignAll_hints (u := ⟨c.hints.map fun h => (h.name, h.ty.masked)⟩)).mpr ⟨hn, rfl⟩
      rw [hh] at this
      cases this
    simp [bind, Except.bind, hdup]
  | ok hinted =>
    obtain ⟨hn, he⟩ := assignAll_hints.mp hh
    have hnames : hinted.names = c.hintNames := by
      simp [TypeTable.names, he, hintNames, Function.comp_def]
    have hrest : (g.usage.unwritten.filter fun x => !hinted.contains x) =
        g.usage.unwritten.filter fun x => x ∉ c.hintNames := by
      refine List.filter_congr fun x _ => ?_
      simp [TypeTable.contains, hnames]
    have hnodup : (g.usage.unwritten.filter fun x => x ∉ c.hintNames).Nodup :=
      (Usage.nodup_unwritten _).filter _
    simp only [bind, Except.bind, TypeTable.assignAll_eq_ok_iff, hrest, he, hn, true_and,
      List.map_map, Function.comp_def, List.map_id', hnodup, List.mem_map, hnames]
    refine and_iff_right ?_
    rintro e ⟨x, hx, rfl⟩
    simpa using (List.mem_filter.mp hx).2

lemma exists_seed_iff : (∃ t, c.seed g = .ok t) ↔ c.hintNames.Nodup :=
  ⟨fun ⟨_, h⟩ => (seed_eq_ok_iff.mp h).1, fun h => ⟨⟨_⟩, seed_eq_ok_iff.mpr ⟨h, rfl⟩⟩⟩

/-- Seeding fails only for a name that is hinted twice. -/
lemma seed_eq_error {e : Error} (h : c.seed g = .error e) :
    ∃ x existing attempted, e = .retyped x existing attempted ∧ 2 ≤ c.hintNames.count x := by
  cases hh : TypeTable.empty.assignAll (c.hints.map fun h => (h.name, h.ty)) with
  | ok hinted =>
    -- once the hints are entered nothing can go wrong
    obtain ⟨hn, -⟩ := assignAll_hints.mp hh
    obtain ⟨t, ht⟩ := (exists_seed_iff (g := g)).mpr hn
    rw [ht] at h
    cases h
  | error e' =>
    have he : e' = e := by
      rw [seed, hh] at h
      exact Except.error.inj h
    subst he
    obtain ⟨x, existing, attempted, he, hx⟩ := TypeTable.assignAll_eq_error hh
    refine ⟨x, existing, attempted, he, ?_⟩
    have hnames : (c.hints.map fun h => (h.name, h.ty)).map Prod.fst = c.hintNames := by
      simp [hintNames, Function.comp_def]
    rw [hnames] at hx
    rcases hx with ⟨hx, -⟩ | htwo
    · simp [TypeTable.names, TypeTable.empty] at hx
    · exact htwo

lemma names_of_seed (h : c.seed g = .ok t) :
    t.names = c.hintNames ++ g.usage.unwritten.filter fun x => x ∉ c.hintNames := by
  simp [TypeTable.names, (seed_eq_ok_iff.mp h).2, hintNames, Function.comp_def]

lemma mem_names_of_seed (h : c.seed g = .ok t) {x : VarName} :
    x ∈ t.names ↔ x ∈ c.hintNames ∨ x ∈ g.usage.unwritten := by
  rw [names_of_seed h, List.mem_append, List.mem_filter, decide_eq_true_eq]
  tauto

lemma nodup_names_of_seed (h : c.seed g = .ok t) : t.names.Nodup := by
  rw [names_of_seed h]
  refine List.nodup_append.mpr ⟨(seed_eq_ok_iff.mp h).1, (Usage.nodup_unwritten _).filter _, ?_⟩
  rintro x hx y hy rfl
  simpa [hx] using (List.mem_filter.mp hy).2

/-- An assignment writes a name that the seed knows only if the name is hinted. -/
lemma hinted_of_mem_names (h : c.seed g = .ok t) {a : Assignment} (ha : a ∈ g.sites)
    (hx : a.target ∈ t.names) : a.target ∈ c.hintNames :=
  ((mem_names_of_seed h).mp hx).resolve_right (Graph.target_notMem_unwritten ha)

end Config

end TypeFlow
