import TypeFlow.Proofs.Failure

/-!
What a pass adds to the table.

A pass enters types one by one, from statements that are plain and from statements that are
annotated already, and it may fail in the middle. Whatever becomes of it, the table it leaves
begins with the table it was given, and each further entry is the type of an assignment. The type
was inferred when the entry was made, from what was known then; since a type once found does not
change, it is the type under the table that the pass leaves as well.
-/

namespace TypeFlow

open TypeTable

variable {t u : TypeTable}

lemma TypeTable.get?_of_mem_added {added : List (VarName × Ty)} {e : VarName × Ty}
    (hu : u.entries = t.entries ++ added) (hnodup : (added.map Prod.fst).Nodup)
    (hnew : e.1 ∉ t.names) (he : e ∈ added) : u.get? e.1 = some e.2 := by
  have hold : t.entries.lookup e.1 = none := get?_eq_none_iff.mpr hnew
  have hadded : (TypeTable.mk added).get? e.1 = some e.2 := (get?_eq_some_iff hnodup).mpr he
  rw [get?, hu, List.lookup_append, hold]
  exact hadded

/-- A table grows by entries at its end, for names that had none. -/
lemma Grows.exists_added {sites : List Assignment} (h : Grows sites t u) :
    ∃ added, u.entries = t.entries ++ added ∧ (added.map Prod.fst).Nodup ∧
      ∀ e ∈ added, e.1 ∉ t.names := by
  induction h with
  | refl t => exact ⟨[], by simp, by simp, by simp⟩
  | @note t u l hl h ih =>
    obtain ⟨added, hu, hnodup, hnew⟩ := ih
    rcases t.note_cases l with hn | ⟨e, he, hn⟩
    · rw [hn] at hu hnew
      exact ⟨added, hu, hnodup, hnew⟩
    · have hnames (x : VarName) : x ∈ (t.note l).names ↔ x ∈ t.names ∨ x = e.1 := by
        simp [hn, names]
      simp only [hnames, not_or] at hnew
      refine ⟨e :: added, ?_, ?_, ?_⟩
      · rw [hu, hn, List.append_assoc, List.singleton_append]
      · refine List.nodup_cons.mpr ⟨fun hmem => ?_, hnodup⟩
        obtain ⟨e', he', heq⟩ := List.mem_map.mp hmem
        exact (hnew e' he').2 heq
      · exact List.forall_mem_cons.mpr ⟨he, fun e' he' => (hnew e' he').1⟩

lemma Stops.grows {ls : List Leaf} {e : Error} (h : Stops t ls e u) :
    Grows (Leaf.sites ls) t u := by
  induction h with
  | here h => exact .refl _
  | later ha h ih => exact ih.cons

lemma Graph.grows_typingPass (g : Graph) (t : TypeTable) :
    Grows g.sites t (g.typingPass t).2 := by
  match hp : g.typingPass t with
  | (.ok (h, p), u) =>
    obtain ⟨ls', hsweep, -, -, -⟩ := typingPass_eq_ok hp
    exact hsweep.grows
  | (.error e, u) => exact (typingPass_eq_error hp).grows

/-- **A pass only adds to the table**: whether it succeeds or fails, the table it leaves begins with
the table it was given. The entries it adds are for names that had none, each name once, and each
is the type that an assignment to its name has under the table that is left, less the fault flag
where a kind remains. A pass that succeeds has counted what it added. -/
theorem Graph.typingPass_adds_justified (g : Graph) (t : TypeTable) :
    let u := (g.typingPass t).2
    ∃ added, u.entries = t.entries ++ added ∧ (added.map Prod.fst).Nodup ∧
      (∀ e ∈ added, e.1 ∉ t.names ∧ ∃ a ∈ g.sites, a.target = e.1 ∧
        a.value.infer u.get? ≠ .unassigned ∧
        e.2 = if (a.value.infer u.get?).kinds = [] then a.value.infer u.get?
          else (a.value.infer u.get?).withoutError) ∧
      ∀ h p, (g.typingPass t).1 = .ok (h, p) → added.length = p.modified + p.recorded := by
  intro u
  have hgrows : Grows g.sites t u := g.grows_typingPass t
  obtain ⟨added, hu, hnodup, hnew⟩ := hgrows.exists_added
  refine ⟨added, hu, hnodup, fun e he => ⟨hnew e he, ?_⟩, fun h p hok => ?_⟩
  · have hget : u.get? e.1 = some e.2 := get?_of_mem_added hu hnodup (hnew e he) he
    rcases hgrows.justified hget with hold | ⟨-, a, ha, htarget, hty, hmasked⟩
    · exact absurd (mem_names_iff.mpr ⟨_, hold⟩) (hnew e he)
    · exact ⟨a, ha, htarget, hty, by rw [hmasked, Ty.masked_eq]⟩
  · obtain ⟨-, -, -, -, hsize⟩ := typingPass_eq_ok (Prod.ext hok rfl : g.typingPass t = (_, u))
    rw [size, size, hu, List.length_append] at hsize
    omega

/-- Two entries are made before the pass fails over a second write, one of them for an assignment
that has the right annotation. Without the second write both are counted. -/
theorem Graph.typingPass_adds_justified_midway :
    let t : TypeTable := ⟨[("k", .string)]⟩
    let quotient : TypedAssignment :=
      ⟨⟨"q", .binary .divide (.var "a") (.var "a")⟩, ⟨true, false, true⟩⟩
    let first : Block := ⟨⟨0⟩, .entry, 0, [.ifElse (.var "k")
      [.leaf (.assign ⟨"a", .number ⟨1000⟩⟩)] [.list [.leaf (.typed quotient)]]]⟩
    let second : Block := ⟨⟨1⟩, .basic, 1, [.leaf (.assign ⟨"a", .var "k"⟩)]⟩
    let g : Graph := ⟨[first, second], []⟩
    let u : TypeTable := ⟨[("k", .string), ("a", .number), ("q", .number)]⟩
    g.typingPass t = (.error (.retyped "a" .number .string), u) ∧
      (∃ a ∈ g.sites, a.target = "q" ∧ a.value.infer u.get? ≠ .unassigned) ∧
      ∃ h p, (⟨[first], []⟩ : Graph).typingPass t = (.ok (h, p), u) ∧
        p.modified + p.recorded = 2 := by
  intro t quotient first second g u
  have hfail : g.typingPass t = (.error (.retyped "a" .number .string), u) := by decide +kernel
  have hok : (⟨[first], []⟩ : Graph).typingPass t = (.ok (⟨[⟨⟨0⟩, .entry, 0, [.ifElse (.var "k")
      [.leaf (.typed ⟨⟨"a", .number ⟨1000⟩⟩, .number⟩)] [.list [.leaf (.typed quotient)]]]⟩], []⟩,
      ⟨1, 1⟩), u) := by decide +kernel
  obtain ⟨added, hu, -, hadded, -⟩ := typingPass_adds_justified g t
  obtain ⟨added', hu', -, -, hcount⟩ := typingPass_adds_justified ⟨[first], []⟩ t
  rw [hfail] at hu hadded
  rw [hok] at hu' hcount
  obtain rfl : [("a", Ty.number), ("q", Ty.number)] = added :=
    (List.append_right_inj t.entries).mp hu
  obtain rfl : [("a", Ty.number), ("q", Ty.number)] = added' :=
    (List.append_right_inj t.entries).mp hu'
  obtain ⟨-, a, ha, htarget, hty, -⟩ := hadded ("q", .number) (by simp)
  exact ⟨hfail, ⟨a, ha, htarget, hty⟩, _, _, hok, (hcount _ _ rfl).symm⟩

end TypeFlow
