import TypeFlow.Proofs.Annotation
import TypeFlow.Proofs.Traversal

/-!
A pass as a sweep along the leaves of a graph.

At each leaf a pass either gets on, and then annotates the leaf and notes its target, or fails.
Only whether it gets on depends on the annotation that the leaf came with.
-/

namespace TypeFlow

open TypeTable

/-! ### One leaf -/

/-- A pass gets past the leaf: it is supported, and if it has to be annotated, its target has no
entry yet. -/
def Leaf.Accepted (t : TypeTable) (l : Leaf) : Prop :=
  l.IsSupported ∧ (l.annotate t.get? = l ∨ ∀ a ∈ l.site?, a.target ∉ t.names)

def PassState.after (s : PassState) (l : Leaf) : PassState where
  types := s.types.note l
  progress.modified := s.progress.modified + if l.annotate s.types.get? = l then 0 else 1
  progress.recorded :=
    s.progress.recorded + if l.annotate s.types.get? = l ∧ s.types.note l ≠ s.types then 1 else 0

lemma PassM.enter_of_get? {x : VarName} {ty ty' : Ty} {count : Progress → Progress} {r : Stmt}
    {s : PassState} (h : s.types.get? x = some ty') :
    PassM.enter x ty count r s = .error (.retyped x ty' ty) s := by
  rw [enter, assign_of_get? h]

lemma PassM.enter_of_notMem {x : VarName} {ty : Ty} {count : Progress → Progress} {r : Stmt}
    {s : PassState} (h : x ∉ s.types.names) :
    PassM.enter x ty count r s =
      .ok r ⟨⟨s.types.entries ++ [(x, ty.masked)]⟩, count s.progress⟩ := by
  rw [enter, assign_of_notMem h]

/-- What a verdict on a leaf says about it. -/
inductive Leaf.Judged (t : TypeTable) (l : Leaf) : Verdict → Prop
  | keep (hs : l.IsSupported) (ha : l.annotate t.get? = l) (hn : t.note l = t) : Judged t l .keep
  | record {a : Assignment} (hs : l.IsSupported) (hl : l.site? = some a)
    (hu : a.value.infer t.get? ≠ .unassigned) (ha : l.annotate t.get? = l)
    (hx : a.target ∉ t.names) : Judged t l (.record a.target (a.value.infer t.get?))
  | annotate {a : Assignment} (hs : l.IsSupported) (hl : l.site? = some a)
    (hu : a.value.infer t.get? ≠ .unassigned) (ha : l.annotate t.get? ≠ l) :
    Judged t l (.annotate a (a.value.infer t.get?))
  | refuse {w : Unsupported} (hs : ¬ l.IsSupported) : Judged t l (.refuse w)

lemma Leaf.judged_verdict (t : TypeTable) (l : Leaf) : l.Judged t (l.verdict t) := by
  cases l with
  | empty => exact .keep trivial rfl rfl
  | goto e => exact .keep trivial rfl rfl
  | marker m => exact .keep trivial rfl rfl
  | compound a => exact .refuse id
  | eval e => exact .refuse id
  | assign a =>
    by_cases hu : a.value.infer t.get? = .unassigned
    · rw [verdict, if_pos hu]
      exact .keep trivial (annotate_of_unassigned rfl hu) (note_of_unassigned rfl hu)
    · rw [verdict, if_neg hu]
      exact .annotate trivial rfl hu (by rw [annotate_of_typable rfl hu]; simp)
  | typed a =>
    by_cases hu : a.value.infer t.get? = .unassigned
    · rw [verdict, if_pos hu]
      exact .keep trivial (annotate_of_unassigned rfl hu) (note_of_unassigned rfl hu)
    · have hann : (Leaf.typed a).annotate t.get? = .typed { a with ty := a.value.infer t.get? } :=
        annotate_of_typable rfl hu
      rw [verdict, if_neg hu]
      split
      · next hty =>
        refine .annotate trivial rfl hu fun h => hty ?_
        rw [hann] at h
        exact congrArg TypedAssignment.ty (Leaf.typed.inj h)
      · next hty =>
        rw [not_not.mp hty] at hann
        split
        · next hx => exact .keep trivial hann (note_of_mem rfl (contains_iff.mp hx))
        · next hx => exact .record trivial rfl hu hann (mt contains_iff.mpr hx)

theorem Leaf.assignType_of_accepted {l : Leaf} {s : PassState} (h : l.Accepted s.types) :
    l.assignType s = .ok (.leaf (l.annotate s.types.get?)) (s.after l) := by
  have hj := l.judged_verdict s.types
  unfold assignType PassState.after
  generalize l.verdict s.types = v at hj
  cases hj with
  | keep hs ha hn => simp [ha, hn]
  | record hs hl hu ha hx =>
    simp [PassM.enter_of_notMem hx, ha, note_of_notMem hl hu hx, append_ne]
  | annotate hs hl hu ha =>
    have hx := (h.2.resolve_left ha) _ hl
    rw [annotate_of_typable hl hu] at ha ⊢
    simp [PassM.enter_of_notMem hx, ha, note_of_notMem hl hu hx]
  | refuse hs => exact absurd h.1 hs

theorem Leaf.accepted_of_assignType {l : Leaf} {s s' : PassState} {r : Stmt}
    (h : l.assignType s = .ok r s') : l.Accepted s.types := by
  have hj := l.judged_verdict s.types
  unfold assignType at h
  generalize l.verdict s.types = v at hj h
  cases hj with
  | keep hs ha hn => exact ⟨hs, .inl ha⟩
  | record hs hl hu ha hx => exact ⟨hs, .inl ha⟩
  | @annotate a hs hl hu ha =>
    refine ⟨hs, .inr fun b hb hx => ?_⟩
    obtain rfl : b = a := Option.some.inj (hb.symm.trans hl)
    obtain ⟨ty, hty⟩ := mem_names_iff.mp hx
    exact absurd ((PassM.enter_of_get? hty).symm.trans h) (by simp)
  | refuse hs => cases h

/-! ### The whole pass -/

/-- A pass gets past the leaves `ls`, which become `ls'`, and takes the table from `t` to `u`. -/
inductive Sweep : TypeTable → List Leaf → List Leaf → TypeTable → Prop
  | nil (t : TypeTable) : Sweep t [] [] t
  | cons {t u : TypeTable} {l : Leaf} {ls ls' : List Leaf} (ha : l.Accepted t)
    (h : Sweep (t.note l) ls ls' u) : Sweep t (l :: ls) (l.annotate t.get? :: ls') u

/-- How many leaves differ between two lists, place by place. -/
def Leaf.changes (ls ls' : List Leaf) : ℕ := (ls.zip ls').countP fun p => p.1 ≠ p.2

lemma Leaf.changes_cons (l l' : Leaf) (ls ls' : List Leaf) :
    changes (l :: ls) (l' :: ls') = changes ls ls' + if l' = l then 0 else 1 := by
  by_cases h : l' = l
  · simp [changes, h]
  · simp [changes, h, Ne.symm h]

/-- Every entry that a leaf makes is counted once. -/
lemma PassState.size_after (s : PassState) {l : Leaf} (h : l.Accepted s.types) :
    (s.after l).types.size + (s.progress.modified + s.progress.recorded) =
      s.types.size + ((s.after l).progress.modified + (s.after l).progress.recorded) := by
  have hsize := s.types.note_eq_or_size l
  simp only [after]
  by_cases ha : l.annotate s.types.get? = l
  · rcases hsize with hn | hn
    · simp [ha, hn]
    · have hne : s.types.note l ≠ s.types := fun he => by rw [he] at hn; omega
      simp only [ha, hne, ne_eq, not_false_eq_true, and_self, if_true]
      omega
  · obtain ⟨a, hl, hu⟩ := Leaf.typable_of_annotate_ne ha
    have hx := h.2.resolve_left ha a hl
    simp [ha, note_of_notMem hl hu hx, size]
    omega

theorem Sweep.mapM_assignType {t u : TypeTable} {ls ls' : List Leaf} (h : Sweep t ls ls' u)
    {s : PassState} (hs : s.types = t) :
    ∃ s', ls.mapM Leaf.assignType s = .ok (ls'.map .leaf) s' ∧ s'.types = u := by
  induction h generalizing s with
  | nil t => exact ⟨s, rfl, hs⟩
  | @cons t u l ls ls' ha h ih =>
    subst hs
    obtain ⟨s', hs', hu⟩ := ih (s := s.after l) rfl
    refine ⟨s', ?_, hu⟩
    rw [List.mapM_cons, EStateM.bind_of_ok (Leaf.assignType_of_accepted ha), EStateM.bind_of_ok hs']
    rfl

theorem mapM_assignType_eq_ok {ls : List Leaf} {s s' : PassState} {rs : List Stmt}
    (h : ls.mapM Leaf.assignType s = .ok rs s') :
    ∃ ls', rs = ls'.map .leaf ∧ Sweep s.types ls ls' s'.types ∧
      s'.progress.modified = s.progress.modified + Leaf.changes ls ls' ∧
      s'.types.size + (s.progress.modified + s.progress.recorded) =
        s.types.size + (s'.progress.modified + s'.progress.recorded) := by
  induction ls generalizing s rs with
  | nil =>
    cases h
    exact ⟨[], rfl, .nil _, rfl, rfl⟩
  | cons l ls ih =>
    rw [List.mapM_cons] at h
    obtain ⟨r, s₁, hl, h⟩ := EStateM.bind_eq_ok h
    obtain ⟨rs, s₂, hls, h⟩ := EStateM.bind_eq_ok h
    cases h
    have ha := Leaf.accepted_of_assignType hl
    rw [Leaf.assignType_of_accepted ha] at hl
    cases hl
    obtain ⟨ls', rfl, hsweep, hmod, hsize⟩ := ih hls
    refine ⟨_, rfl, .cons ha hsweep, ?_, ?_⟩
    · rw [hmod, Leaf.changes_cons]
      simp only [PassState.after]
      omega
    · have := s.size_after ha
      omega

/-- What a pass that succeeds has done. -/
theorem Graph.typingPass_eq_ok {g h : Graph} {t u : TypeTable} {p : Progress}
    (hp : g.typingPass t = (.ok (h, p), u)) :
    ∃ ls', Sweep t g.leaves ls' u ∧ h = g.refill (ls'.map .leaf) ∧
      p.modified = Leaf.changes g.leaves ls' ∧ u.size = t.size + (p.modified + p.recorded) := by
  unfold typingPass assignTypes at hp
  rw [modifyBlocks_ofLeaf] at hp
  split at hp
  · next h' s hs =>
    obtain ⟨rs, s', hrs, hdone⟩ := EStateM.bind_eq_ok hs
    cases hdone
    cases hp
    obtain ⟨ls', rfl, hsweep, hmod, hsize⟩ := mapM_assignType_eq_ok hrs
    exact ⟨ls', hsweep, rfl, by simpa [Progress.none] using hmod,
      by simpa [Progress.none] using hsize⟩
  · cases hp

lemma Sweep.length_eq {t u : TypeTable} {ls ls' : List Leaf} (h : Sweep t ls ls' u) :
    ls'.length = ls.length := by
  induction h with
  | nil t => rfl
  | cons ha h ih => simp [ih]

/-- A pass succeeds where there is a sweep. -/
theorem Sweep.typingPass_eq {g : Graph} {t u : TypeTable} {ls' : List Leaf}
    (h : Sweep t g.leaves ls' u) :
    ∃ p, g.typingPass t = (.ok (g.refill (ls'.map .leaf), p), u) ∧
      p.modified = Leaf.changes g.leaves ls' := by
  obtain ⟨s', hs', hu⟩ := h.mapM_assignType (s := ⟨t, .none⟩) rfl
  have hp : g.typingPass t = (.ok (g.refill (ls'.map .leaf), s'.progress), u) := by
    unfold Graph.typingPass Graph.assignTypes
    rw [Graph.modifyBlocks_ofLeaf, EStateM.run, EStateM.bind_of_ok hs', ← hu]
    rfl
  obtain ⟨ls₁, hsweep, hgraph, hmod, -⟩ := Graph.typingPass_eq_ok hp
  have hls : ls' = ls₁ := by
    rw [← Graph.leaves_refill h.length_eq, hgraph, Graph.leaves_refill hsweep.length_eq]
  exact ⟨s'.progress, hp, hls ▸ hmod⟩

/-! ### What a sweep leaves alone, and what it adds -/

namespace Sweep

variable {t u : TypeTable} {ls ls' : List Leaf} {known : Lookup}

lemma sites_eq (h : Sweep t ls ls' u) : Leaf.sites ls' = Leaf.sites ls := by
  induction h with
  | nil t => rfl
  | cons ha h ih =>
    simp only [Leaf.sites, List.filterMap_cons, Leaf.site?_annotate] at ih ⊢
    rw [ih]

lemma supported (h : Sweep t ls ls' u) : ∀ l ∈ ls, l.IsSupported := by
  induction h with
  | nil t => simp
  | cons ha h ih => simpa using ⟨ha.1, ih⟩

lemma grows (h : Sweep t ls ls' u) : Grows (Leaf.sites ls) t u := by
  induction h with
  | nil t => exact .refl t
  | cons ha h ih => exact ih.cons

lemma table_extends (h : Sweep t ls ls' u) : t.Extends u := h.grows.table_extends

/-- What a sweep annotates comes out alike once more is known. -/
lemma map_annotate (h : Sweep t ls ls' u) (hk : u.get?.Le known) :
    ls'.map (Leaf.annotate known) = ls.map (Leaf.annotate known) := by
  induction h with
  | nil t => rfl
  | cons ha h ih =>
    have ht := ((extends_note _ _).trans h.table_extends).le.trans hk
    rw [List.map_cons, List.map_cons, ih hk, Leaf.annotate_annotate_of_le ht]

/-- A sweep that enters nothing has judged every leaf by the same table. -/
lemma eq_map_annotate (h : Sweep t ls ls' u) (hu : u = t) :
    ls' = ls.map (Leaf.annotate t.get?) := by
  induction h with
  | nil t => rfl
  | @cons t u l ls ls' ha h ih =>
    subst hu
    have hn : u.note l = u := (h.table_extends).antisymm (extends_note u l)
    rw [List.map_cons, ih hn.symm, hn]

lemma target_mem_names (h : Sweep t ls ls' u) {a : Assignment} (ha : a ∈ Leaf.sites ls)
    (hu : a.value.infer t.get? ≠ .unassigned) : a.target ∈ u.names := by
  obtain ⟨l₀, hl₀, hs⟩ := Leaf.mem_sites.mp ha
  clear ha
  induction h with
  | nil t => cases hl₀
  | @cons t u l ls ls' hacc h ih =>
    rcases List.mem_cons.mp hl₀ with rfl | hl₀
    · exact h.table_extends.names_subset (target_mem_names_note hs hu)
    · exact ih (by rwa [Expr.infer_eq_of_le (extends_note t l).le hu]) hl₀

end Sweep

end TypeFlow
