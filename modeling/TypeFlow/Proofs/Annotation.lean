import TypeFlow.Proofs.Strictness
import TypeFlow.Typing.Growth

/-!
What flow typing makes of a leaf, and what it learns from one, each as a function of its own.

Neither depends on the annotation a leaf came with. What a leaf becomes once its value has a
type is the same whatever becomes known later, and what it enters in the table stays there.
-/

namespace TypeFlow

namespace Leaf

/-- The assignment a leaf makes, less its annotation. -/
def site? : Leaf → Option Assignment
  | .assign a => some a
  | .typed a => some a.toAssignment
  | _ => none

def sites (ls : List Leaf) : List Assignment := ls.filterMap site?

lemma mem_sites {ls : List Leaf} {a : Assignment} :
    a ∈ sites ls ↔ ∃ l ∈ ls, l.site? = some a := List.mem_filterMap

lemma sites_cons_of_site {l : Leaf} {a : Assignment} (h : l.site? = some a) (ls : List Leaf) :
    sites (l :: ls) = a :: sites ls := List.filterMap_cons_some h

lemma sites_sublist_cons (l : Leaf) (ls : List Leaf) : (sites ls).Sublist (sites (l :: ls)) :=
  (List.sublist_cons_self l ls).filterMap site?

/-- Compound assignments and expression statements have to be lowered first. -/
def IsSupported : Leaf → Prop
  | .compound _ | .eval _ => False
  | _ => True

/-- An assignment whose value has a type is annotated with it, and all else stays. -/
def annotate (known : Lookup) (l : Leaf) : Leaf :=
  match l.site? with
  | none => l
  | some a =>
    if a.value.infer known = .unassigned then l else .typed { a with ty := a.value.infer known }

variable {known : Lookup} {l : Leaf} {a : Assignment}

lemma annotate_of_none (h : l.site? = none) : l.annotate known = l := by
  simp [annotate, h]

lemma annotate_of_unassigned (h : l.site? = some a) (hu : a.value.infer known = .unassigned) :
    l.annotate known = l := by
  simp [annotate, h, hu]

lemma annotate_of_typable (h : l.site? = some a) (hu : a.value.infer known ≠ .unassigned) :
    l.annotate known = .typed { a with ty := a.value.infer known } := by
  simp [annotate, h, hu]

lemma typable_of_annotate_ne (h : l.annotate known ≠ l) :
    ∃ a, l.site? = some a ∧ a.value.infer known ≠ .unassigned := by
  cases hl : l.site? with
  | none => exact absurd (annotate_of_none hl) h
  | some a => exact ⟨a, rfl, fun hu => h (annotate_of_unassigned hl hu)⟩

lemma IsSupported.of_site (h : l.site? = some a) : l.IsSupported := by
  cases l <;> simp_all [site?, IsSupported]

lemma IsSupported.annotate (h : l.IsSupported) : (l.annotate known).IsSupported := by
  by_cases hl : l.annotate known = l
  · rwa [hl]
  · obtain ⟨a, hs, hu⟩ := typable_of_annotate_ne hl
    rw [annotate_of_typable hs hu]
    exact .of_site rfl

@[simp] lemma site?_annotate : (l.annotate known).site? = l.site? := by
  unfold annotate
  split
  · rfl
  · next a ha =>
    split
    · rfl
    · exact ha.symm

/-- Annotating with less that is known makes no difference once more is known. -/
lemma annotate_annotate_of_le {known' : Lookup} (h : known.Le known') (l : Leaf) :
    (l.annotate known).annotate known' = l.annotate known' := by
  cases hl : l.site? with
  | none => rw [annotate_of_none hl]
  | some a =>
    by_cases hu : a.value.infer known = .unassigned
    · rw [annotate_of_unassigned hl hu]
    · have hu' : a.value.infer known' ≠ .unassigned := by rwa [Expr.infer_eq_of_le h hu]
      rw [annotate_of_typable hl hu, annotate_of_typable hl hu', annotate_of_typable rfl hu']

/-- Whoever knows less has nothing to change in what was annotated by who knows more. -/
lemma annotate_annotate_of_ge {known' : Lookup} (h : known.Le known') (l : Leaf) :
    (l.annotate known').annotate known = l.annotate known' := by
  cases hl : l.site? with
  | none => rw [annotate_of_none hl, annotate_of_none hl]
  | some a =>
    have hl' : (l.annotate known').site? = some a := by rw [site?_annotate, hl]
    by_cases hu : a.value.infer known = .unassigned
    · rw [annotate_of_unassigned hl' hu]
    · have hu' := Expr.infer_eq_of_le h hu
      rw [annotate_of_typable hl' hu, annotate_of_typable hl (by rwa [hu']), hu']

end Leaf

/-! ### The table -/

namespace TypeTable

variable {t u v : TypeTable} {x : VarName} {ty : Ty}

lemma get?_eq_none_iff : t.get? x = none ↔ x ∉ t.names := by
  simp only [get?, names, List.lookup_eq_none_iff, bne_iff_ne, List.mem_map, not_exists, not_and]
  exact forall₂_congr fun p _ => ne_comm

lemma mem_names_iff : x ∈ t.names ↔ ∃ ty, t.get? x = some ty := by
  rw [← Option.ne_none_iff_exists', ne_eq, get?_eq_none_iff, not_not]

@[simp] lemma contains_iff : t.contains x = true ↔ x ∈ t.names := by
  simp [contains]

lemma mem_entries_of_get? (h : t.get? x = some ty) : (x, ty) ∈ t.entries := by
  obtain ⟨as, bs, he, -⟩ := List.lookup_eq_some_iff.mp h
  simp [he]

lemma assign_of_get? {ty' : Ty} (h : t.get? x = some ty') (ty : Ty) :
    t.assign x ty = .error (.retyped x ty' ty) := by
  rw [assign, h]

lemma assign_of_mem (h : x ∈ t.names) (ty : Ty) : ∃ e, t.assign x ty = .error e := by
  obtain ⟨ty', hx⟩ := mem_names_iff.mp h
  exact ⟨_, assign_of_get? hx ty⟩

lemma assign_of_notMem (h : x ∉ t.names) :
    t.assign x ty = .ok ⟨t.entries ++ [(x, ty.masked)]⟩ := by
  rw [assign, get?_eq_none_iff.mpr h]

/-- The entries of `t` are the first ones of `u`. -/
def Extends (t u : TypeTable) : Prop := t.entries <+: u.entries

lemma Extends.refl (t : TypeTable) : t.Extends t := List.prefix_rfl

lemma Extends.trans (h : t.Extends u) (h' : u.Extends v) : t.Extends v := List.IsPrefix.trans h h'

lemma Extends.le (h : t.Extends u) : t.get?.Le u.get? := fun _ _ hx =>
  List.IsPrefix.lookup_eq_some h hx

lemma Extends.names_subset (h : t.Extends u) (hx : x ∈ t.names) : x ∈ u.names := by
  obtain ⟨ty, hty⟩ := mem_names_iff.mp hx
  exact mem_names_iff.mpr ⟨ty, h.le x ty hty⟩

lemma Extends.eq_of_size (h : t.Extends u) (hs : t.size = u.size) : t = u := by
  obtain ⟨es⟩ := t
  obtain ⟨es'⟩ := u
  exact congrArg mk (List.IsPrefix.eq_of_length h hs)

lemma Extends.antisymm (h : t.Extends u) (h' : u.Extends t) : t = u :=
  h.eq_of_size (Nat.le_antisymm (List.IsPrefix.length_le h) (List.IsPrefix.length_le h'))

lemma append_ne (t : TypeTable) (e : VarName × Ty) : (⟨t.entries ++ [e]⟩ : TypeTable) ≠ t := by
  intro h
  have := congrArg size h
  simp [size] at this

/-- The table after a leaf: the target of an assignment whose value has a type is entered,
unless it has an entry. -/
def note (t : TypeTable) (l : Leaf) : TypeTable :=
  match l.site? with
  | none => t
  | some a =>
    if a.value.infer t.get? = .unassigned ∨ a.target ∈ t.names then t
    else ⟨t.entries ++ [(a.target, (a.value.infer t.get?).masked)]⟩

variable {l : Leaf} {a : Assignment}

lemma note_of_unassigned (h : l.site? = some a) (hu : a.value.infer t.get? = .unassigned) :
    t.note l = t := by
  simp [note, h, hu]

lemma note_of_mem (h : l.site? = some a) (hx : a.target ∈ t.names) : t.note l = t := by
  simp [note, h, hx]

lemma note_of_notMem (h : l.site? = some a) (hu : a.value.infer t.get? ≠ .unassigned)
    (hx : a.target ∉ t.names) :
    t.note l = ⟨t.entries ++ [(a.target, (a.value.infer t.get?).masked)]⟩ := by
  simp [note, h, hu, hx]

lemma note_congr {l l' : Leaf} (h : l.site? = l'.site?) : t.note l = t.note l' := by
  simp only [note, h]

lemma note_cases (t : TypeTable) (l : Leaf) :
    t.note l = t ∨ ∃ e : VarName × Ty, e.1 ∉ t.names ∧ t.note l = ⟨t.entries ++ [e]⟩ := by
  unfold note
  split
  · exact .inl rfl
  · split
    · exact .inl rfl
    · next hc => exact .inr ⟨_, (not_or.mp hc).2, rfl⟩

lemma extends_note (t : TypeTable) (l : Leaf) : t.Extends (t.note l) := by
  rcases t.note_cases l with hn | ⟨e, -, hn⟩
  · exact hn.symm ▸ .refl t
  · exact hn.symm ▸ List.prefix_append _ _

lemma target_mem_names_note (h : l.site? = some a) (hu : a.value.infer t.get? ≠ .unassigned) :
    a.target ∈ (t.note l).names := by
  by_cases hx : a.target ∈ t.names
  · exact (extends_note t l).names_subset hx
  · simp [note_of_notMem h hu hx, names]

lemma note_eq_or_size (t : TypeTable) (l : Leaf) :
    t.note l = t ∨ (t.note l).size = t.size + 1 := by
  rcases t.note_cases l with hn | ⟨e, -, hn⟩
  · exact .inl hn
  · exact .inr (by simp [hn, size])

lemma get?_note (h : (t.note l).get? x = some ty) :
    t.get? x = some ty ∨ x ∉ t.names ∧ ∃ a, l.site? = some a ∧ a.target = x ∧
      a.value.infer t.get? ≠ .unassigned ∧ ty = (a.value.infer t.get?).masked := by
  unfold note at h
  split at h
  · exact .inl h
  · next a ha =>
    split at h
    · exact .inl h
    · next hc =>
      obtain ⟨hu, hx⟩ := not_or.mp hc
      rw [get?, List.lookup_append, Option.or_eq_some_iff] at h
      rcases h with h | ⟨hnone, h⟩
      · exact .inl h
      · by_cases hxa : x = a.target
        · subst hxa
          rw [List.lookup_cons_self] at h
          cases h
          exact .inr ⟨hx, a, ha, rfl, hu, rfl⟩
        · simp [List.lookup_cons, beq_false_of_ne hxa] at h

end TypeTable

/-! ### Growth of the table -/

/-- The table `u` comes from `t` by noting leaves, all of which make assignments of `sites`. -/
inductive Grows (sites : List Assignment) : TypeTable → TypeTable → Prop
  | refl (t : TypeTable) : Grows sites t t
  | note {t u : TypeTable} {l : Leaf} (hl : ∀ a, l.site? = some a → a ∈ sites)
    (h : Grows sites (t.note l) u) : Grows sites t u

namespace Grows

open TypeTable

variable {sites : List Assignment} {t u v : TypeTable}

lemma trans (h : Grows sites t u) (h' : Grows sites u v) : Grows sites t v := by
  induction h with
  | refl t => exact h'
  | note hl h ih => exact .note hl (ih h')

lemma mono {sites' : List Assignment} (hsub : sites ⊆ sites') (h : Grows sites t u) :
    Grows sites' t u := by
  induction h with
  | refl t => exact .refl t
  | note hl h ih => exact .note (fun a ha => hsub (hl a ha)) ih

/-- The table grows by leaves that are noted one after the other. -/
lemma cons {l : Leaf} {ls : List Leaf} (h : Grows (Leaf.sites ls) (t.note l) u) :
    Grows (Leaf.sites (l :: ls)) t u := by
  refine .note (fun a hs => ?_) (h.mono (Leaf.sites_sublist_cons l ls).subset)
  exact Leaf.mem_sites.mpr ⟨l, List.mem_cons_self, hs⟩

lemma table_extends (h : Grows sites t u) : t.Extends u := by
  induction h with
  | refl t => exact .refl t
  | note hl h ih => exact (extends_note _ _).trans ih

/-- What holds of the entries at the start, and of each entry made for an assignment, holds of
all entries at the end. -/
theorem entries_induction {Q : VarName → Ty → Prop} (h : Grows sites t u)
    (h0 : ∀ x ty, t.get? x = some ty → Q x ty)
    (hstep : ∀ (v : TypeTable) (a : Assignment), t.Extends v → v.Extends u →
      (∀ x ty, v.get? x = some ty → Q x ty) → a ∈ sites →
      a.value.infer v.get? ≠ .unassigned → a.target ∉ v.names →
      Q a.target (a.value.infer v.get?).masked) :
    ∀ x ty, u.get? x = some ty → Q x ty := by
  induction h with
  | refl t => exact h0
  | @note t u l hl h ih =>
    have htn : t.Extends (t.note l) := extends_note t l
    refine ih (fun x ty hx => ?_) fun v a hnv => hstep v a (htn.trans hnv)
    rcases get?_note hx with hx | ⟨hnew, a, ha, rfl, hu, rfl⟩
    · exact h0 x ty hx
    · exact hstep t a (.refl t) (htn.trans h.table_extends) h0 (hl a ha) hu hnew

/-- An entry that was not there at the start is the type of an assignment to its name. -/
theorem justified (h : Grows sites t u) {x : VarName} {ty : Ty} (hx : u.get? x = some ty) :
    t.get? x = some ty ∨ x ∉ t.names ∧ ∃ a ∈ sites, a.target = x ∧
      a.value.infer u.get? ≠ .unassigned ∧ ty = (a.value.infer u.get?).masked := by
  refine h.entries_induction (Q := fun x ty => t.get? x = some ty ∨ x ∉ t.names ∧
    ∃ a ∈ sites, a.target = x ∧ a.value.infer u.get? ≠ .unassigned ∧
      ty = (a.value.infer u.get?).masked) (fun x ty hx => .inl hx) ?_ x ty hx
  intro v a htv hvu _ ha hu hnew
  have hinfer := Expr.infer_eq_of_le hvu.le hu
  exact .inr ⟨mt htv.names_subset hnew, a, ha, rfl, by rwa [hinfer], by rw [hinfer]⟩

end Grows

end TypeFlow
