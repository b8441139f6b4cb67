import TypeFlow.Proofs.Seeding
import TypeFlow.Proofs.Settling

/-!
Who may write a name that has a type.

A run that succeeds has annotated every leaf that still lacked its annotation, and could do so
only while the target had no entry. So among the writes to one name at most one was left to be
annotated, and none if the name was hinted. A leaf that comes with the right annotation is not
held to this: the entry it finds is taken for its own.
-/

namespace TypeFlow

open TypeTable

namespace Leaf

/-- The leaf is an assignment whose value has a type. -/
def Typable (known : Lookup) (l : Leaf) : Prop :=
  ∃ a, l.site? = some a ∧ a.value.infer known ≠ .unassigned

/-- The leaf is an assignment whose value has a type, and it is annotated with this type. -/
def Settled (known : Lookup) (l : Leaf) : Prop :=
  ∃ a, l = .typed a ∧ a.value.infer known = a.ty ∧ a.ty ≠ .unassigned

/-- The leaf is still to be annotated. -/
def Pending (known : Lookup) (l : Leaf) : Prop := l.annotate known ≠ l

variable {known : Lookup} {l : Leaf}

lemma target?_eq (l : Leaf) : l.target? = l.site?.map Assignment.target := by
  cases l <;> rfl

lemma target?_of_site {a : Assignment} (h : l.site? = some a) : l.target? = some a.target := by
  rw [target?_eq, h, Option.map_some]

lemma targets_eq_map_sites (ls : List Leaf) : targets ls = (sites ls).map Assignment.target := by
  rw [targets, sites, List.map_filterMap]
  exact congrArg (List.filterMap · ls) (funext target?_eq)

lemma Pending.typable (h : l.Pending known) : l.Typable known := typable_of_annotate_ne h

lemma Typable.settled_or_pending (h : l.Typable known) : l.Settled known ∨ l.Pending known := by
  obtain ⟨a, hl, hu⟩ := h
  by_cases hp : l.annotate known = l
  · rw [annotate_of_typable hl hu] at hp
    exact .inl ⟨_, hp.symm, rfl, hu⟩
  · exact .inr hp

lemma Settled.not_pending (h : l.Settled known) : ¬ l.Pending known := by
  obtain ⟨a, rfl, hinfer, hty⟩ := h
  have hu : a.value.infer known ≠ .unassigned := by rwa [hinfer]
  rw [Pending, not_not, annotate_of_typable (l := .typed a) rfl hu, hinfer]

lemma not_pending_annotate (l : Leaf) : ¬ (l.annotate known).Pending known :=
  not_not.mpr (annotate_annotate_of_le (.refl known) l)

lemma Settled.mono {known' : Lookup} (hle : known.Le known') (h : l.Settled known) :
    l.Settled known' := by
  obtain ⟨a, rfl, hinfer, hty⟩ := h
  exact ⟨a, rfl, by rw [Expr.infer_eq_of_le hle (by rwa [hinfer]), hinfer], hty⟩

lemma Typable.settled_annotate (h : l.Typable known) : (l.annotate known).Settled known := by
  obtain ⟨a, hl, hu⟩ := h
  rw [annotate_of_typable hl hu]
  exact ⟨_, rfl, rfl, hu⟩

end Leaf

/-- Nothing stands in the way of the leaves still to be annotated: their targets have no entry,
and no two of them write the same name. -/
structure Unobstructed (known : Lookup) (t : TypeTable) (ls : List Leaf) : Prop where
  fresh : ∀ l ∈ ls, l.Pending known → ∀ x ∈ l.target?, x ∉ t.names
  distinct : ls.Pairwise fun l l' => l.Pending known → l'.Pending known → l.target? ≠ l'.target?

namespace Unobstructed

variable {known : Lookup} {t u : TypeTable} {l : Leaf} {ls : List Leaf}

lemma cons (h : Unobstructed known t ls)
    (hl : l.Pending known → ∀ x ∈ l.target?, x ∉ t.names)
    (hd : ∀ k ∈ ls, l.Pending known → k.Pending known → l.target? ≠ k.target?) :
    Unobstructed known t (l :: ls) :=
  ⟨by simpa using ⟨hl, h.fresh⟩, List.pairwise_cons.mpr ⟨hd, h.distinct⟩⟩

lemma tail (h : Unobstructed known t (l :: ls)) : Unobstructed known t ls :=
  ⟨fun k hk => h.fresh k (List.mem_cons_of_mem l hk), (List.pairwise_cons.mp h.distinct).2⟩

lemma mono (h : Unobstructed known u ls) (htu : t.Extends u) : Unobstructed known t ls :=
  ⟨fun k hk hp x hx hxt => h.fresh k hk hp x hx (htu.names_subset hxt), h.distinct⟩

end Unobstructed

/-- After a sweep a leaf is as it was, or its target has an entry. -/
lemma Sweep.mem_or_entered {t u : TypeTable} {ls ls' : List Leaf} (h : Sweep t ls ls' u)
    {l : Leaf} (hl : l ∈ ls) : l ∈ ls' ∨ ∀ x ∈ l.target?, x ∈ u.names := by
  induction h with
  | nil t => cases hl
  | @cons t u k ls ls' ha h ih =>
    rcases List.mem_cons.mp hl with rfl | hl
    · by_cases hk : l.annotate t.get? = l
      · exact .inl (by simp [hk])
      · obtain ⟨a, hs, hu⟩ := Leaf.typable_of_annotate_ne hk
        refine .inr fun x hx => h.table_extends.names_subset ?_
        obtain rfl : a.target = x := by simpa [Leaf.target?_of_site hs] using hx
        exact target_mem_names_note hs hu
    · rcases ih hl with hl | hx
      · exact .inl (List.mem_cons_of_mem _ hl)
      · exact .inr hx

/-- What is in nobody's way after a sweep was in nobody's way before. -/
lemma Sweep.unobstructed {t u : TypeTable} {ls ls' : List Leaf} {known : Lookup}
    (h : Sweep t ls ls' u) (hfree : Unobstructed known u ls') :
    Unobstructed known t ls := by
  induction h with
  | nil t => exact ⟨by simp, .nil⟩
  | @cons t u l ls ls' ha h ih =>
    have htn : t.Extends (t.note l) := extends_note t l
    have htu : t.Extends u := htn.trans h.table_extends
    have hrest : Unobstructed known (t.note l) ls := ih hfree.tail
    by_cases ht : l.annotate t.get? = l
    · -- the sweep leaves the leaf as it is, so it is the later sweeps that have to annotate it
      rw [ht] at hfree
      have hl (hp : l.Pending known) : ∀ x ∈ l.target?, x ∉ u.names := hfree.fresh l (by simp) hp
      refine (hrest.mono htn).cons (fun hp x hx hxt => hl hp x hx (htu.names_subset hxt)) ?_
      intro k hk hp hpk heq
      rcases h.mem_or_entered hk with hk | hentered
      · exact (List.pairwise_cons.mp hfree.distinct).1 k hk hp hpk heq
      · obtain ⟨a, hs, -⟩ := hp.typable
        have hx : a.target ∈ l.target? := Leaf.target?_of_site hs
        exact hl hp a.target hx (hentered a.target (heq ▸ hx))
    · -- the leaf is annotated here, so its target was new, and is taken for the leaves to come
      obtain ⟨a, hs, hty⟩ := Leaf.typable_of_annotate_ne ht
      have htarget : l.target? = some a.target := Leaf.target?_of_site hs
      refine (hrest.mono htn).cons (fun _ x hx => ?_) ?_
      · obtain rfl : a.target = x := by simpa [htarget] using hx
        exact ha.2.resolve_left ht a hs
      · intro k hk _ hpk heq
        exact hrest.fresh k hk hpk a.target (heq ▸ htarget) (target_mem_names_note hs hty)

/-- The leaves that a run found to be annotated were in nobody's way from the start. -/
theorem Settles.unobstructed {t u : TypeTable} {ls ls' : List Leaf} {ns : List ℕ}
    (h : Settles t ls ls' u ns) : Unobstructed u.get? t ls := by
  induction h with
  | @done t ls ls' h =>
    refine h.unobstructed ?_
    have hnone : ∀ l ∈ ls', ¬ l.Pending t.get? := by
      rw [h.eq_map_annotate rfl]
      intro l hl
      obtain ⟨k, -, rfl⟩ := List.mem_map.mp hl
      exact k.not_pending_annotate
    refine ⟨fun l hl hp => absurd hp (hnone l hl), ?_⟩
    exact List.pairwise_of_forall_mem_list fun l hl k _ hp => absurd hp (hnone l hl)
  | next h hne h' ih => exact h.unobstructed ih

/-! ### Second writes -/

namespace Config

variable {c : Config} {g : Graph} {r : Typing}

/-- Any two writes to one name that both have a type are as `two` says, and any write to a hinted
name that has a type is as `hinted` says. -/
structure SecondWrites (c : Config) (g : Graph) (known : Lookup) (two : Leaf → Leaf → Prop)
    (hinted : Leaf → Prop) : Prop where
  of_two : g.leaves.Pairwise fun l l' => l.Typable known → l'.Typable known →
    l.target? = l'.target? → two l l'
  of_hinted : ∀ l ∈ g.leaves, l.Typable known → ∀ x ∈ l.target?, x ∈ c.hintNames → hinted l

/-- No name has two writes with a type, and no hinted name has one. -/
def WritesOnce (c : Config) (g : Graph) (known : Lookup) : Prop :=
  c.SecondWrites g known (fun _ _ => False) fun _ => False

lemma SecondWrites.imp₂ {known : Lookup} {P P' P'' : Leaf → Leaf → Prop} {Q Q' Q'' : Leaf → Prop}
    (h : c.SecondWrites g known P Q) (h' : c.SecondWrites g known P' Q')
    (htwo : ∀ l l', P l l' → P' l l' → P'' l l') (hhinted : ∀ l, Q l → Q' l → Q'' l) :
    c.SecondWrites g known P'' Q'' := by
  refine ⟨h.of_two.imp₂ (fun l l' hp hp' hl hl' heq => ?_) h'.of_two, fun l hl hty x hx hh => ?_⟩
  · exact htwo l l' (hp hl hl' heq) (hp' hl hl' heq)
  · exact hhinted l (h.of_hinted l hl hty x hx hh) (h'.of_hinted l hl hty x hx hh)

/-- Two writes left to be annotated, or one to a hinted name, would have made the run fail. -/
lemma secondWrites_of_run (h : c.run g = .ok r) :
    c.SecondWrites g r.types.get?
      (fun l l' => l.Settled r.types.get? ∨ l'.Settled r.types.get?)
      (Leaf.Settled r.types.get?) := by
  obtain ⟨t, ht, hset, -, -⟩ := run_eq_ok_iff.mp h
  have hfree := hset.unobstructed
  refine ⟨hfree.distinct.imp fun {l l'} hd hl hl' heq => ?_, fun l hl hty x hx hhint => ?_⟩
  · rcases hl.settled_or_pending with hs | hp
    · exact .inl hs
    · rcases hl'.settled_or_pending with hs' | hp'
      · exact .inr hs'
      · exact absurd heq (hd hp hp')
  · rcases hty.settled_or_pending with hs | hp
    · exact hs
    · exact absurd ((mem_names_of_seed ht).mpr (.inl hhint)) (hfree.fresh l hl hp x hx)

/-- **Second writes**: a run that succeeds has met a second write with a type, or one to a hinted
name, only where a write came with the right annotation. So there are no such writes exactly if
none of them came so. -/
theorem writesOnce_iff_of_run (h : c.run g = .ok r) :
    c.SecondWrites g r.types.get?
      (fun l l' => l.Settled r.types.get? ∨ l'.Settled r.types.get?)
      (Leaf.Settled r.types.get?) ∧
    (c.WritesOnce g r.types.get? ↔ c.SecondWrites g r.types.get?
      (fun l l' => ¬ l.Settled r.types.get? ∧ ¬ l'.Settled r.types.get?)
      fun l => ¬ l.Settled r.types.get?) := by
  have hsettled := secondWrites_of_run h
  refine ⟨hsettled, fun hnone => ?_, fun hnot => ?_⟩
  · exact hnone.imp₂ hnone (fun l l' hf => hf.elim) fun l hf => hf.elim
  · exact hsettled.imp₂ hnot (fun l l' hs hn => hs.elim hn.1 hn.2) fun l hs hn => hn hs

/-- The plain write comes first, and the annotated one in a branch finds its entry. -/
theorem writesOnce_iff_of_run_branch :
    let g : Graph := ⟨[⟨⟨0⟩, .basic, 0, [
      .leaf (.assign ⟨"x", .var "y"⟩),
      .ifElse (.var "x") [.leaf (.typed ⟨⟨"x", .number ⟨2000⟩⟩, .number⟩)] []]⟩], []⟩
    let r : Typing := ⟨⟨[⟨⟨0⟩, .basic, 0, [
      .leaf (.typed ⟨⟨"x", .var "y"⟩, .number⟩),
      .ifElse (.var "x") [.leaf (.typed ⟨⟨"x", .number ⟨2000⟩⟩, .number⟩)] []]⟩], []⟩,
      ⟨[("y", .number), ("x", .number)]⟩, [1, 0]⟩
    Config.default.run g = .ok r ∧ ¬ Config.default.WritesOnce g r.types.get? := by
  intro g r
  have h : Config.default.run g = .ok r := by decide +kernel
  refine ⟨h, fun hw => ?_⟩
  have hpair := (List.pairwise_cons.mp ((writesOnce_iff_of_run h).2.mp hw).of_two).1 _
    (List.mem_singleton_self _)
  exact (hpair ⟨_, rfl, by decide⟩ ⟨_, rfl, by decide⟩ rfl).2 ⟨_, rfl, by decide⟩

/-- Two writes of different types pass if both are annotated, and the first makes the entry. -/
theorem annotated_writes_pass :
    let g : Graph := ⟨[⟨⟨0⟩, .basic, 0, [
      .leaf (.typed ⟨⟨"x", .number ⟨1000⟩⟩, .number⟩),
      .leaf (.typed ⟨⟨"x", .string "s"⟩, .string⟩)]⟩], []⟩
    let r : Typing := ⟨g, ⟨[("x", .number)]⟩, [0, 0]⟩
    Config.default.run g = .ok r ∧ ¬ Config.default.WritesOnce g r.types.get? := by
  refine ⟨by decide +kernel, fun hw => ?_⟩
  have hpair := (List.pairwise_cons.mp hw.of_two).1 _ (List.mem_singleton_self _)
  exact hpair ⟨_, rfl, by decide⟩ ⟨_, rfl, by decide⟩ rfl

end Config

end TypeFlow
