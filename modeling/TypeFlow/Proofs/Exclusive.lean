import TypeFlow.Proofs.SecondWrite

/-!
Assignments that share their names with no other.

An entry for a name that only one assignment writes was made for that assignment, which was then
annotated with the type it has ever since. So passes never come to annotate it a second time,
whatever they meet elsewhere.
-/

namespace TypeFlow

open TypeTable

/-- Among the assignments with `P` no two write one name, and one whose target has an entry is
annotated. -/
structure Exclusive (P : Assignment → Prop) (ls : List Leaf) (t : TypeTable) : Prop where
  distinct : (Leaf.sites ls).Pairwise fun a b => P a → P b → a.target ≠ b.target
  settled : ∀ l ∈ ls, ∀ a, l.site? = some a → P a → a.target ∈ t.names → l.Settled t.get?

/-- Whoever writes the name of an assignment with `P`, and has a type, is one with `P` too. -/
def ClosedUnder (known : Lookup) (P : Assignment → Prop) : Prop :=
  ∀ a b, P a → b.target = a.target → b.value.infer known ≠ .unassigned → P b

lemma ClosedUnder.mono {known known' : Lookup} {P : Assignment → Prop}
    (h : ClosedUnder known' P) (hle : known.Le known') : ClosedUnder known P := by
  intro a b ha heq hu
  refine h a b ha heq ?_
  rwa [Expr.infer_eq_of_le hle hu]

lemma closedUnder_target (known : Lookup) (x : VarName) :
    ClosedUnder known fun a => a.target = x := by
  intro a b ha heq _
  rw [heq, ha]

namespace Exclusive

variable {P : Assignment → Prop} {t u : TypeTable} {l : Leaf} {ls ls' : List Leaf}
  {a b : Assignment}

lemma target_ne (h : Exclusive P (l :: ls) t) (hs : l.site? = some a) (hb : b ∈ Leaf.sites ls)
    (ha : P a) (hb' : P b) : a.target ≠ b.target := by
  have hd := h.distinct
  rw [Leaf.sites_cons_of_site hs, List.pairwise_cons] at hd
  exact hd.1 b hb ha hb'

lemma not_pending (h : Exclusive P ls t) (hl : l ∈ ls) (hs : l.site? = some a) (ha : P a)
    (hx : a.target ∈ t.names) : ¬ l.Pending t.get? := (h.settled l hl a hs ha hx).not_pending

lemma accepted (h : Exclusive P (l :: ls) t) (hs : l.IsSupported)
    (hP : ∀ a, l.site? = some a → a.value.infer t.get? ≠ .unassigned → P a) : l.Accepted t := by
  refine ⟨hs, ?_⟩
  by_cases hl : l.annotate t.get? = l
  · exact .inl hl
  · refine .inr fun a ha hx => ?_
    obtain ⟨b, hb, hu⟩ := Leaf.typable_of_annotate_ne hl
    obtain rfl : b = a := Option.some.inj (hb.symm.trans ha)
    exact h.not_pending List.mem_cons_self ha (hP b ha hu) hx hl

lemma note (h : Exclusive P (l :: ls) t) (hP : ClosedUnder t.get? P) :
    Exclusive P ls (t.note l) := by
  refine ⟨h.distinct.sublist (Leaf.sites_sublist_cons l ls), fun k hk a hs ha hx => ?_⟩
  obtain ⟨ty, hty⟩ := mem_names_iff.mp hx
  rcases get?_note hty with hold | ⟨-, b, hl, heq, hu, -⟩
  · have hk' := h.settled k (List.mem_cons_of_mem l hk) a hs ha (mem_names_iff.mpr ⟨ty, hold⟩)
    exact hk'.mono (extends_note t l).le
  · -- the entry is that of `l`, which writes another name
    have ha' : a ∈ Leaf.sites ls := Leaf.mem_sites.mpr ⟨k, hk, hs⟩
    exact absurd heq (h.target_ne hl ha' (hP a b ha heq hu) ha)

lemma settled_annotate (h : Exclusive P (l :: ls) t) (hsweep : Sweep (t.note l) ls ls' u)
    (hP : ClosedUnder u.get? P) (hs : l.site? = some a) (ha : P a) (hx : a.target ∈ u.names) :
    (l.annotate t.get?).Settled u.get? := by
  have htu : t.Extends u := (extends_note t l).trans hsweep.table_extends
  by_cases hu : a.value.infer t.get? = .unassigned
  · rw [Leaf.annotate_of_unassigned hs hu]
    rw [note_of_unassigned hs hu] at hsweep
    obtain ⟨ty, hty⟩ := mem_names_iff.mp hx
    rcases hsweep.grows.justified hty with hold | ⟨-, b, hb, heq, hbu, -⟩
    · have hl := h.settled l List.mem_cons_self a hs ha (mem_names_iff.mpr ⟨ty, hold⟩)
      exact hl.mono htu.le
    · -- the entry is that of a later assignment, which writes another name
      exact absurd heq.symm (h.target_ne hs hb ha (hP a b ha heq hbu))
  · exact (Leaf.Typable.settled_annotate ⟨a, hs, hu⟩).mono htu.le

/-- **Passes keep names exclusive.** -/
theorem sweep (h : Exclusive P ls t) (hsweep : Sweep t ls ls' u) (hP : ClosedUnder u.get? P) :
    Exclusive P ls' u := by
  induction hsweep with
  | nil t => exact h
  | @cons t u l ls ls' hacc hrest ih =>
    have htu : t.Extends u := (extends_note t l).trans hrest.table_extends
    have htail : Exclusive P ls' u := ih (h.note (hP.mono htu.le)) hP
    have hsites : Leaf.sites (l.annotate t.get? :: ls') = Leaf.sites (l :: ls) :=
      (Sweep.cons hacc hrest).sites_eq
    refine ⟨by rw [hsites]; exact h.distinct, fun k hk a hs ha hx => ?_⟩
    rcases List.mem_cons.mp hk with rfl | hk
    · rw [Leaf.site?_annotate] at hs
      exact h.settled_annotate hrest hP hs ha hx
    · exact htail.settled k hk a hs ha hx

end Exclusive

end TypeFlow
