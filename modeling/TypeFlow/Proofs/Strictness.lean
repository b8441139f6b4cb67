import Mathlib.Data.List.Forall2
import Mathlib.Tactic.Tauto
import TypeFlow.Infer

/-!
What the type of an expression depends on. Inference is strict: it gives no type exactly when
some variable the expression reads has none. So a type that has been found is not changed by
what becomes known later, on which all of flow typing rests.
-/

namespace TypeFlow

namespace Ty

@[simp] lemma union_eq_unassigned {a b : Ty} :
    a ∪ b = unassigned ↔ a = unassigned ∧ b = unassigned := by
  obtain ⟨an, as, ae⟩ := a
  obtain ⟨bn, bs, be⟩ := b
  simp only [Union.union, unassigned, mk.injEq, Bool.or_eq_false_iff]
  tauto

@[simp] lemma faultIf_eq_unassigned {b : Bool} : faultIf b = unassigned ↔ b = false := by
  simp [faultIf, unassigned]

@[simp] lemma number_ne_unassigned : number ≠ unassigned := by decide

@[simp] lemma string_ne_unassigned : string ≠ unassigned := by decide

@[simp] lemma error_ne_unassigned : error ≠ unassigned := by decide

lemma kinds_eq_nil {t : Ty} (h : t.kinds = []) (ht : t ≠ unassigned) : t.hasError = true := by
  obtain ⟨n, s, e⟩ := t
  cases n <;> cases s <;> simp_all [kinds, unassigned]

lemma foldl_union_eq_unassigned {α : Type} (f : α → Ty) (ks : List α) (acc : Ty) :
    ks.foldl (fun acc k => acc ∪ f k) acc = unassigned ↔
      acc = unassigned ∧ ∀ k ∈ ks, f k = unassigned := by
  induction ks generalizing acc with
  | nil => simp
  | cons k ks ih => simp [ih, and_assoc]

lemma masked_eq_unassigned {t : Ty} : t.masked = unassigned ↔ t = unassigned := by
  unfold masked
  split
  · rfl
  · next h => exact ⟨fun h' => absurd h' h, by rintro rfl; exact absurd rfl h⟩

lemma masked_eq (t : Ty) : t.masked = if t.kinds = [] then t else t.withoutError := by
  obtain ⟨n, s, e⟩ := t
  cases n <;> cases s <;> rfl

end Ty

/-! ### Operators -/

lemma UnaryOp.onKind_ne_unassigned (op : UnaryOp) (k : Kind) : op.onKind k ≠ .unassigned := by
  cases k <;> simp [onKind]

lemma UnaryOp.result_eq_unassigned {op : UnaryOp} {t : Ty} :
    op.result t = .unassigned ↔ t = .unassigned := by
  constructor
  · intro h
    by_contra ht
    rw [result, if_neg ht, Ty.foldl_union_eq_unassigned] at h
    obtain ⟨hfault, hkinds⟩ := h
    have hnil : t.kinds = [] :=
      List.eq_nil_iff_forall_not_mem.mpr fun k hk => op.onKind_ne_unassigned k (hkinds k hk)
    simp [Ty.kinds_eq_nil hnil ht] at hfault
  · intro h
    simp [result, h]

lemma BinaryOp.onKinds_ne_unassigned (op : BinaryOp) (nz : Bool) (k k' : Kind) :
    op.onKinds nz k k' ≠ .unassigned := by
  cases op <;> simp only [onKinds] <;> (try split) <;> simp

lemma BinaryOp.result_eq_unassigned {op : BinaryOp} {nz : Bool} {l r : Ty} :
    op.result nz l r = .unassigned ↔ l = .unassigned ∨ r = .unassigned := by
  constructor
  · intro h
    by_contra hlr
    rw [result, if_neg hlr] at h
    dsimp only at h
    split at h
    · -- a comparison
      simp at h
    · split at h
      · -- an operand without kinds
        simp at h
      · next hpairs =>
        rw [Ty.foldl_union_eq_unassigned] at h
        have hne : (l.kinds.flatMap fun k => r.kinds.map fun k' => (k, k')) ≠ [] := by
          simpa [List.isEmpty_iff] using hpairs
        obtain ⟨p, hp⟩ := List.exists_mem_of_ne_nil _ hne
        exact op.onKinds_ne_unassigned nz p.1 p.2 (h.2 p hp)
  · intro h
    simp [result, h]

/-! ### Expressions -/

namespace Lookup

/-- The type of `x`, or none. A name entered without a type counts like one never entered. -/
def tyOf (known : Lookup) (x : VarName) : Ty := (known x).getD .unassigned

/-- All that `known` says, `known'` says too. -/
def Le (known known' : Lookup) : Prop := ∀ x ty, known x = some ty → known' x = some ty

lemma tyOf_eq_unassigned {known : Lookup} {x : VarName} :
    known.tyOf x = .unassigned ↔ known x = none ∨ known x = some .unassigned := by
  unfold tyOf
  cases known x <;> simp

lemma tyOf_ne_unassigned {known : Lookup} {x : VarName} :
    known.tyOf x ≠ .unassigned ↔ ∃ ty, known x = some ty ∧ ty ≠ .unassigned := by
  unfold tyOf
  cases h : known x <;> simp

lemma Le.tyOf_eq {known known' : Lookup} (h : known.Le known') {x : VarName}
    (hx : known.tyOf x ≠ .unassigned) : known'.tyOf x = known.tyOf x := by
  obtain ⟨ty, hty, -⟩ := tyOf_ne_unassigned.mp hx
  simp [tyOf, hty, h x ty hty]

lemma Le.refl (known : Lookup) : known.Le known := fun _ _ h => h

lemma Le.trans {k₁ k₂ k₃ : Lookup} (h : k₁.Le k₂) (h' : k₂.Le k₃) : k₁.Le k₃ :=
  fun x ty hx => h' x ty (h x ty hx)

lemma Le.antisymm {known known' : Lookup} (h : known.Le known') (h' : known'.Le known) :
    known = known' := by
  funext x
  cases hx : known x with
  | some ty => exact (h x ty hx).symm
  | none =>
    cases hx' : known' x with
    | none => rfl
    | some ty => rw [h' x ty hx'] at hx; cases hx

end Lookup

namespace Expr

/-- **Strictness**: an expression has no type exactly when a variable it reads has none. -/
theorem infer_eq_unassigned_iff (known : Lookup) (e : Expr) :
    e.infer known = .unassigned ↔ ∃ x ∈ e.reads, known.tyOf x = .unassigned := by
  induction e with
  | number n => simp [infer, reads]
  | string s => simp [infer, reads]
  | var x => simp [infer, reads, Lookup.tyOf]
  | paren e ih => simpa [infer, reads] using ih
  | unary op e ih => simpa [infer, reads, UnaryOp.result_eq_unassigned] using ih
  | binary op l r ihl ihr =>
    simp only [infer, reads, BinaryOp.result_eq_unassigned, ihl, ihr, List.mem_append]
    constructor
    · rintro (⟨x, hx, h⟩ | ⟨x, hx, h⟩)
      · exact ⟨x, .inl hx, h⟩
      · exact ⟨x, .inr hx, h⟩
    · rintro ⟨x, hx | hx, h⟩
      · exact .inl ⟨x, hx, h⟩
      · exact .inr ⟨x, hx, h⟩

lemma infer_ne_unassigned_iff (known : Lookup) (e : Expr) :
    e.infer known ≠ .unassigned ↔ ∀ x ∈ e.reads, known.tyOf x ≠ .unassigned := by
  rw [ne_eq, infer_eq_unassigned_iff]
  push Not
  rfl

/-- **Locality**: the type depends on the variables read and on nothing else. -/
theorem infer_congr {known known' : Lookup} {e : Expr}
    (h : ∀ x ∈ e.reads, known.tyOf x = known'.tyOf x) : e.infer known = e.infer known' := by
  induction e with
  | number n => rfl
  | string s => rfl
  | var x => exact h x (by simp [reads])
  | paren e ih => exact ih h
  | unary op e ih => rw [infer, infer, ih h]
  | binary op l r ihl ihr =>
    rw [infer, infer, ihl fun x hx => h x (List.mem_append_left _ hx),
      ihr fun x hx => h x (List.mem_append_right _ hx)]

/-- **Stability**: a type once found stays when more becomes known. -/
theorem infer_eq_of_le {known known' : Lookup} (h : known.Le known') {e : Expr}
    (he : e.infer known ≠ .unassigned) : e.infer known' = e.infer known := by
  refine (infer_congr fun x hx => ?_).symm
  exact (h.tyOf_eq ((infer_ne_unassigned_iff known e).mp he x hx)).symm

/-- **Inference is strict and local in the variables read**: an expression has no type exactly
when a variable it reads has no entry or an empty one; its type is the same wherever these
variables have the same types, an empty entry counting like none; and a type once found is the same
by everything that extends what is known. -/
theorem infer_strict_and_local (e : Expr) :
    (∀ known : Lookup, e.infer known = .unassigned ↔
      ∃ x ∈ e.reads, known x = none ∨ known x = some .unassigned) ∧
    (∀ known known' : Lookup, (∀ x ∈ e.reads, known.tyOf x = known'.tyOf x) →
      e.infer known = e.infer known') ∧
    ∀ known known' : Lookup, known.Le known' → e.infer known ≠ .unassigned →
      e.infer known' = e.infer known := by
  refine ⟨fun known => ?_, fun known known' => infer_congr, fun known known' h => infer_eq_of_le h⟩
  rw [infer_eq_unassigned_iff]
  simp only [Lookup.tyOf_eq_unassigned]

/-- The root of one variable beside a quotient of two: without a type while one of them has none or
an empty one, whatever else is known, and then with a type that a further name leaves alone. -/
theorem infer_strict_and_local_quotient :
    let e : Expr := .binary .add (.unary .sqrt (.paren (.var "a")))
      (.binary .divide (.var "b") (.var "a"))
    let early : Lookup := fun x => if x = "a" then some .number else none
    let stale : Lookup := fun x =>
      if x = "a" then some .number else if x = "b" then some .unassigned else some .string
    let found : Lookup := fun x =>
      if x = "a" then some .number else if x = "b" then some ⟨true, true, false⟩ else none
    let later : Lookup := fun x => if x = "c" then some .string else found x
    (early "b" = none ∧ e.infer early = .unassigned) ∧
    ((∀ x ∈ e.reads, early.tyOf x = stale.tyOf x) ∧ e.infer early = e.infer stale) ∧
    found.Le later ∧ e.infer found ≠ .unassigned ∧ e.infer later = e.infer found := by
  intro e early stale found later
  obtain ⟨hstrict, hlocal, hstable⟩ := infer_strict_and_local e
  have hreads : ∀ x ∈ e.reads, early.tyOf x = stale.tyOf x := by decide
  have hle : found.Le later := by
    intro x ty hx
    by_cases hc : x = "c"
    · subst hc
      cases hx
    · rw [← hx]
      exact if_neg hc
  have hfound : e.infer found ≠ .unassigned := by decide
  refine ⟨⟨rfl, (hstrict early).mpr ⟨"b", by decide, .inl rfl⟩⟩, ⟨hreads, ?_⟩, hle, hfound, ?_⟩
  · exact hlocal early stale hreads
  · exact hstable found later hle hfound

end Expr

end TypeFlow
