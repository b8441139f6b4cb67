import TypeFlow.Proofs.Flagwise

/-!
Where a possible fault comes from.

The type of an expression has the fault flag exactly if a variable that is read may be a fault, or
if an operator somewhere inside may fault on what it is applied to. Every operator passes the faults
of its operands on, comparisons and concatenations included, so none is lost on the way up.
-/

namespace TypeFlow

namespace Expr

def subexprs : Expr → List Expr
  | number n => [number n]
  | string s => [string s]
  | var x => [var x]
  | paren e => paren e :: e.subexprs
  | unary op e => unary op e :: e.subexprs
  | binary op l r => binary op l r :: (l.subexprs ++ r.subexprs)

/-- The constant `n`, in any number of brackets. -/
inductive IsConstant (n : Number) : Expr → Prop
  | number : IsConstant n (.number n)
  | paren {e : Expr} (h : IsConstant n e) : IsConstant n (.paren e)

/-- The operator at the root may fault on values that do not: a unary one on a string, or on a
number outside its domain; a binary one that is for numbers only on any other pair, and a division
on two numbers unless the divisor is seen not to be zero. -/
def FaultsAtRoot (known : Lookup) : Expr → Prop
  | unary op e =>
    .string ∈ (e.infer known).kinds ∨
      op ∈ [.sqrt, .arcSine, .arcCosine] ∧ .number ∈ (e.infer known).kinds
  | binary op l r =>
    op ∈ [.multiply, .exponent, .and, .or, .divide, .modulo] ∧
        (∃ k ∈ (l.infer known).kinds, ∃ k' ∈ (r.infer known).kinds,
          ¬ (k = .number ∧ k' = .number)) ∨
      op ∈ [.divide, .modulo] ∧ .number ∈ (l.infer known).kinds ∧
        .number ∈ (r.infer known).kinds ∧ ¬ ∃ n : Number, n.raw ≠ 0 ∧ r.IsConstant n
  | number _ | string _ | var _ | paren _ => False

lemma isNonzeroConstant_iff {e : Expr} :
    e.isNonzeroConstant = true ↔ ∃ n : Number, n.raw ≠ 0 ∧ e.IsConstant n := by
  induction e with
  | number n =>
    constructor
    · intro h
      exact ⟨n, by simpa [isNonzeroConstant, Number.isZero] using h, .number⟩
    · rintro ⟨_, hn, ⟨⟩⟩
      simpa [isNonzeroConstant, Number.isZero] using hn
  | paren e ih =>
    rw [isNonzeroConstant, ih]
    exact ⟨fun ⟨n, hn, h⟩ => ⟨n, hn, .paren h⟩, fun | ⟨n, hn, .paren h⟩ => ⟨n, hn, h⟩⟩
  | string s | var x | unary op e | binary op l r =>
    refine ⟨fun h => (Bool.false_ne_true h).elim, ?_⟩
    rintro ⟨_, -, ⟨⟩⟩

end Expr

/-! ### Operators -/

lemma UnaryOp.fault_mem_onKind {op : UnaryOp} {k : Kind} : .fault ∈ op.onKind k ↔
    k = .string ∨ op ∈ [.sqrt, .arcSine, .arcCosine] ∧ k = .number := by
  cases op <;> cases k <;> decide

lemma BinaryOp.fault_mem_onKinds {op : BinaryOp} {nz : Bool} {k k' : Kind} :
    .fault ∈ op.onKinds nz k k' ↔
      op ∈ [.multiply, .exponent, .and, .or, .divide, .modulo] ∧ ¬ (k = .number ∧ k' = .number) ∨
      op ∈ [.divide, .modulo] ∧ k = .number ∧ k' = .number ∧ nz = false := by
  cases op <;> cases nz <;> cases k <;> cases k' <;> decide

namespace Expr

variable {known : Lookup}

lemma fault_mem_infer_unary {op : UnaryOp} {e : Expr} : .fault ∈ (unary op e).infer known ↔
    .fault ∈ e.infer known ∨ (unary op e).FaultsAtRoot known := by
  rw [infer, UnaryOp.mem_result]
  simp only [UnaryOp.fault_mem_onKind, Ty.kind_mem, FaultsAtRoot]
  constructor
  · rintro (⟨-, h⟩ | ⟨k, hk, rfl | ⟨hop, rfl⟩⟩)
    · exact .inl h
    · exact .inr (.inl hk)
    · exact .inr (.inr ⟨hop, hk⟩)
  · rintro (h | hk | ⟨hop, hk⟩)
    · exact .inl ⟨trivial, h⟩
    · exact .inr ⟨_, hk, .inl rfl⟩
    · exact .inr ⟨_, hk, .inr ⟨hop, rfl⟩⟩

lemma fault_mem_infer_binary {op : BinaryOp} {l r : Expr} (hl : l.infer known ≠ .unassigned)
    (hr : r.infer known ≠ .unassigned) : .fault ∈ (binary op l r).infer known ↔
    (.fault ∈ l.infer known ∨ .fault ∈ r.infer known) ∨ (binary op l r).FaultsAtRoot known := by
  have hnz : r.isNonzeroConstant = false ↔ ¬ ∃ n : Number, n.raw ≠ 0 ∧ r.IsConstant n := by
    rw [← isNonzeroConstant_iff, Bool.not_eq_true]
  rw [infer, BinaryOp.mem_result hl hr]
  simp only [BinaryOp.fault_mem_onKinds, Ty.kind_mem, FaultsAtRoot, hnz]
  constructor
  · rintro (⟨-, h⟩ | ⟨-, h⟩ | ⟨k, k', hk, hk', ⟨hop, hne⟩ | ⟨hop, rfl, rfl, hzero⟩⟩)
    · exact .inl h
    · cases h
    · exact .inr (.inl ⟨hop, k, hk, k', hk', hne⟩)
    · exact .inr (.inr ⟨hop, hk, hk', hzero⟩)
  · rintro (h | ⟨hop, k, hk, k', hk', hne⟩ | ⟨hop, hk, hk', hzero⟩)
    · exact .inl ⟨trivial, h⟩
    · exact .inr (.inr ⟨k, k', hk, hk', .inl ⟨hop, hne⟩⟩)
    · exact .inr (.inr ⟨_, _, hk, hk', .inr ⟨hop, rfl, rfl, hzero⟩⟩)

/-- **Faults are reported exactly**: the type of an expression that has one has the fault flag
exactly if that of a variable it reads has it, or an operator somewhere inside may fault by its own
rule. -/
theorem hasError_infer_iff {known : Lookup} {e : Expr} (h : e.infer known ≠ .unassigned) :
    (e.infer known).hasError = true ↔ (∃ x ∈ e.reads, (known.tyOf x).hasError = true) ∨
      ∃ s ∈ e.subexprs, s.FaultsAtRoot known := by
  simp only [← Ty.fault_mem]
  induction e with
  | number n | string s => simp [infer, reads, subexprs, FaultsAtRoot]
  | var x => simp [infer, reads, subexprs, FaultsAtRoot, Lookup.tyOf]
  | paren e ih => simpa [infer, reads, subexprs, FaultsAtRoot] using ih h
  | unary op e ih =>
    have he : e.infer known ≠ .unassigned := mt UnaryOp.result_eq_unassigned.mpr h
    rw [fault_mem_infer_unary, ih he]
    simp only [reads, subexprs, List.exists_mem_cons_iff]
    exact or_assoc.trans (or_congr_right or_comm)
  | binary op l r ihl ihr =>
    obtain ⟨hl, hr⟩ := not_or.mp (mt BinaryOp.result_eq_unassigned.mpr h)
    rw [fault_mem_infer_binary hl hr, ihl hl, ihr hr]
    simp only [reads, subexprs, List.exists_mem_cons_iff, List.mem_append, or_and_right, exists_or]
    -- the variables of both sides come first, then the root, then the nodes of both sides
    exact (or_congr_left or_or_or_comm).trans (or_assoc.trans (or_congr_right or_comm))

/-- A quotient in a comparison in a concatenation. The fault of a division by a variable comes
through to the top; with a constant in brackets for a divisor nothing inside may fault. -/
theorem hasError_infer_iff_quotient :
    let within (divisor : Expr) : Expr := .binary .add (.string "q")
      (.paren (.binary .lessThan (.binary .divide (.var "a") divisor) (.number ⟨1000⟩)))
    let known : Lookup := fun _ => some .number
    let risky := within (.var "b")
    let safe := within (.paren (.paren (.number ⟨2000⟩)))
    risky.infer known ≠ .unassigned ∧ (risky.infer known).hasError = true ∧
      safe.infer known ≠ .unassigned ∧ ¬ ∃ s ∈ safe.subexprs, s.FaultsAtRoot known := by
  intro within known risky safe
  have hrisky : risky.infer known ≠ .unassigned := by decide
  have hsafe : safe.infer known ≠ .unassigned := by decide
  have hdivision : (Expr.binary .divide (.var "a") (.var "b")).FaultsAtRoot known :=
    .inr ⟨by decide, by decide, by decide, by rintro ⟨n, -, ⟨⟩⟩⟩
  refine ⟨hrisky, ?_, hsafe, fun hfaults => ?_⟩
  · exact (hasError_infer_iff hrisky).mpr (.inr ⟨_, by decide, hdivision⟩)
  · have hreported : (safe.infer known).hasError = true :=
      (hasError_infer_iff hsafe).mpr (.inr hfaults)
    revert hreported
    decide

end Expr

end TypeFlow
