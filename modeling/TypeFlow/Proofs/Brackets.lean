import TypeFlow.Proofs.Faults

/-!
Brackets do not matter to typing.

An expression is typed by what it is when all its brackets are gone: its type, the divisors in it
that are seen not to be zero, and the variables it reads in their order. Brackets put in or taken
out anywhere leave that as it is.
-/

namespace TypeFlow.Expr

variable {e f : Expr}

/-- The expression without its brackets. -/
def bare : Expr → Expr
  | number n => number n
  | string s => string s
  | var x => var x
  | paren e => e.bare
  | unary op e => unary op e.bare
  | binary op l r => binary op l.bare r.bare

/-- The second expression is the first with brackets put in, any number of them at any places. -/
inductive Bracketed : Expr → Expr → Prop
  | number (n : Number) : Bracketed (number n) (number n)
  | string (s : String) : Bracketed (string s) (string s)
  | var (x : VarName) : Bracketed (var x) (var x)
  | paren {e f : Expr} (h : Bracketed e f) : Bracketed (paren e) (paren f)
  | unary (op : UnaryOp) {e f : Expr} (h : Bracketed e f) : Bracketed (unary op e) (unary op f)
  | binary (op : BinaryOp) {l l' r r' : Expr} (hl : Bracketed l l') (hr : Bracketed r r') :
    Bracketed (binary op l r) (binary op l' r')
  | insert {e f : Expr} (h : Bracketed e f) : Bracketed e (paren f)

/-- The quotients and remainders from left to right, and whether the divisor of each is seen not to
be zero. -/
def divisions : Expr → List (BinaryOp × Bool)
  | number _ | string _ | var _ => []
  | paren e | unary _ e => e.divisions
  | binary op l r =>
    let here := if op = .divide ∨ op = .modulo then [(op, r.isNonzeroConstant)] else []
    l.divisions ++ here ++ r.divisions

/-- All that typing makes of an expression is the same. -/
structure TypedAlike (e f : Expr) : Prop where
  infer_eq (known : Lookup) : e.infer known = f.infer known
  divisions_eq : e.divisions = f.divisions
  reads_eq : e.reads = f.reads

/-! ### Without brackets -/

lemma paren_notMem_subexprs_bare (e f : Expr) : paren f ∉ e.bare.subexprs := by
  induction e with
  | number n => simp [bare, subexprs]
  | string s => simp [bare, subexprs]
  | var x => simp [bare, subexprs]
  | paren e ih => exact ih
  | unary op e ih => simpa [bare, subexprs] using ih
  | binary op l r ihl ihr => simpa [bare, subexprs] using ⟨ihl, ihr⟩

lemma bracketed_bare (e : Expr) : e.bare.Bracketed e := by
  induction e with
  | number n => exact .number n
  | string s => exact .string s
  | var x => exact .var x
  | paren e ih => exact .insert ih
  | unary op e ih => exact .unary op ih
  | binary op l r ihl ihr => exact .binary op ihl ihr

lemma isNonzeroConstant_bare (e : Expr) : e.bare.isNonzeroConstant = e.isNonzeroConstant := by
  induction e with
  | paren e ih => exact ih
  | number n | string s | var x | unary op e | binary op l r => rfl

lemma infer_bare (known : Lookup) (e : Expr) : e.bare.infer known = e.infer known := by
  induction e with
  | number n | string s | var x => rfl
  | paren e ih => exact ih
  | unary op e ih => rw [bare, infer, infer, ih]
  | binary op l r ihl ihr => rw [bare, infer, infer, ihl, ihr, isNonzeroConstant_bare]

lemma divisions_bare (e : Expr) : e.bare.divisions = e.divisions := by
  induction e with
  | number n | string s | var x => rfl
  | paren e ih | unary op e ih => exact ih
  | binary op l r ihl ihr => rw [bare, divisions, divisions, ihl, ihr, isNonzeroConstant_bare]

lemma reads_bare (e : Expr) : e.bare.reads = e.reads := by
  induction e with
  | number n | string s | var x => rfl
  | paren e ih | unary op e ih => exact ih
  | binary op l r ihl ihr => rw [bare, reads, reads, ihl, ihr]

lemma typedAlike_bare (e : Expr) : e.bare.TypedAlike e :=
  ⟨fun known => e.infer_bare known, e.divisions_bare, e.reads_bare⟩

/-! ### With more brackets -/

lemma Bracketed.bare_eq (h : e.Bracketed f) : f.bare = e.bare := by
  induction h with
  | number n | string s | var x => rfl
  | paren h ih | insert h ih => exact ih
  | unary op h ih => rw [bare, bare, ih]
  | binary op hl hr ihl ihr => rw [bare, bare, ihl, ihr]

lemma typedAlike_of_bare_eq (h : e.bare = f.bare) : e.TypedAlike f where
  infer_eq known := by rw [← infer_bare, h, infer_bare]
  divisions_eq := by rw [← divisions_bare, h, divisions_bare]
  reads_eq := by rw [← reads_bare, h, reads_bare]

/-- **Brackets never matter to typing**: taking all of them out and putting any of them in leaves
the type by whatever is known, which divisors are seen not to be zero, and the variables read in
their order. -/
theorem typed_alike_up_to_brackets (e : Expr) :
    ((∀ f, paren f ∉ e.bare.subexprs) ∧ e.bare.Bracketed e ∧ e.bare.TypedAlike e) ∧
      ∀ f, e.Bracketed f → f.TypedAlike e :=
  ⟨⟨e.paren_notMem_subexprs_bare, e.bracketed_bare, e.typedAlike_bare⟩,
    fun _ hf => typedAlike_of_bare_eq hf.bare_eq⟩

/-- A quotient by a constant and a remainder by zero, with brackets around the divisors, the
operands and the whole. -/
theorem typed_alike_up_to_brackets_divisors :
    let e : Expr := .binary .add (.binary .divide (.var "a") (.number ⟨2000⟩))
      (.paren (.binary .modulo (.var "b") (.number ⟨0⟩)))
    let f : Expr := .paren (.binary .add
      (.binary .divide (.paren (.var "a")) (.paren (.paren (.number ⟨2000⟩))))
      (.paren (.paren (.binary .modulo (.var "b") (.paren (.number ⟨0⟩))))))
    e.Bracketed f ∧ f.divisions = [(.divide, true), (.modulo, false)] ∧ f.reads = ["a", "b"] ∧
      f.infer (fun _ => some .number) = ⟨true, false, true⟩ := by
  intro e f
  have hf : e.Bracketed f :=
    .insert (.binary .add (.binary .divide (.insert (.var _)) (.insert (.insert (.number _))))
      (.paren (.insert (.binary .modulo (.var _) (.insert (.number _))))))
  obtain ⟨hinfer, hdivisions, hreads⟩ := (typed_alike_up_to_brackets e).2 f hf
  refine ⟨hf, hdivisions.trans ?_, hreads.trans ?_, (hinfer _).trans ?_⟩ <;> decide

end TypeFlow.Expr
