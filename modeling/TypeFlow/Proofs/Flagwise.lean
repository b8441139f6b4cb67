import TypeFlow.Proofs.Strictness

/-!
Types are inferred flag by flag.

A type is a set of flags, and what an operator makes of its operands is the union of what it makes
of one flag of each. So wider operands give wider results, and an expression in which no variable
stands twice has exactly the flags that it has for some choice of one flag for each variable.
-/

namespace TypeFlow

/-- What a type can say of a value: that it may be of a kind, or may be a fault. -/
inductive Flag
  | kind (k : Kind)
  | fault
deriving DecidableEq

def Flag.ty : Flag → Ty
  | kind k => k.ty
  | fault => .error

lemma Flag.forall_iff {P : Flag → Prop} :
    (∀ f, P f) ↔ P (.kind .number) ∧ P (.kind .string) ∧ P .fault := by
  refine ⟨fun h => ⟨h _, h _, h _⟩, fun ⟨hn, hs, he⟩ f => ?_⟩
  rcases f with ⟨⟨⟩⟩ | _
  · exact hn
  · exact hs
  · exact he

/-! ### Types as sets of flags -/

namespace Ty

def has (t : Ty) : Flag → Bool
  | .kind .number => t.hasNumber
  | .kind .string => t.hasString
  | .fault => t.hasError

instance : Membership Flag Ty := ⟨fun t f => t.has f = true⟩

instance (f : Flag) (t : Ty) : Decidable (f ∈ t) := inferInstanceAs (Decidable (t.has f = true))

variable {a b t : Ty} {f g : Flag} {k : Kind}

lemma number_mem : .kind .number ∈ t ↔ t.hasNumber = true := Iff.rfl

lemma string_mem : .kind .string ∈ t ↔ t.hasString = true := Iff.rfl

lemma fault_mem : .fault ∈ t ↔ t.hasError = true := Iff.rfl

lemma kind_mem : .kind k ∈ t ↔ k ∈ t.kinds := by
  cases k <;> simp [number_mem, string_mem, kinds]

@[simp] lemma mem_union : f ∈ a ∪ b ↔ f ∈ a ∨ f ∈ b := by
  rcases f with ⟨⟨⟩⟩ | _ <;> exact iff_of_eq (Bool.or_eq_true _ _)

@[simp] lemma mem_ty : f ∈ g.ty ↔ f = g := by
  rcases f with ⟨⟨⟩⟩ | _ <;> rcases g with ⟨⟨⟩⟩ | _ <;> decide

@[simp] lemma mem_number : f ∈ number ↔ f = .kind .number := mem_ty (g := .kind .number)

@[simp] lemma mem_string : f ∈ string ↔ f = .kind .string := mem_ty (g := .kind .string)

@[simp] lemma mem_error : f ∈ error ↔ f = .fault := mem_ty (g := .fault)

@[simp] lemma notMem_unassigned : f ∉ unassigned := by
  rcases f with ⟨⟨⟩⟩ | _ <;> decide

@[simp] lemma mem_faultIf {c : Bool} : f ∈ faultIf c ↔ f = .fault ∧ c = true := by
  rcases f with ⟨⟨⟩⟩ | _ <;> cases c <;> decide

def someFlag (t : Ty) : Flag :=
  if t.hasNumber then .kind .number else if t.hasString then .kind .string else .fault

lemma someFlag_mem (h : t ≠ unassigned) : t.someFlag ∈ t := by
  obtain ⟨n, s, e⟩ := t
  revert h
  cases n <;> cases s <;> cases e <;> decide

lemma ne_unassigned_iff : t ≠ unassigned ↔ ∃ f, f ∈ t := by
  refine ⟨fun h => ⟨_, someFlag_mem h⟩, ?_⟩
  rintro ⟨f, hf⟩ rfl
  exact notMem_unassigned hf

lemma subset_iff : a ⊆ b ↔ ∀ f ∈ a, f ∈ b := by
  obtain ⟨an, as, ae⟩ := a
  obtain ⟨bn, bs, be⟩ := b
  simp only [HasSubset.Subset, Inter.inter, mk.injEq, Bool.and_eq_left_iff_imp, Flag.forall_iff,
    number_mem, string_mem, fault_mem]

lemma ty_subset_iff : f.ty ⊆ t ↔ f ∈ t := by
  simp [subset_iff]

lemma ne_unassigned_of_subset (h : a ⊆ b) (ha : a ≠ unassigned) : b ≠ unassigned := by
  obtain ⟨f, hf⟩ := ne_unassigned_iff.mp ha
  exact ne_unassigned_iff.mpr ⟨f, subset_iff.mp h f hf⟩

/-- If no pair of kinds can be formed from two types, one of them can only be a fault. -/
lemma fault_mem_of_no_pair (ha : a ≠ unassigned) (hb : b ≠ unassigned)
    (h : ∀ k k', .kind k ∈ a → .kind k' ∉ b) : .fault ∈ a ∨ .fault ∈ b := by
  obtain ⟨f, hf⟩ := ne_unassigned_iff.mp ha
  obtain ⟨g, hg⟩ := ne_unassigned_iff.mp hb
  cases f with
  | fault => exact .inl hf
  | kind k =>
    cases g with
    | fault => exact .inr hg
    | kind k' => exact absurd hg (h k k' hf)

lemma mem_foldl_union {α : Type} (F : α → Ty) (ks : List α) (acc : Ty) :
    f ∈ ks.foldl (fun acc k => acc ∪ F k) acc ↔ f ∈ acc ∨ ∃ k ∈ ks, f ∈ F k := by
  induction ks generalizing acc with
  | nil => simp
  | cons k ks ih => simp [ih, or_assoc]

end Ty

/-! ### Operators -/

namespace UnaryOp

variable {op : UnaryOp} {t u : Ty} {f : Flag}

/-- A unary operator passes a fault on, and makes of each kind what it makes of it. -/
lemma mem_result : f ∈ op.result t ↔
    f = .fault ∧ .fault ∈ t ∨ ∃ k, .kind k ∈ t ∧ f ∈ op.onKind k := by
  unfold result
  split
  · next h => simp [h]
  · simp [Ty.mem_foldl_union, Ty.kind_mem, Ty.fault_mem]

lemma result_mono (h : t ⊆ u) : op.result t ⊆ op.result u := by
  rw [Ty.subset_iff] at h ⊢
  intro f hf
  rw [mem_result] at hf ⊢
  rcases hf with ⟨hf, ht⟩ | ⟨k, hk, hf⟩
  · exact .inl ⟨hf, h _ ht⟩
  · exact .inr ⟨k, h _ hk, hf⟩

lemma exists_of_mem_result (h : f ∈ op.result t) : ∃ g ∈ t, f ∈ op.result g.ty := by
  rcases mem_result.mp h with ⟨rfl, ht⟩ | ⟨k, hk, hf⟩
  · exact ⟨.fault, ht, mem_result.mpr (.inl ⟨rfl, by simp⟩)⟩
  · exact ⟨.kind k, hk, mem_result.mpr (.inr ⟨k, by simp, hf⟩)⟩

end UnaryOp

namespace BinaryOp

variable {op : BinaryOp} {nz : Bool} {l l' r r' : Ty} {f : Flag}

lemma onKinds_of_comparison (h : op.isComparison = true) (k k' : Kind) :
    op.onKinds nz k k' = .number := by
  cases op with
  | equalTo | notEqualTo | lessThan | greaterThan | lessThanEqualTo | greaterThanEqualTo => rfl
  | _ => cases h

lemma typable_of_mem_result (h : f ∈ op.result nz l r) : l ≠ .unassigned ∧ r ≠ .unassigned :=
  not_or.mp (mt result_eq_unassigned.mpr (Ty.ne_unassigned_iff.mpr ⟨f, h⟩))

/-- A binary operator passes faults on, a comparison is a number, and beside that there is a result
for each pair of kinds. -/
lemma mem_result (hl : l ≠ .unassigned) (hr : r ≠ .unassigned) : f ∈ op.result nz l r ↔
    f = .fault ∧ (.fault ∈ l ∨ .fault ∈ r) ∨ op.isComparison = true ∧ f = .kind .number ∨
      ∃ k k', .kind k ∈ l ∧ .kind k' ∈ r ∧ f ∈ op.onKinds nz k k' := by
  have hcarried : f ∈ Ty.faultIf (l.hasError || r.hasError) ↔
      f = .fault ∧ (.fault ∈ l ∨ .fault ∈ r) := by
    simp [Ty.fault_mem]
  have hpairs (p : Kind × Kind) : (p ∈ l.kinds.flatMap fun k => r.kinds.map fun k' => (k, k')) ↔
      .kind p.1 ∈ l ∧ .kind p.2 ∈ r := by
    simp [Ty.kind_mem, Prod.ext_iff]
  rw [result, if_neg (not_or.mpr ⟨hl, hr⟩)]
  generalize (l.kinds.flatMap fun k => r.kinds.map fun k' => (k, k')) = pairs at hpairs
  dsimp only
  split
  · next hc =>
    simp only [Ty.mem_union, Ty.mem_number, hcarried, hc, onKinds_of_comparison hc]
    constructor
    · rintro (hf | hf)
      · exact .inr (.inl ⟨trivial, hf⟩)
      · exact .inl hf
    · rintro (hf | ⟨-, hf⟩ | ⟨k, k', -, -, hf⟩)
      · exact .inr hf
      · exact .inl hf
      · exact .inl hf
  · next hc =>
    split
    · next hempty =>
      have hnone (k k' : Kind) (hk : .kind k ∈ l) : .kind k' ∉ r := by
        intro hk'
        rw [List.isEmpty_iff.mp hempty] at hpairs
        exact List.not_mem_nil ((hpairs (k, k')).mpr ⟨hk, hk'⟩)
      -- so the fault that is added is one that is passed on anyway
      have hfault := Ty.fault_mem_of_no_pair hl hr hnone
      simp only [Ty.mem_union, Ty.mem_error, hcarried, hfault, hc]
      constructor
      · rintro (⟨hf, -⟩ | hf) <;> exact .inl ⟨hf, trivial⟩
      · rintro (hf | ⟨hf, -⟩ | ⟨k, k', hk, hk', -⟩)
        · exact .inl hf
        · cases hf
        · exact absurd hk' (hnone k k' hk)
    · rw [Ty.mem_foldl_union (fun p : Kind × Kind => op.onKinds nz p.1 p.2), hcarried]
      simp [hpairs, hc, and_assoc]

lemma result_mono (hl : l ⊆ l') (hr : r ⊆ r') : op.result nz l r ⊆ op.result nz l' r' := by
  refine Ty.subset_iff.mpr fun f hf => ?_
  obtain ⟨hln, hrn⟩ := typable_of_mem_result hf
  rw [mem_result hln hrn] at hf
  rw [mem_result (Ty.ne_unassigned_of_subset hl hln) (Ty.ne_unassigned_of_subset hr hrn)]
  rw [Ty.subset_iff] at hl hr
  rcases hf with ⟨hf, hl' | hr'⟩ | hf | ⟨k, k', hk, hk', hf⟩
  · exact .inl ⟨hf, .inl (hl _ hl')⟩
  · exact .inl ⟨hf, .inr (hr _ hr')⟩
  · exact .inr (.inl hf)
  · exact .inr (.inr ⟨k, k', hl _ hk, hr _ hk', hf⟩)

/-- Every flag of a result comes from one flag of each operand. -/
lemma exists_of_mem_result (h : f ∈ op.result nz l r) :
    ∃ g ∈ l, ∃ g' ∈ r, f ∈ op.result nz g.ty g'.ty := by
  obtain ⟨hl, hr⟩ := typable_of_mem_result h
  have hmem (g g' : Flag) : f ∈ op.result nz g.ty g'.ty ↔ _ :=
    mem_result (Ty.ne_unassigned_iff.mpr ⟨g, by simp⟩) (Ty.ne_unassigned_iff.mpr ⟨g', by simp⟩)
  simp only [hmem, Ty.mem_ty]
  rcases (mem_result hl hr).mp h with ⟨rfl, hl' | hr'⟩ | hf | ⟨k, k', hk, hk', hf⟩
  · exact ⟨_, hl', r.someFlag, Ty.someFlag_mem hr, .inl ⟨rfl, .inl rfl⟩⟩
  · exact ⟨l.someFlag, Ty.someFlag_mem hl, _, hr', .inl ⟨rfl, .inr rfl⟩⟩
  · exact ⟨_, Ty.someFlag_mem hl, _, Ty.someFlag_mem hr, .inr (.inl hf)⟩
  · exact ⟨_, hk, _, hk', .inr (.inr ⟨k, k', rfl, rfl, hf⟩)⟩

end BinaryOp

/-! ### Expressions -/

abbrev Choice := VarName → Flag

namespace Choice

def lookup (c : Choice) : Lookup := fun x => some (c x).ty

/-- The flag of each variable is one of those that its type has, where it has a type. -/
def From (c : Choice) (known : Lookup) : Prop :=
  ∀ x, known.tyOf x ≠ .unassigned → c x ∈ known.tyOf x

variable {known : Lookup}

lemma tyOf_lookup (c : Choice) (x : VarName) : c.lookup.tyOf x = (c x).ty := rfl

def any (known : Lookup) : Choice := fun x => (known.tyOf x).someFlag

lemma from_any : (any known).From known := fun _ hx => Ty.someFlag_mem hx

lemma From.update {c : Choice} (h : c.From known) {x : VarName} {f : Flag}
    (hf : f ∈ known.tyOf x) : Choice.From (Function.update c x f) known := by
  intro y hy
  by_cases hyx : y = x
  · subst hyx
    simpa using hf
  · simpa [hyx] using h y hy

def glue (xs : List VarName) (c d : Choice) : Choice := fun x => if x ∈ xs then c x else d x

lemma From.glue {c d : Choice} (hc : c.From known) (hd : d.From known) (xs : List VarName) :
    (glue xs c d).From known := by
  intro x hx
  unfold Choice.glue
  split
  · exact hc x hx
  · exact hd x hx

end Choice

namespace Expr

variable {known : Lookup} {e : Expr}

/-- **Monotonicity**: wider types of the variables read give a wider type. -/
theorem infer_mono {wider : Lookup} (h : ∀ x ∈ e.reads, known.tyOf x ⊆ wider.tyOf x) :
    e.infer known ⊆ e.infer wider := by
  induction e with
  | number n => exact Ty.subset_iff.mpr fun f hf => hf
  | string s => exact Ty.subset_iff.mpr fun f hf => hf
  | var x => exact h x (by simp [reads])
  | paren e ih => exact ih h
  | unary op e ih => exact UnaryOp.result_mono (ih h)
  | binary op l r ihl ihr =>
    exact BinaryOp.result_mono (ihl fun x hx => h x (List.mem_append_left _ hx))
      (ihr fun x hx => h x (List.mem_append_right _ hx))

/-- **Precision**: where no variable stands twice, every flag comes from one flag for each
variable. -/
theorem exists_choice (hnodup : e.reads.Nodup) {f : Flag} (hf : f ∈ e.infer known) :
    ∃ c : Choice, c.From known ∧ f ∈ e.infer c.lookup := by
  induction e generalizing f with
  | number n => exact ⟨.any known, Choice.from_any, hf⟩
  | string s => exact ⟨.any known, Choice.from_any, hf⟩
  | var x =>
    refine ⟨_, Choice.from_any.update hf, ?_⟩
    simp [infer, Choice.lookup]
  | paren e ih => exact ih hnodup hf
  | unary op e ih =>
    obtain ⟨g, hg, hf⟩ := UnaryOp.exists_of_mem_result hf
    obtain ⟨c, hc, hgc⟩ := ih hnodup hg
    exact ⟨c, hc, Ty.subset_iff.mp (UnaryOp.result_mono (Ty.ty_subset_iff.mpr hgc)) f hf⟩
  | binary op l r ihl ihr =>
    obtain ⟨hl, hr, hdisjoint⟩ := List.nodup_append.mp hnodup
    obtain ⟨g, hg, g', hg', hf⟩ := BinaryOp.exists_of_mem_result hf
    obtain ⟨c, hc, hgc⟩ := ihl hl hg
    obtain ⟨d, hd, hgd⟩ := ihr hr hg'
    -- the two sides share no variable, so each keeps its choice
    have hleft : l.infer (Choice.glue l.reads c d).lookup = l.infer c.lookup :=
      infer_congr fun x hx => by rw [Choice.tyOf_lookup, Choice.glue, if_pos hx, Choice.tyOf_lookup]
    have hright : r.infer (Choice.glue l.reads c d).lookup = r.infer d.lookup :=
      infer_congr fun x hx => by
        have hxl : x ∉ l.reads := fun hxl => hdisjoint x hxl x hx rfl
        rw [Choice.tyOf_lookup, Choice.glue, if_neg hxl, Choice.tyOf_lookup]
    refine ⟨Choice.glue l.reads c d, hc.glue hd l.reads, ?_⟩
    rw [infer, hleft, hright]
    exact Ty.subset_iff.mp (BinaryOp.result_mono (Ty.ty_subset_iff.mpr hgc)
      (Ty.ty_subset_iff.mpr hgd)) f hf

/-- **Types are inferred flag by flag**: wider types of the variables give a wider type; in
particular, one flag of the type of each variable gives part of the type. Where no variable
stands twice, the type is exactly the union of these parts. -/
theorem infer_flagwise (e : Expr) :
    (∀ known wider : Lookup, (∀ x ∈ e.reads, known.tyOf x ⊆ wider.tyOf x) →
      e.infer known ⊆ e.infer wider) ∧
    ∀ known : Lookup, (∀ x ∈ e.reads, known.tyOf x ≠ .unassigned) →
      (∀ c : Choice, c.From known → e.infer c.lookup ⊆ e.infer known) ∧
      (e.reads.Nodup → ∀ f : Flag, f ∈ e.infer known ↔
        ∃ c : Choice, c.From known ∧ f ∈ e.infer c.lookup) := by
  refine ⟨fun known wider => infer_mono, fun known hknown => ?_⟩
  have hpart (c : Choice) (hc : c.From known) : e.infer c.lookup ⊆ e.infer known :=
    infer_mono fun x hx => Ty.ty_subset_iff.mpr (hc x (hknown x hx))
  refine ⟨hpart, fun hnodup f => ⟨exists_choice hnodup, ?_⟩⟩
  rintro ⟨c, hc, hf⟩
  exact Ty.subset_iff.mp (hpart c hc) f hf

/-- A product of what may be a fault and what may be a string. Some choice makes it a fault, and
none makes it a string; if its second factor cannot be a string, its type is no wider for it. -/
theorem infer_flagwise_product :
    let e : Expr := .binary .multiply (.var "a")
      (.paren (.binary .add (.var "b") (.number ⟨1000⟩)))
    let known : Lookup := fun x => some (if x = "a" then ⟨true, false, true⟩ else ⟨true, true, false⟩)
    let narrow : Lookup := fun x => some (if x = "a" then ⟨true, false, true⟩ else .number)
    let numbers : Choice := fun _ => .kind .number
    (∀ x ∈ e.reads, narrow.tyOf x ⊆ known.tyOf x) ∧ e.infer narrow ⊆ e.infer known ∧
    (∀ x ∈ e.reads, known.tyOf x ≠ .unassigned) ∧ numbers.From known ∧
    e.infer numbers.lookup ⊆ e.infer known ∧ e.reads.Nodup ∧
    (∃ c : Choice, c.From known ∧ .fault ∈ e.infer c.lookup) ∧
    ∀ c : Choice, c.From known → .kind .string ∉ e.infer c.lookup := by
  intro e known narrow numbers
  obtain ⟨hmono, hflags⟩ := infer_flagwise e
  have hnarrow : ∀ x ∈ e.reads, narrow.tyOf x ⊆ known.tyOf x := by decide
  have hknown : ∀ x ∈ e.reads, known.tyOf x ≠ .unassigned := by decide
  have hnumbers : numbers.From known := by
    intro x hx
    by_cases ha : x = "a" <;> simp [known, numbers, Lookup.tyOf, ha, Ty.number_mem]
  have hnodup : e.reads.Nodup := by decide
  obtain ⟨hparts, hunion⟩ := hflags known hknown
  refine ⟨hnarrow, hmono _ _ hnarrow, hknown, hnumbers, hparts numbers hnumbers, hnodup, ?_, ?_⟩
  · exact (hunion hnodup .fault).mp (by decide)
  · intro c hc hmem
    have hstring : .kind .string ∈ e.infer known := (hunion hnodup _).mpr ⟨c, hc, hmem⟩
    revert hstring
    decide

/-- A variable that stands twice counts as a number in one place and as a string in the other, so a
flag comes up that neither kind alone gives. -/
example :
    let e : Expr := .binary .add (.unary .abs (.var "x")) (.binary .add (.var "x") (.number ⟨1000⟩))
    .kind .string ∈ e.infer (fun _ => some ⟨true, true, false⟩) ∧
      e.infer (fun _ => some .number) = .number ∧ e.infer (fun _ => some .string) = .error := by
  decide

end Expr

end TypeFlow
