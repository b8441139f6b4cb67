import TypeFlow.Proofs.Additions
import TypeFlow.Proofs.FixedPoint
import TypeFlow.Proofs.Flagwise

/-!
Flow typing makes up no mixed types.

A type is mixed if it leaves open whether a value is a number or a string. Operators make no mixed
type of operands that are not mixed, though they may add a fault, and beside a kind a fault is
dropped before a type is stored. So if neither a hint nor the default type is mixed, an entry of the
table is one flag alone or nothing, in every pass, and no annotation is mixed.
-/

namespace TypeFlow

namespace Ty

/-- The type does not leave open whether a value is a number or a string. -/
def Unmixed (t : Ty) : Prop := ¬ (t.hasNumber = true ∧ t.hasString = true)

instance (t : Ty) : Decidable t.Unmixed := inferInstanceAs (Decidable (¬ _))

/-- The types that say one thing or nothing. -/
def simple : List Ty := [unassigned, number, string, error]

variable {t : Ty}

lemma unmixed_iff : t.Unmixed ↔ ∀ k k' : Kind, .kind k ∈ t → .kind k' ∈ t → k = k' := by
  constructor
  · intro h k k' hk hk'
    cases k <;> cases k'
    · rfl
    · exact absurd ⟨hk, hk'⟩ h
    · exact absurd ⟨hk', hk⟩ h
    · rfl
  · rintro h ⟨hn, hs⟩
    exact Kind.noConfusion (h .number .string hn hs)

lemma unmixed_of_mem_simple (h : t ∈ simple) : t.Unmixed := by
  revert t
  decide

/-- Without a fault beside it, a type that is not mixed says one thing or nothing. -/
lemma masked_mem_simple (h : t.Unmixed) : t.masked ∈ simple := by
  obtain ⟨n, s, e⟩ := t
  revert h
  cases n <;> cases s <;> cases e <;> decide

end Ty

/-! ### Operators and expressions -/

lemma UnaryOp.eq_number_of_mem_result {op : UnaryOp} {t : Ty} {k : Kind}
    (h : .kind k ∈ op.result t) : k = .number := by
  rcases mem_result.mp h with ⟨h, -⟩ | ⟨k', -, h⟩
  · cases h
  · cases k' with
    | number => simpa [onKind] using h
    | string => simp [onKind] at h

lemma UnaryOp.unmixed_result (op : UnaryOp) (t : Ty) : (op.result t).Unmixed := by
  refine Ty.unmixed_iff.mpr fun k k' hk hk' => ?_
  rw [eq_number_of_mem_result hk, eq_number_of_mem_result hk']

namespace BinaryOp

variable {op : BinaryOp} {nz : Bool} {l r : Ty} {k : Kind}

/-- A kind that a result may have is that of a comparison or comes from a pair of kinds. -/
lemma kind_mem_result (h : .kind k ∈ op.result nz l r) :
    op.isComparison = true ∧ k = .number ∨
      ∃ a b, .kind a ∈ l ∧ .kind b ∈ r ∧ .kind k ∈ op.onKinds nz a b := by
  obtain ⟨hl, hr⟩ := typable_of_mem_result h
  rcases (mem_result hl hr).mp h with ⟨hk, -⟩ | ⟨hc, hk⟩ | hpair
  · cases hk
  · exact .inl ⟨hc, Flag.kind.inj hk⟩
  · exact .inr hpair

lemma unmixed_onKinds (op : BinaryOp) (nz : Bool) (a b : Kind) : (op.onKinds nz a b).Unmixed := by
  cases op <;> cases nz <;> cases a <;> cases b <;> decide

lemma unmixed_result (hl : l.Unmixed) (hr : r.Unmixed) : (op.result nz l r).Unmixed := by
  refine Ty.unmixed_iff.mpr fun k k' hk hk' => ?_
  by_cases hc : op.isComparison = true
  · have hnumber {k : Kind} (h : .kind k ∈ op.result nz l r) : k = .number := by
      rcases kind_mem_result h with ⟨-, hk⟩ | ⟨a, b, -, -, hk⟩
      · exact hk
      · simpa [onKinds_of_comparison hc] using hk
    rw [hnumber hk, hnumber hk']
  · -- each operand has one kind at most, so both kinds come from the same pair
    obtain ⟨a, b, ha, hb, hk⟩ := (kind_mem_result hk).resolve_left fun h => hc h.1
    obtain ⟨a', b', ha', hb', hk'⟩ := (kind_mem_result hk').resolve_left fun h => hc h.1
    obtain rfl : a = a' := Ty.unmixed_iff.mp hl a a' ha ha'
    obtain rfl : b = b' := Ty.unmixed_iff.mp hr b b' hb hb'
    exact Ty.unmixed_iff.mp (op.unmixed_onKinds nz a b) k k' hk hk'

end BinaryOp

lemma Expr.unmixed_infer {known : Lookup} {e : Expr}
    (h : ∀ x ∈ e.reads, (known.tyOf x).Unmixed) : (e.infer known).Unmixed := by
  induction e with
  | number n => exact Ty.unmixed_of_mem_simple (t := .number) (by decide)
  | string s => exact Ty.unmixed_of_mem_simple (t := .string) (by decide)
  | var x => exact h x (by simp [reads])
  | paren e ih => exact ih h
  | unary op e ih => exact op.unmixed_result _
  | binary op l r ihl ihr =>
    exact BinaryOp.unmixed_result (ihl fun x hx => h x (List.mem_append_left _ hx))
      (ihr fun x hx => h x (List.mem_append_right _ hx))

/-! ### Tables -/

open TypeTable

variable {t u : TypeTable}

def TypeTable.Simple (t : TypeTable) : Prop := ∀ x ty, t.get? x = some ty → ty ∈ Ty.simple

lemma TypeTable.Simple.unmixed_infer (h : t.Simple) (e : Expr) : (e.infer t.get?).Unmixed := by
  refine Expr.unmixed_infer fun x _ => Ty.unmixed_of_mem_simple ?_
  rw [Lookup.tyOf]
  cases hx : t.get? x with
  | none => exact List.mem_cons_self
  | some ty => exact h x ty hx

/-- What is stored for an assignment says one thing, whichever pass enters it. -/
lemma Grows.simple {sites : List Assignment} (h : Grows sites t u) (ht : t.Simple) : u.Simple :=
  h.entries_induction ht fun _ _ _ _ hv _ _ _ => Ty.masked_mem_simple (Simple.unmixed_infer hv _)

/-! ### Runs -/

namespace Config

/-- The seed holds hints and the default type, and these are not mixed. -/
lemma entries_seed_simple {c : Config} {g : Graph} (hhints : ∀ h ∈ c.hints, h.ty.Unmixed)
    (hdefault : c.defaultTy.Unmixed) (h : c.seed g = .ok t) : ∀ e ∈ t.entries, e.2 ∈ Ty.simple := by
  rw [(seed_eq_ok_iff.mp h).2]
  intro e he
  rcases List.mem_append.mp he with he | he
  · obtain ⟨hint, hhint, rfl⟩ := List.mem_map.mp he
    exact Ty.masked_mem_simple (hhints hint hhint)
  · obtain ⟨x, -, rfl⟩ := List.mem_map.mp he
    exact Ty.masked_mem_simple hdefault

/-- **A run makes up no mixed types**: if neither a hint nor the default type is mixed, every entry
of the final table says one thing or nothing; what is entered beyond the seed is for assignments and
says something; and no annotation is mixed, but for those that came with an assignment whose value
gets no type, which the run leaves alone. -/
theorem run_unmixed {c : Config} {g : Graph} {r : Typing}
    (hhints : ∀ h ∈ c.hints, h.ty.Unmixed) (hdefault : c.defaultTy.Unmixed)
    (hrun : c.run g = .ok r) :
    (∀ e ∈ r.types.entries, e.2 ∈ [.unassigned, .number, .string, .error]) ∧
    (∃ seeded recorded, c.seed g = .ok seeded ∧ r.types.entries = seeded.entries ++ recorded ∧
      ∀ e ∈ recorded, (∃ a ∈ g.sites, a.target = e.1) ∧ e.2 ≠ .unassigned) ∧
    ∃ f, r.graph = g.mapLeaves f ∧ ∀ l ∈ g.leaves, ∀ a, f l = .typed a →
      a.ty.Unmixed ∨ a.value.infer r.types.get? = .unassigned ∧ l = .typed a := by
  obtain ⟨t, ht, hset, hgraph, -⟩ := run_eq_ok_iff.mp hrun
  have hgrows : Grows g.sites t r.types := hset.grows
  have hseed := entries_seed_simple hhints hdefault ht
  have hsimple : r.types.Simple := hgrows.simple fun x ty hx => hseed _ (mem_entries_of_get? hx)
  obtain ⟨added, hadded, hnodup, hnew⟩ := hgrows.exists_added
  have hget (e : VarName × Ty) (he : e ∈ added) : r.types.get? e.1 = some e.2 :=
    get?_of_mem_added hadded hnodup (hnew e he) he
  refine ⟨fun e he => ?_, ⟨t, added, ht, hadded, fun e he => ?_⟩, _, hgraph, fun l hl a ha => ?_⟩
  · rw [hadded] at he
    rcases List.mem_append.mp he with he | he
    · exact hseed e he
    · exact hsimple e.1 e.2 (hget e he)
  · rcases hgrows.justified (hget e he) with hold | ⟨-, a, ha, htarget, hty, hmasked⟩
    · exact absurd (mem_names_iff.mpr ⟨_, hold⟩) (hnew e he)
    · exact ⟨⟨a, ha, htarget⟩, by rwa [hmasked, ne_eq, Ty.masked_eq_unassigned]⟩
  · rcases infer_of_typed hrun hl ha with ⟨hty, -⟩ | hkept
    · exact .inl (hty ▸ hsimple.unmixed_infer a.value)
    · exact .inr hkept

/-- Faults in the hint and in the default type are dropped. A quotient that comes with a mixed
annotation gets another, with a fault that its entry has not; a sum that waits for a name hinted
without a type keeps its own; and a negated string is nothing but a fault. -/
theorem run_unmixed_stale :
    let mixed : Ty := ⟨true, true, false⟩
    let c : Config := ⟨[⟨"k", ⟨true, false, true⟩⟩, ⟨"u", .unassigned⟩], ⟨false, true, true⟩, none⟩
    let sum : Assignment := ⟨"w", .binary .add (.var "q") (.var "s")⟩
    let quotient : Assignment := ⟨"q", .binary .divide (.var "k") (.var "k")⟩
    let negated : Assignment := ⟨"e", .unary .negate (.var "s")⟩
    let waiting : TypedAssignment := ⟨⟨"v", .binary .add (.var "u") (.number ⟨1000⟩)⟩, mixed⟩
    let blocks (s q e : Leaf) : List Block := [⟨⟨0⟩, .entry, 0, [.leaf s]⟩,
      ⟨⟨1⟩, .basic, 1, [.ifElse (.var "s") [.leaf q] [.list [.leaf e, .leaf (.typed waiting)]]]⟩]
    let g : Graph := ⟨blocks (.assign sum) (.typed ⟨quotient, mixed⟩) (.assign negated), []⟩
    let r : Typing := ⟨⟨blocks (.typed ⟨sum, .string⟩) (.typed ⟨quotient, ⟨true, false, true⟩⟩)
        (.typed ⟨negated, .error⟩), []⟩,
      ⟨[("k", .number), ("u", .unassigned), ("s", .string), ("q", .number), ("e", .error),
        ("w", .string)]⟩, [2, 1, 0]⟩
    (∀ h ∈ c.hints, h.ty.Unmixed) ∧ c.defaultTy.Unmixed ∧ c.run g = .ok r ∧
      (∀ e ∈ r.types.entries, e.2 ∈ [.unassigned, .number, .string, .error]) ∧
      (∃ seeded recorded, c.seed g = .ok seeded ∧ r.types.entries = seeded.entries ++ recorded ∧
        ∀ e ∈ recorded, e.2 ≠ .unassigned) ∧
      ∃ f, r.graph = g.mapLeaves f ∧ ∀ a, f (.typed ⟨quotient, mixed⟩) = .typed a →
        a.ty.Unmixed := by
  intro mixed c sum quotient negated waiting blocks g r
  have hhints : ∀ h ∈ c.hints, h.ty.Unmixed := by decide
  have hdefault : c.defaultTy.Unmixed := by decide
  have hrun : c.run g = .ok r := by decide +kernel
  obtain ⟨hentries, ⟨seeded, recorded, hseed, hr, hrecorded⟩, f, hf, hannotated⟩ :=
    run_unmixed hhints hdefault hrun
  refine ⟨hhints, hdefault, hrun, hentries, ⟨seeded, recorded, hseed, hr, ?_⟩, f, hf, ?_⟩
  · exact fun e he => (hrecorded e he).2
  · intro a ha
    have hmem : .typed ⟨quotient, mixed⟩ ∈ g.leaves := by decide
    refine (hannotated _ hmem a ha).resolve_right ?_
    rintro ⟨hu, ha'⟩
    cases ha'
    revert hu
    decide

end Config

end TypeFlow
