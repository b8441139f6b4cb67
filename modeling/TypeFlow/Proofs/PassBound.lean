import Mathlib.Data.Finset.Card
import TypeFlow.Proofs.Failure

/-!
How many passes flow typing takes.

A run goes on after a pass only if that pass has entered a target that had no type, and no pass
makes new targets. So there are at most as many such passes as there are targets without a type
at the start, and one more, in which the run ends.
-/

namespace TypeFlow

def Graph.missingTargets (g : Graph) (t : TypeTable) : Finset VarName :=
  g.targets.toFinset \ t.names.toFinset

lemma Graph.mem_missingTargets {g : Graph} {t : TypeTable} {x : VarName} :
    x ∈ g.missingTargets t ↔ x ∈ g.targets ∧ x ∉ t.names := by
  simp [missingTargets]

/-- A pass that changes anything leaves fewer targets missing. -/
lemma Graph.card_missingTargets_lt {g h : Graph} {t u : TypeTable} {p : Progress}
    (hp : g.typingPass t = (.ok (h, p), u)) (hc : p.changed = true) :
    (h.missingTargets u).card < (g.missingTargets t).card := by
  obtain ⟨htargets, hkept, x, hx, hold, hnew⟩ := exists_entered hp hc
  have hsub : h.missingTargets u ⊆ g.missingTargets t := by
    intro y hy
    rw [mem_missingTargets, htargets] at hy
    exact mem_missingTargets.mpr ⟨hy.1, fun hy' => hy.2 (hkept y hy')⟩
  have hx' : x ∉ h.missingTargets u := fun hmem => (mem_missingTargets.mp hmem).2 hnew
  refine Finset.card_lt_card ((Finset.ssubset_iff_of_subset hsub).mpr ⟨x, ?_, hx'⟩)
  exact mem_missingTargets.mpr ⟨hx, hold⟩

/-! ### The course of a run -/

/-- Passes over `g` from the table `t` on, one after the other as long as they learn something.
After those of `done`, the run ends in its `n`-th pass, and its outcome is `out`. -/
inductive Concludes : Graph → TypeTable → List ℕ → ℕ → Except Error Typing → Prop
  | failed {g : Graph} {t u : TypeTable} {done : List ℕ} {e : Error}
    (hp : g.typingPass t = (.error e, u)) : Concludes g t done (done.length + 1) (.error e)
  | settled {g h : Graph} {t u : TypeTable} {done : List ℕ} {p : Progress}
    (hp : g.typingPass t = (.ok (h, p), u)) (hc : p.changed = false) :
    Concludes g t done (done.length + 1) (.ok ⟨h, u, done ++ [p.modified]⟩)
  | next {g h : Graph} {t u : TypeTable} {done : List ℕ} {p : Progress} {n : ℕ}
    {out : Except Error Typing} (hp : g.typingPass t = (.ok (h, p), u)) (hc : p.changed = true)
    (hrest : Concludes h u (done ++ [p.modified]) n out) : Concludes g t done n out

/-- Passes come to an end on every graph, whatever table they start from. -/
theorem exists_concludes (g : Graph) (t : TypeTable) (done : List ℕ) :
    ∃ n out, Concludes g t done n out := by
  induction hk : (g.missingTargets t).card using Nat.strong_induction_on
    generalizing g t done with
  | h k ih =>
    rcases hp : g.typingPass t with ⟨e | ⟨h, p⟩, u⟩
    · exact ⟨_, _, .failed hp⟩
    · cases hc : p.changed with
      | false => exact ⟨_, _, .settled hp hc⟩
      | true =>
        have hlt : (h.missingTargets u).card < k := hk ▸ Graph.card_missingTargets_lt hp hc
        obtain ⟨n, out, hrest⟩ := ih _ hlt h u (done ++ [p.modified]) rfl
        exact ⟨n, out, .next hp hc hrest⟩

namespace Concludes

variable {g : Graph} {t : TypeTable} {done : List ℕ} {n : ℕ} {out : Except Error Typing}

/-- All passes but the last have entered a missing target each. -/
theorem le_card (h : Concludes g t done n out) :
    n ≤ done.length + (g.missingTargets t).card + 1 := by
  induction h with
  | failed hp => omega
  | settled hp hc => omega
  | next hp hc hrest ih =>
    have hlt := Graph.card_missingTargets_lt hp hc
    simp only [List.length_append, List.length_cons, List.length_nil] at ih
    omega

lemma length_passes {r : Typing} (h : Concludes g t done n (.ok r)) : r.passes.length = n := by
  generalize hout : Except.ok r = out at h
  induction h with
  | failed hp => cases hout
  | settled hp hc =>
    cases hout
    simp
  | next hp hc hrest ih => exact ih hout

lemma length_lt (h : Concludes g t done n out) : done.length < n := by
  induction h with
  | failed hp => omega
  | settled hp hc => omega
  | next hp hc hrest ih =>
    simp only [List.length_append, List.length_cons, List.length_nil] at ih
    omega

lemma exceeded_eq_none {c : Config} (h : Concludes g t done n out)
    (hlim : ∀ k ∈ c.maxPasses, n ≤ k.toNat) : c.exceeded done.length = none :=
  Config.exceeded_eq_none.mpr fun k hk => Nat.lt_of_lt_of_le h.length_lt (hlim k hk)

lemma ne_passLimit (h : Concludes g t done n out) (m : UInt64) : out ≠ .error (.passLimit m) := by
  induction h with
  | failed hp =>
    intro he
    cases he
    obtain ⟨l, -, hrefused⟩ := (Graph.typingPass_eq_error hp).exists_refused
    cases hrefused
  | settled hp hc => simp
  | next hp hc hrest ih => exact ih

/-- A run whose limit lets it get to its last pass has the outcome of its passes. -/
theorem iterate_eq {c : Config} (h : Concludes g t done n out)
    (hlim : ∀ k ∈ c.maxPasses, n ≤ k.toNat) : c.iterate g t done = out := by
  have hnone := h.exceeded_eq_none hlim
  induction h with
  | failed hp => exact Config.iterate_of_typingPass_error hnone hp
  | settled hp hc =>
    rw [Config.iterate_of_typingPass hnone hp, hc]
    rfl
  | next hp hc hrest ih =>
    rw [Config.iterate_of_typingPass hnone hp, if_pos hc]
    exact ih hlim (hrest.exceeded_eq_none hlim)

end Concludes

/-- **A bound on the passes**: without a limit a run comes to an end on every graph, and starts at
most one pass more than there are targets that the seed has no entry for. So a limit that is no
lower than that is never met. -/
theorem Config.run_pass_bound (c : Config) (g : Graph) :
    (∀ t, c.seed g = .ok t → (∃ n out, Concludes g t [] n out) ∧
      ∀ n out, Concludes g t [] n out → n ≤ (g.missingTargets t).card + 1 ∧
        (∀ r, out = .ok r → r.passes.length = n) ∧ (c.maxPasses = none → c.run g = out)) ∧
    ∀ limit, c.maxPasses = some limit →
      (∀ t, c.seed g = .ok t → (g.missingTargets t).card + 1 ≤ limit.toNat) →
      ∀ m, c.run g ≠ .error (.passLimit m) := by
  refine ⟨fun t ht => ⟨exists_concludes g t [], fun n out h => ⟨?_, ?_, ?_⟩⟩, ?_⟩
  · have hle := h.le_card
    simp only [List.length_nil] at hle
    omega
  · rintro r rfl
    exact h.length_passes
  · intro hnone
    rw [run_of_seed ht]
    exact h.iterate_eq (by simp [hnone])
  · intro limit hlimit henough m hrun
    cases ht : c.seed g with
    | error e =>
      obtain ⟨x, existing, attempted, rfl, -⟩ := seed_eq_error ht
      rw [run, ht] at hrun
      cases hrun
    | ok t =>
      obtain ⟨n, out, h⟩ := exists_concludes g t []
      have hle := h.le_card
      have hlast : n ≤ limit.toNat := by
        have := henough t ht
        simp only [List.length_nil] at hle
        omega
      rw [run_of_seed ht, h.iterate_eq (by simpa [hlimit] using hlast)] at hrun
      exact h.ne_passLimit m hrun

/-- Two names, entered one in each of two passes against the order of the program, the second for
an annotation that was there already, and a third pass that finds nothing. So the bound is met,
and a limit one lower is not enough. -/
theorem Config.run_pass_bound_chain :
    let c : Config := ⟨[⟨"p", .string⟩], .number, some 3⟩
    let g : Graph := ⟨[⟨⟨0⟩, .basic, 1, [.leaf (.typed ⟨⟨"z", .var "y"⟩, .string⟩),
      .leaf (.assign ⟨"y", .var "p"⟩)]⟩], []⟩
    let t : TypeTable := ⟨[("p", .string)]⟩
    c.seed g = .ok t ∧ (g.missingTargets t).card = 2 ∧
      (∃ n out, Concludes g t [] n out ∧ n ≤ 3) ∧ (∀ m, c.run g ≠ .error (.passLimit m)) ∧
      { c with maxPasses := some 2 }.run g = .error (.passLimit 2) := by
  intro c g t
  have ht : c.seed g = .ok t := by decide +kernel
  have hcard : (g.missingTargets t).card = 2 := by decide +kernel
  obtain ⟨hends, hlimit⟩ := Config.run_pass_bound c g
  obtain ⟨⟨n, out, hconcludes⟩, hbound⟩ := hends t ht
  have hn : n ≤ 3 := by
    have hle := (hbound n out hconcludes).1
    omega
  refine ⟨ht, hcard, ⟨n, out, hconcludes, hn⟩, hlimit 3 rfl fun u hu => ?_, by decide +kernel⟩
  obtain rfl : t = u := Except.ok.inj (ht.symm.trans hu)
  rw [hcard]
  decide

end TypeFlow
