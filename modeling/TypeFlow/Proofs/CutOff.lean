import TypeFlow.Proofs.PassBound

/-!
The pass limit as a cut-off.

A limit is asked for before each pass and decides nothing else. So a run with a limit goes the
same way as the run without one, up to the pass in which that one ends, or up to the limit if
this comes first.
-/

namespace TypeFlow

namespace Config

variable {c : Config} {g : Graph} {t : TypeTable} {done : List ℕ} {limit : UInt64}

lemma exceeded_eq_some {n : ℕ} :
    c.exceeded n = some limit ↔ c.maxPasses = some limit ∧ limit.toNat ≤ n := by
  simp [exceeded, Option.filter_eq_some_iff]

lemma iterate_of_exceeded (h : c.exceeded done.length = some limit) :
    c.iterate g t done = .error (.passLimit limit) := by
  rw [iterate, h]

lemma run_of_seed_error {e : Error} (h : c.seed g = .error e) : c.run g = .error e := by
  rw [run, h]
  rfl

end Config

/-- A run whose limit comes before its last pass reports the limit, whatever the last pass would
have come to. -/
theorem Concludes.iterate_eq_passLimit {c : Config} {limit : UInt64} {g : Graph} {t : TypeTable}
    {done : List ℕ} {n : ℕ} {out : Except Error Typing} (h : Concludes g t done n out)
    (hmax : c.maxPasses = some limit) (hlt : limit.toNat < n) :
    c.iterate g t done = .error (.passLimit limit) := by
  induction h with
  | failed hp =>
    exact Config.iterate_of_exceeded (Config.exceeded_eq_some.mpr ⟨hmax, by omega⟩)
  | settled hp hc =>
    exact Config.iterate_of_exceeded (Config.exceeded_eq_some.mpr ⟨hmax, by omega⟩)
  | @next g h t u done p n out hp hc hrest ih =>
    cases hexc : c.exceeded done.length with
    | some k =>
      -- the limit is met already, and it is the one configured
      obtain ⟨hk, -⟩ := Config.exceeded_eq_some.mp hexc
      obtain rfl : limit = k := Option.some.inj (hmax.symm.trans hk)
      exact Config.iterate_of_exceeded hexc
    | none =>
      rw [Config.iterate_of_typingPass hexc hp, if_pos hc]
      exact ih hlt

/-- **The limit is a cut-off**: an error in seeding is reported with and without a limit. Else
the run without a limit ends in some pass, with a result or an error. A limit that lets this pass
start changes nothing, and a lower one is reported. -/
theorem Config.run_cut_off (c : Config) (g : Graph) (limit : UInt64) :
    (∀ e, c.seed g = .error e →
      { c with maxPasses := none }.run g = .error e ∧
      { c with maxPasses := some limit }.run g = .error e) ∧
    ∀ t, c.seed g = .ok t →
      (∃ k out, Concludes g t [] k out) ∧ ∀ k out, Concludes g t [] k out →
        { c with maxPasses := none }.run g = out ∧
        (k ≤ limit.toNat → { c with maxPasses := some limit }.run g = out) ∧
        (limit.toNat < k →
          { c with maxPasses := some limit }.run g = .error (.passLimit limit)) := by
  -- seeding does not look at the limit
  have hseed (m : Option UInt64) : { c with maxPasses := m }.seed g = c.seed g := rfl
  refine ⟨fun e he => ⟨?_, ?_⟩, fun t ht => ⟨exists_concludes g t [], fun k out h => ?_⟩⟩
  · exact run_of_seed_error ((hseed none).trans he)
  · exact run_of_seed_error ((hseed (some limit)).trans he)
  · rw [run_of_seed ((hseed none).trans ht), run_of_seed ((hseed (some limit)).trans ht)]
    refine ⟨h.iterate_eq (by simp), fun hle => h.iterate_eq ?_, h.iterate_eq_passLimit rfl⟩
    rintro m ⟨⟩
    exact hle

/-- A write that is found to be a second one in the second pass only: the limit of two passes lets
the run get there, and the limit of one does not. A name hinted twice comes before any limit. -/
theorem Config.run_cut_off_late :
    let g : Graph := ⟨[⟨⟨0⟩, .basic, 1, [.leaf (.assign ⟨"x", .var "y"⟩),
      .leaf (.assign ⟨"y", .string "s"⟩), .leaf (.assign ⟨"x", .number ⟨1000⟩⟩)]⟩], []⟩
    let c : Config := ⟨[⟨"p", .number⟩, ⟨"p", .string⟩], .number, none⟩
    let e : Error := .retyped "x" .number .string
    Config.default.seed g = .ok .empty ∧ Concludes g .empty [] 2 (.error e) ∧
      { Config.default with maxPasses := none }.run g = .error e ∧
      { Config.default with maxPasses := some 2 }.run g = .error e ∧
      { Config.default with maxPasses := some 1 }.run g = .error (.passLimit 1) ∧
      c.seed g = .error (.retyped "p" .number .string) ∧
      { c with maxPasses := some 0 }.run g = .error (.retyped "p" .number .string) := by
  intro g c e
  let h : Graph := ⟨[⟨⟨0⟩, .basic, 1, [.leaf (.assign ⟨"x", .var "y"⟩),
    .leaf (.typed ⟨⟨"y", .string "s"⟩, .string⟩),
    .leaf (.typed ⟨⟨"x", .number ⟨1000⟩⟩, .number⟩)]⟩], []⟩
  let t : TypeTable := ⟨[("y", .string), ("x", .number)]⟩
  have hseed : Config.default.seed g = .ok .empty := by decide +kernel
  have htwice : c.seed g = .error (.retyped "p" .number .string) := by decide +kernel
  have hfirst : g.typingPass .empty = (.ok (h, ⟨2, 0⟩), t) := by decide +kernel
  have hsecond : h.typingPass t = (.error e, t) := by decide +kernel
  have hends : Concludes g .empty [] 2 (.error e) := .next hfirst rfl (.failed hsecond)
  obtain ⟨hfree, htwo, -⟩ := ((Config.run_cut_off Config.default g 2).2 _ hseed).2 _ _ hends
  obtain ⟨-, -, hone⟩ := ((Config.run_cut_off Config.default g 1).2 _ hseed).2 _ _ hends
  exact ⟨hseed, hends, hfree, htwo (by decide), hone (by decide), htwice,
    ((Config.run_cut_off c g 0).1 _ htwice).2⟩

end TypeFlow
