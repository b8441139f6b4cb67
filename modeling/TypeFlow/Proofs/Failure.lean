import TypeFlow.Proofs.Erasure
import TypeFlow.Proofs.Exclusive

/-!
Why flow typing fails.

A pass that fails has got past some leaves and is refused at the next one: the statement is not
supported, or it is to be annotated and its target has an entry. That entry is never its own. It
is a hint, or it was made for another write to the name, so a run does not fail over a name that
is written once and not hinted.
-/

namespace TypeFlow

open TypeTable

/-! ### Passes that fail -/

inductive Leaf.Refused (t : TypeTable) (l : Leaf) : Error → Prop
  | retyped {a : Assignment} {ty : Ty} (hl : l.site? = some a) (hp : l.Pending t.get?)
    (hx : t.get? a.target = some ty) : Refused t l (.retyped a.target ty (a.value.infer t.get?))
  | unsupported {w : Unsupported} (hk : l.kindName = w.kindName) : Refused t l (.unsupported w)

lemma Leaf.kindName_of_refuse {t : TypeTable} {l : Leaf} {w : Unsupported}
    (h : l.verdict t = .refuse w) : l.kindName = w.kindName := by
  cases l with
  | compound a | eval e =>
    cases h
    rfl
  | assign a | typed a => grind [verdict]
  | _ => cases h

lemma Leaf.verdict_of_kindName {l : Leaf} {w : Unsupported} (h : l.kindName = w.kindName)
    (t : TypeTable) : l.verdict t = .refuse w := by
  cases w with
  | compoundAssignment =>
    cases l with
    | compound a => rfl
    | marker m =>
      cases m
      simp [kindName, Marker.kindName, Unsupported.kindName] at h
    | _ => simp [kindName, Unsupported.kindName] at h
  | expressionStatement =>
    cases l with
    | eval e => rfl
    | marker m =>
      cases m
      simp [kindName, Marker.kindName, Unsupported.kindName] at h
    | _ => simp [kindName, Unsupported.kindName] at h

lemma Leaf.not_supported_of_kindName {l : Leaf} {w : Unsupported}
    (h : l.kindName = w.kindName) : ¬ l.IsSupported := by
  have hj := l.judged_verdict .empty
  rw [verdict_of_kindName h] at hj
  cases hj with
  | refuse hs => exact hs

lemma Leaf.site?_of_kindName {l : Leaf} {w : Unsupported} (h : l.kindName = w.kindName) :
    l.site? = none := by
  cases hs : l.site? with
  | none => rfl
  | some a => exact absurd (.of_site hs) (not_supported_of_kindName h)

lemma Leaf.refused_of_assignType {l : Leaf} {s s' : PassState} {e : Error}
    (h : l.assignType s = .error e s') : l.Refused s.types e ∧ s' = s := by
  have hj := l.judged_verdict s.types
  have hk (w : Unsupported) (hv : l.verdict s.types = .refuse w) : l.kindName = w.kindName :=
    kindName_of_refuse hv
  unfold assignType at h
  generalize l.verdict s.types = v at hj hk h
  cases hj with
  | keep hs ha hn => cases h
  | record hs hl hu ha hx =>
    simp only [PassM.enter_of_notMem hx] at h
    cases h
  | @annotate a hs hl hu ha =>
    by_cases hx : a.target ∈ s.types.names
    · obtain ⟨ty, hty⟩ := mem_names_iff.mp hx
      simp only [PassM.enter_of_get? hty] at h
      cases h
      exact ⟨.retyped hl ha hty, rfl⟩
    · simp only [PassM.enter_of_notMem hx] at h
      cases h
  | refuse hs =>
    cases h
    exact ⟨.unsupported (hk _ rfl), rfl⟩

lemma Leaf.assignType_of_refused {l : Leaf} {s : PassState} {e : Error}
    (h : l.Refused s.types e) : l.assignType s = .error e s := by
  cases h with
  | @retyped a ty hl hp hx =>
    have hj := l.judged_verdict s.types
    unfold assignType
    generalize l.verdict s.types = v at hj
    cases hj with
    | keep hs ha hn => exact absurd ha hp
    | record hs hl' hu ha hx' => exact absurd ha hp
    | annotate hs hl' hu ha =>
      cases hl.symm.trans hl'
      exact PassM.enter_of_get? hx
    | refuse hs => exact absurd (.of_site hl) hs
  | unsupported hk => rw [assignType, verdict_of_kindName hk]

/-- A pass that starts with the table `t` gets past some of the leaves and is refused at the next
one; by then the table is `u`. -/
inductive Stops : TypeTable → List Leaf → Error → TypeTable → Prop
  | here {t : TypeTable} {l : Leaf} {ls : List Leaf} {e : Error} (h : l.Refused t e) :
    Stops t (l :: ls) e t
  | later {t u : TypeTable} {l : Leaf} {ls : List Leaf} {e : Error} (ha : l.Accepted t)
    (h : Stops (t.note l) ls e u) : Stops t (l :: ls) e u

theorem mapM_assignType_eq_error {ls : List Leaf} {s s' : PassState} {e : Error}
    (h : ls.mapM Leaf.assignType s = .error e s') : Stops s.types ls e s'.types := by
  induction ls generalizing s with
  | nil => cases h
  | cons l ls ih =>
    rw [List.mapM_cons] at h
    rcases EStateM.bind_eq_error h with hl | ⟨r, s₁, hl, h⟩
    · obtain ⟨hrefused, rfl⟩ := Leaf.refused_of_assignType hl
      exact .here hrefused
    · have ha := Leaf.accepted_of_assignType hl
      rw [Leaf.assignType_of_accepted ha] at hl
      cases hl
      rcases EStateM.bind_eq_error h with hls | ⟨rs, s₂, -, hdone⟩
      · exact .later ha (ih hls)
      · cases hdone

/-- What a pass that fails has done. -/
theorem Graph.typingPass_eq_error {g : Graph} {t u : TypeTable} {e : Error}
    (hp : g.typingPass t = (.error e, u)) : Stops t g.leaves e u := by
  unfold typingPass assignTypes at hp
  rw [modifyBlocks_ofLeaf] at hp
  split at hp
  · cases hp
  · next s hs =>
    cases hp
    rcases EStateM.bind_eq_error hs with hls | ⟨rs, s₁, -, hdone⟩
    · exact mapM_assignType_eq_error hls
    · cases hdone

theorem Stops.mapM_assignType {t u : TypeTable} {ls : List Leaf} {e : Error}
    (h : Stops t ls e u) {s : PassState} (hs : s.types = t) :
    ∃ s', ls.mapM Leaf.assignType s = .error e s' ∧ s'.types = u := by
  induction h generalizing s with
  | here h =>
    subst hs
    refine ⟨s, ?_, rfl⟩
    rw [List.mapM_cons, EStateM.bind_of_error (Leaf.assignType_of_refused h)]
  | @later t u l ls e ha h ih =>
    subst hs
    obtain ⟨s', hs', hu⟩ := ih (s := s.after l) rfl
    refine ⟨s', ?_, hu⟩
    rw [List.mapM_cons, EStateM.bind_of_ok (Leaf.assignType_of_accepted ha),
      EStateM.bind_of_error hs']

/-- A pass fails where it is stopped. -/
theorem Stops.typingPass_eq {g : Graph} {t u : TypeTable} {e : Error}
    (h : Stops t g.leaves e u) : g.typingPass t = (.error e, u) := by
  obtain ⟨s', hs', rfl⟩ := h.mapM_assignType (s := ⟨t, .none⟩) rfl
  unfold Graph.typingPass Graph.assignTypes
  rw [Graph.modifyBlocks_ofLeaf, EStateM.run, EStateM.bind_of_error hs']

namespace Stops

variable {t u : TypeTable} {ls : List Leaf} {e : Error}

lemma exists_refused (h : Stops t ls e u) : ∃ l ∈ ls, l.Refused u e := by
  induction h with
  | here h => exact ⟨_, List.mem_cons_self, h⟩
  | later ha h ih =>
    obtain ⟨l, hl, hrefused⟩ := ih
    exact ⟨l, List.mem_cons_of_mem _ hl, hrefused⟩

/-- A pass is not refused at an assignment that is alone in writing its name. -/
lemma not_exclusive {x : VarName} {existing attempted : Ty}
    (h : Stops t ls (.retyped x existing attempted) u) :
    ¬ Exclusive (fun a => a.target = x) ls t := by
  generalize he : Error.retyped x existing attempted = e at h
  induction h with
  | here h =>
    intro hexcl
    subst he
    cases h with
    | retyped hl hp hx =>
      exact hexcl.not_pending List.mem_cons_self hl rfl (mem_names_iff.mpr ⟨_, hx⟩) hp
  | later ha h ih => exact fun hexcl => ih he (hexcl.note (closedUnder_target _ x))

end Stops

/-! ### Runs that fail -/

/-- A run that fails has met its limit, or one of its passes has failed. What sweeps preserve
held when that pass began. -/
theorem Config.iterate_eq_error {c : Config} {g : Graph} {t : TypeTable} {done : List ℕ}
    {e : Error} (Inv : List Leaf → TypeTable → Prop)
    (hstep : ∀ ls ls' t u, Sweep t ls ls' u → Inv ls t → Inv ls' u) (hinv : Inv g.leaves t)
    (h : c.iterate g t done = .error e) :
    (∃ n, c.maxPasses = some n ∧ e = .passLimit n) ∨ ∃ ls t u, Inv ls t ∧ Stops t ls e u := by
  fun_induction c.iterate g t done with
  | case1 g t done n hn =>
    cases h
    exact .inl ⟨n, (Option.filter_eq_some_iff.mp hn).1, rfl⟩
  | case2 g t done hlim e' u hp =>
    cases h
    exact .inr ⟨g.leaves, t, u, hinv, Graph.typingPass_eq_error hp⟩
  | case3 g t done hlim g' p t' hp hc ih =>
    obtain ⟨ls', hsweep, rfl, -, -⟩ := Graph.typingPass_eq_ok hp
    refine ih ?_ h
    rw [Graph.leaves_refill hsweep.length_eq]
    exact hstep _ _ _ _ hsweep hinv
  | case4 => cases h

lemma exclusive_of_count {ls : List Leaf} {t : TypeTable} {x : VarName}
    (hcount : (Leaf.targets ls).count x < 2) (hx : x ∉ t.names) :
    Exclusive (fun a => a.target = x) ls t := by
  refine ⟨List.pairwise_iff_forall_sublist.mpr fun {a b} hsub ha hb _ => ?_, ?_⟩
  · have htwo : [x, x].Sublist (Leaf.targets ls) := by
      rw [Leaf.targets_eq_map_sites, ← ha]
      simpa [ha, hb] using hsub.map Assignment.target
    have hle := htwo.count_le x
    simp only [List.count_cons_self, List.count_nil] at hle
    omega
  · rintro l - a - rfl hmem
    exact absurd hmem hx

namespace Config

/-- What a run may fail with, and what is wrong with its input then: a name is hinted twice, or
hinted and written, or written twice; or a statement is not supported; or there is a limit. -/
inductive Cause (c : Config) (g : Graph) : Error → Prop
  | hintedTwice {x : VarName} {existing attempted : Ty} (h : 2 ≤ c.hintNames.count x) :
    Cause c g (.retyped x existing attempted)
  | hintedAndWritten {x : VarName} {existing attempted : Ty} (hh : x ∈ c.hintNames)
    (hw : x ∈ g.targets) : Cause c g (.retyped x existing attempted)
  | writtenTwice {x : VarName} {existing attempted : Ty} (h : 2 ≤ g.targets.count x) :
    Cause c g (.retyped x existing attempted)
  | unsupported {w : Unsupported} {l : Leaf} (hl : l ∈ g.leaves) (hk : l.kindName = w.kindName) :
    Cause c g (.unsupported w)
  | passLimit {n : UInt64} (h : c.maxPasses = some n) : Cause c g (.passLimit n)

variable {c : Config} {g : Graph} {t : TypeTable}

lemma mem_targets_of_retyped {done : List ℕ} {x : VarName} {existing attempted : Ty}
    (h : c.iterate g t done = .error (.retyped x existing attempted)) : x ∈ g.targets := by
  have hfail := iterate_eq_error (fun ls _ => Leaf.sites ls = g.sites)
    (fun ls ls' t u hsweep hinv => hsweep.sites_eq.trans hinv) rfl h
  rcases hfail with ⟨n, -, he⟩ | ⟨ls, t', u, hsites, hstops⟩
  · cases he
  · obtain ⟨l, hl, hrefused⟩ := hstops.exists_refused
    cases hrefused with
    | @retyped a ty hs hp hx =>
      rw [Graph.targets, Leaf.targets_eq_map_sites, ← Graph.sites, ← hsites]
      exact List.mem_map_of_mem (Leaf.mem_sites.mpr ⟨l, hl, hs⟩)

/-- A name over which a run fails after the seeding is hinted, or written a second time. -/
lemma hinted_or_written_twice {done : List ℕ} {x : VarName} {existing attempted : Ty}
    (ht : c.seed g = .ok t) (h : c.iterate g t done = .error (.retyped x existing attempted)) :
    x ∈ c.hintNames ∨ 2 ≤ g.targets.count x := by
  by_contra hnot
  obtain ⟨hhint, hcount⟩ := not_or.mp hnot
  have hx : x ∉ t.names := by
    have hmem := mem_targets_of_retyped h
    rw [Graph.targets, Leaf.targets_eq_map_sites] at hmem
    obtain ⟨a, ha, rfl⟩ := List.mem_map.mp hmem
    exact fun hx => hhint (hinted_of_mem_names ht ha hx)
  have hexcl : Exclusive (fun a => a.target = x) g.leaves t :=
    exclusive_of_count (by unfold Graph.targets at hcount; omega) hx
  have hfail := iterate_eq_error (Exclusive fun a => a.target = x)
    (fun ls ls' t u hsweep hinv => hinv.sweep hsweep (closedUnder_target _ x)) hexcl h
  rcases hfail with ⟨n, -, he⟩ | ⟨ls, t', u, hinv, hstops⟩
  · cases he
  · exact hstops.not_exclusive hinv

lemma mem_leaves_of_unsupported {done : List ℕ} {w : Unsupported}
    (h : c.iterate g t done = .error (.unsupported w)) :
    ∃ l ∈ g.leaves, l.kindName = w.kindName := by
  have hfail := iterate_eq_error (fun ls _ => ls.map Leaf.untyped = g.leaves.map Leaf.untyped)
    (fun ls ls' t u hsweep hinv => hsweep.map_untyped.trans hinv) rfl h
  rcases hfail with ⟨n, -, he⟩ | ⟨ls, t', u, huntyped, hstops⟩
  · cases he
  · obtain ⟨l, hl, hrefused⟩ := hstops.exists_refused
    cases hrefused with
    | unsupported hk =>
      have hmem : l.untyped ∈ g.leaves.map Leaf.untyped := huntyped ▸ List.mem_map_of_mem hl
      obtain ⟨k, hkg, heq⟩ := List.mem_map.mp hmem
      exact ⟨k, hkg, by rw [Leaf.eq_of_untyped_eq heq (Leaf.site?_of_kindName hk), hk]⟩

/-- A run fails for one of the causes only. -/
theorem cause_of_run {e : Error} (h : c.run g = .error e) : c.Cause g e := by
  cases ht : c.seed g with
  | error e' =>
    obtain ⟨x, existing, attempted, rfl, hcount⟩ := seed_eq_error ht
    rw [run, ht] at h
    cases h
    exact .hintedTwice hcount
  | ok t =>
    rw [run_of_seed ht] at h
    have hfail := iterate_eq_error (fun _ _ => True) (fun _ _ _ _ _ hinv => hinv) trivial h
    rcases hfail with ⟨n, hn, rfl⟩ | ⟨ls, t', u, -, hstops⟩
    · exact .passLimit hn
    · obtain ⟨l, hl, hrefused⟩ := hstops.exists_refused
      cases hrefused with
      | retyped hs hp hx =>
        rcases hinted_or_written_twice ht h with hhint | hcount
        · exact .hintedAndWritten hhint (mem_targets_of_retyped h)
        · exact .writtenTwice hcount
      | unsupported hk =>
        obtain ⟨k, hkg, hkind⟩ := mem_leaves_of_unsupported h
        exact .unsupported hkg hkind

end Config

/-- Each name is the target of at most one assignment. -/
def Graph.SingleAssignment (g : Graph) : Prop := g.targets.Nodup

lemma Graph.target_mem_targets {g : Graph} {a : Assignment} (ha : a ∈ g.sites) :
    a.target ∈ g.targets := by
  rw [targets, Leaf.targets_eq_map_sites]
  exact List.mem_map_of_mem ha

namespace Graph.SingleAssignment

variable {g : Graph}

lemma nodup_map_target (h : g.SingleAssignment) : (g.sites.map Assignment.target).Nodup := by
  rwa [SingleAssignment, targets, Leaf.targets_eq_map_sites] at h

lemma pairwise_sites (h : g.SingleAssignment) :
    g.sites.Pairwise fun a b => a.target ≠ b.target := List.pairwise_map.mp h.nodup_map_target

lemma eq_of_target (h : g.SingleAssignment) {a b : Assignment} (ha : a ∈ g.sites)
    (hb : b ∈ g.sites) (heq : a.target = b.target) : a = b :=
  List.inj_on_of_nodup_map h.nodup_map_target ha hb heq

end Graph.SingleAssignment

/-- **No false alarms**: a run fails only over a name that is hinted twice, hinted and written, or
written twice, over an unsupported statement, or at its limit. So with distinct hints for names
that are not written, without a limit and over supported statements, it succeeds on every graph
in single assignment form, whatever annotations the graph comes with. -/
theorem Config.run_fails_for_cause (c : Config) (g : Graph) :
    (∀ e, c.run g = .error e → c.Cause g e) ∧
      (c.hintNames.Nodup → (∀ x ∈ c.hintNames, x ∉ g.targets) → c.maxPasses = none →
        (∀ l ∈ g.leaves, l.IsSupported) → g.SingleAssignment → ∃ r, c.run g = .ok r) := by
  refine ⟨fun e => cause_of_run, fun hhints hunwritten hlimit hsupported hssa => ?_⟩
  cases h : c.run g with
  | ok r => exact ⟨r, rfl⟩
  | error e =>
    exfalso
    cases cause_of_run h with
    | @hintedTwice x _ _ hcount =>
      have := List.nodup_iff_count_le_one.mp hhints x
      omega
    | hintedAndWritten hh hw => exact hunwritten _ hh hw
    | @writtenTwice x _ _ hcount =>
      have := List.nodup_iff_count_le_one.mp hssa x
      omega
    | unsupported hl hk => exact Leaf.not_supported_of_kindName hk (hsupported _ hl)
    | passLimit hn =>
      rw [hlimit] at hn
      cases hn

/-- Wrong annotations, found wrong one in each of two passes and against the order of the program,
with a marker beside them. And two writes to one name that do make a run fail. -/
theorem Config.run_fails_for_cause_stale :
    let c : Config := ⟨[⟨"p", .string⟩], .number, none⟩
    let g : Graph := ⟨[
      ⟨⟨0⟩, .lineStart, 1, [.leaf (.typed ⟨⟨"y", .var "x"⟩, .error⟩)]⟩,
      ⟨⟨1⟩, .basic, 1, [.ifElse (.var "q") [.leaf (.typed ⟨⟨"x", .var "p"⟩, .number⟩)]
        [.leaf (.marker (.conditional (.var "y")))]]⟩], []⟩
    let d : Graph := ⟨[⟨⟨0⟩, .basic, 1, [.leaf (.assign ⟨"x", .number ⟨1000⟩⟩),
      .leaf (.assign ⟨"x", .string "s"⟩)]⟩], []⟩
    c.hintNames.Nodup ∧ (∀ x ∈ c.hintNames, x ∉ g.targets) ∧ c.maxPasses = none ∧
      (∀ l ∈ g.leaves, l.IsSupported) ∧ g.SingleAssignment ∧ (∃ r, c.run g = .ok r) ∧
      c.run d = .error (.retyped "x" .number .string) ∧
      c.Cause d (.retyped "x" .number .string) := by
  intro c g d
  have hhints : c.hintNames.Nodup := by decide
  have hunwritten : ∀ x ∈ c.hintNames, x ∉ g.targets := by decide
  have hsupported : ∀ l ∈ g.leaves, l.IsSupported := by
    simp [g, Graph.leaves, Graph.stmts, Stmt.leavesOf, Stmt.leaves, Leaf.IsSupported]
  have hssa : g.targets.Nodup := by decide
  have hd : c.run d = .error (.retyped "x" .number .string) := by decide +kernel
  exact ⟨hhints, hunwritten, rfl, hsupported, hssa,
    (run_fails_for_cause c g).2 hhints hunwritten rfl hsupported hssa, hd,
    (run_fails_for_cause c d).1 _ hd⟩

end TypeFlow
