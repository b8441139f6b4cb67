import TypeFlow.Typing.Pass

/-!
What a pass enters in the table. A pass that succeeds keeps the targets of the graph, and each
change it counts is a target it has entered. So a pass that changes anything leaves fewer
targets without a type: this is what ends flow typing.
-/

namespace TypeFlow

/-- The variable a plain or typed assignment writes. -/
def Leaf.target? : Leaf → Option VarName
  | .assign a => some a.target
  | .typed a => some a.target
  | _ => none

def Leaf.targets (ls : List Leaf) : List VarName := ls.filterMap target?

def Graph.targets (g : Graph) : List VarName := Leaf.targets g.leaves

def TypeTable.missing (t : TypeTable) (names : List VarName) : List VarName :=
  names.filter fun x => x ∉ t.names

namespace PassState

/-- From `s` to `t` the table has been extended by new entries for some of `names`, and each of
them has been counted. -/
def Enters (names : List VarName) (s t : PassState) : Prop :=
  ∃ added, t.types.entries = s.types.entries ++ added ∧
    (∀ p ∈ added, p.1 ∈ names ∧ p.1 ∉ s.types.names) ∧
    t.progress.modified + t.progress.recorded =
      s.progress.modified + s.progress.recorded + added.length

theorem Enters.refl (names : List VarName) (s : PassState) : s.Enters names s :=
  ⟨[], by simp, by simp, by simp⟩

theorem Enters.trans {ns ms : List VarName} {s t u : PassState} (h : Enters ns s t)
    (h' : Enters ms t u) : Enters (ns ++ ms) s u := by
  obtain ⟨as, hs, ha, hn⟩ := h
  obtain ⟨bs, ht, hb, hm⟩ := h'
  refine ⟨as ++ bs, by rw [ht, hs, List.append_assoc], ?_, ?_⟩
  · intro p hp
    rcases List.mem_append.mp hp with hp | hp
    · exact ⟨List.mem_append_left _ (ha p hp).1, (ha p hp).2⟩
    · refine ⟨List.mem_append_right _ (hb p hp).1, fun hx => (hb p hp).2 ?_⟩
      rw [TypeTable.names, hs, List.map_append]
      exact List.mem_append_left _ hx
  · rw [hm, hn, List.length_append, Nat.add_assoc]

end PassState

theorem EStateM.bind_eq_ok {ε σ α β : Type} {x : EStateM ε σ α} {f : α → EStateM ε σ β} {s u : σ}
    {b : β} (h : (x >>= f) s = .ok b u) : ∃ a t, x s = .ok a t ∧ f a t = .ok b u := by
  simp only [bind, EStateM.bind] at h
  split at h
  · exact ⟨_, _, ‹_›, h⟩
  · cases h

theorem TypeTable.assign_eq_ok {t u : TypeTable} {x : VarName} {ty : Ty}
    (h : t.assign x ty = .ok u) : x ∉ t.names ∧ u.entries = t.entries ++ [(x, ty.masked)] := by
  unfold assign at h
  split at h
  · cases h
  · next hx =>
    cases h
    refine ⟨fun hm => ?_, rfl⟩
    obtain ⟨p, hp, rfl⟩ := List.mem_map.mp hm
    have := List.lookup_eq_none_iff.mp hx p hp
    simp at this

theorem PassM.enter_eq_ok {x : VarName} {ty : Ty} {count : Progress → Progress} {r r' : Stmt}
    {s t : PassState} (h : PassM.enter x ty count r s = .ok r' t)
    (hc : ∀ p, (count p).modified + (count p).recorded = p.modified + p.recorded + 1) :
    r' = r ∧ s.Enters [x] t := by
  unfold PassM.enter at h
  split at h
  · next types ht =>
    cases h
    obtain ⟨hx, he⟩ := TypeTable.assign_eq_ok ht
    exact ⟨rfl, [(x, ty.masked)], he, by simp [hx], by simp [hc]⟩
  · cases h

theorem Leaf.target?_of_record {types : TypeTable} {l : Leaf} {x : VarName} {ty : Ty}
    (h : l.verdict types = .record x ty) : l.target? = some x := by
  cases l <;> grind [verdict, target?]

theorem Leaf.target?_of_annotate {types : TypeTable} {l : Leaf} {a : Assignment} {ty : Ty}
    (h : l.verdict types = .annotate a ty) : l.target? = some a.target := by
  cases l <;> grind [verdict, target?]

/-- The leaf that stands for `l` afterwards writes the same variable. -/
theorem Leaf.assignType_eq_ok {l : Leaf} {s t : PassState} {r : Stmt}
    (h : l.assignType s = .ok r t) :
    s.Enters (targets [l]) t ∧ targets r.leaves = targets [l] := by
  unfold Leaf.assignType at h
  split at h
  · cases h
    exact ⟨.refl _ _, rfl⟩
  · next x ty hv =>
    obtain ⟨rfl, he⟩ := PassM.enter_eq_ok h (by intro p; simp; omega)
    have hx : targets [l] = [x] := by simp [targets, target?_of_record hv]
    exact ⟨hx ▸ he, rfl⟩
  · next a ty hv =>
    obtain ⟨rfl, he⟩ := PassM.enter_eq_ok h (by intro p; simp; omega)
    have hx : targets [l] = [a.target] := by simp [targets, target?_of_annotate hv]
    exact ⟨hx ▸ he, hx ▸ rfl⟩
  · cases h

theorem Leaf.targets_append (ls ms : List Leaf) : targets (ls ++ ms) = targets ls ++ targets ms :=
  List.filterMap_append

mutual

theorem editStmt_eq_ok (s : Stmt) {p q : PassState} {r : Stmt}
    (h : (Editor.ofLeaf Leaf.assignType).editStmt s p = .ok r q) :
    p.Enters (Leaf.targets s.leaves) q ∧ Leaf.targets r.leaves = Leaf.targets s.leaves := by
  match s with
  | .leaf l =>
    rw [Editor.editStmt, Editor.onLeaf_ofLeaf] at h
    exact Leaf.assignType_eq_ok h
  | .list body =>
    obtain ⟨_, _, hb, h⟩ := EStateM.bind_eq_ok h
    cases h
    exact editStmts_eq_ok body hb
  | .ifElse c t f =>
    obtain ⟨_, _, ht, h⟩ := EStateM.bind_eq_ok h
    obtain ⟨_, _, hf, h⟩ := EStateM.bind_eq_ok h
    cases h
    obtain ⟨het, htt⟩ := editStmts_eq_ok t ht
    obtain ⟨hef, htf⟩ := editStmts_eq_ok f hf
    simp only [Conditional.toStmt, Stmt.leaves, Leaf.targets_append]
    exact ⟨het.trans hef, by rw [htt, htf]⟩

theorem editStmts_eq_ok (ss : List Stmt) {p q : PassState} {rs : List Stmt}
    (h : (Editor.ofLeaf Leaf.assignType).editStmts ss p = .ok rs q) :
    p.Enters (Leaf.targets (Stmt.leavesOf ss)) q ∧
      Leaf.targets (Stmt.leavesOf rs) = Leaf.targets (Stmt.leavesOf ss) := by
  match ss with
  | [] =>
    cases h
    exact ⟨.refl _ _, rfl⟩
  | s :: ss =>
    obtain ⟨_, _, hs, h⟩ := EStateM.bind_eq_ok h
    obtain ⟨_, _, hss, h⟩ := EStateM.bind_eq_ok h
    cases h
    obtain ⟨hes, hts⟩ := editStmt_eq_ok s hs
    obtain ⟨hess, htss⟩ := editStmts_eq_ok ss hss
    simp only [Stmt.leavesOf, Leaf.targets_append]
    exact ⟨hes.trans hess, by rw [hts, htss]⟩

end

theorem Stmt.leavesOf_append (ss ts : List Stmt) :
    leavesOf (ss ++ ts) = leavesOf ss ++ leavesOf ts := by
  induction ss with
  | nil => rfl
  | cons s ss ih => simp [leavesOf, ih, List.append_assoc]

/-- A pass that succeeds keeps the targets and has counted what it entered for them. -/
theorem Graph.assignTypes_eq_ok {g h : Graph} {p q : PassState}
    (hg : g.assignTypes p = .ok h q) : p.Enters g.targets q ∧ h.targets = g.targets := by
  rw [assignTypes, modifyBlocks_eq] at hg
  obtain ⟨blocks, _, hb, hdone⟩ := EStateM.bind_eq_ok hg
  cases hdone
  clear hg
  simp only [targets, leaves, stmts]
  generalize g.blocks = bs at hb
  induction bs generalizing p blocks with
  | nil =>
    cases hb
    exact ⟨.refl _ _, rfl⟩
  | cons b bs ih =>
    rw [List.mapM_cons] at hb
    obtain ⟨_, _, hhead, htail⟩ := EStateM.bind_eq_ok hb
    obtain ⟨_, _, hrest, hdone⟩ := EStateM.bind_eq_ok htail
    cases hdone
    obtain ⟨_, _, hstmts, hdone⟩ := EStateM.bind_eq_ok hhead
    cases hdone
    obtain ⟨he, ht⟩ := editStmts_eq_ok _ hstmts
    obtain ⟨he', ht'⟩ := ih _ hrest
    simp only [List.flatMap_cons, Stmt.leavesOf_append, Leaf.targets_append]
    exact ⟨he.trans he', by rw [ht, ht']⟩

/-- A pass that changes anything keeps the targets and what has been entered, and enters a target
that had no type. -/
theorem Graph.exists_entered {g h : Graph} {t u : TypeTable} {p : Progress}
    (hp : g.typingPass t = (.ok (h, p), u)) (hc : p.changed = true) :
    h.targets = g.targets ∧ (∀ x ∈ t.names, x ∈ u.names) ∧
      ∃ x ∈ g.targets, x ∉ t.names ∧ x ∈ u.names := by
  unfold typingPass at hp
  split at hp
  · next s hs =>
    cases hp
    obtain ⟨⟨added, hu, hn, hcount⟩, ht⟩ := assignTypes_eq_ok hs
    have hnames : s.types.names = t.names ++ added.map (·.1) := by
      rw [TypeTable.names, hu, List.map_append, TypeTable.names]
    have hne : added ≠ [] := by
      rintro rfl
      simp [Progress.none, Progress.changed] at hcount hc
      omega
    obtain ⟨x, hx⟩ := List.exists_mem_of_ne_nil _ hne
    rw [hnames]
    refine ⟨ht, fun y hy => List.mem_append_left _ hy, x.1, (hn x hx).1, (hn x hx).2, ?_⟩
    exact List.mem_append_right _ (List.mem_map_of_mem hx)
  · cases hp

/-- A pass that changes anything leaves fewer targets without a type. -/
theorem Graph.missing_lt {g h : Graph} {t u : TypeTable} {p : Progress}
    (hp : g.typingPass t = (.ok (h, p), u)) (hc : p.changed = true) :
    (u.missing h.targets).length < (t.missing g.targets).length := by
  obtain ⟨htargets, hkept, x, hx, hold, hnew⟩ := exists_entered hp hc
  have hsplit : u.missing h.targets = (t.missing g.targets).filter fun y => y ∉ u.names := by
    simp only [htargets, TypeTable.missing, List.filter_filter]
    refine List.filter_congr fun y _ => ?_
    by_cases hy : y ∈ t.names
    · simp [hkept y hy]
    · simp [hy]
  rw [hsplit, List.length_filter_lt_length_iff_exists]
  exact ⟨x, by simp [TypeTable.missing, hx, hold], by simpa using hnew⟩

end TypeFlow
