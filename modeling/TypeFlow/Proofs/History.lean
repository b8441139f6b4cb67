import Mathlib.Data.List.Nodup
import TypeFlow.Graph.Builder
import TypeFlow.Proofs.Erasure

/-!
Graphs and their histories.

A graph comes about by calls on a builder, and then by transformations. The callbacks of a
transformation may do what they like: they may remember what they saw, fail, or ask for edges to
blocks that are not there. Whatever they do, ids stay distinct and edges run between blocks. Edges
are made in four places, and each of them looks at both ends; blocks are only made by the builder,
and a transformation can at most leave some of them out.
-/

namespace TypeFlow

namespace Graph

variable {g h : Graph}

lemma contains_iff {id : BlockId} : g.contains id = true ↔ id ∈ g.ids := by
  simp [contains, ids]

lemma ids_eq_map_headers (g : Graph) : g.ids = g.headers.map (·.1) := by
  simp [ids, headers]

lemma ids_of_headers_eq (hh : h.headers = g.headers) : h.ids = g.ids := by
  rw [ids_eq_map_headers, hh, ids_eq_map_headers]

/-- A graph whose blocks are among those of a well-formed one is well-formed if its edges run
between blocks. -/
lemma WellFormed.of_sublist (hg : g.WellFormed) (hsub : h.headers.Sublist g.headers)
    (he : ∀ e ∈ h.edges, e.source ∈ h.ids ∧ e.target ∈ h.ids) : h.WellFormed := by
  have hids : h.ids.Sublist g.ids := by
    rw [ids_eq_map_headers, ids_eq_map_headers]
    exact hsub.map _
  exact ⟨hids.nodup hg.nodup, fun e hmem => (he e hmem).1, fun e hmem => (he e hmem).2⟩

/-- A block is found under its own id, and nothing else is. -/
lemma WellFormed.block?_eq_some_iff (hg : g.WellFormed) {id : BlockId} {b : Block} :
    g.block? id = some b ↔ b ∈ g.blocks ∧ b.id = id := by
  constructor
  · intro hb
    exact ⟨List.mem_of_find?_eq_some hb, by simpa using List.find?_some hb⟩
  · rintro ⟨hb, rfl⟩
    cases hfound : g.block? b.id with
    | none =>
      have := List.find?_eq_none.mp hfound b hb
      simp at this
    | some k =>
      have hk : k.id = b.id := by simpa using List.find?_some hfound
      rw [List.inj_on_of_nodup_map hg.nodup (List.mem_of_find?_eq_some hfound) hb hk]

end Graph

/-! ### Calls on a builder -/

namespace Builder

variable {b b' : Builder}

lemma check_bind (p : Builder → Prop) [DecidablePred p] (x y : EStateM Error Builder Unit)
    (b : Builder) : (get >>= fun k => if p k then x else y) b = if p b then x b else y b := by
  change (if p b then x else y) b = _
  split <;> rfl

/-- What a call does: it fails over one of its checks with the builder as it was, or passes them
all and makes its change. -/
lemma Call.exec_eq (c : Call) (b : Builder) :
    c.exec b = match c with
      | .createBlock kind line id =>
        if b.graph.contains id then .error (.duplicateBlock id) b
        else .ok () (b.insert kind line id)
      | .newBlock kind line => .ok () (b.insert kind line b.freshId)
      | .addStmts id ss =>
        if b.graph.contains id then .ok () (b.append id ss) else .error (.unknownBlock id) b
      | .createEdge e =>
        if !b.graph.contains e.source then .error (.danglingEdge e.source) b
        else if !b.graph.contains e.target then .error (.danglingEdge e.target) b
        else .ok () (b.connect e) := by
  cases c with
  | createBlock kind line id =>
    simp only [exec, check_bind]
    rfl
  | newBlock kind line => rfl
  | addStmts id ss =>
    simp only [exec, check_bind]
    cases b.graph.contains id <;> rfl
  | createEdge e =>
    simp only [exec, check_bind]
    cases b.graph.contains e.source <;> cases b.graph.contains e.target <;> rfl

lemma Call.exec_eq_error {c : Call} {e : Error} (h : c.exec b = .error e b') : b' = b := by
  rw [exec_eq] at h
  cases c with
  | createBlock kind line id =>
    simp only at h
    split at h <;> cases h
    rfl
  | newBlock kind line => cases h
  | addStmts id ss =>
    simp only at h
    split at h <;> cases h
    rfl
  | createEdge e =>
    simp only at h
    split at h
    · cases h
      rfl
    · split at h <;> cases h
      rfl

lemma ids_insert (b : Builder) (kind : BlockKind) (line : UInt64) (id : BlockId) :
    (b.insert kind line id).graph.ids =
      if b.graph.contains id then b.graph.ids else b.graph.ids ++ [id] := by
  unfold insert Graph.ids
  split
  · -- the block that is replaced and the one that replaces it have the same id
    rw [List.map_map]
    refine List.map_congr_left fun k _ => ?_
    by_cases hk : k.id = id <;> simp [hk]
  · simp

lemma wellFormed_insert (hb : b.graph.WellFormed) (kind : BlockKind) (line : UInt64)
    (id : BlockId) : (b.insert kind line id).graph.WellFormed := by
  have hids := b.ids_insert kind line id
  have hsub : ∀ x ∈ b.graph.ids, x ∈ (b.insert kind line id).graph.ids := by
    intro x hx
    rw [hids]
    split
    · exact hx
    · exact List.mem_append_left _ hx
  have hnodup : (b.insert kind line id).graph.ids.Nodup := by
    rw [hids]
    split
    · exact hb.nodup
    · next hid =>
      rw [← List.concat_eq_append]
      exact hb.nodup.concat fun hmem => hid (Graph.contains_iff.mpr hmem)
  exact ⟨hnodup, fun e he => hsub _ (hb.source_mem e he), fun e he => hsub _ (hb.target_mem e he)⟩

lemma headers_append (b : Builder) (id : BlockId) (ss : List Stmt) :
    (b.append id ss).graph.headers = b.graph.headers := by
  unfold append Graph.headers
  rw [List.map_map]
  refine List.map_congr_left fun k _ => ?_
  by_cases hk : k.id = id <;> simp [hk]

/-- What a call comes to: nothing if it fails, and otherwise one change. -/
inductive Changed (b : Builder) : Builder → Prop
  | refused : Changed b b
  | inserted (kind : BlockKind) (line : UInt64) (id : BlockId) : Changed b (b.insert kind line id)
  | appended (id : BlockId) (ss : List Stmt) : Changed b (b.append id ss)
  | connected {e : Edge} (hs : e.source ∈ b.graph.ids) (ht : e.target ∈ b.graph.ids) :
    Changed b (b.connect e)

lemma changed_after (b : Builder) (c : Call) : b.Changed (b.after c) := by
  unfold after
  rw [Call.exec_eq]
  cases c with
  | createBlock kind line id =>
    by_cases hid : b.graph.contains id = true
    · simpa [hid] using .refused
    · simpa [hid] using .inserted kind line id
  | newBlock kind line => exact .inserted kind line b.freshId
  | addStmts id ss =>
    by_cases hid : b.graph.contains id = true
    · simpa [hid] using .appended id ss
    · simpa [hid] using .refused
  | createEdge e =>
    by_cases hs : b.graph.contains e.source = true
    · by_cases ht : b.graph.contains e.target = true
      · simpa [hs, ht] using .connected (Graph.contains_iff.mp hs) (Graph.contains_iff.mp ht)
      · simpa [hs, ht] using .refused
    · simpa [hs] using .refused

lemma Changed.wellFormed (h : b.Changed b') (hb : b.graph.WellFormed) : b'.graph.WellFormed := by
  cases h with
  | refused => exact hb
  | inserted kind line id => exact wellFormed_insert hb kind line id
  | appended id ss =>
    refine hb.of_sublist (b.headers_append id ss ▸ .refl _) fun e he => ?_
    rw [Graph.ids_of_headers_eq (b.headers_append id ss)]
    exact ⟨hb.source_mem e he, hb.target_mem e he⟩
  | connected hs ht =>
    refine hb.of_sublist (.refl _) fun k hk => ?_
    rcases List.mem_append.mp hk with hk | hk
    · exact ⟨hb.source_mem k hk, hb.target_mem k hk⟩
    · cases List.mem_singleton.mp hk
      exact ⟨hs, ht⟩

/-- What holds of the empty builder and outlasts every change holds after any calls. -/
theorem ofCalls_induction {P : Builder → Prop} (hempty : P empty)
    (hstep : ∀ b b', b.Changed b' → P b → P b') (cs : List Call) : P (ofCalls cs) := by
  have hrun (b : Builder) (hb : P b) : P (cs.foldl after b) := by
    induction cs generalizing b with
    | nil => exact hb
    | cons c cs ih => exact ih (b.after c) (hstep b _ (b.changed_after c) hb)
  exact hrun empty hempty

theorem wellFormed_ofCalls (cs : List Call) : (ofCalls cs).graph.WellFormed :=
  ofCalls_induction (by decide) (fun _ _ hstep hb => hstep.wellFormed hb) cs

end Builder

/-! ### Lists gone through by callbacks -/

namespace EStateM

variable {ε σ α β : Type} {s s' : σ}

/-- What is found for each item of a list is found by the callback in some state. -/
lemma forall₂_of_mapM {f : α → EStateM ε σ β} {as : List α} {bs : List β}
    (h : as.mapM f s = .ok bs s') : List.Forall₂ (fun a b => ∃ t t', f a t = .ok b t') as bs := by
  induction as generalizing bs s with
  | nil =>
    cases h
    exact .nil
  | cons a as ih =>
    rw [List.mapM_cons] at h
    obtain ⟨b, t, hb, h⟩ := bind_eq_ok h
    obtain ⟨bs, t', hbs, hdone⟩ := bind_eq_ok h
    cases hdone
    exact .cons ⟨s, t, hb⟩ (ih hbs)

lemma exists_sublist_of_filterAuxM {p : α → EStateM ε σ Bool} {as kept bs : List α}
    (h : as.filterAuxM p kept s = .ok bs s') :
    ∃ cs : List α, cs.Sublist as ∧ bs = cs.reverse ++ kept := by
  induction as generalizing kept s with
  | nil =>
    cases h
    exact ⟨[], .refl _, rfl⟩
  | cons a as ih =>
    obtain ⟨pass, t, -, h⟩ := bind_eq_ok h
    obtain ⟨cs, hsub, rfl⟩ := ih h
    cases pass with
    | true => exact ⟨a :: cs, hsub.cons_cons a, by simp⟩
    | false => exact ⟨cs, hsub.cons a, rfl⟩

lemma sublist_of_filterM {p : α → EStateM ε σ Bool} {as bs : List α}
    (h : as.filterM p s = .ok bs s') : bs.Sublist as := by
  obtain ⟨kept, t, hkept, hdone⟩ := bind_eq_ok h
  cases hdone
  obtain ⟨cs, hsub, rfl⟩ := exists_sublist_of_filterAuxM hkept
  simpa using hsub

end EStateM

lemma Except.bind_eq_ok {ε α β : Type} {x : Except ε α} {f : α → Except ε β} {b : β}
    (h : (x >>= f) = .ok b) : ∃ a, x = .ok a ∧ f a = .ok b := by
  cases x with
  | error e => cases h
  | ok a => exact ⟨a, rfl, h⟩

/-! ### Transformations -/

/-- A transformation with its callback, which works on a state and may fail. -/
inductive Transformation (σ : Type)
  | trimBlocks (keep : Block → EStateM Error σ Bool)
  | trimEdges (keep : Edge → EStateM Error σ Bool)
  | modifyBlocks (f : Block → EStateM Error σ (List Stmt))
  | modifyEdges (f : Edge → EStateM Error σ (List Edge))
  | rewireEdges (f : Edge → σ → Wiring σ)
  | addEdges (es : List Edge)
  | editBlocks (edit : Program → EStateM Error σ Program)

namespace Transformation

variable {σ : Type} {g h : Graph} {s s' : σ}

def apply (g : Graph) : Transformation σ → EStateM Error σ Graph
  | trimBlocks keep => g.trimBlocksM keep
  | trimEdges keep => g.trimEdgesM keep
  | modifyBlocks f => g.modifyBlocks f
  | modifyEdges f => g.modifyEdges f
  | rewireEdges f => g.rewireEdges f
  | addEdges es => MonadExcept.ofExcept (g.addEdges es)
  | editBlocks edit => g.editBlocks edit

def keepsBlocks : Transformation σ → Bool
  | trimBlocks _ => false
  | _ => true

end Transformation

namespace Graph

variable {σ : Type} {g h : Graph} {s s' : σ}

/-- What transformations come to: some blocks are left out together with their edges, or all blocks
are kept, and an edge that is new runs between blocks. -/
inductive Reshaped (g : Graph) : Bool → Graph → Prop
  | trimmed {bs : List Block} (hsub : bs.Sublist g.blocks) : Reshaped g false (g.restrict bs)
  | kept {h : Graph} (hh : h.headers = g.headers)
    (he : ∀ e ∈ h.edges, e ∈ g.edges ∨ e.source ∈ g.ids ∧ e.target ∈ g.ids) : Reshaped g true h

lemma trimBlocksM_eq_ok {keep : Block → EStateM Error σ Bool}
    (hok : g.trimBlocksM keep s = .ok h s') : g.Reshaped false h := by
  obtain ⟨bs, t, hbs, hdone⟩ := EStateM.bind_eq_ok hok
  cases hdone
  exact .trimmed (EStateM.sublist_of_filterM hbs)

lemma trimEdgesM_eq_ok {keep : Edge → EStateM Error σ Bool}
    (hok : g.trimEdgesM keep s = .ok h s') : g.Reshaped true h := by
  obtain ⟨es, t, hes, hdone⟩ := EStateM.bind_eq_ok hok
  cases hdone
  refine .kept rfl fun e he => .inl ?_
  exact List.mem_of_mem_filter ((EStateM.sublist_of_filterM hes).subset he)

lemma modifyBlocks_eq_ok {f : Block → EStateM Error σ (List Stmt)}
    (hok : g.modifyBlocks f s = .ok h s') : g.Reshaped true h := by
  rw [modifyBlocks_eq] at hok
  obtain ⟨bs, t, hbs, hdone⟩ := EStateM.bind_eq_ok hok
  cases hdone
  refine .kept ?_ fun e he => .inl he
  unfold headers
  rw [← List.forall₂_eq_eq_eq, List.forall₂_map_left_iff, List.forall₂_map_right_iff]
  refine (EStateM.forall₂_of_mapM hbs).flip.imp fun b' b ⟨u, u', hb⟩ => ?_
  obtain ⟨ss, v, -, hdone⟩ := EStateM.bind_eq_ok hb
  cases hdone
  rfl

lemma refusal?_eq_none_iff {e : Edge} :
    g.refusal? e = none ↔ e.source ∈ g.ids ∧ e.target ∈ g.ids := by
  simp [refusal?, contains_iff]

lemma Reshaped.refl (g : Graph) : g.Reshaped true g := .kept rfl fun _ he => .inl he

lemma Reshaped.trans {k : Graph} (hgh : g.Reshaped true h) (hhk : h.Reshaped true k) :
    g.Reshaped true k := by
  cases hgh with
  | kept hh he =>
    cases hhk with
    | kept hk he' =>
      refine .kept (hk.trans hh) fun e hmem => ?_
      rcases he' e hmem with hold | hends
      · exact he e hold
      · rw [ids_of_headers_eq hh] at hends
        exact .inr hends

/-- Whatever a callback does after a refusal, the edges that it makes run between blocks. -/
lemma reshaped_of_wiring {w : Wiring σ} {out : Graph} (hok : w.run out s = .ok h s') :
    out.Reshaped true h := by
  induction w generalizing out with
  | finish t =>
    cases hok
    exact .refl _
  | fail err t => cases hok
  | connect e next ih =>
    rw [Wiring.run] at hok
    cases hrefusal : out.refusal? e with
    | some err =>
      rw [hrefusal] at hok
      exact ih _ hok
    | none =>
      rw [hrefusal] at hok
      have hpush : out.Reshaped true { out with edges := out.edges ++ [e] } := by
        refine .kept rfl fun k hk => ?_
        rcases List.mem_append.mp hk with hold | hnew
        · exact .inl hold
        · cases List.mem_singleton.mp hnew
          exact .inr (refusal?_eq_none_iff.mp hrefusal)
      exact hpush.trans (ih _ hok)

lemma rewireEdges_eq_ok {f : Edge → σ → Wiring σ} (hok : g.rewireEdges f s = .ok h s') :
    g.Reshaped true h := by
  have hrun (es : List Edge) {out : Graph} {s : σ}
      (hok : es.foldlM (Wiring.step f) out s = .ok h s') : out.Reshaped true h := by
    induction es generalizing out s with
    | nil =>
      cases hok
      exact .refl _
    | cons e es ih =>
      rw [List.foldlM_cons] at hok
      obtain ⟨next, t, hstep, hok⟩ := EStateM.bind_eq_ok hok
      exact (reshaped_of_wiring hstep).trans (ih hok)
  have hstart : g.Reshaped true { g with edges := [] } := .kept rfl (by simp)
  exact hstart.trans (hrun g.edges hok)

lemma run_all (g : Graph) (made es : List Edge) (s : σ) :
    (Wiring.all s es).run { g with edges := made } = (do
      set s
      let es ← es.mapM g.connect
      pure { g with edges := made ++ es }) := by
  induction es generalizing made with
  | nil => simp [Wiring.all, Wiring.run]
  | cons e es ih =>
    have hrefusal : refusal? { g with edges := made } e = g.refusal? e := rfl
    rw [Wiring.all, Wiring.run, hrefusal, List.mapM_cons]
    cases hconnect : g.refusal? e with
    | some err =>
      simp only [connect, hconnect, Wiring.run]
      rfl
    | none =>
      simp only [connect, hconnect, ih]
      simp

lemma step_ofFound (g : Graph) (f : Edge → EStateM Error σ (List Edge)) (made : List Edge)
    (e : Edge) : Wiring.step (.ofFound f) { g with edges := made } e = (do
      let es ← f e
      let es ← es.mapM g.connect
      pure { g with edges := made ++ es }) := by
  funext s
  change (Wiring.ofFound f e s).run _ s = _
  rw [Wiring.ofFound]
  cases hf : f e s with
  | ok es t =>
    rw [EStateM.bind_of_ok hf]
    simp only [run_all]
    rfl
  | error err t =>
    rw [EStateM.bind_of_error hf]
    rfl

/-- A callback that finds a list of edges is one that asks for them all. -/
lemma modifyEdges_eq_rewireEdges (g : Graph) (f : Edge → EStateM Error σ (List Edge)) :
    g.modifyEdges f = g.rewireEdges (.ofFound f) := by
  have hrun (es made : List Edge) : (do
      let ess ← es.mapM fun e => do
        let es ← f e
        es.mapM g.connect
      pure { g with edges := made ++ ess.flatten }) =
        es.foldlM (Wiring.step (.ofFound f)) { g with edges := made } := by
    induction es generalizing made with
    | nil => simp
    | cons e es ih => simp [step_ofFound, ← ih]
  exact hrun g.edges []

lemma modifyEdges_eq_ok {f : Edge → EStateM Error σ (List Edge)}
    (hok : g.modifyEdges f s = .ok h s') : g.Reshaped true h := by
  rw [modifyEdges_eq_rewireEdges] at hok
  exact rewireEdges_eq_ok hok

lemma mem_ids_of_block {id : BlockId} {b : Block} (hb : g.block id = .ok b) : id ∈ g.ids := by
  unfold block at hb
  split at hb
  · next k hk =>
    have hid : k.id = id := by simpa using List.find?_some hk
    exact hid ▸ List.mem_map_of_mem (List.mem_of_find?_eq_some hk)
  · cases hb

lemma addEdges_eq_ok {es : List Edge} (hok : g.addEdges es = .ok h) : g.Reshaped true h := by
  have hends {added : List Edge} (hadded : (es.mapM fun e => do
      let _ ← g.block e.source
      let _ ← g.block e.target
      pure e) = .ok added) : ∀ e ∈ added, e.source ∈ g.ids ∧ e.target ∈ g.ids := by
    clear hok
    induction es generalizing added with
    | nil =>
      cases hadded
      simp
    | cons e es ih =>
      rw [List.mapM_cons] at hadded
      obtain ⟨e', he, hadded⟩ := Except.bind_eq_ok hadded
      obtain ⟨added, hrest, hdone⟩ := Except.bind_eq_ok hadded
      cases hdone
      obtain ⟨b, hs, he⟩ := Except.bind_eq_ok he
      obtain ⟨b', ht, he⟩ := Except.bind_eq_ok he
      cases he
      exact List.forall_mem_cons.mpr ⟨⟨mem_ids_of_block hs, mem_ids_of_block ht⟩, ih hrest⟩
  obtain ⟨added, hadded, hdone⟩ := Except.bind_eq_ok hok
  cases hdone
  refine .kept rfl fun e he => ?_
  rcases List.mem_append.mp he with hold | hnew
  · exact .inl hold
  · exact .inr (hends hadded e hnew)

lemma Reshaped.headers_sublist {whole : Bool} (hr : g.Reshaped whole h) :
    h.headers.Sublist g.headers := by
  cases hr with
  | trimmed hsub => exact hsub.map _
  | kept hh he => exact hh ▸ .refl _

lemma Reshaped.headers_eq (hr : g.Reshaped true h) : h.headers = g.headers := by
  cases hr with
  | kept hh he => exact hh

/-- Transformations keep a graph well-formed. -/
lemma Reshaped.wellFormed {whole : Bool} (hr : g.Reshaped whole h) (hg : g.WellFormed) :
    h.WellFormed := by
  refine hg.of_sublist hr.headers_sublist fun e he => ?_
  cases hr with
  | trimmed hsub =>
    have hends := (List.mem_filter.mp he).2
    simpa [ids, restrict] using hends
  | kept hh hnew =>
    rw [ids_of_headers_eq hh]
    rcases hnew e he with hold | hends
    · exact ⟨hg.source_mem e hold, hg.target_mem e hold⟩
    · exact hends

end Graph

namespace Transformation

variable {σ : Type} {g h : Graph} {s s' : σ}

lemma reshaped {t : Transformation σ} (hok : t.apply g s = .ok h s') :
    g.Reshaped t.keepsBlocks h := by
  cases t with
  | trimBlocks keep => exact Graph.trimBlocksM_eq_ok hok
  | trimEdges keep => exact Graph.trimEdgesM_eq_ok hok
  | modifyBlocks f => exact Graph.modifyBlocks_eq_ok hok
  | modifyEdges f => exact Graph.modifyEdges_eq_ok hok
  | rewireEdges f => exact Graph.rewireEdges_eq_ok hok
  | addEdges es =>
    cases hadd : g.addEdges es with
    | error e =>
      rw [apply, hadd] at hok
      cases hok
    | ok h' =>
      rw [apply, hadd] at hok
      cases hok
      exact Graph.addEdges_eq_ok hadd
  | editBlocks edit => exact Graph.modifyBlocks_eq_ok hok

/-- The graph and the state of the callbacks after a transformation. One that fails gives no
graph, and the present one stays. -/
def after (p : Graph × σ) (t : Transformation σ) : Graph × σ :=
  match t.apply p.1 p.2 with
  | .ok h s => (h, s)
  | .error _ s => (p.1, s)

lemma wellFormed_after {p : Graph × σ} (hp : p.1.WellFormed) (t : Transformation σ) :
    (after p t).1.WellFormed := by
  unfold after
  split
  · next h s hok => exact (reshaped hok).wellFormed hp
  · exact hp

end Transformation

def Graph.transformed {σ : Type} (g : Graph) (ts : List (Transformation σ)) (s : σ) : Graph :=
  (ts.foldl Transformation.after (g, s)).1

theorem Graph.WellFormed.transformed {σ : Type} {g : Graph} (hg : g.WellFormed)
    (ts : List (Transformation σ)) (s : σ) : (g.transformed ts s).WellFormed := by
  have hrun (p : Graph × σ) (hp : p.1.WellFormed) :
      (ts.foldl Transformation.after p).1.WellFormed := by
    induction ts generalizing p with
    | nil => exact hp
    | cons t ts ih => exact ih (t.after p) (t.wellFormed_after hp)
  exact hrun (g, s) hg

/-- **Graphs stay well-formed**: after any calls on a builder and any transformations that follow,
with failures among both, no id names two blocks, a block is found under its own id, and edges run
between blocks, so that none is lost where edges without a block at both ends are. A call that fails
leaves the builder as it was. A transformation that succeeds keeps id, kind and line of the blocks
in their order, and none but the trimming of blocks leaves any of them out. -/
theorem Graph.invariant_of_history {σ : Type} (cs : List Builder.Call)
    (ts : List (Transformation σ)) (s : σ) :
    let b := Builder.ofCalls cs
    let g := b.graph.transformed ts s
    g.WellFormed ∧ (∀ id k, g.block? id = some k ↔ k ∈ g.blocks ∧ k.id = id) ∧
      g.restrict g.blocks = g ∧
      (∀ (c : Builder.Call) (e : Error) (b' : Builder), c.exec b = .error e b' → b' = b) ∧
      ∀ (t : Transformation σ) (s₁ s₂ : σ) (h : Graph), t.apply g s₁ = .ok h s₂ →
        h.headers.Sublist g.headers ∧ (t.keepsBlocks = true → h.headers = g.headers) := by
  intro b g
  have hg : g.WellFormed := (Builder.wellFormed_ofCalls cs).transformed ts s
  refine ⟨hg, fun id k => hg.block?_eq_some_iff, hg.restrict_blocks, fun c e b' hfail => ?_,
    fun t s₁ s₂ h hok => ?_⟩
  · exact Builder.Call.exec_eq_error hfail
  · have hr := Transformation.reshaped hok
    exact ⟨hr.headers_sublist, fun hwhole => (hwhole ▸ hr).headers_eq⟩

/-- The largest id is taken, so new blocks fill the gaps from zero on. Of the calls three fail, and
of the transformations one; the first keeps every second edge only. A callback that asks for an edge
to nowhere is refused, and makes the old edge after all. -/
theorem Graph.invariant_of_history_gaps :
    let last : BlockId := ⟨18446744073709551615⟩
    let cs : List Builder.Call := [.createBlock .entry 0 last, .createBlock .basic 5 last,
      .newBlock .lineStart 1, .newBlock .basic 2, .addStmts ⟨0⟩ [.leaf (.assign ⟨"x", .var "y"⟩)],
      .addStmts ⟨9⟩ [], .createEdge ⟨last, ⟨0⟩, .fallThrough⟩, .createEdge ⟨⟨0⟩, ⟨7⟩, .gotoExpr⟩,
      .createEdge ⟨⟨0⟩, ⟨1⟩, .fallThrough⟩, .createEdge ⟨⟨0⟩, last, .gotoNumber⟩]
    let ts : List (Transformation Nat) := [.trimEdges fun _ n => .ok (n % 2 = 0) (n + 1),
      .addEdges [⟨⟨1⟩, ⟨9⟩, .gotoExpr⟩], .modifyEdges fun e n => .ok [e, ⟨e.target, ⟨1⟩, e.kind⟩] n]
    let c : Builder.Call := .createEdge ⟨⟨1⟩, ⟨2⟩, .runtimeError⟩
    let clear : Transformation Nat := .modifyBlocks fun _ n => .ok [] (n + 1)
    let detour : Transformation Nat := .rewireEdges fun e n => .connect ⟨e.source, ⟨9⟩, e.kind⟩ fun
      | .ok () => .finish n
      | .error _ => .connect e fun _ => .finish (n + 1)
    let trim : Transformation Nat := .trimBlocks fun k n => .ok (k.kind ≠ .basic) (n + 1)
    let b := Builder.ofCalls cs
    let g := b.graph.transformed ts 0
    g.ids = [last, ⟨0⟩, ⟨1⟩] ∧ g.edges.length = 4 ∧ g.WellFormed ∧ g.restrict g.blocks = g ∧
      (∃ b', c.exec b = .error (.danglingEdge ⟨2⟩) b' ∧ b' = b) ∧
      (∃ h, clear.apply g 3 = .ok h 6 ∧ h.stmts = [] ∧ h.headers = g.headers) ∧
      (∃ h, detour.apply g 3 = .ok h 7 ∧ h.edges = g.edges ∧ h.headers = g.headers) ∧
      ∃ h, trim.apply g 3 = .ok h 6 ∧ h.ids = [last, ⟨0⟩] ∧ h.headers.Sublist g.headers := by
  intro last cs ts c clear detour trim b g
  have hg : g = ⟨[⟨last, .entry, 0, []⟩, ⟨⟨0⟩, .lineStart, 1, [.leaf (.assign ⟨"x", .var "y"⟩)]⟩,
      ⟨⟨1⟩, .basic, 2, []⟩],
    [⟨last, ⟨0⟩, .fallThrough⟩, ⟨⟨0⟩, ⟨1⟩, .fallThrough⟩, ⟨⟨0⟩, last, .gotoNumber⟩,
      ⟨last, ⟨1⟩, .gotoNumber⟩]⟩ := by decide +kernel
  obtain ⟨hwf, -, hedges, hcall, hsub⟩ := invariant_of_history cs ts 0
  have hfail : c.exec b = .error (.danglingEdge ⟨2⟩) b := by
    have hsource : (!b.graph.contains ⟨1⟩) = false := by decide +kernel
    have htarget : (!b.graph.contains ⟨2⟩) = true := by decide +kernel
    simp only [c, Builder.Call.exec_eq, hsource, htarget]
    rfl
  have hclear : clear.apply g 3 =
      .ok ⟨g.blocks.map fun k => { k with stmts := [] }, g.edges⟩ 6 := by
    rw [hg]
    rfl
  have hdetour : detour.apply g 3 = .ok g 7 := by
    rw [hg]
    rfl
  have htrim : trim.apply g 3 = .ok (g.trimBlocks fun k => k.kind ≠ .basic) 6 := by
    rw [hg]
    rfl
  exact ⟨by decide +kernel, by decide +kernel, hwf, hedges, ⟨b, hfail, hcall c _ b hfail⟩,
    ⟨_, hclear, by decide +kernel, (hsub clear 3 6 _ hclear).2 rfl⟩,
    ⟨_, hdetour, rfl, (hsub detour 3 7 _ hdetour).2 rfl⟩,
    ⟨_, htrim, by decide +kernel, (hsub trim 3 6 _ htrim).1⟩⟩

end TypeFlow
