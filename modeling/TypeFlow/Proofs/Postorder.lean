import TypeFlow.Proofs.DepthFirst

/-!
What reverse postorder is good for: it lists the blocks that can be reached, each once, the entry
first, and puts a block before its successors, but for the edges that close a loop.

The order is a matter of which blocks are open, that is visited and not left, when a block is
left. A visit leaves as many blocks open as it finds, and every open block leads to the blocks that
are still to be visited. So a successor of the block that is left has been left before, or it is
open and leads back to this block.
-/

namespace TypeFlow

namespace Graph

variable {g : Graph}

/-- An edge runs from `u` to `v`. -/
def Adj (g : Graph) (u v : BlockId) : Prop := ∃ e ∈ g.edges, e.source = u ∧ e.target = v

/-- Edges lead from `u` to `v`, or `v` is `u`. -/
def Reaches (g : Graph) : BlockId → BlockId → Prop := Relation.ReflTransGen g.Adj

lemma mem_successors {u v : BlockId} : v ∈ g.successors u ↔ g.Adj u v := by
  simp [successors, outgoing, Adj, and_assoc]

/-- Before each block stand its successors, but for those that lead back to it. -/
def Ordered (g : Graph) (bs : List BlockId) : Prop :=
  ∀ before u after, bs = before ++ u :: after → ∀ v, g.Adj u v → v ∈ before ∨ g.Reaches v u

lemma Ordered.concat {bs : List BlockId} (h : g.Ordered bs) {b : BlockId}
    (hb : ∀ v, g.Adj b v → v ∈ bs ∨ g.Reaches v b) : g.Ordered (bs ++ [b]) := by
  intro before u after heq v huv
  rcases List.eq_nil_or_concat after with rfl | ⟨after, z, rfl⟩
  · obtain ⟨rfl, hu⟩ := List.append_inj' heq rfl
    obtain rfl : b = u := by simpa using hu
    exact hb v huv
  · have hsplit : bs ++ [b] = (before ++ u :: after) ++ [z] := by simpa using heq
    obtain ⟨rfl, -⟩ := List.append_inj' hsplit rfl
    exact h before u after rfl v huv

end Graph

/-! ### Open blocks -/

namespace Walk

variable {g : Graph} {w : Walk} {b e : BlockId}

/-- Visited and not left. -/
def Open (w : Walk) (b : BlockId) : Prop := b ∈ w.visited ∧ b ∉ w.left

/-- What holds of a search from `e` at any time. -/
structure Sound (g : Graph) (e : BlockId) (w : Walk) : Prop where
  nodup : w.left.Nodup
  visited_of_left : ∀ x ∈ w.left, x ∈ w.visited
  reached : ∀ x ∈ w.visited, g.Reaches e x
  /-- A block is not left before its successors have been visited. -/
  closed : ∀ u ∈ w.left, ∀ v, g.Adj u v → v ∈ w.visited
  ordered : g.Ordered w.left

lemma sound_start (g : Graph) (e : BlockId) : Sound g e start where
  nodup := List.nodup_nil
  visited_of_left := by simp [start]
  reached := by simp [start]
  closed := by simp [start]
  ordered := fun before u after heq => by simp [start] at heq

lemma Sound.enter (h : w.Sound g e) (hb : g.Reaches e b) : (w.enter b).Sound g e where
  nodup := h.nodup
  visited_of_left x hx := Finset.mem_insert_of_mem (h.visited_of_left x hx)
  reached x hx := by
    rcases Finset.mem_insert.mp hx with rfl | hx
    · exact hb
    · exact h.reached x hx
  closed u hu v huv := Finset.mem_insert_of_mem (h.closed u hu v huv)
  ordered := h.ordered

lemma Sound.leave (h : w.Sound g e) (hb : w.Open b) (hsucc : ∀ v, g.Adj b v → v ∈ w.visited)
    (hback : ∀ v, w.Open v → g.Reaches v b) : (w.leave b).Sound g e where
  nodup := by
    have hnodup := h.nodup.concat hb.2
    rwa [List.concat_eq_append] at hnodup
  visited_of_left x hx := by
    rcases List.mem_append.mp hx with hx | hx
    · exact h.visited_of_left x hx
    · rw [List.mem_singleton.mp hx]
      exact hb.1
  reached := h.reached
  closed u hu v huv := by
    rcases List.mem_append.mp hu with hu | hu
    · exact h.closed u hu v huv
    · rw [List.mem_singleton.mp hu] at huv
      exact hsucc v huv
  ordered := by
    refine h.ordered.concat fun v hv => ?_
    by_cases hleft : v ∈ w.left
    · exact .inl hleft
    · exact .inr (hback v ⟨hsucc v hv, hleft⟩)

lemma open_enter (h : w.Sound g e) (hb : b ∉ w.visited) {x : BlockId} :
    (w.enter b).Open x ↔ w.Open x ∨ x = b := by
  have hleft : b ∉ w.left := fun hmem => hb (h.visited_of_left b hmem)
  unfold Open
  simp only [enter, Finset.mem_insert]
  constructor
  · rintro ⟨rfl | hx, hnot⟩
    · exact .inr rfl
    · exact .inl ⟨hx, hnot⟩
  · rintro (⟨hx, hnot⟩ | rfl)
    · exact ⟨.inr hx, hnot⟩
    · exact ⟨.inl rfl, hleft⟩

lemma open_leave {x : BlockId} : (w.leave b).Open x ↔ w.Open x ∧ x ≠ b := by
  simp [Open, leave, and_assoc]

end Walk

namespace Graph

variable {g : Graph} {w : Walk} {e : BlockId} {bs : List BlockId}

lemma visited_subset_visitAll : w.visited ⊆ (g.visitAll bs w).visited := (g.visitFrom bs w).2

/-- What a visit of `bs` comes to: it visits them all, and opens and closes blocks in pairs. -/
structure Visits (g : Graph) (e : BlockId) (bs : List BlockId) (w w' : Walk) : Prop where
  sound : w'.Sound g e
  open_iff : ∀ x, w'.Open x ↔ w.Open x
  visited : ∀ b ∈ bs, b ∈ w'.visited

theorem visits_visitAll (bs : List BlockId) (w : Walk) (hw : w.Sound g e)
    (hbs : ∀ b ∈ bs, g.Reaches e b) (hopen : ∀ x, w.Open x → ∀ b ∈ bs, g.Reaches x b) :
    g.Visits e bs w (g.visitAll bs w) := by
  induction bs, w using visit_induction g with
  | nil w =>
    rw [visitAll_nil]
    exact ⟨hw, fun x => .rfl, by simp⟩
  | visited b bs w hb ih =>
    rw [visitAll_of_visited hb]
    have hrest := ih hw (fun x hx => hbs x (List.mem_cons_of_mem b hx))
      fun x hx y hy => hopen x hx y (List.mem_cons_of_mem b hy)
    refine ⟨hrest.sound, hrest.open_iff, fun x hx => ?_⟩
    rcases List.mem_cons.mp hx with rfl | hx
    · exact visited_subset_visitAll hb
    · exact hrest.visited x hx
  | new b bs w hb ihinner ihouter =>
    rw [visitAll_of_notVisited hb]
    have heb : g.Reaches e b := hbs b List.mem_cons_self
    -- all that is open while `b` is being visited leads to `b`
    have hto (x : BlockId) (hx : (w.enter b).Open x) : g.Reaches x b := by
      rcases (Walk.open_enter hw hb).mp hx with hx | rfl
      · exact hopen x hx b List.mem_cons_self
      · exact .refl
    have hinner := ihinner (hw.enter heb) (fun v hv => heb.tail (mem_successors.mp hv))
      fun x hx v hv => (hto x hx).tail (mem_successors.mp hv)
    generalize g.visitAll (g.successors b) (w.enter b) = w₁ at hinner ihouter ⊢
    have hb₁ : w₁.Open b := (hinner.open_iff b).mpr ((Walk.open_enter hw hb).mpr (.inr rfl))
    have hleave : (w₁.leave b).Sound g e :=
      hinner.sound.leave hb₁ (fun v hv => hinner.visited v (mem_successors.mpr hv))
        fun v hv => hto v ((hinner.open_iff v).mp hv)
    have hopen₁ (x : BlockId) : (w₁.leave b).Open x ↔ w.Open x := by
      rw [Walk.open_leave, hinner.open_iff, Walk.open_enter hw hb]
      constructor
      · rintro ⟨hx | rfl, hne⟩
        · exact hx
        · exact absurd rfl hne
      · intro hx
        exact ⟨.inl hx, fun hxb => hb (hxb ▸ hx.1)⟩
    have houter := ihouter hleave (fun x hx => hbs x (List.mem_cons_of_mem b hx))
      fun x hx y hy => hopen x ((hopen₁ x).mp hx) y (List.mem_cons_of_mem b hy)
    refine ⟨houter.sound, fun x => (houter.open_iff x).trans (hopen₁ x), fun x hx => ?_⟩
    rcases List.mem_cons.mp hx with rfl | hx
    · exact visited_subset_visitAll hb₁.1
    · exact houter.visited x hx

/-! ### The order from the entry -/

lemma visits_postorder (g : Graph) (e : BlockId) :
    g.Visits e [e] .start (g.visitAll [e] .start) := by
  refine visits_visitAll [e] .start (Walk.sound_start g e) ?_ fun x hx => ?_
  · intro b hb
    rw [List.mem_singleton.mp hb]
    exact .refl
  · simp [Walk.Open, Walk.start] at hx

/-- In the end nothing is open. -/
lemma mem_postorder_of_visited {x : BlockId} (hx : x ∈ (g.visitAll [e] .start).visited) :
    x ∈ g.postorder e := by
  by_contra hnot
  have hopen := ((g.visits_postorder e).open_iff x).mp ⟨hx, hnot⟩
  simp [Walk.Open, Walk.start] at hopen

lemma mem_postorder_iff {x : BlockId} : x ∈ g.postorder e ↔ g.Reaches e x := by
  have hvisits := g.visits_postorder e
  constructor
  · intro hx
    exact hvisits.sound.reached x (hvisits.sound.visited_of_left x hx)
  · intro hx
    induction hx with
    | refl => exact mem_postorder_of_visited (hvisits.visited e List.mem_cons_self)
    | @tail u v hu huv ih => exact mem_postorder_of_visited (hvisits.sound.closed u ih v huv)

lemma postorder_eq_concat (g : Graph) (e : BlockId) : ∃ bs, g.postorder e = bs ++ [e] := by
  have hnew : e ∉ Walk.start.visited := by simp [Walk.start]
  exact ⟨_, by rw [postorder, visitAll_of_notVisited hnew, visitAll_nil, Walk.leave]⟩

/-- What stands before a block comes after it once the list is turned round. -/
lemma idxOf_reverse_lt {before after : List BlockId} {u v : BlockId}
    (hnodup : (before ++ u :: after).Nodup) (hv : v ∈ before) :
    (before ++ u :: after).reverse.idxOf u < (before ++ u :: after).reverse.idxOf v := by
  have hu : u ∉ after.reverse := by
    have := (List.nodup_cons.mp hnodup.of_append_right).1
    simpa using this
  have hdisj := List.disjoint_of_nodup_append hnodup
  have hva : v ∉ after.reverse := by
    simpa using fun hmem => hdisj hv (List.mem_cons_of_mem u hmem)
  have hne : v ≠ u := fun heq => hdisj hv (heq ▸ List.mem_cons_self)
  rw [List.reverse_append, List.reverse_cons, List.append_assoc,
    List.idxOf_append_of_notMem hu, List.idxOf_append_of_notMem hva, List.singleton_append,
    List.idxOf_cons_self, List.idxOf_cons_ne _ hne.symm]
  omega

/-- **Reverse postorder**: without an entry it is empty. Else it lists the blocks that can be
reached from the entry, each once and the entry first. For every edge from one of them, its source
comes before its target, or its target leads back to its source; so without loops among them the
blocks are sorted topologically. -/
theorem reversePostorder_sorted {g : Graph} (hg : g.WellFormed) :
    (g.entry? = none → g.reversePostorder = []) ∧
    ∀ k, g.entry? = some k →
      g.reversePostorder.Nodup ∧ (∀ x, x ∈ g.reversePostorder ↔ g.Reaches k.id x) ∧
      g.reversePostorder.head? = some k.id ∧
      (∀ e ∈ g.edges, g.Reaches k.id e.source → g.Reaches k.id e.target →
        g.reversePostorder.idxOf e.source < g.reversePostorder.idxOf e.target ∨
          g.Reaches e.target e.source) ∧
      ((∀ x, g.Reaches k.id x → ¬ Relation.TransGen g.Adj x x) →
        ∀ e ∈ g.edges, g.Reaches k.id e.source → g.Reaches k.id e.target →
          g.reversePostorder.idxOf e.source < g.reversePostorder.idxOf e.target) := by
  refine ⟨fun hnone => by rw [reversePostorder, hnone], fun k hk => ?_⟩
  have hsound := (g.visits_postorder k.id).sound
  rw [reversePostorder_of_entry hg hk]
  have hedge (e : Edge) (he : e ∈ g.edges) (hs : g.Reaches k.id e.source) :
      (g.postorder k.id).reverse.idxOf e.source < (g.postorder k.id).reverse.idxOf e.target ∨
        g.Reaches e.target e.source := by
    obtain ⟨before, after, hsplit⟩ := List.append_of_mem (mem_postorder_iff.mpr hs)
    rcases hsound.ordered before e.source after hsplit e.target ⟨e, he, rfl, rfl⟩ with hv | hback
    · rw [hsplit]
      exact .inl (idxOf_reverse_lt (hsplit ▸ hsound.nodup) hv)
    · exact .inr hback
  refine ⟨List.nodup_reverse.mpr hsound.nodup, fun x => ?_, ?_, fun e he hs _ => hedge e he hs,
    fun hacyclic e he hs ht => ?_⟩
  · rw [List.mem_reverse, mem_postorder_iff]
  · obtain ⟨bs, hbs⟩ := g.postorder_eq_concat k.id
    rw [hbs]
    simp
  · rcases hedge e he hs with hlt | hback
    · exact hlt
    · -- the edge and the way back make a loop
      exact absurd (Relation.TransGen.head' ⟨e, he, rfl, rfl⟩ hback) (hacyclic e.source hs)

/-- Two ways that meet again are sorted. With an edge back from where they meet and another from a
block to itself, the edge back is the one that does not go forwards. -/
theorem reversePostorder_sorted_diamond :
    let blocks : List Block := [⟨⟨0⟩, .entry, 0, []⟩, ⟨⟨1⟩, .basic, 1, []⟩, ⟨⟨2⟩, .basic, 1, []⟩,
      ⟨⟨3⟩, .exit, 2, []⟩]
    let edges : List Edge := [⟨⟨0⟩, ⟨1⟩, .conditionalTrue⟩, ⟨⟨0⟩, ⟨2⟩, .conditionalFalse⟩,
      ⟨⟨1⟩, ⟨3⟩, .fallThrough⟩, ⟨⟨2⟩, ⟨3⟩, .fallThrough⟩]
    let g : Graph := ⟨blocks, edges⟩
    let l : Graph := ⟨blocks, edges ++ [⟨⟨3⟩, ⟨1⟩, .gotoNumber⟩, ⟨⟨1⟩, ⟨1⟩, .gotoExpr⟩]⟩
    g.WellFormed ∧ g.entry? = some ⟨⟨0⟩, .entry, 0, []⟩ ∧
      (∀ x, g.Reaches ⟨0⟩ x → ¬ Relation.TransGen g.Adj x x) ∧
      (g.Reaches ⟨0⟩ ⟨2⟩ ∧ g.Reaches ⟨0⟩ ⟨3⟩ ∧
        g.reversePostorder.idxOf ⟨2⟩ < g.reversePostorder.idxOf ⟨3⟩) ∧
      l.WellFormed ∧ l.reversePostorder = [⟨0⟩, ⟨2⟩, ⟨1⟩, ⟨3⟩] ∧ l.Reaches ⟨1⟩ ⟨3⟩ ∧
      (⟨blocks.tail, []⟩ : Graph).reversePostorder = [] := by
  intro blocks edges g l
  have hg : g.WellFormed := by decide
  have hk : g.entry? = some ⟨⟨0⟩, .entry, 0, []⟩ := by decide +kernel
  have hup : ∀ e ∈ g.edges, e.source.val < e.target.val := by decide
  have hacyclic (x y : BlockId) (h : Relation.TransGen g.Adj x y) : x.val < y.val := by
    induction h with
    | single h =>
      obtain ⟨e, he, rfl, rfl⟩ := h
      exact hup e he
    | tail h huv ih =>
      obtain ⟨e, he, rfl, rfl⟩ := huv
      exact UInt64.lt_trans ih (hup e he)
  have hloopfree (x : BlockId) (_ : g.Reaches ⟨0⟩ x) : ¬ Relation.TransGen g.Adj x x :=
    fun hloop => UInt64.lt_irrefl _ (hacyclic x x hloop)
  obtain ⟨-, hmem, -, -, hsorted⟩ := (reversePostorder_sorted hg).2 _ hk
  have horder : g.reversePostorder = [⟨0⟩, ⟨2⟩, ⟨1⟩, ⟨3⟩] := by decide +kernel
  have htwo : g.Reaches ⟨0⟩ ⟨2⟩ := (hmem ⟨2⟩).mp (by simp [horder])
  have hthree : g.Reaches ⟨0⟩ ⟨3⟩ := (hmem ⟨3⟩).mp (by simp [horder])
  -- the edge back does not go forwards in the order, so its target leads to its source
  have hl : l.WellFormed := by decide
  have hlk : l.entry? = some ⟨⟨0⟩, .entry, 0, []⟩ := by decide +kernel
  have hlorder : l.reversePostorder = [⟨0⟩, ⟨2⟩, ⟨1⟩, ⟨3⟩] := by decide +kernel
  obtain ⟨-, hlmem, -, hledge, -⟩ := (reversePostorder_sorted hl).2 _ hlk
  have hback : l.Reaches ⟨1⟩ ⟨3⟩ := by
    rcases hledge ⟨⟨3⟩, ⟨1⟩, .gotoNumber⟩ (by decide) ((hlmem _).mp (by simp [hlorder]))
      ((hlmem _).mp (by simp [hlorder])) with hlt | hback
    · rw [hlorder] at hlt
      exact absurd hlt (by decide)
    · exact hback
  exact ⟨hg, hk, hloopfree,
    ⟨htwo, hthree, hsorted hloopfree ⟨⟨2⟩, ⟨3⟩, .fallThrough⟩ (by decide) htwo hthree⟩, hl,
    hlorder, hback, (reversePostorder_sorted (g := ⟨blocks.tail, []⟩) (by decide)).1 rfl⟩

end Graph

end TypeFlow
