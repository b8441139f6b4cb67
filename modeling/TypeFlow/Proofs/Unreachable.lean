import TypeFlow.Proofs.History
import TypeFlow.Proofs.Postorder

/-!
Leaving out the blocks that cannot be reached.

An edge out of a block that can be reached leads to another such block. So none of these edges is
lost with the other blocks, and each block that is left keeps its successors in their order. The
entry is left as well, and no entry made before it comes to light. The search therefore goes
through the blocks that are left just as it went through the whole graph.
-/

namespace TypeFlow.Graph

variable {g h : Graph} {u v x : BlockId}

/-- Edges lead from the entry to `x`. -/
def Reachable (g : Graph) (x : BlockId) : Prop := ∃ k, g.entry? = some k ∧ g.Reaches k.id x

lemma reachable_of_entry {k : Block} (hk : g.entry? = some k) :
    g.Reachable x ↔ g.Reaches k.id x := by
  simp [Reachable, hk]

lemma Reachable.tail (hu : g.Reachable u) (huv : g.Adj u v) : g.Reachable v := by
  obtain ⟨k, hk, hku⟩ := hu
  exact ⟨k, hk, Relation.ReflTransGen.tail hku huv⟩

lemma Reachable.mem_ids (hg : g.WellFormed) (hx : g.Reachable x) : x ∈ g.ids := by
  obtain ⟨k, hk, hkx⟩ := hx
  induction hkx with
  | refl => exact List.mem_map_of_mem (List.mem_of_find?_eq_some hk)
  | tail _ huv _ =>
    obtain ⟨e, he, -, rfl⟩ := huv
    exact hg.target_mem e he

instance : Decidable (g.Reaches u v) := decidable_of_iff (v ∈ g.postorder u) mem_postorder_iff

instance : Decidable (g.Reachable x) :=
  match hk : g.entry? with
  | none => .isFalse (by simp [Reachable, hk])
  | some _ => decidable_of_iff _ (reachable_of_entry hk).symm

lemma mem_reversePostorder_iff (hg : g.WellFormed) : x ∈ g.reversePostorder ↔ g.Reachable x := by
  cases hk : g.entry? with
  | none => simp [reversePostorder, Reachable, hk]
  | some k =>
    rw [reversePostorder_of_entry hg hk, List.mem_reverse, mem_postorder_iff,
      reachable_of_entry hk]

/-! ### Searching a part of a graph -/

/-- Two graphs are searched alike from blocks that have the same successors in both, and whose
successors are such blocks again. -/
lemma visitAll_congr {S : BlockId → Prop}
    (hS : ∀ b, S b → h.successors b = g.successors b ∧ ∀ s ∈ g.successors b, S s)
    (bs : List BlockId) (w : Walk) (hbs : ∀ b ∈ bs, S b) : h.visitAll bs w = g.visitAll bs w := by
  induction bs, w using visit_induction g with
  | nil w => rw [visitAll_nil, visitAll_nil]
  | visited b bs w hb ih =>
    rw [visitAll_of_visited hb, visitAll_of_visited hb]
    exact ih fun s hs => hbs s (List.mem_cons_of_mem b hs)
  | new b bs w hb ihinner ihouter =>
    obtain ⟨hsucc, hin⟩ := hS b (hbs b List.mem_cons_self)
    rw [visitAll_of_notVisited hb, visitAll_of_notVisited hb, hsucc, ihinner hin]
    exact ihouter fun s hs => hbs s (List.mem_cons_of_mem b hs)

/-! ### Leaving out blocks -/

lemma edges_trimBlocks (g : Graph) (keep : Block → Bool) :
    (g.trimBlocks keep).edges = g.edges.filter fun e =>
      e.source ∈ (g.trimBlocks keep).ids ∧ e.target ∈ (g.trimBlocks keep).ids := by
  refine List.filter_congr fun e _ => ?_
  rw [Bool.eq_iff_iff, Bool.and_eq_true, List.contains_iff_mem, List.contains_iff_mem,
    decide_eq_true_iff]
  rfl

lemma wellFormed_trimBlocks (hg : g.WellFormed) (keep : Block → Bool) :
    (g.trimBlocks keep).WellFormed :=
  (Reshaped.trimmed List.filter_sublist).wellFormed hg

/-- Where every block passes, the edges stay as well. -/
lemma trimBlocks_eq_self {keep : Block → Bool} (hg : g.WellFormed)
    (hkeep : ∀ b ∈ g.blocks, keep b = true) : g.trimBlocks keep = g := by
  rw [trimBlocks, List.filter_eq_self.mpr hkeep, hg.restrict_blocks]

/-! ### The part that can be reached -/

/-- The blocks that the search from the entry finds, and the edges between them. -/
def pruned (g : Graph) : Graph := g.trimBlocks fun b => g.reversePostorder.contains b.id

lemma blocks_pruned (hg : g.WellFormed) :
    g.pruned.blocks = g.blocks.filter fun b => g.Reachable b.id := by
  refine List.filter_congr fun b _ => ?_
  simp [mem_reversePostorder_iff hg]

lemma mem_ids_pruned (hg : g.WellFormed) : x ∈ g.pruned.ids ↔ g.Reachable x := by
  simp only [ids, blocks_pruned hg, List.mem_map, List.mem_filter, decide_eq_true_eq]
  constructor
  · rintro ⟨b, ⟨-, hb⟩, rfl⟩
    exact hb
  · intro hx
    obtain ⟨b, hb, rfl⟩ := List.mem_map.mp (hx.mem_ids hg)
    exact ⟨b, ⟨hb, hx⟩, rfl⟩

/-- An edge is left exactly if its source is: its target is reached over the edge. -/
lemma edges_pruned (hg : g.WellFormed) :
    g.pruned.edges = g.edges.filter fun e => g.Reachable e.source := by
  rw [pruned, edges_trimBlocks, ← pruned]
  refine List.filter_congr fun e he => decide_eq_decide.mpr ?_
  rw [mem_ids_pruned hg, mem_ids_pruned hg]
  exact and_iff_left_of_imp fun hs => hs.tail ⟨e, he, rfl, rfl⟩

/-- The entry can be reached, so the first entry is still the first. -/
lemma entry?_pruned (hg : g.WellFormed) : g.pruned.entry? = g.entry? := by
  unfold entry?
  rw [blocks_pruned hg, List.find?_filter]
  cases hk : g.blocks.find? (·.kind = .entry) with
  | none =>
    refine List.find?_eq_none.mpr fun b hb hboth => List.find?_eq_none.mp hk b hb ?_
    exact (of_decide_eq_true hboth).2
  | some k =>
    have hreach : g.Reachable k.id := (reachable_of_entry hk).mpr .refl
    obtain ⟨hentry, before, after, hsplit, hbefore⟩ := List.find?_eq_some_iff_append.mp hk
    refine List.find?_eq_some_iff_append.mpr ⟨?_, before, after, hsplit, fun b hb => ?_⟩
    · simpa [hreach] using hentry
    · have hother : b.kind ≠ .entry := by simpa using hbefore b hb
      simp [hother]

lemma successors_pruned (hg : g.WellFormed) (hu : g.Reachable u) :
    g.pruned.successors u = g.successors u := by
  unfold successors outgoing
  rw [edges_pruned hg, List.filter_filter]
  congr 1
  refine List.filter_congr fun e _ => ?_
  by_cases he : e.source = u <;> simp [he, hu]

lemma reversePostorder_pruned (hg : g.WellFormed) :
    g.pruned.reversePostorder = g.reversePostorder := by
  cases hk : g.entry? with
  | none => rw [reversePostorder, reversePostorder, entry?_pruned hg, hk]
  | some k =>
    have hk' : g.pruned.entry? = some k := by rw [entry?_pruned hg, hk]
    have hg' : g.pruned.WellFormed := wellFormed_trimBlocks hg _
    have hsame : g.pruned.visitAll [k.id] .start = g.visitAll [k.id] .start := by
      refine visitAll_congr (S := g.Reachable) (fun b hb => ?_) [k.id] .start fun b hb => ?_
      · exact ⟨successors_pruned hg hb, fun s hs => hb.tail (mem_successors.mp hs)⟩
      · rw [List.mem_singleton.mp hb, reachable_of_entry hk]
        exact .refl
    rw [reversePostorder_of_entry hg' hk', reversePostorder_of_entry hg hk, postorder, postorder,
      hsame]

/-- **Unreachable blocks do not matter**: without them the reverse postorder is what it was. What
is left are the blocks that can be reached, as they were, and the edges that leave them, both in
their order. There is nothing more to be left out then. -/
theorem pruned_keeps_reversePostorder (hg : g.WellFormed) :
    g.pruned.reversePostorder = g.reversePostorder ∧
      g.pruned.blocks = (g.blocks.filter fun b => g.Reachable b.id) ∧
      g.pruned.edges = (g.edges.filter fun e => g.Reachable e.source) ∧
      (g.pruned.trimBlocks fun b => g.reversePostorder.contains b.id) = g.pruned ∧
      g.pruned.pruned = g.pruned := by
  have hagain : (g.pruned.trimBlocks fun b => g.reversePostorder.contains b.id) = g.pruned :=
    trimBlocks_eq_self (wellFormed_trimBlocks hg _) fun b hb => (List.mem_filter.mp hb).2
  refine ⟨reversePostorder_pruned hg, blocks_pruned hg, edges_pruned hg, hagain, ?_⟩
  calc g.pruned.pruned
      = g.pruned.trimBlocks fun b => g.pruned.reversePostorder.contains b.id := rfl
    _ = g.pruned := by rw [reversePostorder_pruned hg, hagain]

/-- An entry that is not the first, and a loop that leads into the rest but cannot be reached,
stand between the blocks that can. One of the edges is there twice. -/
theorem pruned_keeps_reversePostorder_island :
    let g : Graph := ⟨[⟨⟨7⟩, .basic, 4, []⟩, ⟨⟨5⟩, .entry, 0, [.leaf (.goto (.var "l"))]⟩,
        ⟨⟨8⟩, .basic, 5, []⟩, ⟨⟨2⟩, .basic, 1, [.leaf (.assign ⟨"x", .var "y"⟩)]⟩,
        ⟨⟨4⟩, .entry, 3, []⟩, ⟨⟨9⟩, .exit, 2, []⟩],
      [⟨⟨7⟩, ⟨8⟩, .fallThrough⟩, ⟨⟨5⟩, ⟨2⟩, .conditionalTrue⟩, ⟨⟨8⟩, ⟨7⟩, .gotoNumber⟩,
        ⟨⟨5⟩, ⟨9⟩, .conditionalFalse⟩, ⟨⟨8⟩, ⟨2⟩, .gotoExpr⟩, ⟨⟨2⟩, ⟨5⟩, .gotoNumber⟩,
        ⟨⟨5⟩, ⟨2⟩, .conditionalTrue⟩, ⟨⟨4⟩, ⟨9⟩, .fallThrough⟩]⟩
    g.WellFormed ∧ g.reversePostorder = [⟨5⟩, ⟨9⟩, ⟨2⟩] ∧ g.pruned =
      ⟨[⟨⟨5⟩, .entry, 0, [.leaf (.goto (.var "l"))]⟩,
          ⟨⟨2⟩, .basic, 1, [.leaf (.assign ⟨"x", .var "y"⟩)]⟩, ⟨⟨9⟩, .exit, 2, []⟩],
        [⟨⟨5⟩, ⟨2⟩, .conditionalTrue⟩, ⟨⟨5⟩, ⟨9⟩, .conditionalFalse⟩, ⟨⟨2⟩, ⟨5⟩, .gotoNumber⟩,
          ⟨⟨5⟩, ⟨2⟩, .conditionalTrue⟩]⟩ ∧
      g.pruned.reversePostorder = [⟨5⟩, ⟨9⟩, ⟨2⟩] ∧ g.pruned.pruned = g.pruned := by
  intro g
  have hg : g.WellFormed := by decide
  have horder : g.reversePostorder = [⟨5⟩, ⟨9⟩, ⟨2⟩] := by decide +kernel
  obtain ⟨hsame, -, -, -, hagain⟩ := pruned_keeps_reversePostorder hg
  exact ⟨hg, horder, by decide +kernel, hsame.trans horder, hagain⟩

end TypeFlow.Graph
