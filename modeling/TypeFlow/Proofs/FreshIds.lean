import TypeFlow.Proofs.History

/-!
The ids of new blocks.

A builder counts: it tries the id one above the largest id it has come across. The count stops at
the largest id there is, and once that id is taken, the gaps below are filled from zero on. In all
that a builder goes through, the count stays tied to the ids that are there, so a new block gets
an id that no other block has.
-/

namespace TypeFlow

lemma BlockId.toNat_next (id : BlockId) :
    id.next.val.toNat = min (id.val.toNat + 1) (UInt64.size - 1) := by
  have hlt := id.val.toNat_lt_size
  unfold next
  split
  · next h =>
    simp only [UInt64.toNat_add, UInt64.toNat_one, UInt64.size] at h hlt ⊢
    omega
  · next h =>
    simp only [UInt64.size] at h hlt ⊢
    omega

lemma BlockId.ext_toNat {x y : BlockId} (h : x.val.toNat = y.val.toNat) : x = y :=
  congrArg mk (UInt64.toNat_inj.mp h)

lemma BlockId.toNat_mk_toUInt64 {n : ℕ} (h : n < UInt64.size) : (mk n.toUInt64).val.toNat = n :=
  UInt64.toNat_ofNat_of_lt h

namespace Builder

variable {b b' : Builder} {kind : BlockKind} {line : UInt64} {id : BlockId}

/-! ### The count -/

/-- The count is the largest of zero and the successors of the ids that are there. -/
structure Counts (b : Builder) : Prop where
  next_le : ∀ id ∈ b.graph.ids, id.next.val.toNat ≤ b.next.val.toNat
  next_eq : b.next = ⟨0⟩ ∨ ∃ id ∈ b.graph.ids, b.next = id.next

lemma counts_empty : empty.Counts := ⟨by simp [empty, Graph.empty, Graph.ids], .inl rfl⟩

lemma mem_ids_insert {x : BlockId} :
    x ∈ (b.insert kind line id).graph.ids ↔ x ∈ b.graph.ids ∨ x = id := by
  rw [ids_insert]
  split
  · next hid =>
    refine (or_iff_left_of_imp ?_).symm
    rintro rfl
    exact Graph.contains_iff.mp hid
  · simp

lemma next_insert : (b.insert kind line id).next =
    if b.next.val.toNat < id.next.val.toNat then id.next else b.next := by
  simp only [insert, UInt64.lt_iff_toNat_lt]

lemma Counts.insert (h : b.Counts) : (b.insert kind line id).Counts := by
  refine ⟨fun x hx => ?_, ?_⟩
  · rw [next_insert]
    rcases mem_ids_insert.mp hx with hx | rfl
    · have hle := h.next_le x hx
      split <;> omega
    · split <;> omega
  · rw [next_insert]
    split
    · exact .inr ⟨id, mem_ids_insert.mpr (.inr rfl), rfl⟩
    · rcases h.next_eq with hzero | ⟨x, hx, heq⟩
      · exact .inl hzero
      · exact .inr ⟨x, mem_ids_insert.mpr (.inl hx), heq⟩

lemma Counts.of_changed (h : b.Counts) (hc : b.Changed b') : b'.Counts := by
  cases hc with
  | refused => exact h
  | inserted kind line id => exact h.insert
  | appended id ss =>
    have hids := Graph.ids_of_headers_eq (b.headers_append id ss)
    exact ⟨hids ▸ h.next_le, hids ▸ h.next_eq⟩
  | connected hs ht => exact ⟨h.next_le, h.next_eq⟩

theorem counts_ofCalls (cs : List Call) : (ofCalls cs).Counts :=
  ofCalls_induction counts_empty (fun _ _ hc h => h.of_changed hc) cs

/-- The count stands one above the largest id. -/
lemma Counts.next_of_largest (h : b.Counts) {last : BlockId} (hmem : last ∈ b.graph.ids)
    (hlast : ∀ x ∈ b.graph.ids, x.val ≤ last.val) : b.next = last.next := by
  have hle := h.next_le last hmem
  refine BlockId.ext_toNat ?_
  rcases h.next_eq with hzero | ⟨x, hx, heq⟩
  · -- the successor of an id is not zero
    rw [hzero, UInt64.toNat_zero, BlockId.toNat_next, UInt64.size] at hle
    omega
  · have hxlast := UInt64.le_iff_toNat_le.mp (hlast x hx)
    rw [heq, BlockId.toNat_next, BlockId.toNat_next] at hle ⊢
    omega

/-! ### Gaps -/

lemma exists_unused (h : b.graph.blocks.length < UInt64.size) :
    ∃ n ≤ b.graph.blocks.length, BlockId.mk n.toUInt64 ∉ b.graph.ids := by
  by_contra hnone
  push Not at hnone
  let candidates := (List.range (b.graph.blocks.length + 1)).map fun n => BlockId.mk n.toUInt64
  have hnodup : candidates.Nodup := by
    refine List.nodup_range.map_on fun m hm n hn heq => ?_
    rw [List.mem_range] at hm hn
    calc m = (BlockId.mk m.toUInt64).val.toNat := (BlockId.toNat_mk_toUInt64 (by omega)).symm
      _ = (BlockId.mk n.toUInt64).val.toNat := by rw [heq]
      _ = n := BlockId.toNat_mk_toUInt64 (by omega)
  have hsub : candidates ⊆ b.graph.ids := by
    intro id hid
    obtain ⟨n, hn, rfl⟩ := List.mem_map.mp hid
    exact hnone n (Nat.lt_succ_iff.mp (List.mem_range.mp hn))
  have hle := hnodup.length_le_of_subset hsub
  simp only [candidates, List.length_map, List.length_range, Graph.ids] at hle
  omega

lemma leastUnused_eq (h : b.graph.blocks.length < UInt64.size) :
    ∃ n ≤ b.graph.blocks.length, b.leastUnused = ⟨n.toUInt64⟩ ∧
      BlockId.mk n.toUInt64 ∉ b.graph.ids ∧ ∀ m < n, BlockId.mk m.toUInt64 ∈ b.graph.ids := by
  obtain ⟨k, hk, hfree⟩ := exists_unused h
  cases hfind : (List.range (b.graph.blocks.length + 1)).find? fun n =>
      !b.graph.contains ⟨n.toUInt64⟩ with
  | none =>
    have hall := List.find?_eq_none.mp hfind k (List.mem_range.mpr (by omega))
    simp [Graph.contains_iff, hfree] at hall
  | some n =>
    obtain ⟨hn, hmem, hbelow⟩ := List.find?_range_eq_some.mp hfind
    have heq : b.leastUnused = ⟨n.toUInt64⟩ := by
      simp only [leastUnused, List.find?_map, Function.comp_def, hfind, Option.map_some,
        Option.getD_some]
    rw [List.mem_range] at hmem
    refine ⟨n, by omega, heq, ?_, fun m hm => ?_⟩
    · exact fun hid => absurd (Graph.contains_iff.mpr hid) (by simpa using hn)
    · simpa [Graph.contains_iff] using hbelow m hm

lemma leastUnused_spec (h : b.graph.blocks.length < UInt64.size) :
    b.leastUnused ∉ b.graph.ids ∧ ∀ x : BlockId, x.val < b.leastUnused.val → x ∈ b.graph.ids := by
  obtain ⟨n, hn, heq, hfree, hbelow⟩ := leastUnused_eq h
  rw [heq]
  refine ⟨hfree, fun x hx => ?_⟩
  rw [UInt64.lt_iff_toNat_lt, BlockId.toNat_mk_toUInt64 (by omega)] at hx
  simpa using hbelow x.val.toNat hx

/-! ### New blocks -/

lemma freshId_of_mem (h : b.next ∈ b.graph.ids) : b.freshId = b.leastUnused := by
  rw [freshId, if_pos (Graph.contains_iff.mpr h)]

lemma freshId_of_notMem (h : b.next ∉ b.graph.ids) : b.freshId = b.next := by
  rw [freshId, if_neg (mt Graph.contains_iff.mp h)]

lemma freshId_notMem (h : b.graph.blocks.length < UInt64.size) : b.freshId ∉ b.graph.ids := by
  by_cases hmem : b.next ∈ b.graph.ids
  · rw [freshId_of_mem hmem]
    exact (leastUnused_spec h).1
  · rwa [freshId_of_notMem hmem]

lemma Counts.freshId_of_empty (h : b.Counts) (hnone : b.graph.ids = []) : b.freshId = ⟨0⟩ := by
  have hzero : b.next = ⟨0⟩ := h.next_eq.resolve_right (by simp [hnone])
  rw [freshId_of_notMem (by simp [hnone]), hzero]

/-- Below the largest id there is, new ids go on from the largest so far. -/
lemma Counts.freshId_of_lt (h : b.Counts) {last : BlockId} (hmem : last ∈ b.graph.ids)
    (hlast : ∀ x ∈ b.graph.ids, x.val ≤ last.val) (hlt : last.val.toNat + 1 < UInt64.size) :
    b.freshId.val.toNat = last.val.toNat + 1 := by
  have habove : b.next.val.toNat = last.val.toNat + 1 := by
    rw [h.next_of_largest hmem hlast, BlockId.toNat_next]
    omega
  have hfree : b.next ∉ b.graph.ids := fun hin => by
    have hle := UInt64.le_iff_toNat_le.mp (hlast b.next hin)
    omega
  rw [freshId_of_notMem hfree, habove]

/-- Once the largest id there is has been taken, the gaps are filled. -/
lemma Counts.freshId_of_max (h : b.Counts) {last : BlockId} (hmem : last ∈ b.graph.ids)
    (hlast : ∀ x ∈ b.graph.ids, x.val ≤ last.val) (hmax : last.val.toNat + 1 = UInt64.size) :
    b.freshId = b.leastUnused := by
  -- the largest id is its own successor, so the count stands at an id that is taken
  have hstop : b.next = last := by
    refine BlockId.ext_toNat ?_
    rw [h.next_of_largest hmem hlast, BlockId.toNat_next]
    omega
  exact freshId_of_mem (hstop ▸ hmem)

lemma graph_insert_of_notMem (h : id ∉ b.graph.ids) : (b.insert kind line id).graph =
    { b.graph with blocks := b.graph.blocks ++ [⟨id, kind, line, []⟩] } := by
  simp only [insert, if_neg (mt Graph.contains_iff.mp h)]

/-- **New blocks get new ids**: after any calls, as long as not all ids are taken, a new block has
an id that was not there, and comes after the blocks that were, which stay as they are. The first
id is zero. After that it is one above the largest id, or, if there is none above, the least id
that is not in use. -/
theorem newBlock_id_fresh (cs : List Call) (kind : BlockKind) (line : UInt64)
    (hroom : (ofCalls cs).graph.blocks.length < UInt64.size) :
    let b := ofCalls cs
    let id := (b.newBlock kind line).1
    id ∉ b.graph.ids ∧
      (b.newBlock kind line).2.graph =
        { b.graph with blocks := b.graph.blocks ++ [⟨id, kind, line, []⟩] } ∧
      (b.graph.blocks = [] → id = ⟨0⟩) ∧
      ∀ last ∈ b.graph.ids, (∀ x ∈ b.graph.ids, x.val ≤ last.val) →
        (last.val.toNat + 1 < UInt64.size → id.val.toNat = last.val.toNat + 1) ∧
        (last.val.toNat + 1 = UInt64.size → ∀ x : BlockId, x.val < id.val → x ∈ b.graph.ids) := by
  intro b id
  have hcounts : b.Counts := counts_ofCalls cs
  have hfresh : id ∉ b.graph.ids := freshId_notMem hroom
  refine ⟨hfresh, graph_insert_of_notMem hfresh, fun hnone => ?_, fun last hmem hlast => ?_⟩
  · exact hcounts.freshId_of_empty (by rw [Graph.ids, hnone, List.map_nil])
  · refine ⟨hcounts.freshId_of_lt hmem hlast, fun hmax => ?_⟩
    have hid : id = b.leastUnused := hcounts.freshId_of_max hmem hlast hmax
    rw [hid]
    exact (leastUnused_spec hroom).2

/-- The largest id is taken early, and a call for an id that is taken fails: the gaps are filled
from below. Without the largest id, new blocks are numbered on from the largest one so far, up to
the largest there is. -/
theorem newBlock_id_fresh_gaps :
    let last : BlockId := ⟨18446744073709551615⟩
    let early : List Call := [.createBlock .exit 0 last, .newBlock .entry 1,
      .createBlock .basic 2 ⟨3⟩, .createBlock .basic 3 ⟨3⟩, .newBlock .basic 4]
    let late : List Call := [.newBlock .entry 0, .createBlock .basic 1 ⟨18446744073709551614⟩]
    ((ofCalls early).graph.ids = [last, ⟨0⟩, ⟨3⟩, ⟨1⟩] ∧
      (ofCalls early).graph.blocks.length < UInt64.size ∧
      ((ofCalls early).newBlock .basic 5).1 = ⟨2⟩ ∧ ⟨2⟩ ∉ (ofCalls early).graph.ids ∧
      ∀ x : BlockId, x.val < 2 → x ∈ (ofCalls early).graph.ids) ∧
    (ofCalls late).graph.blocks.length < UInt64.size ∧
      ((ofCalls late).newBlock .basic 2).1.val.toNat = 18446744073709551614 + 1 ∧
    ((ofCalls []).newBlock .entry 0).1 = ⟨0⟩ := by
  intro last early late
  have hids : (ofCalls early).graph.ids = [last, ⟨0⟩, ⟨3⟩, ⟨1⟩] := by decide +kernel
  have hroom : (ofCalls early).graph.blocks.length < UInt64.size := by decide +kernel
  have hid : ((ofCalls early).newBlock .basic 5).1 = ⟨2⟩ := by decide +kernel
  have hroom' : (ofCalls late).graph.blocks.length < UInt64.size := by decide +kernel
  have hmax : ∀ x ∈ (ofCalls early).graph.ids, x.val ≤ last.val := by rw [hids]; decide
  have hmax' : ∀ x ∈ (ofCalls late).graph.ids, x.val ≤ 18446744073709551614 := by decide +kernel
  obtain ⟨hfresh, -, -, hlast⟩ := newBlock_id_fresh early .basic 5 hroom
  obtain ⟨-, -, -, hlast'⟩ := newBlock_id_fresh late .basic 2 hroom'
  obtain ⟨-, -, hzero, -⟩ := newBlock_id_fresh [] .entry 0 (by decide)
  rw [hid] at hfresh hlast
  exact ⟨⟨hids, hroom, hid, hfresh, (hlast last (by rw [hids]; decide) hmax).2 rfl⟩, hroom',
    (hlast' ⟨18446744073709551614⟩ (by decide +kernel) hmax').1 (by decide), hzero rfl⟩

end Builder

end TypeFlow
