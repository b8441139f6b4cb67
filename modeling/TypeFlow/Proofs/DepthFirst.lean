import Mathlib.Data.Finset.Card
import Mathlib.Logic.Relation
import TypeFlow.Graph.Order

/-!
Depth-first search by recursion, and the search with a stack against it.

The recursive search marks a block as visited, visits its successors one after the other, and
then leaves the block; a block that is marked already is passed over. The marks are handed on from
one successor to the next. The search with a stack does the same: working off the successors that
a frame has still to try comes to visiting them in turn, whatever frames lie below.
-/

namespace TypeFlow

/-! ### Search by recursion -/

/-- How far a search has come: the blocks it has visited, and those it has left again, in this
order. -/
structure Walk where
  visited : Finset BlockId
  left : List BlockId

namespace Walk

def start : Walk := ⟨∅, []⟩

def enter (w : Walk) (b : BlockId) : Walk := { w with visited := insert b w.visited }

def leave (w : Walk) (b : BlockId) : Walk := { w with left := w.left ++ [b] }

def room (w : Walk) : ℕ := UInt64.size - w.visited.card

lemma card_visited_le (w : Walk) : w.visited.card ≤ UInt64.size := by
  have hmaps : ∀ id ∈ w.visited, id.val.toNat ∈ Finset.range UInt64.size := by
    intro id _
    exact Finset.mem_range.mpr id.val.toNat_lt
  have hinj : Set.InjOn (fun id : BlockId => id.val.toNat) w.visited := by
    rintro ⟨x⟩ _ ⟨y⟩ _ h
    exact congrArg BlockId.mk (UInt64.toNat_inj.mp h)
  simpa using Finset.card_le_card_of_injOn _ hmaps hinj

lemma room_lt {w w' : Walk} {b : BlockId} (hb : b ∉ w.visited)
    (hsub : insert b w.visited ⊆ w'.visited) : w'.room < w.room := by
  have hle := Finset.card_le_card hsub
  have hmax := w'.card_visited_le
  rw [Finset.card_insert_of_notMem hb] at hle
  unfold room
  omega

end Walk

namespace Graph

/-- Visits those of `bs` that have not been visited, one after the other, and loses no mark. -/
def visitFrom (g : Graph) (bs : List BlockId) (w : Walk) :
    {w' : Walk // w.visited ⊆ w'.visited} :=
  match bs with
  | [] => ⟨w, subset_rfl⟩
  | b :: bs =>
    if _hb : b ∈ w.visited then g.visitFrom bs w
    else
      let inner := g.visitFrom (g.successors b) (w.enter b)
      let outer := g.visitFrom bs (inner.1.leave b)
      ⟨outer.1, (Finset.subset_insert b w.visited).trans (inner.2.trans outer.2)⟩
-- each visit takes up one of finitely many ids
termination_by (w.room, bs.length)
decreasing_by
  · exact Prod.Lex.right _ (by simp)
  · exact Prod.Lex.left _ _ (Walk.room_lt _hb subset_rfl)
  · exact Prod.Lex.left _ _ (Walk.room_lt _hb inner.2)

def visitAll (g : Graph) (bs : List BlockId) (w : Walk) : Walk := (g.visitFrom bs w).1

/-- The blocks in the order in which the search from `b` leaves them. -/
def postorder (g : Graph) (b : BlockId) : List BlockId := (g.visitAll [b] .start).left

variable {g : Graph} {w : Walk} {b : BlockId} {bs : List BlockId}

@[simp] lemma visitAll_nil (g : Graph) (w : Walk) : g.visitAll [] w = w := by
  rw [visitAll, visitFrom]

lemma visitAll_of_visited (hb : b ∈ w.visited) : g.visitAll (b :: bs) w = g.visitAll bs w := by
  rw [visitAll, visitFrom, dif_pos hb, visitAll]

lemma visitAll_of_notVisited (hb : b ∉ w.visited) :
    g.visitAll (b :: bs) w =
      g.visitAll bs ((g.visitAll (g.successors b) (w.enter b)).leave b) := by
  rw [visitAll, visitFrom, dif_neg hb, visitAll, visitAll]

/-- Induction along a search: over the blocks that are to be visited, and for a block that is new
over its successors first. -/
@[elab_as_elim]
lemma visit_induction (g : Graph) {motive : List BlockId → Walk → Prop}
    (nil : ∀ w, motive [] w)
    (visited : ∀ b bs w, b ∈ w.visited → motive bs w → motive (b :: bs) w)
    (new : ∀ b bs w, b ∉ w.visited → motive (g.successors b) (w.enter b) →
      motive bs ((g.visitAll (g.successors b) (w.enter b)).leave b) → motive (b :: bs) w)
    (bs : List BlockId) (w : Walk) : motive bs w := by
  induction bs, w using visitFrom.induct g with
  | case1 w => exact nil w
  | case2 w b bs hb ih => exact visited b bs w hb ih
  | case3 w b bs hb inner ihinner _ ihouter => exact new b bs w hb ihinner ihouter

/-! ### Search with a stack -/

section Search

variable {unseen left ss : List BlockId} {stack : List Frame} {s : BlockId}

@[simp] lemma search_nil : g.search unseen [] left = left := by
  rw [search]

@[simp] lemma search_leave :
    g.search unseen ((b, []) :: stack) left = g.search unseen stack (b :: left) := by
  rw [search]

lemma search_enter (hs : s ∈ unseen) :
    g.search unseen ((b, s :: ss) :: stack) left =
      g.search (unseen.erase s) ((s, g.successors s) :: (b, ss) :: stack) left := by
  rw [search, if_pos hs]

lemma search_pass (hs : s ∉ unseen) :
    g.search unseen ((b, s :: ss) :: stack) left = g.search unseen ((b, ss) :: stack) left := by
  rw [search, if_neg hs]

end Search

/-- `unseen` holds the blocks that have not been visited. -/
structure Tracks (g : Graph) (unseen : List BlockId) (w : Walk) : Prop where
  nodup : unseen.Nodup
  mem_iff : ∀ x, x ∈ unseen ↔ x ∈ g.ids ∧ x ∉ w.visited

lemma Tracks.enter {unseen : List BlockId} (h : g.Tracks unseen w) (b : BlockId) :
    g.Tracks (unseen.erase b) (w.enter b) := by
  refine ⟨h.nodup.erase b, fun x => ?_⟩
  rw [h.nodup.mem_erase_iff, h.mem_iff]
  simp only [Walk.enter, Finset.mem_insert, not_or]
  tauto

lemma tracks_start (hg : g.WellFormed) : g.Tracks g.ids .start :=
  ⟨hg.nodup, fun x => by simp [Walk.start]⟩

lemma successor_mem_ids (hg : g.WellFormed) {s : BlockId} (hs : s ∈ g.successors b) :
    s ∈ g.ids := by
  obtain ⟨e, he, rfl⟩ := List.mem_map.mp hs
  exact hg.target_mem e (List.mem_filter.mp he).1

/-- To work off the successors that the top frame has still to try is to visit them in turn. -/
theorem search_eq_visitAll (hg : g.WellFormed) (ss : List BlockId) (w : Walk)
    {unseen : List BlockId} (h : g.Tracks unseen w) (hss : ∀ s ∈ ss, s ∈ g.ids) (b : BlockId)
    (stack : List Frame) :
    ∃ unseen', g.Tracks unseen' (g.visitAll ss w) ∧
      g.search unseen ((b, ss) :: stack) w.left.reverse =
        g.search unseen' ((b, []) :: stack) (g.visitAll ss w).left.reverse := by
  induction ss, w using visit_induction g generalizing unseen b stack with
  | nil w => exact ⟨unseen, by simpa using h, by simp⟩
  | visited s ss w hs ih =>
    have hseen : s ∉ unseen := fun hmem => ((h.mem_iff s).mp hmem).2 hs
    rw [search_pass hseen, visitAll_of_visited hs]
    exact ih h (fun x hx => hss x (List.mem_cons_of_mem s hx)) b stack
  | new s ss w hs ihinner ihouter =>
    have hnew : s ∈ unseen := (h.mem_iff s).mpr ⟨hss s List.mem_cons_self, hs⟩
    rw [search_enter hnew, visitAll_of_notVisited hs]
    -- the frame of `s` is worked off first, with the rest of the stack below it
    obtain ⟨unseen₁, h₁, heq₁⟩ :=
      ihinner (h.enter s) (fun x hx => successor_mem_ids hg hx) s ((b, ss) :: stack)
    -- then `s` is left, and the frame below goes on
    have hleft : g.Tracks unseen₁ ((g.visitAll (g.successors s) (w.enter s)).leave s) :=
      ⟨h₁.nodup, h₁.mem_iff⟩
    obtain ⟨unseen₂, h₂, heq₂⟩ :=
      ihouter hleft (fun x hx => hss x (List.mem_cons_of_mem s hx)) b stack
    refine ⟨unseen₂, h₂, ?_⟩
    calc g.search (unseen.erase s) ((s, g.successors s) :: (b, ss) :: stack) w.left.reverse
        = g.search unseen₁ ((s, []) :: (b, ss) :: stack)
            (g.visitAll (g.successors s) (w.enter s)).left.reverse := heq₁
      _ = g.search unseen₁ ((b, ss) :: stack)
            ((g.visitAll (g.successors s) (w.enter s)).leave s).left.reverse := by
          simp [Walk.leave]
      _ = _ := heq₂

/-- The search with a stack gives the postorder of the recursive search, turned round. -/
theorem reversePostorder_of_entry (hg : g.WellFormed) {k : Block} (hk : g.entry? = some k) :
    g.reversePostorder = (g.postorder k.id).reverse := by
  have hnew : k.id ∉ Walk.start.visited := by simp [Walk.start]
  obtain ⟨unseen, -, heq⟩ := search_eq_visitAll hg (g.successors k.id) (Walk.start.enter k.id)
    ((tracks_start hg).enter k.id) (fun s hs => successor_mem_ids hg hs) k.id []
  calc g.reversePostorder
      = g.search (g.ids.erase k.id) [(k.id, g.successors k.id)] [] := by
        rw [reversePostorder, hk]
    _ = g.search unseen [(k.id, [])]
          (g.visitAll (g.successors k.id) (Walk.start.enter k.id)).left.reverse := heq
    _ = k.id :: (g.visitAll (g.successors k.id) (Walk.start.enter k.id)).left.reverse := by simp
    _ = (g.postorder k.id).reverse := by
        rw [postorder, visitAll_of_notVisited hnew, visitAll_nil]
        simp [Walk.leave]

/-! ### The turns of the loop -/

/-- Where the search with a stack stands between two turns of its loop. -/
structure SearchState where
  unseen : List BlockId
  stack : List Frame
  left : List BlockId

/-- One turn of the loop, which ends once the stack is empty. -/
def turn (g : Graph) : SearchState → Option SearchState
  | ⟨_, [], _⟩ => none
  | ⟨unseen, (b, []) :: stack, left⟩ => some ⟨unseen, stack, b :: left⟩
  | ⟨unseen, (b, s :: ss) :: stack, left⟩ =>
    if s ∈ unseen then some ⟨unseen.erase s, (s, g.successors s) :: (b, ss) :: stack, left⟩
    else some ⟨unseen, (b, ss) :: stack, left⟩

/-- Turn after turn, the loop comes to an end, with the blocks that the search gives. -/
theorem exists_last_turn (g : Graph) (unseen : List BlockId) (stack : List Frame)
    (left : List BlockId) :
    ∃ t, Relation.ReflTransGen (fun s s' => g.turn s = some s') ⟨unseen, stack, left⟩ t ∧
      g.turn t = none ∧ t.left = g.search unseen stack left := by
  fun_induction g.search unseen stack left with
  | case1 unseen left => exact ⟨_, .refl, rfl, rfl⟩
  | case2 unseen left b stack ih =>
    obtain ⟨t, hturns, hend, hleft⟩ := ih
    exact ⟨t, .head rfl hturns, hend, hleft⟩
  | case3 unseen left b s ss stack hs ih =>
    obtain ⟨t, hturns, hend, hleft⟩ := ih
    exact ⟨t, .head (by rw [turn, if_pos hs]) hturns, hend, hleft⟩
  | case4 unseen left b s ss stack hs ih =>
    obtain ⟨t, hturns, hend, hleft⟩ := ih
    exact ⟨t, .head (by rw [turn, if_neg hs]) hturns, hend, hleft⟩

/-- **The stack stands for the recursion**: from the entry of a well-formed graph, the search with
a stack gives the blocks in the order in which the recursive search leaves them, turned round. On
every graph, and from any state, its loop comes to an end. -/
theorem reversePostorder_eq_recursive (g : Graph) :
    (∀ k, g.WellFormed → g.entry? = some k →
      g.reversePostorder = (g.postorder k.id).reverse) ∧
    ∀ s : SearchState, ∃ t, Relation.ReflTransGen (fun s s' => g.turn s = some s') s t ∧
      g.turn t = none ∧ t.left = g.search s.unseen s.stack s.left :=
  ⟨fun _ hg hk => reversePostorder_of_entry hg hk,
    fun s => g.exists_last_turn s.unseen s.stack s.left⟩

/-- Loops, an edge from a block to itself, two edges between the same blocks, and a second entry
that cannot be reached. -/
theorem reversePostorder_eq_recursive_loops :
    let g : Graph := ⟨[⟨⟨5⟩, .entry, 0, []⟩, ⟨⟨2⟩, .basic, 1, []⟩, ⟨⟨9⟩, .basic, 2, []⟩,
        ⟨⟨4⟩, .entry, 3, []⟩],
      [⟨⟨5⟩, ⟨2⟩, .conditionalTrue⟩, ⟨⟨5⟩, ⟨9⟩, .conditionalFalse⟩, ⟨⟨2⟩, ⟨2⟩, .gotoExpr⟩,
        ⟨⟨2⟩, ⟨9⟩, .fallThrough⟩, ⟨⟨5⟩, ⟨2⟩, .runtimeError⟩, ⟨⟨9⟩, ⟨5⟩, .gotoNumber⟩,
        ⟨⟨4⟩, ⟨9⟩, .fallThrough⟩]⟩
    g.WellFormed ∧ g.entry? = some ⟨⟨5⟩, .entry, 0, []⟩ ∧
      g.reversePostorder = [⟨5⟩, ⟨2⟩, ⟨9⟩] ∧ g.postorder ⟨5⟩ = [⟨9⟩, ⟨2⟩, ⟨5⟩] := by
  intro g
  have hg : g.WellFormed := by decide
  have hk : g.entry? = some ⟨⟨5⟩, .entry, 0, []⟩ := by decide +kernel
  have horder : g.reversePostorder = [⟨5⟩, ⟨2⟩, ⟨9⟩] := by decide +kernel
  have heq := (reversePostorder_eq_recursive g).1 _ hg hk
  refine ⟨hg, hk, horder, ?_⟩
  rw [horder] at heq
  exact (List.reverse_eq_iff.mp heq.symm).trans rfl

end Graph

end TypeFlow
