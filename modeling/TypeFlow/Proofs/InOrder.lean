import TypeFlow.Editor.Catalogue
import TypeFlow.Proofs.Traversal

/-!
Editing a program in source order.

An editor that changes leaves only is asked once for every leaf, line after line, and each time in
the state that the leaf before has left it in. The first failure ends it. What comes back is the
program as it was, its lines, lists, branches and tests, with each answer in the place of its leaf.
Which hook is asked depends on the kind of the leaf; a log kept by the hooks shows that it is the
right one.
-/

namespace TypeFlow

/-! ### Calls one after the other -/

namespace EStateM

variable {ε σ α β : Type} {f : α → EStateM ε σ β} {s t : σ} {as : List α} {bs : List β} {e : ε}

/-- Called for `as` one after the other from the state `s` on, `f` succeeds each time; the answers
are `bs`, and the state is `t` at the end. -/
inductive Calls (f : α → EStateM ε σ β) : σ → List α → List β → σ → Prop
  | nil (s : σ) : Calls f s [] [] s
  | cons {s t u : σ} {a : α} {as : List α} {b : β} {bs : List β} (h : f a s = .ok b t)
    (hs : Calls f t as bs u) : Calls f s (a :: as) (b :: bs) u

lemma Calls.length_eq (h : Calls f s as bs t) : bs.length = as.length := by
  induction h with
  | nil s => rfl
  | cons _ _ ih => rw [List.length_cons, List.length_cons, ih]

lemma mapM_eq_ok_iff : as.mapM f s = .ok bs t ↔ Calls f s as bs t := by
  constructor
  · intro h
    induction as generalizing s bs with
    | nil =>
      cases h
      exact .nil _
    | cons a as ih =>
      rw [List.mapM_cons] at h
      obtain ⟨b, u, ha, h⟩ := bind_eq_ok h
      obtain ⟨bs, v, has, hdone⟩ := bind_eq_ok h
      cases hdone
      exact .cons ha (ih has)
  · intro h
    induction h with
    | nil s => rfl
    | cons ha _ ih =>
      rw [List.mapM_cons, bind_of_ok ha, bind_of_ok ih]
      rfl

/-- The calls end with the first one that fails, in the state that it leaves. -/
lemma mapM_eq_error_iff : as.mapM f s = .error e t ↔
    ∃ done a rest bs u, as = done ++ a :: rest ∧ Calls f s done bs u ∧ f a u = .error e t := by
  constructor
  · intro h
    induction as generalizing s with
    | nil => cases h
    | cons a as ih =>
      rw [List.mapM_cons] at h
      rcases bind_eq_error h with ha | ⟨b, u, ha, h⟩
      · exact ⟨[], a, as, [], s, rfl, .nil s, ha⟩
      · rcases bind_eq_error h with has | ⟨bs, v, -, hdone⟩
        · obtain ⟨done, k, rest, bs, v, rfl, hdone, hk⟩ := ih has
          exact ⟨a :: done, k, rest, b :: bs, v, rfl, .cons ha hdone, hk⟩
        · cases hdone
  · -- what is left of the list plays no part
    rintro ⟨done, a, rest, bs, u, rfl, hdone, ha⟩
    rw [List.mapM_append, bind_of_ok (mapM_eq_ok_iff.mpr hdone), List.mapM_cons]
    exact bind_of_error (bind_of_error ha)

end EStateM

/-! ### Leaves and their replacements -/

namespace Stmt

mutual

/-- The second statement is the first one with its leaves replaced, in source order, by those in
between. Lists keep their length, and conditionals their test and their branches. -/
inductive Filled : Stmt → List Stmt → Stmt → Prop
  | leaf (l : Leaf) (r : Stmt) : Filled (.leaf l) [r] r
  | list {body rs body' : List Stmt} (h : FilledAll body rs body') :
    Filled (.list body) rs (.list body')
  | ifElse {c : Expr} {t f rs rs' t' f' : List Stmt} (ht : FilledAll t rs t')
    (hf : FilledAll f rs' f') : Filled (.ifElse c t f) (rs ++ rs') (.ifElse c t' f')

inductive FilledAll : List Stmt → List Stmt → List Stmt → Prop
  | nil : FilledAll [] [] []
  | cons {s s' : Stmt} {ss rs rs' ss' : List Stmt} (h : Filled s rs s')
    (hs : FilledAll ss rs' ss') : FilledAll (s :: ss) (rs ++ rs') (s' :: ss')

end

mutual

lemma filled_refill (s : Stmt) {rs : List Stmt} (h : rs.length = s.leaves.length) :
    s.Filled rs (s.refill rs) := by
  match s with
  | .leaf l =>
    obtain ⟨r, rfl⟩ := List.length_eq_one_iff.mp h
    exact .leaf l r
  | .list body => exact .list (filledAll_refillAll body h)
  | .ifElse c t f =>
    rw [leaves, List.length_append] at h
    obtain ⟨rt, rf, rfl, ht, hf⟩ := exists_append_of_length h
    rw [refill_ifElse ht]
    exact .ifElse (filledAll_refillAll t ht) (filledAll_refillAll f hf)

lemma filledAll_refillAll (ss : List Stmt) {rs : List Stmt}
    (h : rs.length = (leavesOf ss).length) : FilledAll ss rs (refillAll ss rs) := by
  match ss with
  | [] =>
    obtain rfl := List.length_eq_zero_iff.mp h
    exact .nil
  | s :: ss =>
    rw [leavesOf, List.length_append] at h
    obtain ⟨r, rs, rfl, hs, hss⟩ := exists_append_of_length h
    rw [refillAll_cons hs]
    exact .cons (filled_refill s hs) (filledAll_refillAll ss hss)

end

mutual

lemma Filled.eq_refill {s s' : Stmt} {rs : List Stmt} (h : s.Filled rs s') :
    rs.length = s.leaves.length ∧ s' = s.refill rs := by
  match h with
  | .leaf l r => exact ⟨rfl, rfl⟩
  | .list h =>
    obtain ⟨hlen, rfl⟩ := h.eq_refillAll
    exact ⟨hlen, rfl⟩
  | .ifElse ht hf =>
    obtain ⟨htlen, rfl⟩ := ht.eq_refillAll
    obtain ⟨hflen, rfl⟩ := hf.eq_refillAll
    exact ⟨by rw [leaves, List.length_append, List.length_append, htlen, hflen],
      (refill_ifElse htlen).symm⟩

lemma FilledAll.eq_refillAll {ss rs ss' : List Stmt} (h : FilledAll ss rs ss') :
    rs.length = (leavesOf ss).length ∧ ss' = refillAll ss rs := by
  match h with
  | .nil => exact ⟨rfl, rfl⟩
  | .cons h hs =>
    obtain ⟨hlen, rfl⟩ := h.eq_refill
    obtain ⟨hslen, rfl⟩ := hs.eq_refillAll
    exact ⟨by rw [leavesOf, List.length_append, List.length_append, hlen, hslen],
      (refillAll_cons hlen).symm⟩

end

mutual

lemma filled_self (s : Stmt) : s.Filled (s.leaves.map .leaf) s := by
  match s with
  | .leaf l => exact .leaf l (.leaf l)
  | .list body => exact .list (filledAll_self body)
  | .ifElse c t f =>
    rw [leaves, List.map_append]
    exact .ifElse (filledAll_self t) (filledAll_self f)

lemma filledAll_self (ss : List Stmt) : FilledAll ss ((leavesOf ss).map .leaf) ss := by
  match ss with
  | [] => exact .nil
  | s :: ss =>
    rw [leavesOf, List.map_append]
    exact .cons (filled_self s) (filledAll_self ss)

end

end Stmt

namespace Line

def leavesOf : List Line → List Leaf
  | [] => []
  | l :: ls => Stmt.leavesOf l.stmts ++ leavesOf ls

def refillAll : List Line → List Stmt → List Line
  | [], _ => []
  | l :: ls, rs =>
    ⟨Stmt.refillAll l.stmts (rs.take (Stmt.leavesOf l.stmts).length)⟩ ::
      refillAll ls (rs.drop (Stmt.leavesOf l.stmts).length)

inductive FilledAll : List Line → List Stmt → List Line → Prop
  | nil : FilledAll [] [] []
  | cons {l l' : Line} {ls ls' : List Line} {rs rs' : List Stmt}
    (h : Stmt.FilledAll l.stmts rs l'.stmts) (hs : FilledAll ls rs' ls') :
    FilledAll (l :: ls) (rs ++ rs') (l' :: ls')

lemma refillAll_cons {l : Line} {ls : List Line} {rs rs' : List Stmt}
    (h : rs.length = (Stmt.leavesOf l.stmts).length) :
    refillAll (l :: ls) (rs ++ rs') = ⟨Stmt.refillAll l.stmts rs⟩ :: refillAll ls rs' := by
  rw [refillAll, List.take_left' h, List.drop_left' h]

lemma filledAll_iff {ls ls' : List Line} {rs : List Stmt} :
    FilledAll ls rs ls' ↔ rs.length = (leavesOf ls).length ∧ ls' = refillAll ls rs := by
  constructor
  · intro h
    induction h with
    | nil => exact ⟨rfl, rfl⟩
    | cons h _ ih =>
      obtain ⟨hlen, hl⟩ := h.eq_refillAll
      obtain ⟨hslen, rfl⟩ := ih
      rw [refillAll_cons hlen, ← hl]
      exact ⟨by rw [leavesOf, List.length_append, List.length_append, hlen, hslen], rfl⟩
  · rintro ⟨h, rfl⟩
    induction ls generalizing rs with
    | nil =>
      obtain rfl := List.length_eq_zero_iff.mp h
      exact .nil
    | cons l ls ih =>
      rw [leavesOf, List.length_append] at h
      obtain ⟨r, rs, rfl, hl, hls⟩ := Stmt.exists_append_of_length h
      rw [refillAll_cons hl]
      exact .cons (Stmt.filledAll_refillAll l.stmts hl) (ih hls)

lemma filledAll_self (ls : List Line) : FilledAll ls ((leavesOf ls).map .leaf) ls := by
  induction ls with
  | nil => exact .nil
  | cons l ls ih =>
    rw [leavesOf, List.map_append]
    exact .cons (Stmt.filledAll_self l.stmts) ih

end Line

def Leaf.marker? : Leaf → Option Marker
  | .marker k => some k
  | _ => none

namespace Program

def leaves (p : Program) : List Leaf := Line.leavesOf p.lines

def refill (p : Program) (rs : List Stmt) : Program := ⟨Line.refillAll p.lines rs⟩

/-- The program `q` is `p` with its leaves replaced by `rs` in source order, and with nothing else
changed. -/
def Filled (p : Program) (rs : List Stmt) (q : Program) : Prop := Line.FilledAll p.lines rs q.lines

lemma filled_iff {p q : Program} {rs : List Stmt} :
    p.Filled rs q ↔ rs.length = p.leaves.length ∧ q = p.refill rs := by
  cases q
  simp only [Filled, Line.filledAll_iff, leaves, refill, Program.mk.injEq]

lemma refill_leaves (p : Program) : p.refill (p.leaves.map .leaf) = p :=
  (filled_iff.mp (Line.filledAll_self p.lines)).2.symm

end Program

/-! ### Editors of leaves -/

namespace Editor

section

variable {m : Type → Type} [Monad m] [LawfulMonad m] (hooks : LeafHooks m)

lemma editLine_ofHooks (l : Line) :
    (ofHooks hooks).editLine l =
      (Stmt.leavesOf l.stmts).mapM hooks.onLeaf >>= fun rs =>
        pure ⟨Stmt.refillAll l.stmts rs⟩ := by
  simp only [editLine, editStmts_ofHooks, bind_assoc, pure_bind]
  rfl

theorem editProgram_ofHooks (p : Program) :
    (ofHooks hooks).editProgram p =
      p.leaves.mapM hooks.onLeaf >>= fun rs => pure (p.refill rs) := by
  have hlines (ls : List Line) : ls.mapM (ofHooks hooks).editLine =
      (Line.leavesOf ls).mapM hooks.onLeaf >>= fun rs => pure (Line.refillAll ls rs) := by
    induction ls with
    | nil => simp [Line.leavesOf, Line.refillAll]
    | cons l ls ih =>
      rw [List.mapM_cons, ih, editLine_ofHooks, Line.leavesOf, List.mapM_append]
      simp only [bind_assoc, pure_bind]
      -- the line has as many answers as leaves, so the rest of them is for the other lines
      refine mapM_bind_congr hooks.onLeaf _ fun rs hrs => ?_
      congr 1
      funext rs'
      rw [Line.refillAll_cons hrs]
  rw [editProgram, hlines, bind_assoc]
  simp only [pure_bind]
  rfl

end

/-- An editor that keeps every leaf keeps the program. -/
lemma editProgram_ofLeaf_keep {m : Type → Type} [Monad m] [LawfulMonad m] (p : Program) :
    (ofLeaf fun l => (pure (.leaf l) : m Stmt)).editProgram p = pure p := by
  rw [ofLeaf, editProgram_ofHooks, LeafHooks.onLeaf_ofLeaf, List.mapM_pure, pure_bind,
    Program.refill_leaves]

section

variable {ε σ : Type} {hooks : LeafHooks (EStateM ε σ)} {p q : Program} {s t : σ} {e : ε}

lemma editProgram_eq_ok_iff : (ofHooks hooks).editProgram p s = .ok q t ↔
    ∃ rs, EStateM.Calls hooks.onLeaf s p.leaves rs t ∧ p.Filled rs q := by
  rw [editProgram_ofHooks]
  constructor
  · intro h
    obtain ⟨rs, u, hrs, hdone⟩ := EStateM.bind_eq_ok h
    cases hdone
    have hcalls := EStateM.mapM_eq_ok_iff.mp hrs
    exact ⟨rs, hcalls, Program.filled_iff.mpr ⟨hcalls.length_eq, rfl⟩⟩
  · rintro ⟨rs, hcalls, hq⟩
    obtain ⟨-, rfl⟩ := Program.filled_iff.mp hq
    rw [EStateM.bind_of_ok (EStateM.mapM_eq_ok_iff.mpr hcalls)]
    rfl

lemma editProgram_eq_error_iff : (ofHooks hooks).editProgram p s = .error e t ↔
    ∃ done l rest rs u, p.leaves = done ++ l :: rest ∧
      EStateM.Calls hooks.onLeaf s done rs u ∧ hooks.onLeaf l u = .error e t := by
  rw [editProgram_ofHooks, ← EStateM.mapM_eq_error_iff]
  constructor
  · intro h
    rcases EStateM.bind_eq_error h with hls | ⟨rs, u, -, hdone⟩
    · exact hls
    · cases hdone
  · exact EStateM.bind_of_error

end

end Editor

/-! ### A log of what the hooks are handed -/

section Log

variable {m : Type → Type} [Monad m] {α : Type}

/-- Does `x`, having noted that `l` is what it is done for. -/
def noting (l : Leaf) (x : m α) : StateT (List Leaf) m α := do
  modify (· ++ [l])
  x

/-- Every hook keeps the log itself, under the kind of leaf that it is for. -/
def LeafHooks.logged (hooks : LeafHooks m) : LeafHooks (StateT (List Leaf) m) where
  empty := noting .empty hooks.empty
  assign a := noting (.assign a) (hooks.assign a)
  typed a := noting (.typed a) (hooks.typed a)
  compound a := noting (.compound a) (hooks.compound a)
  eval e := noting (.eval e) (hooks.eval e)
  goto e := noting (.goto e) (hooks.goto e)
  marker k := noting (.marker k) (hooks.marker k)

variable [LawfulMonad m]

lemma run_noting (l : Leaf) (x : m α) (log : List Leaf) :
    (noting l x).run log = x >>= fun a => pure (a, log ++ [l]) := by
  simp [noting]

variable (hooks : LeafHooks m)

/-- A leaf is noted as what it is, so it has come to the hook for its kind. -/
lemma LeafHooks.onLeaf_logged (l : Leaf) (log : List Leaf) :
    (hooks.logged.onLeaf l).run log = hooks.onLeaf l >>= fun r => pure (r, log ++ [l]) := by
  cases l <;> exact run_noting _ _ log

lemma LeafHooks.mapM_logged (ls log : List Leaf) :
    (ls.mapM hooks.logged.onLeaf).run log =
      ls.mapM hooks.onLeaf >>= fun rs => pure (rs, log ++ ls) := by
  induction ls generalizing log with
  | nil => simp
  | cons l ls ih => simp [onLeaf_logged, ih]

namespace Editor

/-- The log holds the leaves in source order, whatever the hooks make of them, and keeping it
changes nothing. -/
lemma editStmts_logged (ss : List Stmt) (log : List Leaf) :
    ((ofHooks hooks.logged).editStmts ss).run log =
      (ofHooks hooks).editStmts ss >>= fun ss' => pure (ss', log ++ Stmt.leavesOf ss) := by
  rw [editStmts_ofHooks, editStmts_ofHooks, StateT.run_bind, hooks.mapM_logged]
  simp

lemma editProgram_logged (p : Program) (log : List Leaf) :
    ((ofHooks hooks.logged).editProgram p).run log =
      (ofHooks hooks).editProgram p >>= fun q => pure (q, log ++ p.leaves) := by
  rw [editProgram_ofHooks, editProgram_ofHooks, StateT.run_bind, hooks.mapM_logged]
  simp

end Editor

end Log

/-! ### No rules at all -/

namespace Editor

lemma mapM_keep (ls : List Leaf) :
    (ls.mapM Leaf.keep : Except Error (List Stmt)) =
      match ls.findSome? Leaf.marker? with
      | none => .ok (ls.map .leaf)
      | some k => .error (.unhandledMarker k.kindName) := by
  induction ls with
  | nil => rfl
  | cons l ls ih =>
    rw [List.mapM_cons, List.findSome?_cons]
    cases l with
    | marker k =>
      -- refused, whatever comes after it
      rfl
    | _ =>
      rw [ih]
      cases ls.findSome? Leaf.marker? <;> rfl

lemma editProgram_strict (p : Program) :
    strict.editProgram p =
      match p.leaves.findSome? Leaf.marker? with
      | none => .ok p
      | some k => .error (.unhandledMarker k.kindName) := by
  rw [strict, editProgram_ofHooks, LeafHooks.keep, LeafHooks.onLeaf_ofLeaf, mapM_keep]
  cases p.leaves.findSome? Leaf.marker? with
  | none => exact congrArg Except.ok p.refill_leaves
  | some k => rfl

/-- **Editing in source order**: an editor of leaves, with any state and any failures, is called
once for each leaf of a program in source order, and each call finds the state that the one before
has left. If all of them succeed, the program comes back with its lines, lists, branches and tests
as they were and each leaf replaced by the answer; if one fails, it is the last. The editor without
rules gives back a program without markers, and is stopped by the first marker of any other. The
same holds with a hook for each kind of leaf, and what the hooks note themselves about what they
are handed is the leaves in source order. -/
theorem editProgram_in_order {ε σ : Type} (f : Leaf → EStateM ε σ Stmt) (p : Program) (s : σ) :
    (∀ q t, (ofLeaf f).editProgram p s = .ok q t ↔
      ∃ rs, EStateM.Calls f s p.leaves rs t ∧ p.Filled rs q) ∧
    (∀ e t, (ofLeaf f).editProgram p s = .error e t ↔
      ∃ done l rest rs u, p.leaves = done ++ l :: rest ∧ EStateM.Calls f s done rs u ∧
        f l u = .error e t) ∧
    (strict.editProgram p = match p.leaves.findSome? Leaf.marker? with
      | none => .ok p
      | some k => .error (.unhandledMarker k.kindName)) ∧
    ∀ hooks : LeafHooks (EStateM ε σ),
      (∀ q t, (ofHooks hooks).editProgram p s = .ok q t ↔
        ∃ rs, EStateM.Calls hooks.onLeaf s p.leaves rs t ∧ p.Filled rs q) ∧
      (∀ e t, (ofHooks hooks).editProgram p s = .error e t ↔
        ∃ done l rest rs u, p.leaves = done ++ l :: rest ∧
          EStateM.Calls hooks.onLeaf s done rs u ∧ hooks.onLeaf l u = .error e t) ∧
      ((ofHooks hooks.logged).editProgram p).run [] =
        (ofHooks hooks).editProgram p >>= fun q => pure (q, p.leaves) := by
  have hf : (LeafHooks.ofLeaf f).onLeaf = f := LeafHooks.onLeaf_ofLeaf f
  refine ⟨fun q t => ?_, fun e t => ?_, editProgram_strict p, fun hooks => ?_⟩
  · rw [ofLeaf, editProgram_eq_ok_iff, hf]
  · rw [ofLeaf, editProgram_eq_error_iff, hf]
  · exact ⟨fun _ _ => editProgram_eq_ok_iff, fun _ _ => editProgram_eq_error_iff,
      editProgram_logged hooks p []⟩

/-- Assignments are numbered and a jump becomes an empty list, but no jump may come after the
number two. The program has an empty line, and its third line is not reached if the numbers start
with one. -/
theorem editProgram_in_order_nested :
    let number : Leaf → EStateM String ℕ Stmt := fun l n =>
      match l with
      | .assign a => .ok (.leaf (.assign { a with target := a.target ++ n.repr })) (n + 1)
      | .goto _ => if n ≤ 2 then .ok (.list []) n else .error "late jump" n
      | l => .ok (.leaf l) n
    let p : Program := ⟨[⟨[.ifElse (.var "c") [.leaf (.assign ⟨"x", .var "k"⟩)]
        [.list [.leaf (.assign ⟨"y", .var "k"⟩), .leaf (.goto (.var "k"))]]]⟩, ⟨[]⟩,
      ⟨[.leaf (.assign ⟨"z", .var "k"⟩), .leaf (.marker (.conditional (.var "c")))]⟩]⟩
    let q : Program := ⟨[⟨[.ifElse (.var "c") [.leaf (.assign ⟨"x0", .var "k"⟩)]
        [.list [.leaf (.assign ⟨"y1", .var "k"⟩), .list []]]]⟩, ⟨[]⟩,
      ⟨[.leaf (.assign ⟨"z2", .var "k"⟩), .leaf (.marker (.conditional (.var "c")))]⟩]⟩
    (ofLeaf number).editProgram p 0 = .ok q 3 ∧
      (∃ rs, EStateM.Calls number 0 p.leaves rs 3 ∧ p.Filled rs q) ∧
      (ofLeaf number).editProgram p 1 = .error "late jump" 3 ∧
      (∃ done l rest rs u, p.leaves = done ++ l :: rest ∧ EStateM.Calls number 1 done rs u ∧
        number l u = .error "late jump" 3) ∧
      strict.editProgram p = .error (.unhandledMarker "conditional") ∧
      ((ofHooks (LeafHooks.ofLeaf number).logged).editProgram p).run [] 0 =
        .ok (q, p.leaves) 3 := by
  intro number p q
  have hok : (ofLeaf number).editProgram p 0 = .ok q 3 := by rfl
  have herror : (ofLeaf number).editProgram p 1 = .error "late jump" 3 := by rfl
  obtain ⟨hcalls, -, -, hhooks⟩ := editProgram_in_order number p 0
  obtain ⟨-, hstop, hstrict, -⟩ := editProgram_in_order number p 1
  have hlog := congrFun (hhooks (.ofLeaf number)).2.2 0
  exact ⟨hok, (hcalls q 3).mp hok, herror, (hstop _ _).mp herror, hstrict,
    hlog.trans (EStateM.bind_of_ok hok)⟩

end Editor

end TypeFlow
