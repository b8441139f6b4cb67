import TypeFlow.Proofs.InOrder
import TypeFlow.Proofs.Unreachable

/-!
Every block is edited on its own.

The editor of a block starts afresh, whatever came of the blocks before. So what becomes of a block
is settled by its own statements: it makes no difference to the others whether it is left out before
or after, and if blocks cannot be edited, the first of them gives the error.
-/

namespace TypeFlow

/-! ### Lists gone through until a failure -/

namespace Except

variable {ε α β : Type} {f : α → Except ε β} {as : List α} {bs : List β} {e : ε}

lemma bind_eq_error {x : Except ε α} {e : ε} (h : (x >>= f) = .error e) :
    x = .error e ∨ ∃ a, x = .ok a ∧ f a = .error e := by
  cases x with
  | error e' =>
    cases h
    exact .inl rfl
  | ok a => exact .inr ⟨a, rfl, h⟩

lemma mapM_eq_ok_iff : as.mapM f = .ok bs ↔ List.Forall₂ (fun a b => f a = .ok b) as bs := by
  constructor
  · intro h
    induction as generalizing bs with
    | nil =>
      cases h
      exact .nil
    | cons a as ih =>
      rw [List.mapM_cons] at h
      obtain ⟨b, ha, h⟩ := bind_eq_ok h
      obtain ⟨bs, has, hdone⟩ := bind_eq_ok h
      cases hdone
      exact .cons ha (ih has)
  · intro h
    induction h with
    | nil => rfl
    | cons ha _ ih =>
      rw [List.mapM_cons, ha, ih]
      rfl

lemma mapM_eq_error_iff : as.mapM f = .error e ↔
    ∃ before a after, as = before ++ a :: after ∧ (∀ k ∈ before, ∃ b, f k = .ok b) ∧
      f a = .error e := by
  constructor
  · intro h
    induction as with
    | nil => cases h
    | cons a as ih =>
      rw [List.mapM_cons] at h
      rcases bind_eq_error h with ha | ⟨b, ha, h⟩
      · exact ⟨[], a, as, rfl, by simp, ha⟩
      · rcases bind_eq_error h with has | ⟨bs, -, hdone⟩
        · obtain ⟨before, k, after, rfl, hbefore, hk⟩ := ih has
          exact ⟨a :: before, k, after, rfl, List.forall_mem_cons.mpr ⟨⟨b, ha⟩, hbefore⟩, hk⟩
        · cases hdone
  · rintro ⟨before, a, after, rfl, hbefore, ha⟩
    induction before with
    | nil =>
      rw [List.nil_append, List.mapM_cons, ha]
      rfl
    | cons k before ih =>
      obtain ⟨⟨b, hk⟩, hbefore⟩ := List.forall_mem_cons.mp hbefore
      rw [List.cons_append, List.mapM_cons, hk, ih hbefore]
      rfl

end Except

namespace EStateM

variable {ε ρ α β : Type} {f : α → EStateM ε ρ β} {f' : α → Except ε β} {next : ρ → ρ}

/-- What comes of a call has nothing to do with the state, and every call moves the state on. -/
def Steady (f : α → EStateM ε ρ β) (f' : α → Except ε β) (next : ρ → ρ) : Prop :=
  ∀ a r, f a r = match f' a with
    | .ok b => .ok b (next r)
    | .error e => .error e (next r)

lemma Steady.of_ok (hf : Steady f f' next) {a : α} {b : β} (h : f' a = .ok b) (r : ρ) :
    f a r = .ok b (next r) := by
  rw [hf, h]

lemma Steady.of_error (hf : Steady f f' next) {a : α} {e : ε} (h : f' a = .error e) (r : ρ) :
    f a r = .error e (next r) := by
  rw [hf, h]

lemma Steady.mapM_of_ok (hf : Steady f f' next) {as : List α} {bs : List β}
    (h : as.mapM f' = .ok bs) (r : ρ) : as.mapM f r = .ok bs (next^[as.length] r) := by
  have hall := Except.mapM_eq_ok_iff.mp h
  clear h
  induction hall generalizing r with
  | nil => rfl
  | cons ha _ ih =>
    rw [List.mapM_cons, bind_of_ok (hf.of_ok ha r), bind_of_ok (ih (next r))]
    rfl

/-- The call that fails is counted as well. -/
lemma Steady.mapM_of_error (hf : Steady f f' next) {before : List α} {a : α} {e : ε}
    (hbefore : ∀ k ∈ before, ∃ b, f' k = .ok b) (ha : f' a = .error e) (after : List α) (r : ρ) :
    (before ++ a :: after).mapM f r = .error e (next^[before.length + 1] r) := by
  induction before generalizing r with
  | nil =>
    rw [List.nil_append, List.mapM_cons]
    exact bind_of_error (hf.of_error ha r)
  | cons k before ih =>
    obtain ⟨⟨b, hk⟩, hbefore⟩ := List.forall_mem_cons.mp hbefore
    rw [List.cons_append, List.mapM_cons, bind_of_ok (hf.of_ok hk r)]
    exact bind_of_error (ih hbefore (next r))

end EStateM

/-! ### One block -/

namespace Block

variable {edit : Program → Except Error Program} {b b' : Block} {e : Error}

/-- The statements of the first block, edited as a program of one line, are those of the second.
Otherwise the two blocks are the same. -/
def Becomes (edit : Program → Except Error Program) (b b' : Block) : Prop :=
  ∃ ss, edit (.ofStmts b.stmts) = .ok (.ofStmts ss) ∧ b' = { b with stmts := ss }

/-- The program of one line that the block makes up cannot be edited, or comes back with another
number of lines. -/
inductive Fails (edit : Program → Except Error Program) (b : Block) : Error → Prop
  | refused {e : Error} (h : edit (.ofStmts b.stmts) = .error e) : Fails edit b e
  | malformed {p : Program} (h : edit (.ofStmts b.stmts) = .ok p) (hp : p.lines.length ≠ 1) :
    Fails edit b (.malformedEdit b.id p.lines.length)

/-- The block on its own, edited as a program of one line. -/
def edited (edit : Program → Except Error Program) (b : Block) : Except Error Block := do
  let p ← edit (.ofStmts b.stmts)
  match p.lines with
  | [l] => pure { b with stmts := l.stmts }
  | ls => throw (.malformedEdit b.id ls.length)

lemma Becomes.edited_eq (h : b.Becomes edit b') : b.edited edit = .ok b' := by
  obtain ⟨ss, hedit, rfl⟩ := h
  rw [edited, hedit]
  rfl

lemma Fails.edited_eq (h : b.Fails edit e) : b.edited edit = .error e := by
  cases h with
  | refused h =>
    rw [edited, h]
    rfl
  | @malformed p h hp =>
    rw [edited, h]
    obtain ⟨ls⟩ := p
    match ls with
    | [] => rfl
    | [l] => exact absurd rfl hp
    | _ :: _ :: _ => rfl

lemma becomes_or_fails (edit : Program → Except Error Program) (b : Block) :
    (∃ b', b.Becomes edit b') ∨ ∃ e, b.Fails edit e := by
  cases hedit : edit (.ofStmts b.stmts) with
  | error e => exact .inr ⟨e, .refused hedit⟩
  | ok p =>
    obtain ⟨ls⟩ := p
    match ls with
    | [⟨ss⟩] => exact .inl ⟨{ b with stmts := ss }, ss, hedit, rfl⟩
    | [] => exact .inr ⟨_, .malformed hedit (by simp)⟩
    | _ :: _ :: _ => exact .inr ⟨_, .malformed hedit (by simp)⟩

lemma edited_eq_ok_iff : b.edited edit = .ok b' ↔ b.Becomes edit b' := by
  refine ⟨fun h => ?_, Becomes.edited_eq⟩
  rcases becomes_or_fails edit b with ⟨b₁, hb⟩ | ⟨e, hb⟩
  · cases hb.edited_eq.symm.trans h
    exact hb
  · cases hb.edited_eq.symm.trans h

lemma edited_eq_error_iff : b.edited edit = .error e ↔ b.Fails edit e := by
  refine ⟨fun h => ?_, Fails.edited_eq⟩
  rcases becomes_or_fails edit b with ⟨b₁, hb⟩ | ⟨e₁, hb⟩
  · cases hb.edited_eq.symm.trans h
  · cases hb.edited_eq.symm.trans h
    exact hb

end Block

/-! ### A block and the editor that is made for it -/

section Fresh

variable {ρ σ ε : Type} {make : StateM ρ σ} {init : σ}
  {fold : Program → StateT σ (Except ε) Program} {wrap : ε → Error}

def editFrom (init : σ) (fold : Program → StateT σ (Except ε) Program) (wrap : ε → Error)
    (p : Program) : Except Error Program :=
  ((fold p).run' init).mapError wrap

/-- The block on its own, edited by an editor that is made for it. -/
def Block.editedFresh (make : StateM ρ σ) (fold : Program → StateT σ (Except ε) Program)
    (wrap : ε → Error) (b : Block) : EStateM Error ρ Block := do
  let s ← modifyGet make.run
  MonadExcept.ofExcept (b.edited (editFrom s fold wrap))

lemma Block.steady_editedFresh (hmake : ∀ r, (make.run r).1 = init) :
    EStateM.Steady (Block.editedFresh make fold wrap) (Block.edited (editFrom init fold wrap))
      fun r => (make.run r).2 := by
  intro b r
  change (MonadExcept.ofExcept (b.edited (editFrom (make.run r).1 fold wrap)) :
    EStateM Error ρ Block) (make.run r).2 = _
  rw [hmake]
  cases b.edited (editFrom init fold wrap) with
  | ok b' => rfl
  | error e => rfl

end Fresh

/-! ### All blocks -/

namespace Graph

variable {edit : Program → Except Error Program} {g h : Graph} {e : Error}

lemma editBlocks_eq (g : Graph) (edit : Program → Except Error Program) :
    g.editBlocks edit = g.blocks.mapM (Block.edited edit) >>= fun bs => .ok ⟨bs, g.edges⟩ := by
  rw [editBlocks, modifyBlocks_eq]
  congr 2
  funext b
  unfold Block.edited
  cases edit (.ofStmts b.stmts) with
  | error e => rfl
  | ok p =>
    obtain ⟨ls⟩ := p
    match ls with
    | [] | [_] | _ :: _ :: _ => rfl

lemma editBlocks_eq_ok_iff : g.editBlocks edit = .ok h ↔
    List.Forall₂ (Block.Becomes edit) g.blocks h.blocks ∧ h.edges = g.edges := by
  have hblocks : g.blocks.mapM (Block.edited edit) = .ok h.blocks ↔
      List.Forall₂ (Block.Becomes edit) g.blocks h.blocks := by
    simp only [Except.mapM_eq_ok_iff, Block.edited_eq_ok_iff]
  rw [editBlocks_eq, ← hblocks]
  constructor
  · intro hok
    obtain ⟨bs, hbs, hdone⟩ := Except.bind_eq_ok hok
    cases hdone
    exact ⟨hbs, rfl⟩
  · rintro ⟨hbs, he⟩
    rw [hbs, ← he]
    rfl

lemma editBlocks_eq_error_iff : g.editBlocks edit = .error e ↔
    ∃ before b after, g.blocks = before ++ b :: after ∧
      (∀ k ∈ before, ∃ k', k.Becomes edit k') ∧ b.Fails edit e := by
  simp only [← Block.edited_eq_ok_iff, ← Block.edited_eq_error_iff, ← Except.mapM_eq_error_iff]
  rw [editBlocks_eq]
  constructor
  · intro hfail
    rcases Except.bind_eq_error hfail with hbs | ⟨bs, -, hdone⟩
    · exact hbs
    · cases hdone
  · intro hbs
    rw [hbs]
    rfl

lemma ids_eq_of_becomes {bs bs' : List Block} (h : List.Forall₂ (Block.Becomes edit) bs bs') :
    bs'.map Block.id = bs.map Block.id := by
  induction h with
  | nil => rfl
  | cons hb _ ih =>
    obtain ⟨ss, -, rfl⟩ := hb
    rw [List.map_cons, List.map_cons, ih]

/-- What is left out after the edit could have been left out before it. -/
lemma editBlocks_trimBlocks (keep : BlockId → BlockKind → UInt64 → Bool)
    (hok : g.editBlocks edit = .ok h) :
    (g.trimBlocks fun b => keep b.id b.kind b.line).editBlocks edit =
      .ok (h.trimBlocks fun b => keep b.id b.kind b.line) := by
  obtain ⟨hblocks, hedges⟩ := editBlocks_eq_ok_iff.mp hok
  have hkept : List.Forall₂ (Block.Becomes edit)
      (g.trimBlocks fun b => keep b.id b.kind b.line).blocks
      (h.trimBlocks fun b => keep b.id b.kind b.line).blocks := by
    -- a block and what becomes of it pass the test together
    refine List.rel_filter (fun b b' hb => ?_) hblocks
    obtain ⟨ss, -, rfl⟩ := hb
    rfl
  refine editBlocks_eq_ok_iff.mpr ⟨hkept, ?_⟩
  rw [edges_trimBlocks, edges_trimBlocks, hedges, ids, ids, ids_eq_of_becomes hkept]

/-! ### Editors made for each block -/

section Fresh

variable {ρ σ ε : Type} {make : StateM ρ σ} {init : σ}
  {fold : Program → StateT σ (Except ε) Program} {wrap : ε → Error}

lemma editBlocksFresh_eq (g : Graph) (make : StateM ρ σ)
    (fold : Program → StateT σ (Except ε) Program) (wrap : ε → Error) :
    g.editBlocksFresh make fold wrap =
      g.blocks.mapM (Block.editedFresh make fold wrap) >>= fun bs => pure ⟨bs, g.edges⟩ := by
  rw [editBlocksFresh, editBlocks, modifyBlocks_eq]
  congr 2
  funext b
  simp only [Block.editedFresh, Block.edited, editFrom, bind_assoc]
  refine bind_congr fun s => ?_
  cases (fold (.ofStmts b.stmts)).run' s with
  | error e => rfl
  | ok p =>
    obtain ⟨ls⟩ := p
    cases ls with
    | nil => rfl
    | cons l ls => cases ls <;> rfl

lemma editBlocksFresh_of_ok (hmake : ∀ r, (make.run r).1 = init)
    (hok : g.editBlocks (editFrom init fold wrap) = .ok h) (r : ρ) :
    g.editBlocksFresh make fold wrap r =
      .ok h ((fun r => (make.run r).2)^[g.blocks.length] r) := by
  rw [editBlocks_eq] at hok
  obtain ⟨bs, hbs, hdone⟩ := Except.bind_eq_ok hok
  cases hdone
  rw [editBlocksFresh_eq, EStateM.bind_of_ok ((Block.steady_editedFresh hmake).mapM_of_ok hbs r)]
  rfl

/-- The editor of the block that fails has been made, and none after it. -/
lemma editBlocksFresh_of_fails (hmake : ∀ r, (make.run r).1 = init) {before after : List Block}
    {b : Block} (hsplit : g.blocks = before ++ b :: after)
    (hbefore : ∀ k ∈ before, ∃ k', k.Becomes (editFrom init fold wrap) k')
    (hb : b.Fails (editFrom init fold wrap) e) (r : ρ) :
    g.editBlocksFresh make fold wrap r =
      .error e ((fun r => (make.run r).2)^[before.length + 1] r) := by
  have hfail := (Block.steady_editedFresh hmake).mapM_of_error
    (fun k hk => (hbefore k hk).imp fun _ => Block.Becomes.edited_eq) hb.edited_eq after r
  rw [editBlocksFresh_eq, hsplit]
  exact EStateM.bind_of_error hfail

/-- What is found for each block is what would be found for it alone. -/
lemma editBlocksFresh_eq_ok_iff (hmake : ∀ r, (make.run r).1 = init) {r r' : ρ} :
    g.editBlocksFresh make fold wrap r = .ok h r' ↔
      g.editBlocks (editFrom init fold wrap) = .ok h ∧
        r' = (fun r => (make.run r).2)^[g.blocks.length] r := by
  constructor
  · intro hok
    cases hedit : g.editBlocks (editFrom init fold wrap) with
    | ok k =>
      cases hok.symm.trans (editBlocksFresh_of_ok hmake hedit r)
      exact ⟨rfl, rfl⟩
    | error err =>
      obtain ⟨before, b, after, hsplit, hbefore, hb⟩ := editBlocks_eq_error_iff.mp hedit
      cases hok.symm.trans (editBlocksFresh_of_fails hmake hsplit hbefore hb r)
  · rintro ⟨hedit, rfl⟩
    exact editBlocksFresh_of_ok hmake hedit r

lemma editBlocksFresh_eq_error_iff (hmake : ∀ r, (make.run r).1 = init) {r r' : ρ} :
    g.editBlocksFresh make fold wrap r = .error e r' ↔
      ∃ before b after, g.blocks = before ++ b :: after ∧
        (∀ k ∈ before, ∃ k', k.Becomes (editFrom init fold wrap) k') ∧
        b.Fails (editFrom init fold wrap) e ∧
        r' = (fun r => (make.run r).2)^[before.length + 1] r := by
  constructor
  · intro hfail
    cases hedit : g.editBlocks (editFrom init fold wrap) with
    | ok k => cases hfail.symm.trans (editBlocksFresh_of_ok hmake hedit r)
    | error err =>
      obtain ⟨before, b, after, hsplit, hbefore, hb⟩ := editBlocks_eq_error_iff.mp hedit
      cases hfail.symm.trans (editBlocksFresh_of_fails hmake hsplit hbefore hb r)
      exact ⟨before, b, after, hsplit, hbefore, hb, rfl⟩
  · rintro ⟨before, b, after, hsplit, hbefore, hb, rfl⟩
    exact editBlocksFresh_of_fails hmake hsplit hbefore hb r

end Fresh

/-- **Every block on its own**: an editor with a state of any kind is made anew for each block, and
starts with the same state each time. If the edit succeeds, then leaving out blocks by their ids,
kinds and lines comes to the same before and after. It succeeds where each block can be edited alone
as a program of one line, and each becomes what it becomes alone; otherwise the error is that of the
first block that cannot, be it that the editor fails or that another number of lines comes back. An
editor is made once for every block up to there. One editor that is set back after each block would
do the same. -/
theorem editBlocks_isolated {ρ σ ε : Type} (g : Graph) (make : StateM ρ σ) (init : σ)
    (hmake : ∀ r, (make.run r).1 = init) (fold : Program → StateT σ (Except ε) Program)
    (wrap : ε → Error) (keep : BlockId → BlockKind → UInt64 → Bool) (r : ρ) :
    let edit (p : Program) : Except Error Program := ((fold p).run' init).mapError wrap
    let edited (g : Graph) := g.editBlocksFresh make fold wrap r
    let made (n : ℕ) : ρ := (fun r => (make.run r).2)^[n] r
    let trim (g : Graph) : Graph := g.trimBlocks fun b => keep b.id b.kind b.line
    (∀ h r', edited g = .ok h r' → edited (trim g) = .ok (trim h) (made (trim g).blocks.length)) ∧
      (∀ h r', edited g = .ok h r' ↔ List.Forall₂ (Block.Becomes edit) g.blocks h.blocks ∧
        h.edges = g.edges ∧ r' = made g.blocks.length) ∧
      (∀ e r', edited g = .error e r' ↔
        ∃ before b after, g.blocks = before ++ b :: after ∧
          (∀ k ∈ before, ∃ k', k.Becomes edit k') ∧ b.Fails edit e ∧
          r' = made (before.length + 1)) ∧
      ∀ k : Graph, (∀ h, k.editBlocks edit = .ok h ↔ ∃ r', edited k = .ok h r') ∧
        ∀ e, k.editBlocks edit = .error e ↔ ∃ r', edited k = .error e r' := by
  intro edit edited made trim
  refine ⟨fun h r' hok => ?_, fun h r' => ?_, fun e r' => editBlocksFresh_eq_error_iff hmake,
    fun k => ⟨fun h => ?_, fun e => ?_⟩⟩
  · obtain ⟨hedit, -⟩ := (editBlocksFresh_eq_ok_iff hmake).mp hok
    exact editBlocksFresh_of_ok hmake (editBlocks_trimBlocks keep hedit) r
  · rw [← and_assoc, ← editBlocks_eq_ok_iff]
    exact editBlocksFresh_eq_ok_iff hmake
  · constructor
    · intro hedit
      exact ⟨_, editBlocksFresh_of_ok hmake hedit r⟩
    · rintro ⟨r', hok⟩
      exact ((editBlocksFresh_eq_ok_iff hmake).mp hok).1
  · rw [editBlocks_eq_error_iff]
    constructor
    · rintro ⟨before, b, after, hsplit, hbefore, hb⟩
      exact ⟨_, editBlocksFresh_of_fails hmake hsplit hbefore hb r⟩
    · rintro ⟨r', hfail⟩
      obtain ⟨before, b, after, hsplit, hbefore, hb, -⟩ :=
        (editBlocksFresh_eq_error_iff hmake).mp hfail
      exact ⟨before, b, after, hsplit, hbefore, hb⟩

/-- The editor numbers assignments, from zero in every block, and it is counted how many are made. A
block with a marker stops it, and no editor is made for the block after it. -/
theorem editBlocks_isolated_numbered :
    let make : StateM ℕ ℕ := modifyGet fun n => (0, n + 1)
    let edited (g : Graph) := g.editBlocksFresh make Editor.enumerate.editProgram id 0
    let edit (p : Program) : Except Error Program :=
      ((Editor.enumerate.editProgram p).run' 0).mapError id
    let trim (g : Graph) : Graph := g.trimBlocks fun b => b.kind = .entry ∨ b.line = 3
    let x : Stmt := .leaf (.assign ⟨"x", .var "y"⟩)
    let numbered (n : String) : Stmt := .leaf (.assign ⟨"x_" ++ n, .var "y"⟩)
    let loop : List Edge :=
      [⟨⟨5⟩, ⟨2⟩, .fallThrough⟩, ⟨⟨2⟩, ⟨7⟩, .fallThrough⟩, ⟨⟨7⟩, ⟨5⟩, .gotoNumber⟩]
    let g : Graph := ⟨[⟨⟨5⟩, .entry, 1, [x, x]⟩, ⟨⟨2⟩, .basic, 2, [.ifElse (.var "y") [x] [x]]⟩,
      ⟨⟨7⟩, .basic, 3, [.list [x]]⟩], loop⟩
    let h : Graph := ⟨[⟨⟨5⟩, .entry, 1, [numbered "0", numbered "1"]⟩,
      ⟨⟨2⟩, .basic, 2, [.ifElse (.var "y") [numbered "0"] [numbered "1"]]⟩,
      ⟨⟨7⟩, .basic, 3, [.list [numbered "0"]]⟩], loop⟩
    let marked : Block := ⟨⟨9⟩, .exit, 3, [x, .leaf (.marker (.conditional (.var "y")))]⟩
    let g' : Graph := { g with blocks := g.blocks ++ [marked, marked] }
    (∀ n, (make.run n).1 = 0) ∧ edited g = .ok h 3 ∧ edited (trim g) = .ok (trim h) 2 ∧
      (trim h).ids = [⟨5⟩, ⟨7⟩] ∧
      edited g' = .error (.unhandledMarker "conditional") 4 ∧
      ∃ before b after, g'.blocks = before ++ b :: after ∧
        (∀ k ∈ before, ∃ k', k.Becomes edit k') ∧
        b.Fails edit (.unhandledMarker "conditional") := by
  intro make edited edit trim x numbered loop g h marked g'
  have hmake : ∀ n, (make.run n).1 = 0 := fun _ => rfl
  have hok : edited g = .ok h 3 := by rfl
  have hfail : edited g' = .error (.unhandledMarker "conditional") 4 := by rfl
  obtain ⟨htrim, -⟩ := editBlocks_isolated g make 0 hmake Editor.enumerate.editProgram id
    (fun _ kind line => kind = .entry ∨ line = 3) 0
  obtain ⟨-, -, hfirst, -⟩ := editBlocks_isolated g' make 0 hmake Editor.enumerate.editProgram id
    (fun _ _ _ => true) 0
  obtain ⟨before, b, after, hsplit, hbefore, hb, -⟩ := (hfirst _ 4).mp hfail
  exact ⟨hmake, hok, htrim h 3 hok, by decide +kernel, hfail, before, b, after, hsplit, hbefore, hb⟩

end Graph

end TypeFlow
