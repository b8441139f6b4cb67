import TypeFlow.Proofs.Seeding
import TypeFlow.Proofs.Visiting

/-!
What the seed holds besides the hints.

A variable is read where it stands in a value, in a test, in a jump or on its own, and a compound
assignment reads its target too; it is written by assignments of all three sorts. The names that
get the default type are those that are read somewhere and written nowhere, whatever lists and
branches the reads and writes stand in. They come in the order of their first reads.
-/

namespace TypeFlow

variable {x : VarName}

/-! ### Reads and writes at any depth -/

def Expr.Reads (x : VarName) : Expr → Prop
  | number _ | string _ => False
  | var y => y = x
  | paren e | unary _ e => e.Reads x
  | binary _ l r => l.Reads x ∨ r.Reads x

def Leaf.Reads (x : VarName) : Leaf → Prop
  | .empty => False
  | .assign a => a.value.Reads x
  | .typed a => a.value.Reads x
  | .compound a => a.target = x ∨ a.value.Reads x
  | .eval e | .goto e | .marker (.conditional e) => e.Reads x

def Leaf.Writes (x : VarName) : Leaf → Prop
  | .assign a => a.target = x
  | .typed a => a.target = x
  | .compound a => a.target = x
  | .empty | .eval _ | .goto _ | .marker _ => False

def Leaf.Makes (l : Leaf) : Access → Prop
  | .read x => l.Reads x
  | .write x => l.Writes x

/-- The statement makes this access, or one that stands in it does. -/
inductive Stmt.Makes (a : Access) : Stmt → Prop
  | leaf {l : Leaf} (h : l.Makes a) : Makes a (.leaf l)
  | test {x : VarName} {c : Expr} {t f : List Stmt} (ha : a = .read x) (h : c.Reads x) :
    Makes a (.ifElse c t f)
  | inList {s : Stmt} {body : List Stmt} (hs : s ∈ body) (h : s.Makes a) : Makes a (.list body)
  | onTrue {s : Stmt} {c : Expr} {t f : List Stmt} (hs : s ∈ t) (h : s.Makes a) :
    Makes a (.ifElse c t f)
  | onFalse {s : Stmt} {c : Expr} {t f : List Stmt} (hs : s ∈ f) (h : s.Makes a) :
    Makes a (.ifElse c t f)

def Graph.Reads (g : Graph) (x : VarName) : Prop := ∃ s ∈ g.stmts, s.Makes (.read x)

def Graph.Writes (g : Graph) (x : VarName) : Prop := ∃ s ∈ g.stmts, s.Makes (.write x)

lemma Expr.mem_reads {e : Expr} : x ∈ e.reads ↔ e.Reads x := by
  induction e with
  | number n | string s => simp [reads, Reads]
  | var y => simp [reads, Reads, eq_comm]
  | paren e ih | unary op e ih => exact ih
  | binary op l r ihl ihr => rw [reads, List.mem_append, ihl, ihr, Reads]

lemma Expr.mem_accesses {e : Expr} {a : Access} :
    a ∈ e.accesses ↔ ∃ x, a = .read x ∧ e.Reads x := by
  simp only [accesses, List.mem_map, mem_reads]
  exact exists_congr fun x => by rw [and_comm, eq_comm]

lemma Leaf.mem_accesses {l : Leaf} {a : Access} : a ∈ l.accesses ↔ l.Makes a := by
  cases l with
  | marker m =>
    cases m
    cases a <;> simp [accesses, Expr.mem_accesses, Makes, Reads, Writes]
  | _ => cases a <;> simp [accesses, Expr.mem_accesses, Makes, Reads, Writes, eq_comm]

namespace Stmt

mutual

/-- The accesses that are listed are those that are made at some depth. -/
lemma mem_accesses {a : Access} (s : Stmt) : a ∈ s.accesses ↔ s.Makes a := by
  match s with
  | .leaf l =>
    rw [accesses, Leaf.mem_accesses]
    exact ⟨.leaf, fun | .leaf h => h⟩
  | .list body =>
    rw [accesses, mem_accessesOf body]
    exact ⟨fun ⟨_, hs, h⟩ => .inList hs h, fun | .inList hs h => ⟨_, hs, h⟩⟩
  | .ifElse c t f =>
    rw [accesses, List.mem_append, List.mem_append, Expr.mem_accesses, mem_accessesOf t,
      mem_accessesOf f]
    constructor
    · rintro ((⟨x, ha, h⟩ | ⟨s, hs, h⟩) | ⟨s, hs, h⟩)
      · exact .test ha h
      · exact .onTrue hs h
      · exact .onFalse hs h
    · intro h
      cases h with
      | test ha h => exact .inl (.inl ⟨_, ha, h⟩)
      | onTrue hs h => exact .inl (.inr ⟨_, hs, h⟩)
      | onFalse hs h => exact .inr ⟨_, hs, h⟩

lemma mem_accessesOf {a : Access} (ss : List Stmt) :
    a ∈ accessesOf ss ↔ ∃ s ∈ ss, s.Makes a := by
  match ss with
  | [] => simp [accessesOf]
  | s :: ss =>
    rw [accessesOf, List.mem_append, mem_accesses s, mem_accessesOf ss, List.exists_mem_cons_iff]

end

end Stmt

/-! ### The order of first reads -/

namespace Usage

lemma reads_concat_write (as : List Access) (x : VarName) :
    (ofAccesses (as ++ [.write x])).reads = (ofAccesses as).reads := by
  simp [ofAccesses]

/-- A name that is read again keeps its place, and a new one comes last. -/
lemma reads_concat_read (as : List Access) (x : VarName) :
    (ofAccesses (as ++ [.read x])).reads =
      if .read x ∈ as then (ofAccesses as).reads else (ofAccesses as).reads ++ [x] := by
  have hmem : x ∈ (ofAccesses as).reads ↔ .read x ∈ as := mem_reads
  simp only [ofAccesses, List.mem_eraseDups] at hmem
  simp only [ofAccesses, List.filterMap_append, List.filterMap_cons, List.filterMap_nil,
    eraseDups_concat, hmem]

lemma pairwise_reads (as : List Access) : (ofAccesses as).reads.Pairwise fun x y =>
    as.idxOf (.read x) < as.idxOf (.read y) := by
  induction as using List.reverseRecOn with
  | nil => simp [ofAccesses]
  | append_singleton as a ih =>
    -- what has been read before `a` keeps its index
    have hold : (ofAccesses as).reads.Pairwise fun x y =>
        (as ++ [a]).idxOf (.read x) < (as ++ [a]).idxOf (.read y) := by
      refine ih.imp_of_mem fun hx hy hlt => ?_
      rwa [List.idxOf_append_of_mem (mem_reads.mp hx), List.idxOf_append_of_mem (mem_reads.mp hy)]
    cases a with
    | write x => rwa [reads_concat_write]
    | read x =>
      rw [reads_concat_read]
      split
      · exact hold
      · next hnew =>
        refine List.pairwise_append.mpr ⟨hold, List.pairwise_singleton _ _, fun y hy z hz => ?_⟩
        rw [List.mem_singleton.mp hz, List.idxOf_append_of_mem (mem_reads.mp hy),
          List.idxOf_append_of_notMem hnew]
        have hlt := List.idxOf_lt_length_of_mem (mem_reads.mp hy)
        omega

end Usage

lemma Graph.mem_unwritten {g : Graph} :
    x ∈ g.usage.unwritten ↔ x.toList.head? ≠ some ':' ∧ g.Reads x ∧ ¬ g.Writes x := by
  have hexternal : VarName.isExternal x = false ↔ x.toList.head? ≠ some ':' := by
    simp [VarName.isExternal]
  rw [usage, Usage.ofStmts, Usage.mem_unwritten, Stmt.mem_accessesOf, Stmt.mem_accessesOf,
    hexternal]
  exact and_left_comm

/-! ### The seed -/

/-- **The seed is exact**: there is one exactly if no name is hinted twice. It has the hints in
their order, and then the default type for the names of the program that are read somewhere,
written nowhere and not hinted, in the order of their first reads. This is the order in which a
visitor is told of them. The fault flag is dropped from a type where a kind remains. -/
theorem Config.seed_exact (c : Config) (g : Graph) :
    ((∃ t, c.seed g = .ok t) ↔ c.hintNames.Nodup) ∧
    (Visitor.recorder.visitStmts g.stmts).run [] = ((), Stmt.accessesOf g.stmts) ∧
    ∀ t, c.seed g = .ok t → ∃ names : List VarName,
      t.entries =
        (c.hints.map fun h => (h.name, if h.ty.kinds = [] then h.ty else h.ty.withoutError)) ++
        (names.map fun x =>
          (x, if c.defaultTy.kinds = [] then c.defaultTy else c.defaultTy.withoutError)) ∧
      (∀ x, x ∈ names ↔ x.toList.head? ≠ some ':' ∧ g.Reads x ∧ ¬ g.Writes x ∧ x ∉ c.hintNames) ∧
      names.Pairwise fun x y =>
        (Stmt.accessesOf g.stmts).idxOf (.read x) < (Stmt.accessesOf g.stmts).idxOf (.read y) := by
  refine ⟨exists_seed_iff, Visitor.visitStmts_recorder g.stmts, fun t ht => ?_⟩
  refine ⟨g.usage.unwritten.filter fun x => x ∉ c.hintNames, ?_, fun x => ?_, ?_⟩
  · simpa only [Ty.masked_eq] using (seed_eq_ok_iff.mp ht).2
  · rw [List.mem_filter, Graph.mem_unwritten, decide_eq_true_iff, and_assoc, and_assoc]
  · exact ((Usage.pairwise_reads _).filter _).filter _

/-- A variable is read in each of the places there are, on both sides of an operator and in both
branches. One is written in a branch only, one by a compound assignment, one is hinted, and one
belongs to a device. -/
theorem Config.seed_exact_places :
    let c : Config := ⟨[⟨"h", ⟨true, false, true⟩⟩], ⟨false, true, true⟩, none⟩
    let sum : TypedAssignment :=
      ⟨⟨"a", .binary .add (.var "q") (.binary .multiply (.var "w") (.paren (.var "v")))⟩, .number⟩
    let g : Graph := ⟨[
      ⟨⟨0⟩, .entry, 0, [.leaf (.typed sum),
        .leaf (.compound ⟨"s", .add, .unary .negate (.var "p")⟩), .leaf (.eval (.var "h"))]⟩,
      ⟨⟨1⟩, .basic, 1, [.ifElse (.var "k")
          [.list [.leaf (.goto (.var "l")), .leaf (.eval (.var ":d"))]]
          [.leaf (.assign ⟨"w", .binary .add (.var "v") (.var "r")⟩)],
        .leaf (.marker (.conditional (.var "m")))]⟩], []⟩
    let t : TypeTable := ⟨[("h", .number), ("q", .string), ("v", .string), ("p", .string),
      ("k", .string), ("l", .string), ("r", .string), ("m", .string)]⟩
    let accesses := Stmt.accessesOf g.stmts
    c.seed g = .ok t ∧ c.hintNames.Nodup ∧ g.Reads "l" ∧ ¬ g.Writes "l" ∧ g.Reads "r" ∧
      ¬ g.Writes "r" ∧ (Visitor.recorder.visitStmts g.stmts).run [] = ((), accesses) ∧
      accesses.idxOf (.read "q") < accesses.idxOf (.read "v") ∧
      accesses.idxOf (.read "l") < accesses.idxOf (.read "r") := by
  intro c sum g t accesses
  have hseed : c.seed g = .ok t := by decide +kernel
  obtain ⟨hok, htold, hall⟩ := seed_exact c g
  obtain ⟨names, hentries, hmem, horder⟩ := hall t hseed
  have hnames : names = ["q", "v", "p", "k", "l", "r", "m"] := by
    have := congrArg (List.map Prod.fst) hentries
    simpa [t, c, Function.comp_def] using this.symm
  subst hnames
  obtain ⟨-, hl, hl', -⟩ := (hmem "l").mp (by decide)
  obtain ⟨-, hr, hr', -⟩ := (hmem "r").mp (by decide)
  have hbefore := List.pairwise_iff_getElem.mp horder
  exact ⟨hseed, hok.mp ⟨t, hseed⟩, hl, hl', hr, hr', htold,
    hbefore 0 1 (by decide) (by decide) (by decide),
    hbefore 4 5 (by decide) (by decide) (by decide)⟩

end TypeFlow
