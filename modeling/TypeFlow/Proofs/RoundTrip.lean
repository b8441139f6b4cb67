import Mathlib.Data.List.Nodup
import TypeFlow.Proofs.Rendered
import TypeFlow.Proofs.WrittenTypes
import TypeFlow.Wire.Config
import TypeFlow.Wire.Graph

/-!
What is written is read back.

A type is lawful if reading a value from JSON undoes writing it. Records, cases and lists hand
this on from their parts, so it holds for the whole syntax, for blocks and edges and for
configurations, and the text of a value can be read as well as the value that was rendered.
-/

namespace TypeFlow

class LawfulWire (α : Type) [Wire α] : Prop where
  integral_toJson (a : α) : (Wire.toJson a).Integral
  ofJson?_toJson (a : α) : Wire.ofJson? (Wire.toJson a) = some a

attribute [simp] LawfulWire.integral_toJson LawfulWire.ofJson?_toJson

/-! ### Records and cases -/

namespace Json

lemma eachOnce_of_nodup {ms : List (String × Json)} (h : (ms.map Prod.fst).Nodup)
    (names : List String) : eachOnce names ms := by
  rw [eachOnce, List.all_eq_true]
  intro n _
  have hcount : (ms.map Prod.fst).count n ≤ 1 := List.nodup_iff_count_le_one.mp h n
  rw [List.count, List.countP_map] at hcount
  simpa [Function.comp_def, beq_eq_decide] using hcount

lemma lookup_of_mem {ms : List (String × Json)} (h : (ms.map Prod.fst).Nodup) {k : String}
    {j : Json} (hm : (k, j) ∈ ms) : ms.lookup k = some j := by
  obtain ⟨ms₁, ms₂, rfl⟩ := List.append_of_mem hm
  refine List.lookup_eq_some_iff.mpr ⟨ms₁, ms₂, rfl, fun m hm₁ => ?_⟩
  rw [List.map_append, List.map_cons, List.nodup_middle, List.nodup_cons, List.mem_append] at h
  have hne : k ≠ m.1 := fun hk => h.1 (.inl (List.mem_map.mpr ⟨m, hm₁, hk.symm⟩))
  simpa using hne

/-- The fields of a record are found under their names. -/
lemma fields?_eq {j : Json} {ms : List (String × Json)} {names : List String}
    {js : List (Option Json)} (hj : j = .object ms) (hnames : ms.map Prod.fst = names)
    (hjs : ms.map (fun m => some m.2) = js) (h : names.Nodup) : j.fields? names = some js := by
  subst hj hnames hjs
  rw [fields?, if_pos (eachOnce_of_nodup h _), List.map_map]
  congr 1
  exact List.map_congr_left fun m hm => lookup_of_mem h hm

lemma record?_eq {j : Json} {ms : List (String × Json)} {names : List String} {js : List Json}
    (hj : j = .object ms) (hnames : ms.map Prod.fst = names) (hjs : ms.map Prod.snd = js)
    (h : names.Nodup) : j.record? names = some js := by
  rw [record?, fields?_eq hj hnames rfl h, Option.bind_some, List.mapM_map, ← hjs]
  exact List.mapM_pure

lemma intIn?_int {lo hi n : Int} (hlo : lo ≤ n) (hhi : n < hi) :
    (Json.int n).intIn? lo hi = some n :=
  if_pos ⟨hlo, hhi⟩

attribute [simp] Integral.null Integral.int Integral.str

@[simp] lemma integral_array_iff {js : List Json} :
    (array js).Integral ↔ ∀ j ∈ js, j.Integral :=
  ⟨fun | .array h => h, .array⟩

@[simp] lemma integral_object_iff {ms : List (String × Json)} :
    (object ms).Integral ↔ ∀ m ∈ ms, m.2.Integral :=
  ⟨fun | .object h => h, .object⟩

end Json

/-! ### Names, numbers and lists -/

instance : LawfulWire String where
  integral_toJson s := .str s
  ofJson?_toJson _ := rfl

instance : LawfulWire UInt64 where
  integral_toJson n := .int n.toNat
  ofJson?_toJson n := by
    have hn : (n.toNat : Int) < UInt64.size := by exact_mod_cast n.toNat_lt
    have hin := Json.intIn?_int (Int.natCast_nonneg n.toNat) hn
    simp only [Wire.toJson, Wire.ofJson?, hin]
    simp

instance : LawfulWire Number where
  integral_toJson n := .int n.raw.toInt
  ofJson?_toJson n := by
    have hhi : n.raw.toInt < Int64.maxValue.toInt + 1 := Int.lt_add_one_of_le n.raw.toInt_le
    have hin := Json.intIn?_int n.raw.minValue_le_toInt hhi
    simp only [Wire.toJson, Wire.ofJson?, hin]
    simp

lemma mapM_map_toJson {α : Type} [Wire α] {f : Json → Option α}
    (hf : ∀ a, f (Wire.toJson a) = some a) (as : List α) :
    (as.map Wire.toJson).mapM f = some as := by
  have hread : f ∘ Wire.toJson = some := funext hf
  rw [List.mapM_map, hread]
  exact List.mapM_pure.trans (congrArg some (List.map_id' as))

instance {α : Type} [Wire α] [LawfulWire α] : LawfulWire (List α) where
  integral_toJson as := .array (by simp)
  ofJson?_toJson := mapM_map_toJson LawfulWire.ofJson?_toJson

lemma ofJson?_option {α : Type} [Wire α] {j : Json} (hj : j ≠ .null) :
    (Wire.ofJson? j : Option (Option α)) = (Wire.ofJson? j).map some := by
  cases j with
  | null => exact absurd rfl hj
  | _ => rfl

/-- A missing value is written as null, so no other value may be. -/
lemma lawfulWire_option {α : Type} [Wire α] [LawfulWire α] (h : ∀ a : α, Wire.toJson a ≠ .null) :
    LawfulWire (Option α) where
  integral_toJson
    | some a => LawfulWire.integral_toJson a
    | none => .null
  ofJson?_toJson
    | some a => by
      change Wire.ofJson? (Wire.toJson a) = some (some a)
      rw [ofJson?_option (h a), LawfulWire.ofJson?_toJson]
      rfl
    | none => rfl

instance : LawfulWire (Option UInt64) := lawfulWire_option fun _ => nofun

/-! ### Types and operators -/

instance : LawfulWire Ty where
  integral_toJson t := .str t.text
  ofJson?_toJson t := by
    change (Ty.read t.text).toOption = some t
    rw [Ty.read_text]
    rfl

instance : LawfulWire UnaryOp where
  integral_toJson op := .str op.name
  ofJson?_toJson op := by cases op <;> rfl

instance : LawfulWire BinaryOp where
  integral_toJson op := .str op.name
  ofJson?_toJson op := by cases op <;> rfl

instance : LawfulWire CompoundOp where
  integral_toJson op := .str op.binary.name
  ofJson?_toJson op := by cases op <;> rfl

/-! ### Expressions -/

namespace Expr

lemma integral_toJson (e : Expr) : e.toJson.Integral := by
  induction e with
  | number n => simp [toJson]
  | string s => simp [toJson]
  | var x => simp [toJson]
  | paren e ih => simp [toJson, ih]
  | unary op e ih => simp [toJson, ih]
  | binary op l r ihl ihr => simp [toJson, ihl, ihr]

lemma ofJson?_toJson (positional : Bool) (e : Expr) : ofJson? positional e.toJson = some e := by
  induction e with
  | number n => simp [toJson, ofJson?]
  | string s => rfl
  | var x => rfl
  | paren e ih => simp [toJson, ofJson?, ih]
  | unary op e ih => simp [toJson, ofJson?, ofField?, Json.eachOnce_of_nodup, ih]
  | binary op l r ihl ihr => simp [toJson, ofJson?, ofField?, Json.eachOnce_of_nodup, ihl, ihr]

end Expr

instance : LawfulWire Expr where
  integral_toJson := Expr.integral_toJson
  ofJson?_toJson := Expr.ofJson?_toJson true

/-! ### Leaves -/

variable {positional : Bool}

lemma Assignment.ofJson?_toJson (a : Assignment) :
    Assignment.ofJson? positional (Wire.toJson a) = some a := by
  have hrecord : (Wire.toJson a).record? ["left", "right"] =
      some [.str a.target, a.value.toJson] :=
    Json.record?_eq rfl rfl rfl (by decide)
  simp [Assignment.ofJson?, hrecord, Json.str?, Expr.ofJson?_toJson]

instance : LawfulWire Assignment where
  integral_toJson a := .object (by simp)
  ofJson?_toJson := Assignment.ofJson?_toJson

lemma TypedAssignment.ofJson?_toJson (a : TypedAssignment) :
    TypedAssignment.ofJson? positional (Wire.toJson a) = some a := by
  have hrecord : (Wire.toJson a).record? ["ty", "left", "right"] =
      some [Wire.toJson a.ty, .str a.target, a.value.toJson] :=
    Json.record?_eq rfl rfl rfl (by decide)
  simp [TypedAssignment.ofJson?, hrecord, Json.str?, Expr.ofJson?_toJson]

instance : LawfulWire TypedAssignment where
  integral_toJson a := .object (by simp)
  ofJson?_toJson := TypedAssignment.ofJson?_toJson

lemma CompoundAssignment.ofJson?_toJson (a : CompoundAssignment) :
    CompoundAssignment.ofJson? positional (Wire.toJson a) = some a := by
  have hrecord : (Wire.toJson a).record? ["left", "op", "right"] =
      some [.str a.target, Wire.toJson a.op, a.value.toJson] :=
    Json.record?_eq rfl rfl rfl (by decide)
  simp [CompoundAssignment.ofJson?, hrecord, Json.str?, Expr.ofJson?_toJson]

instance : LawfulWire CompoundAssignment where
  integral_toJson a := .object (by simp)
  ofJson?_toJson := CompoundAssignment.ofJson?_toJson

lemma Marker.ofJson?_toJson (m : Marker) :
    Marker.ofJson? positional (Wire.toJson m) = some m := by
  obtain ⟨e⟩ := m
  change (Expr.ofJson? positional e.toJson).map Marker.conditional = _
  rw [Expr.ofJson?_toJson]
  rfl

instance : LawfulWire Marker where
  integral_toJson | .conditional e => .object (by simp)
  ofJson?_toJson := Marker.ofJson?_toJson

lemma Leaf.integral_toJson (l : Leaf) : l.toJson.Integral := by
  cases l <;> simp [Leaf.toJson]

lemma Leaf.ofJson?_toJson (l : Leaf) : Leaf.ofJson? positional l.toJson = some l := by
  cases l with
  | empty => rfl
  | assign a => simp [Leaf.toJson, Leaf.ofJson?, Assignment.ofJson?_toJson]
  | typed a => simp [Leaf.toJson, Leaf.ofJson?, TypedAssignment.ofJson?_toJson]
  | compound a => simp [Leaf.toJson, Leaf.ofJson?, CompoundAssignment.ofJson?_toJson]
  | eval e => exact congrArg (Option.map Leaf.eval) (Expr.ofJson?_toJson positional e)
  | goto e => exact congrArg (Option.map Leaf.goto) (Expr.ofJson?_toJson positional e)
  | marker m => simp [Leaf.toJson, Leaf.ofJson?, Marker.ofJson?_toJson]

/-! ### Statements -/

namespace Stmt

mutual

theorem integral_toJson : ∀ s : Stmt, s.toJson.Integral
  | .leaf l => l.integral_toJson
  | .list body => by
    have hbody := integral_listToJson body
    simpa [toJson] using hbody
  | .ifElse c t f => by
    have ht := integral_listToJson t
    have hf := integral_listToJson f
    simpa [toJson] using ⟨ht, hf⟩

theorem integral_listToJson : ∀ ss : List Stmt, ∀ j ∈ listToJson ss, j.Integral
  | [] => by simp [listToJson]
  | s :: ss => by
    rw [listToJson, List.forall_mem_cons]
    exact ⟨integral_toJson s, integral_listToJson ss⟩

end

/-- A statement that is a leaf is neither of the other two. -/
lemma ofJson?_leaf (l : Leaf) :
    ofJson? positional l.toJson = (Leaf.ofJson? positional l.toJson).map .leaf := by
  cases l <;> rfl

mutual

theorem ofJson?_toJson (positional : Bool) : ∀ s : Stmt, ofJson? positional s.toJson = some s
  | .leaf l => by
    rw [toJson, ofJson?_leaf, Leaf.ofJson?_toJson]
    rfl
  | .list body => by
    have hbody := listOfJson?_listToJson positional body
    simp [toJson, ofJson?, hbody]
  | .ifElse c t f => by
    have hc : Expr.ofJson? positional (Wire.toJson c) = some c := c.ofJson?_toJson positional
    have ht := listOfJson?_listToJson positional t
    have hf := listOfJson?_listToJson positional f
    simp [toJson, ofJson?, branch?, Json.eachOnce_of_nodup, hc, ht, hf]

theorem listOfJson?_listToJson (positional : Bool) :
    ∀ ss : List Stmt, listOfJson? positional (listToJson ss) = some ss
  | [] => rfl
  | s :: ss => by
    rw [listToJson, listOfJson?, ofJson?_toJson positional s, listOfJson?_listToJson positional ss]
    rfl

end

lemma listToJson_eq_map (ss : List Stmt) : listToJson ss = ss.map Wire.toJson := by
  induction ss with
  | nil => rfl
  | cons s ss ih =>
    rw [listToJson, ih]
    rfl

end Stmt

instance : LawfulWire Stmt where
  integral_toJson := Stmt.integral_toJson
  ofJson?_toJson := Stmt.ofJson?_toJson true

/-- The parts of a conditional are written as in the statement. -/
lemma Conditional.toJson_toStmt (c : Conditional) :
    c.toStmt.toJson = .object [("If", Wire.toJson c)] := by
  rw [toStmt, Stmt.toJson, Stmt.listToJson_eq_map, Stmt.listToJson_eq_map]
  rfl

instance : LawfulWire Conditional where
  integral_toJson c := .object (by simp)
  ofJson?_toJson c := by
    have hread := Stmt.ofJson?_toJson true c.toStmt
    rw [c.toJson_toStmt] at hread
    simp only [Wire.ofJson?, hread]
    rfl

/-! ### Programs -/

lemma Line.ofJson?_toJson (l : Line) : Line.ofJson? positional (Wire.toJson l) = some l := by
  have hrecord : (Wire.toJson l).record? ["statements"] =
      some [.array (Stmt.listToJson l.stmts)] :=
    Json.record?_eq rfl rfl rfl (by decide)
  simp [Line.ofJson?, hrecord, Json.array?, Stmt.listOfJson?_listToJson]

instance : LawfulWire Line where
  integral_toJson l := .object (by simpa using Stmt.integral_listToJson l.stmts)
  ofJson?_toJson := Line.ofJson?_toJson

lemma Program.ofJson?_toJson (p : Program) :
    Program.ofJson? positional (Wire.toJson p) = some p := by
  have hrecord : (Wire.toJson p).record? ["lines"] = some [.array (p.lines.map Wire.toJson)] :=
    Json.record?_eq rfl rfl rfl (by decide)
  have hlines : (p.lines.map Wire.toJson).mapM (Line.ofJson? positional) = some p.lines :=
    mapM_map_toJson Line.ofJson?_toJson p.lines
  simp [Program.ofJson?, hrecord, Json.array?, hlines]

instance : LawfulWire Program where
  integral_toJson p := .object (by simp)
  ofJson?_toJson := Program.ofJson?_toJson

/-! ### Blocks and edges -/

instance : LawfulWire BlockId where
  integral_toJson id := LawfulWire.integral_toJson id.val
  ofJson?_toJson id := by
    change (Wire.ofJson? (Wire.toJson id.val)).map BlockId.mk = some id
    simp

instance : LawfulWire BlockKind where
  integral_toJson k := .str k.name
  ofJson?_toJson k := by cases k <;> rfl

instance : LawfulWire EdgeKind where
  integral_toJson k := .str k.name
  ofJson?_toJson k := by cases k <;> rfl

instance : LawfulWire Edge where
  integral_toJson e := .object (by simp)
  ofJson?_toJson e := by
    have hrecord : (Wire.toJson e).record? ["start", "end", "kind"] =
        some [Wire.toJson e.source, Wire.toJson e.target, Wire.toJson e.kind] :=
      Json.record?_eq rfl rfl rfl (by decide)
    -- what is read depends on the fields only
    generalize Wire.toJson e = j at hrecord ⊢
    rw [Wire.ofJson?, instWireEdge]
    simp [hrecord]

instance : LawfulWire Block where
  integral_toJson b := .object (by simpa using Stmt.integral_listToJson b.stmts)
  ofJson?_toJson b := by
    have hrecord : (Wire.toJson b).record? ["id", "kind", "line_number", "statements"] =
        some [Wire.toJson b.id, Wire.toJson b.kind, Wire.toJson b.line,
          .array (Stmt.listToJson b.stmts)] :=
      Json.record?_eq rfl rfl rfl (by decide)
    generalize Wire.toJson b = j at hrecord ⊢
    rw [Wire.ofJson?, instWireBlock]
    simp [hrecord, Json.array?, Stmt.listOfJson?_listToJson]

/-! ### Configurations -/

instance : LawfulWire Hint where
  integral_toJson h := .object (by simp)
  ofJson?_toJson h := by
    have hrecord : (Wire.toJson h).record? ["name", "type"] =
        some [.str h.name, Wire.toJson h.ty] :=
      Json.record?_eq rfl rfl rfl (by decide)
    generalize Wire.toJson h = j at hrecord ⊢
    rw [Wire.ofJson?, instWireHint]
    simp [hrecord, Json.str?]

instance : LawfulWire Config where
  integral_toJson c := .object (by simp)
  ofJson?_toJson c := by
    have hfields : (Wire.toJson c).fields? ["hints", "default_type", "max_passes"] =
        some [some (Wire.toJson c.hints), some (Wire.toJson c.defaultTy),
          some (Wire.toJson c.maxPasses)] :=
      Json.fields?_eq rfl rfl rfl (by decide)
    generalize Wire.toJson c = j at hfields ⊢
    rw [Wire.ofJson?, instWireConfig]
    simp [hfields, Json.orElse]

lemma Json.itemsDepth_le {js : List Json} {n : ℕ} (h : ∀ j ∈ js, j.depth ≤ n) :
    Json.itemsDepth js ≤ n := by
  induction js with
  | nil => exact Nat.zero_le n
  | cons j js ih =>
    rw [List.forall_mem_cons] at h
    exact Nat.max_le.mpr ⟨h.1, ih h.2⟩

/-- A configuration is an object with a list of objects in it. -/
lemma Config.depth_toJson_le (c : Config) : (Wire.toJson c).depth ≤ 3 := by
  have hhints : Json.itemsDepth (c.hints.map Wire.toJson) ≤ 1 := by
    refine Json.itemsDepth_le fun j hj => ?_
    obtain ⟨h, -, rfl⟩ := List.mem_map.mp hj
    exact Nat.le_refl 1
  have hpasses : (Wire.toJson c.maxPasses).depth = 0 := by cases c.maxPasses <;> rfl
  change max (Json.itemsDepth (c.hints.map Wire.toJson) + 1)
    (max 0 (max (Wire.toJson c.maxPasses).depth 0)) + 1 ≤ 3
  omega

/-! ### Texts -/

namespace Wire

/-- Every value of the type is read back from its text, and if it does not stand too deep also
by a reader that goes down to a limited depth only. -/
def RoundTrips (α : Type) [Wire α] : Prop :=
  ∀ a : α, (Json.parse? (write a)).bind ofJson? = some a ∧
    ((toJson a).depth ≤ maxDepth → read? (write a) = some a)

lemma roundTrips {α : Type} [Wire α] [LawfulWire α] : RoundTrips α := by
  intro a
  have hparse : Json.parse? (write a) = some (toJson a) :=
    Json.parse?_render (LawfulWire.integral_toJson a)
  refine ⟨?_, fun hdepth => ?_⟩
  · rw [hparse, Option.bind_some, LawfulWire.ofJson?_toJson]
  · rw [read?, hparse, Option.bind_some, Json.truncate_eq_self _ _ hdepth,
      LawfulWire.ofJson?_toJson]

/-- **What is written is read back**, for every type that is written and read. A configuration
is never too deep. -/
theorem values_round_trip :
    RoundTrips Ty ∧ RoundTrips Number ∧ RoundTrips VarName ∧
    RoundTrips UnaryOp ∧ RoundTrips BinaryOp ∧ RoundTrips CompoundOp ∧ RoundTrips Expr ∧
    RoundTrips Assignment ∧ RoundTrips TypedAssignment ∧ RoundTrips CompoundAssignment ∧
    RoundTrips Marker ∧ RoundTrips Stmt ∧ RoundTrips (List Stmt) ∧ RoundTrips Conditional ∧
    RoundTrips Line ∧ RoundTrips Program ∧
    RoundTrips BlockId ∧ RoundTrips BlockKind ∧ RoundTrips EdgeKind ∧ RoundTrips Edge ∧
    RoundTrips Block ∧ RoundTrips Hint ∧ RoundTrips Config ∧
    ∀ c : Config, Config.parse (write c) = .ok c := by
  and_intros
  iterate 23 exact roundTrips
  intro c
  have hdepth : (toJson c).depth ≤ maxDepth := Nat.le_trans c.depth_toJson_le (by decide)
  rw [Config.parse, (roundTrips c).2 hdepth]

/-- A test inside a test, with a text that has to be escaped and the least of all numbers. -/
theorem values_round_trip_nested :
    let e : Expr :=
      .binary .add (.string "\"\\/\n\x01é😀") (.unary .negate (.number ⟨Int64.minValue⟩))
    let s : Stmt := .ifElse e [.list [.leaf (.typed ⟨⟨":x", e⟩, ⟨true, true, false⟩⟩)]]
      [.ifElse (.paren (.var "y")) [] [.leaf .empty, .leaf (.goto e)]]
    (toJson s).depth = 12 ∧ read? (write s) = some s := by
  intro e s
  have hdepth : (toJson s).depth = 12 := by decide +kernel
  obtain ⟨-, -, -, -, -, -, -, -, -, -, -, hstmt, -⟩ := values_round_trip
  exact ⟨hdepth, (hstmt s).2 (by rw [hdepth]; decide)⟩

end Wire

end TypeFlow
