import Mathlib.Data.List.Basic
import TypeFlow.Json.Parser

/-!
A rendered value is read back.

The scan takes the text apart into the tokens it was spelled from: punctuation, words and quoted
texts end by themselves, and an integer ends because punctuation or the end of the text follows
it. The walk over the tokens then rebuilds the value with the arrays and objects around it on its
stack.
-/

namespace TypeFlow.Json

/-! ### What the scan makes of one token -/

def Scan.complete (s : Scan) (cs : List Char) : Option (List Token) :=
  (cs.foldlM Scan.step s).bind Scan.finish

namespace Scan

variable {ts : List Token}

@[simp] lemma complete_nil (s : Scan) : s.complete [] = s.finish := rfl

lemma complete_cons (s : Scan) (c : Char) (cs : List Char) :
    s.complete (c :: cs) = (s.step c).bind fun s => s.complete cs := by
  simp [complete, List.foldlM_cons, Option.bind_assoc]

lemma complete_of_step {s s' : Scan} {c : Char} (h : s.step c = some s') (cs : List Char) :
    s.complete (c :: cs) = s'.complete cs := by
  rw [complete_cons, h]
  rfl

/-! #### Texts -/

lemma hexDigit?_digitChar : ∀ d < 16, hexDigit? (Nat.digitChar d) = some d := by decide

lemma complete_hexPair {n : Nat} (h : n < 256) (cs rest : List Char) :
    (⟨ts, .code (some cs) none 2 0⟩ : Scan).complete (hexPair n ++ rest) =
      (⟨ts, codeMode (some cs) none n⟩ : Scan).complete rest := by
  have hhigh : (⟨ts, .code (some cs) none 2 0⟩ : Scan).step (Nat.digitChar (n / 16)) =
      some ⟨ts, .code (some cs) none 1 (n / 16)⟩ := by
    simp [step, hexDigit?_digitChar (n / 16) (by omega)]
  have hlow : (⟨ts, .code (some cs) none 1 (n / 16)⟩ : Scan).step (Nat.digitChar (n % 16)) =
      some ⟨ts, codeMode (some cs) none n⟩ := by
    simp [step, hexDigit?_digitChar (n % 16) (by omega), Nat.div_add_mod]
  rw [hexPair, List.cons_append, List.singleton_append, complete_of_step hhigh,
    complete_of_step hlow]

/-- Inside a text an escape is read as the character it was made from. -/
lemma complete_escape (c : Char) (cs rest : List Char) :
    (⟨ts, .text (some cs)⟩ : Scan).complete (escape c ++ rest) =
      (⟨ts, .text (some (c :: cs))⟩ : Scan).complete rest := by
  unfold escape
  split
  -- the seven characters with an escape of their own
  iterate 7 rfl
  rename_i hquote hslash _ _ _ _ _
  by_cases hc : c.toNat < 0x20
  · have hmode : codeMode (some cs) none c.toNat = .text (some (c :: cs)) := by
      simp only [codeMode, Chars.push, Char.ofNat_toNat, Option.map_some]
      rw [if_neg (by omega), if_neg (by omega)]
    rw [if_pos hc, List.append_assoc, ← hmode]
    exact complete_hexPair (by omega) cs rest
  · have hstep : (⟨ts, .text (some cs)⟩ : Scan).step c = some ⟨ts, .text (some (c :: cs))⟩ := by
      simp only [step, inText]
      rw [if_neg hslash, if_neg hquote, if_neg hc]
      rfl
    rw [if_neg hc, List.singleton_append, complete_of_step hstep]

lemma complete_flatMap_escape (s cs rest : List Char) :
    (⟨ts, .text (some cs)⟩ : Scan).complete (s.flatMap escape ++ rest) =
      (⟨ts, .text (some (s.reverse ++ cs))⟩ : Scan).complete rest := by
  induction s generalizing cs with
  | nil => rfl
  | cons c s ih =>
    rw [List.flatMap_cons, List.append_assoc, complete_escape, ih]
    simp

lemma complete_quote (s : String) (rest : List Char) :
    (⟨ts, .gap⟩ : Scan).complete (quote s.toList ++ rest) =
      (⟨.str s :: ts, .gap⟩ : Scan).complete rest := by
  have hopen : (⟨ts, .gap⟩ : Scan).step '"' = some ⟨ts, .text (some [])⟩ := rfl
  have hclose : (⟨ts, .text (some (s.toList.reverse ++ []))⟩ : Scan).step '"' =
      some ⟨.str s :: ts, .gap⟩ := by
    simp [step, inText, Chars.token]
  rw [quote, List.append_assoc, List.append_assoc, List.singleton_append,
    complete_of_step hopen, complete_flatMap_escape, List.singleton_append,
    complete_of_step hclose]

/-! #### Integers -/

/-- A number above zero does not start with the digit zero. -/
lemma exists_toDigits {n : Nat} (hn : 0 < n) :
    ∃ d ds, Nat.toDigits 10 n = d :: ds ∧ d ≠ '0' := by
  induction n using Nat.strongRecOn with
  | ind n ih =>
    by_cases hlt : n < 10
    · refine ⟨_, [], Nat.toDigits_of_lt_base hlt, ?_⟩
      have hdigit : ∀ k < 10, 0 < k → Nat.digitChar k ≠ '0' := by decide
      exact hdigit n hlt hn
    · obtain ⟨d, ds, hds, hd⟩ := ih (n / 10) (by omega) (by omega)
      refine ⟨d, ds ++ [Nat.digitChar (n % 10)], ?_, hd⟩
      rw [Nat.toDigits_of_base_le (by omega) (by omega), hds]
      rfl

lemma start_of_isDigit {c : Char} (hc : c.isDigit) (hne : c ≠ '0') :
    start ts c = some ⟨ts, .number .whole [c]⟩ := by
  unfold start
  split
  -- of the characters with a meaning of their own only zero is a digit
  all_goals first
    | exact absurd hc (by decide)
    | exact absurd rfl hne
    | exact if_pos hc

/-- Digits without a sign stand for the number they spell. -/
lemma numberToken_of_isDigit {d : Char} (hd : d.isDigit) (ds : List Char) :
    numberToken .whole (d :: ds) = some (.int (Nat.ofDigitChars 10 (d :: ds) 0)) := by
  have hne : d ≠ '-' := by
    rintro rfl
    exact absurd hd (by decide)
  simp [numberToken, hne]

/-- What ends a number before it: nothing at all, or punctuation. -/
def Ends (cs : List Char) : Prop := ∀ c ∈ cs.head?, c = ',' ∨ c = ']' ∨ c = '\x7d'

lemma complete_number {p : NumberPart} (hp : p = .zero ∨ p = .whole) {lexeme : List Char}
    {t : Token} (ht : numberToken p lexeme.reverse = some t) {rest : List Char}
    (hrest : Ends rest) :
    (⟨ts, .number p lexeme⟩ : Scan).complete rest = (⟨t :: ts, .gap⟩ : Scan).complete rest := by
  cases rest with
  | nil => simp [finish, ht]
  | cons c rest =>
    have hnext : p.next c = none := by
      obtain rfl | rfl | rfl := hrest c rfl <;> obtain rfl | rfl := hp <;> rfl
    simp [complete_cons, step, hnext, ht]

lemma complete_digits {ds : List Char} (h : ∀ c ∈ ds, c.isDigit) (lexeme rest : List Char) :
    (⟨ts, .number .whole lexeme⟩ : Scan).complete (ds ++ rest) =
      (⟨ts, .number .whole (ds.reverse ++ lexeme)⟩ : Scan).complete rest := by
  induction ds generalizing lexeme with
  | nil => rfl
  | cons d ds ih =>
    have hd : (⟨ts, .number .whole lexeme⟩ : Scan).step d =
        some ⟨ts, .number .whole (d :: lexeme)⟩ := by
      simp [step, NumberPart.next, h d (by simp)]
    rw [List.cons_append, complete_of_step hd, ih fun c hc => h c (by simp [hc])]
    simp

lemma complete_spellInt (n : Int) {rest : List Char} (hrest : Ends rest) :
    (⟨ts, .gap⟩ : Scan).complete (spellInt n ++ rest) =
      (⟨.int n :: ts, .gap⟩ : Scan).complete rest := by
  have hall : ∀ c ∈ Nat.toDigits 10 n.natAbs, c.isDigit := fun c =>
    Nat.isDigit_of_mem_toDigits (by omega) (by omega)
  have hvalue : Nat.ofDigitChars 10 (Nat.toDigits 10 n.natAbs) 0 = n.natAbs :=
    Nat.ofDigitChars_ten_toDigits
  unfold spellInt
  obtain rfl | hn := eq_or_ne n 0
  · -- zero is the one number that starts with the digit zero
    exact complete_number (.inl rfl) rfl hrest
  obtain ⟨d, ds, hds, hd⟩ := exists_toDigits (Int.natAbs_pos.mpr hn)
  rw [hds] at hall hvalue ⊢
  have hfirst : d.isDigit := hall d (by simp)
  have hothers : ∀ c ∈ ds, c.isDigit := fun c hc => hall c (by simp [hc])
  by_cases hneg : n < 0
  · have hminus : (⟨ts, .number .minus ['-']⟩ : Scan).step d =
        some ⟨ts, .number .whole [d, '-']⟩ := by
      simp [step, NumberPart.next, hfirst, hd]
    have htoken : numberToken .whole (ds.reverse ++ [d, '-']).reverse = some (.int n) := by
      have hlexeme : (ds.reverse ++ [d, '-']).reverse = '-' :: d :: ds := by simp
      have hn : -(n.natAbs : Int) = n := by omega
      rw [hlexeme, numberToken, hvalue, hn]
    rw [if_pos hneg]
    calc (⟨ts, .gap⟩ : Scan).complete (['-'] ++ d :: ds ++ rest)
        = (⟨ts, .number .minus ['-']⟩ : Scan).complete (d :: (ds ++ rest)) := rfl
      _ = (⟨ts, .number .whole (ds.reverse ++ [d, '-'])⟩ : Scan).complete rest := by
        rw [complete_of_step hminus, complete_digits hothers]
      _ = (⟨.int n :: ts, .gap⟩ : Scan).complete rest := complete_number (.inr rfl) htoken hrest
  · have hstart : (⟨ts, .gap⟩ : Scan).step d = some ⟨ts, .number .whole [d]⟩ :=
      start_of_isDigit hfirst hd
    have htoken : numberToken .whole (ds.reverse ++ [d]).reverse = some (.int n) := by
      have hlexeme : (ds.reverse ++ [d]).reverse = d :: ds := by simp
      have hn : (n.natAbs : Int) = n := by omega
      rw [hlexeme, numberToken_of_isDigit hfirst, hvalue, hn]
    rw [if_neg hneg, List.nil_append, List.cons_append, complete_of_step hstart,
      complete_digits hothers]
    exact complete_number (.inr rfl) htoken hrest

end Scan

/-! ### What the scan makes of the tokens of a value -/

/-- A token whose last character ends it, whatever follows. Only a number could go on. -/
def Token.EndsItself : Token → Prop
  | .int _ | .real _ => False
  | _ => True

/-- The tokens that may stand right after a value. -/
def Token.Delimits (t : Token) : Prop := t = .comma ∨ t = .closeArray ∨ t = .closeObject

/-- Tokens that are told apart when they are spelled without blanks: the numbers are integers,
each at the end or before a delimiter. -/
inductive Separable : List Token → Prop
  | nil : Separable []
  | int {n : Int} {ts : List Token} :
    (∀ t ∈ ts.head?, t.Delimits) → Separable ts → Separable (.int n :: ts)
  | cons {t : Token} {ts : List Token} : t.EndsItself → Separable ts → Separable (t :: ts)

lemma Scan.complete_spell {t : Token} (ht : t.EndsItself) (ts : List Token) (rest : List Char) :
    (⟨ts, .gap⟩ : Scan).complete (t.spell ++ rest) = (⟨t :: ts, .gap⟩ : Scan).complete rest := by
  cases t with
  | str s => exact complete_quote s rest
  | bool b => cases b <;> rfl
  | int | real => exact ht.elim
  | openArray | closeArray | openObject | closeObject | colon | comma | null | illegible => rfl

lemma ends_flatMap_spell {ts : List Token} (h : ∀ t ∈ ts.head?, t.Delimits) :
    Scan.Ends (ts.flatMap Token.spell) := by
  cases ts with
  | nil => simp [Scan.Ends]
  | cons t ts => obtain rfl | rfl | rfl := h t rfl <;> simp [Scan.Ends, Token.spell]

lemma Separable.complete {us : List Token} (h : Separable us) (ts : List Token) :
    (⟨ts, .gap⟩ : Scan).complete (us.flatMap Token.spell) = some (ts.reverse ++ us) := by
  induction h generalizing ts with
  | nil => simp [Scan.finish]
  | int hends _ ih =>
    rw [List.flatMap_cons, Token.spell, Scan.complete_spellInt _ (ends_flatMap_spell hends), ih]
    simp
  | cons ht _ ih =>
    rw [List.flatMap_cons, Scan.complete_spell ht, ih]
    simp

/-- **The scan undoes the spelling.** -/
theorem scan_flatMap_spell {ts : List Token} (h : Separable ts) :
    scan (ts.flatMap Token.spell) = some ts :=
  h.complete []

inductive Integral : Json → Prop
  | null : Integral .null
  | bool (b : Bool) : Integral (.bool b)
  | int (n : Int) : Integral (.int n)
  | str (s : String) : Integral (.str s)
  | illegible : Integral .illegible
  | array {js : List Json} : (∀ j ∈ js, Integral j) → Integral (.array js)
  | object {ms : List (String × Json)} : (∀ m ∈ ms, Integral m.2) → Integral (.object ms)

structure Closing (ts : List Token) : Prop where
  separable : Separable ts
  delimits : ∀ t ∈ ts.head?, t.Delimits

namespace Closing

variable {t : Token} {ts : List Token}

lemma nil : Closing [] := ⟨.nil, by simp⟩

lemma cons (ht : t.Delimits) (h : Separable ts) : Closing (t :: ts) := by
  refine ⟨.cons ?_ h, by simpa using ht⟩
  obtain rfl | rfl | rfl := ht <;> trivial

lemma itemTokens {js : List Json}
    (hjs : ∀ j ∈ js, ∀ ts, Closing ts → Separable (j.tokens ++ ts)) (h : Closing ts) :
    Closing (itemTokens js ++ ts) := by
  induction js with
  | nil => exact h
  | cons j js ih =>
    have hrest := ih fun i hi => hjs i (by simp [hi])
    rw [Json.itemTokens, List.append_assoc, List.cons_append]
    exact cons (.inl rfl) (hjs j (by simp) _ hrest)

lemma memberTokens {ms : List (String × Json)}
    (hms : ∀ m ∈ ms, ∀ ts, Closing ts → Separable (m.2.tokens ++ ts)) (h : Closing ts) :
    Closing (memberTokens ms ++ ts) := by
  induction ms with
  | nil => exact h
  | cons m ms ih =>
    obtain ⟨k, j⟩ := m
    have hrest := ih fun i hi => hms i (by simp [hi])
    have hvalue := hms (k, j) (by simp) _ hrest
    simp only [Json.memberTokens, List.cons_append, List.append_assoc]
    exact cons (.inl rfl) (.cons trivial (.cons trivial hvalue))

end Closing

lemma Integral.separable {j : Json} (hj : j.Integral) {ts : List Token} (h : Closing ts) :
    Separable (j.tokens ++ ts) := by
  induction hj generalizing ts with
  | null | bool | str | illegible => exact .cons trivial h.separable
  | int n => exact .int h.delimits h.separable
  | @array js _ ih =>
    have hclose : Closing (.closeArray :: ts) := .cons (.inr (.inl rfl)) h.separable
    cases js with
    | nil => exact .cons trivial hclose.separable
    | cons j js =>
      have hrest : Closing (itemTokens js ++ .closeArray :: ts) :=
        .itemTokens (fun i hi _ => ih i (by simp [hi])) hclose
      simp only [tokens, List.cons_append, List.append_assoc, List.nil_append]
      exact .cons trivial (ih j (by simp) hrest)
  | @object ms _ ih =>
    have hclose : Closing (.closeObject :: ts) := .cons (.inr (.inr rfl)) h.separable
    match ms with
    | [] => exact .cons trivial hclose.separable
    | (k, j) :: ms =>
      have hrest : Closing (memberTokens ms ++ .closeObject :: ts) :=
        .memberTokens (fun i hi _ => ih i (by simp [hi])) hclose
      simp only [tokens, List.cons_append, List.append_assoc, List.nil_append]
      exact .cons trivial (.cons trivial (.cons trivial (ih (k, j) (by simp) hrest)))

lemma Integral.scan_render {j : Json} (hj : j.Integral) : scan j.render.toList = some j.tokens := by
  have hsep : Separable j.tokens := by simpa using hj.separable .nil
  rw [render, String.toList_ofList, scan_flatMap_spell hsep]

/-! ### What the walk makes of the tokens of a value -/

/-- Where the walk stands when it has read `ts` too. -/
def Parse.complete (p : Parse) (ts : List Token) : Option Parse := ts.foldlM Parse.step p

namespace Parse

variable {stack : List Slot}

lemma complete_of_step {p p' : Parse} {t : Token} (h : p.step t = some p') (ts : List Token) :
    p.complete (t :: ts) = p'.complete ts := by
  rw [complete, List.foldlM_cons, h]
  rfl

lemma fill_member (j : Json) (before : List (String × Json)) (k : String) :
    fill j (.member (some before) (some k) :: stack) =
      .afterMember (some ((k, j) :: before)) stack :=
  rfl

/-- The first item of an array is a value like any other. -/
lemma complete_arrayStart (j : Json) (ts : List Token) :
    (arrayStart stack).complete (j.tokens ++ ts) =
      (value (.item [] :: stack)).complete (j.tokens ++ ts) := by
  match j with
  | .null | .bool _ | .int _ | .real _ | .str _ | .illegible | .array [] | .array (_ :: _)
  | .object [] | .object (_ :: _) => rfl

mutual

/-- A value is put into the place that waits for it. -/
theorem complete_tokens : ∀ (j : Json) (stack : List Slot) (ts : List Token),
    (value stack).complete (j.tokens ++ ts) = (fill j stack).complete ts
  | .null, _, _ | .bool _, _, _ | .int _, _, _ | .real _, _, _ | .str _, _, _
  | .illegible, _, _ | .array [], _, _ | .object [], _, _ => rfl
  | .array (j :: js), stack, ts => by
    simp only [tokens, List.cons_append, List.append_assoc, List.nil_append]
    rw [complete_of_step rfl, complete_arrayStart, complete_tokens j, fill,
      complete_itemTokens js, complete_of_step rfl]
    simp
  | .object ((k, j) :: ms), stack, ts => by
    simp only [tokens, List.cons_append, List.append_assoc, List.nil_append]
    rw [complete_of_step rfl, complete_of_step rfl, complete_of_step rfl, complete_tokens j,
      fill_member, complete_memberTokens ms, complete_of_step rfl]
    simp [Members.toJson]

theorem complete_itemTokens :
    ∀ (js before : List Json) (stack : List Slot) (ts : List Token),
      (afterItem before stack).complete (itemTokens js ++ ts) =
        (afterItem (js.reverse ++ before) stack).complete ts
  | [], _, _, _ => rfl
  | j :: js, before, stack, ts => by
    rw [itemTokens, List.append_assoc, List.cons_append, complete_of_step rfl, complete_tokens j,
      fill, complete_itemTokens js]
    simp

theorem complete_memberTokens :
    ∀ (ms before : List (String × Json)) (stack : List Slot) (ts : List Token),
      (afterMember (some before) stack).complete (memberTokens ms ++ ts) =
        (afterMember (some (ms.reverse ++ before)) stack).complete ts
  | [], _, _, _ => rfl
  | (k, j) :: ms, before, stack, ts => by
    simp only [memberTokens, List.append_assoc, List.cons_append]
    rw [complete_of_step rfl, complete_of_step rfl, complete_of_step rfl, complete_tokens j,
      fill_member, complete_memberTokens ms]
    simp

end

end Parse

/-- **The walk undoes the tokens.** -/
theorem ofTokens?_tokens (j : Json) : ofTokens? j.tokens = some j := by
  have h := Parse.complete_tokens j [] []
  rw [List.append_nil] at h
  change j.tokens.foldlM Parse.step (.value []) = some (.done j) at h
  rw [ofTokens?, h]

/-- A value whose numbers are integers is read back from its text. -/
theorem parse?_render {j : Json} (hj : j.Integral) : parse? j.render = some j := by
  rw [parse?, hj.scan_render]
  exact ofTokens?_tokens j

end TypeFlow.Json
