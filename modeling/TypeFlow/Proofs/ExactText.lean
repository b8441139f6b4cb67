import Mathlib.Tactic.FieldSimp
import Mathlib.Tactic.Ring
import TypeFlow.Number
import TypeFlow.Proofs.Rendered

/-!
The text of a number is its value, to the last digit.

A number is written as a decimal fraction without a digit too many. Read as a decimal fraction, the
text gives the number of thousandths over a thousand, also for the numbers between minus one and
zero, whose whole part does not show their sign, and for the least number, whose magnitude is no
number of the machine. So no two numbers have the same text.
-/

namespace TypeFlow

/-! ### Decimal fractions -/

/-- A written decimal fraction, taken apart. -/
structure Decimal where
  negative : Bool
  whole : List Char
  fraction : List Char

namespace Decimal

def chars (d : Decimal) : List Char :=
  (if d.negative then ['-'] else []) ++ d.whole ++
    (if d.fraction = [] then [] else '.' :: d.fraction)

/-- Both parts are digits, at most three of them after the point, and none could be left out: the
whole part starts with zero only if it is zero, and the fraction does not end with zero. -/
structure Canonical (d : Decimal) : Prop where
  whole_ne_nil : d.whole ≠ []
  isDigit_whole : ∀ c ∈ d.whole, c.isDigit = true
  eq_zero_of_head? : d.whole.head? = some '0' → d.whole = ['0']
  isDigit_fraction : ∀ c ∈ d.fraction, c.isDigit = true
  length_fraction_le : d.fraction.length ≤ 3
  getLast?_fraction_ne : d.fraction.getLast? ≠ some '0'

/-! #### Reading -/

/-- The number that digits spell. At least one digit is needed. -/
def natural? (cs : List Char) : Option ℕ :=
  if !cs.isEmpty && cs.all Char.isDigit then some (Nat.ofDigitChars 10 cs 0) else none

/-- The value of digits with at most one point between them. -/
def magnitude? (cs : List Char) : Option ℚ :=
  match cs.splitOn '.' with
  | [whole] => (natural? whole).map fun n => (n : ℚ)
  | [whole, fraction] => do
    let n ← natural? whole
    let k ← natural? fraction
    some ((n : ℚ) + (k : ℚ) / 10 ^ fraction.length)
  | _ => none

/-- The value of a text that is a decimal fraction. -/
def read? (s : String) : Option ℚ :=
  match s.toList with
  | '-' :: cs => (magnitude? cs).map fun q => -q
  | cs => magnitude? cs

/-! #### What is read from a canonical text -/

variable {d : Decimal}

def magnitude (d : Decimal) : ℚ :=
  Nat.ofDigitChars 10 d.whole 0 + Nat.ofDigitChars 10 d.fraction 0 / 10 ^ d.fraction.length

def value (d : Decimal) : ℚ := if d.negative then -d.magnitude else d.magnitude

lemma natural?_eq {cs : List Char} (hne : cs ≠ []) (h : ∀ c ∈ cs, c.isDigit = true) :
    natural? cs = some (Nat.ofDigitChars 10 cs 0) := by
  have hall : cs.all Char.isDigit = true := List.all_eq_true.mpr h
  simp [natural?, hne, hall]

lemma notMem_of_isDigit {cs : List Char} (h : ∀ c ∈ cs, c.isDigit = true) {c : Char}
    (hc : c.isDigit = false) : c ∉ cs := by
  intro hmem
  rw [h c hmem] at hc
  cases hc

/-- The point divides the parts, and stands in neither of them. -/
lemma Canonical.magnitude?_eq (h : d.Canonical) :
    magnitude? (d.whole ++ if d.fraction = [] then [] else '.' :: d.fraction) =
      some d.magnitude := by
  have hwhole : '.' ∉ d.whole := notMem_of_isDigit h.isDigit_whole rfl
  have hfraction : '.' ∉ d.fraction := notMem_of_isDigit h.isDigit_fraction rfl
  have hn := natural?_eq h.whole_ne_nil h.isDigit_whole
  by_cases hnil : d.fraction = []
  · have hsplit : d.whole.splitOn '.' = [d.whole] := List.splitOn_eq_singleton hwhole
    simp [hnil, magnitude?, hsplit, hn, magnitude]
  · have hk := natural?_eq hnil h.isDigit_fraction
    have hsplit : (d.whole ++ '.' :: d.fraction).splitOn '.' = [d.whole, d.fraction] := by
      rw [List.splitOn_append_cons_self_of_not_mem hwhole, List.splitOn_eq_singleton hfraction]
    simp [hnil, magnitude?, hsplit, hn, hk, magnitude]

lemma Canonical.read?_eq (h : d.Canonical) : read? (String.ofList d.chars) = some d.value := by
  obtain ⟨c, cs, hcs⟩ := List.exists_cons_of_ne_nil h.whole_ne_nil
  have hread := h.magnitude?_eq
  rw [read?, String.toList_ofList, chars, value]
  cases hneg : d.negative with
  | true => simp [hread]
  | false =>
    -- a text that starts with a digit has no sign
    have hc : c ≠ '-' := by
      rintro rfl
      exact notMem_of_isDigit h.isDigit_whole (c := '-') rfl (by simp [hcs])
    rw [hcs] at hread ⊢
    simpa [hc] using hread

end Decimal

/-! ### The digits of a number -/

namespace Number

lemma getLast?_toDigits (k : ℕ) :
    (Nat.toDigits 10 k).getLast? = some (Nat.digitChar (k % 10)) := by
  by_cases hk : k < 10
  · rw [Nat.toDigits_of_lt_base hk, Nat.mod_eq_of_lt hk]
    rfl
  · rw [Nat.toDigits_of_base_le (by omega) (by omega), List.getLast?_concat]

lemma isDigit_fractionDigits {digits frac : ℕ} {c : Char} (hc : c ∈ fractionDigits digits frac) :
    c.isDigit = true := by
  fun_induction fractionDigits digits frac with
  | case1 => cases hc
  | case2 digits frac hzero ih => exact ih hc
  | case3 digits frac hlast =>
    rcases List.mem_append.mp hc with hc | hc
    · rw [List.eq_of_mem_replicate hc]
      rfl
    · exact Nat.isDigit_of_mem_toDigits (by omega) (by omega) hc

lemma getLast?_fractionDigits_ne (digits frac : ℕ) :
    (fractionDigits digits frac).getLast? ≠ some '0' := by
  fun_induction fractionDigits digits frac with
  | case1 => simp
  | case2 digits frac hzero ih => exact ih
  | case3 digits frac hlast => simpa [List.leftpad, getLast?_toDigits] using hlast

/-- With no zero to be dropped, all places are written. -/
lemma length_leftpad_toDigits {digits frac : ℕ} (h : frac < 10 ^ (digits + 1)) :
    ((Nat.toDigits 10 frac).leftpad (digits + 1) '0').length = digits + 1 := by
  rw [List.length_leftpad, Nat.max_eq_left]
  exact (Nat.length_toDigits_le_iff (by omega) (by omega)).mpr h

lemma div_ten_lt {digits frac : ℕ} (h : frac < 10 ^ (digits + 1)) : frac / 10 < 10 ^ digits := by
  rw [pow_succ] at h
  omega

lemma length_fractionDigits_le {digits frac : ℕ} (h : frac < 10 ^ digits) :
    (fractionDigits digits frac).length ≤ digits := by
  fun_induction fractionDigits digits frac with
  | case1 => simp
  | case2 digits frac hzero ih => exact (ih (div_ten_lt h)).trans (by omega)
  | case3 digits frac hlast => exact (length_leftpad_toDigits h).le

lemma fractionDigits_eq_nil_iff {digits frac : ℕ} (h : frac < 10 ^ digits) :
    fractionDigits digits frac = [] ↔ frac = 0 := by
  fun_induction fractionDigits digits frac with
  | case1 frac => simpa using h
  | case2 digits frac hzero ih =>
    rw [ih (div_ten_lt h)]
    omega
  | case3 digits frac hlast =>
    have hlength := length_leftpad_toDigits h
    refine iff_of_false (fun hnil => ?_) (by omega)
    rw [hnil] at hlength
    cases hlength

/-- The loop keeps the value of the fraction: a place less makes up for the zero that is gone. -/
lemma ofDigitChars_fractionDigits {digits frac : ℕ} (h : frac < 10 ^ digits) :
    (Nat.ofDigitChars 10 (fractionDigits digits frac) 0 : ℚ) /
      10 ^ (fractionDigits digits frac).length = frac / 10 ^ digits := by
  fun_induction fractionDigits digits frac with
  | case1 frac =>
    obtain rfl : frac = 0 := by simpa using h
    simp
  | case2 digits frac hzero ih =>
    have htenth : (frac : ℚ) = 10 * (frac / 10 : ℕ) := by
      exact_mod_cast (Nat.mul_div_cancel' (Nat.dvd_of_mod_eq_zero hzero)).symm
    rw [ih (div_ten_lt h), htenth, pow_succ]
    field_simp
  | case3 digits frac hlast =>
    rw [length_leftpad_toDigits h, List.leftpad, Nat.ofDigitChars_append,
      Nat.ofDigitChars_replicate_zero, Nat.mul_zero, Nat.ofDigitChars_ten_toDigits]

/-! ### The text of a number -/

variable (n : Number)

def milli : ℕ := n.raw.toInt.natAbs

def decimal : Decimal where
  negative := n.raw < 0
  whole := Nat.toDigits 10 (n.milli / 1000)
  fraction := fractionDigits 3 (n.milli % 1000)

lemma milli_mod_lt : n.milli % 1000 < 10 ^ 3 := Nat.mod_lt _ (by omega)

lemma chars_eq : n.chars = n.decimal.chars := by
  have hnil := fractionDigits_eq_nil_iff n.milli_mod_lt
  simp only [chars, Decimal.chars, decimal, hnil, decide_eq_true_eq]
  rfl

lemma head?_toDigits {k : ℕ} (h : (Nat.toDigits 10 k).head? = some '0') :
    Nat.toDigits 10 k = ['0'] := by
  obtain rfl | hk := Nat.eq_zero_or_pos k
  · exact Nat.toDigits_zero 10
  · obtain ⟨c, cs, hcs, hc⟩ := Json.Scan.exists_toDigits hk
    rw [hcs] at h
    exact absurd (Option.some.inj h) hc

lemma canonical_decimal : n.decimal.Canonical where
  whole_ne_nil := Nat.toDigits_ne_nil
  isDigit_whole _ := Nat.isDigit_of_mem_toDigits (by omega) (by omega)
  eq_zero_of_head? := head?_toDigits
  isDigit_fraction _ := isDigit_fractionDigits
  length_fraction_le := length_fractionDigits_le n.milli_mod_lt
  getLast?_fraction_ne := getLast?_fractionDigits_ne 3 _

lemma magnitude_decimal : n.decimal.magnitude = n.milli / 1000 := by
  have hsplit : (1000 * (n.milli / 1000 : ℕ) + (n.milli % 1000 : ℕ) : ℚ) = n.milli := by
    exact_mod_cast Nat.div_add_mod n.milli 1000
  rw [Decimal.magnitude]
  simp only [decimal]
  rw [Nat.ofDigitChars_ten_toDigits, ofDigitChars_fractionDigits n.milli_mod_lt, ← hsplit]
  field_simp
  ring

lemma value_decimal : n.decimal.value = n.raw.toInt / 1000 := by
  have hneg : n.raw < 0 ↔ n.raw.toInt < 0 := Int64.lt_iff_toInt_lt
  rw [Decimal.value, magnitude_decimal]
  by_cases h : n.raw < 0
  · have hmilli : (n.milli : ℤ) = -n.raw.toInt := Int.ofNat_natAbs_of_nonpos (hneg.mp h).le
    have hcast : (n.milli : ℚ) = -n.raw.toInt := by exact_mod_cast hmilli
    rw [if_pos (by simpa [decimal] using h), hcast]
    ring
  · have hmilli : (n.milli : ℤ) = n.raw.toInt := Int.natAbs_of_nonneg (not_lt.mp (mt hneg.mpr h))
    have hcast : (n.milli : ℚ) = n.raw.toInt := by exact_mod_cast hmilli
    rw [if_neg (by simpa [decimal] using h), hcast]

lemma read?_text : Decimal.read? n.text = some ((n.raw.toInt : ℚ) / 1000) := by
  rw [text, chars_eq, n.canonical_decimal.read?_eq, value_decimal]

lemma eq_of_text_eq {m n : Number} (h : m.text = n.text) : m = n := by
  have hread := n.read?_text
  rw [← h, read?_text, Option.some.injEq, div_left_inj' (by norm_num)] at hread
  have hraw : m.raw = n.raw := Int64.toInt_inj.mp (by exact_mod_cast hread)
  exact congrArg Number.mk hraw

/-- **The text of a number is exact**: a decimal fraction without a digit too many, with a sign
exactly if the number is negative, from which the number of thousandths over a thousand is read
back. So different numbers have different texts. -/
theorem text_exact (n : Number) :
    (∃ d : Decimal, n.text.toList = d.chars ∧ d.Canonical ∧ (d.negative = true ↔ n.raw < 0)) ∧
      Decimal.read? n.text = some ((n.raw.toInt : ℚ) / 1000) ∧
      ∀ m : Number, m.text = n.text ↔ m = n := by
  refine ⟨⟨n.decimal, ?_, n.canonical_decimal, ?_⟩, n.read?_text, fun m => ?_⟩
  · rw [text, String.toList_ofList, chars_eq]
  · simp [decimal]
  · exact ⟨eq_of_text_eq, congrArg text⟩

/-- The least number, a tenth below zero, and a whole number that ends with zeros. -/
theorem text_exact_extremes :
    let least : Number := ⟨Int64.minValue⟩
    let tenth : Number := ⟨-100⟩
    let whole : Number := ⟨5000000⟩
    least.text = "-9223372036854775.808" ∧ tenth.text = "-0.1" ∧ whole.text = "5000" ∧
      Decimal.read? least.text = some (-9223372036854775808 / 1000 : ℚ) ∧
      Decimal.read? tenth.text = some (-100 / 1000 : ℚ) ∧
      Decimal.read? whole.text = some (5000000 / 1000 : ℚ) := by
  intro least tenth whole
  obtain ⟨-, hleast, -⟩ := text_exact least
  obtain ⟨-, htenth, -⟩ := text_exact tenth
  obtain ⟨-, hwhole, -⟩ := text_exact whole
  have hcast : least.raw.toInt = -9223372036854775808 ∧ tenth.raw.toInt = -100 ∧
      whole.raw.toInt = 5000000 := by decide
  obtain ⟨hl, ht, hw⟩ := hcast
  refine ⟨by decide, by decide, by decide, ?_, ?_, ?_⟩
  · rw [hleast, hl]
    norm_num
  · rw [htenth, ht]
    norm_num
  · rw [hwhole, hw]
    norm_num

end Number

end TypeFlow
